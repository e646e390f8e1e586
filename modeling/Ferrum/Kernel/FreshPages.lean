import Ferrum.AddressSpace.Demand
import Ferrum.Kernel.Window

/-!
# Fresh pages

`execve` puts new frames behind the pages of the stack and of the control block, without a look at what
was there before. Each page takes at most four frames, itself and the tables on its way, and what the
process shows elsewhere stays as it was.
-/
namespace Ferrum

open Machine (Local PoolInv Own)

variable {S img Q R : Set Nat} {st st' st'' : Machine Pool} {tab tab' tab'' : Tables} {p : Profile}
  {owner : Owner} {root v : Nat} {space : AddressSpace}

/-- A process has acted for itself, and outside of some pages it shows what it showed before. -/
structure Repaged (S img : Set Nat) (owner : Owner) (root : Nat) (Q : Set Nat) (st : Machine Pool)
    (tab : Tables) (st' : Machine Pool) (tab' : Tables) : Prop where
  step : Local S owner st st'
  own : Owned img st' owner root tab'
  kept : ∀ q, UserPage img q → q ∉ Q → pageAt st'.mem tab' q = pageAt st.mem tab q

namespace Repaged

theorem refl (inv : PoolInv S st) (own : Owned img st owner root tab) :
    Repaged S img owner root Q st tab st tab := ⟨.refl inv, own, fun _ _ _ => rfl⟩

theorem trans (h : Repaged S img owner root Q st tab st' tab')
    (h' : Repaged S img owner root R st' tab' st'' tab'') :
    Repaged S img owner root (Q ∪ R) st tab st'' tab'' := by
  refine ⟨h.step.trans h'.step, h'.own, fun q user off => ?_⟩
  rw [Set.mem_union, not_or] at off
  rw [h'.kept q user off.2, h.kept q user off.1]

theorem mono (h : Repaged S img owner root Q st tab st' tab') (sub : Q ⊆ R) :
    Repaged S img owner root R st tab st' tab' :=
  ⟨h.step, h.own, fun q user off => h.kept q user fun here => off (sub here)⟩

theorem there (h : Repaged S img owner root Q st tab st' tab') {q : Nat} (user : UserPage img q)
    (off : q ∉ Q) (seen : frameAt st.mem tab q ≠ none) : frameAt st'.mem tab' q ≠ none := by
  rwa [frameAt_congr (h.kept q user off)]

end Repaged

theorem missingTables_le {m : Memory} (tree : Tree m root tab) {q : Nat} (lower : LowerPage q) :
    (missingTables tab q).ncard ≤ 3 :=
  tree.tablesMissing_eq lower ▸ tablesMissing_le m root (pagePath q)

/-- A new frame, filled, behind a user page: there is no frame at all, or the page has it, or the tables
took the last one. -/
theorem Owned.fresh (inv : PoolInv S st) (own : Owned img st owner root tab)
    (user : UserPage img (pageOf v)) (fill : Memory → Nat → Memory)
    (outside : ∀ m f x, x ∉ pageBytes f → fill m f x = m x) (p : Profile) :
    (∃ st₁, st.allocPage p owner = .ok (none, st₁) ∧ freeCells st = ∅ ∧
      Repaged S img owner root ∅ st tab st₁ tab) ∨
    ∃ f st₁ r st₂ tab₂, st.allocPage p owner = .ok (some f, st₁) ∧ f < DIRECT_MAP_END ∧
      Machine.map (poolPages p owner) ⟨fill st₁.mem f, st₁.pool⟩ root v f .userData = .ok (r, st₂) ∧
      Repaged S img owner root {pageOf v} st tab st₂ tab₂ ∧
      (r = some () → frameAt st₂.mem tab₂ (pageOf v) ≠ none) ∧
      (r = none → (freeCells st).ncard < 4 * PAGE_SIZE) ∧
      (freeCells st).ncard ≤ (freeCells st₂).ncard + 4 * PAGE_SIZE := by
  obtain ⟨a, st₁, alloc, -, step₁, own₁, same₁, -, result⟩ := own.alloc inv p
  cases a with
  | none =>
    exact Or.inl ⟨st₁, alloc, (inv.allocPage_none alloc).2, step₁, own₁, fun q user _ => same₁ q user⟩
  | some f =>
    obtain ⟨frame, free, spare, holds⟩ := result
    have taken := alloc_freeCells inv step₁ free holds
    obtain ⟨wrote, own₂, views, pages⟩ :=
      own₁.write step₁.inv spare.held spare.notTable (outside st₁.mem f)
    -- filling the frame takes nothing from the free memory, mapping it takes the tables on the way
    have still : freeCells ⟨fill st₁.mem f, st₁.pool⟩ = freeCells st₁ :=
      step₁.inv.freeCells_congr wrote.inv fun _ _ => Iff.rfl
    have spare₂ : Spare img ⟨fill st₁.mem f, st₁.pool⟩ owner tab f :=
      ⟨spare.held, spare.notTable, fun hq => by simpa only [views] using spare.unseen hq⟩
    obtain ⟨r, st₂, tab₂, mapped, grown, own₃, reach, shown⟩ :=
      own₂.map wrote.inv p user spare₂ .userData
    have few := missingTables_le own₂.tree user.lower
    have count := grown.freeCells_ncard wrote.inv own₂.toRooted
    rw [still] at count
    have gained : (gainedTables tab tab₂).ncard ≤ 3 :=
      le_trans (Set.ncard_le_ncard reach.gained (finite_missingTables tab _)) few
    refine Or.inr ⟨f, st₁, r, st₂, tab₂, alloc, frame.window, mapped,
      ⟨step₁.trans (wrote.trans grown.step), own₃, fun q hq off => ?_⟩, fun done => ?_, fun failed => ?_, ?_⟩
    · rw [shown q hq, if_neg fun here => off here.2, pages q (fun seen => ?_) hq, same₁ q hq]
      obtain ⟨flags, seen⟩ := frameAt_eq_some.mp seen
      exact spare.unseen hq seen
    · have now := shown _ user
      rw [done, if_pos ⟨rfl, rfl⟩] at now
      obtain ⟨seen, -⟩ := pageAt_eq_some.mp now
      rw [frameAt_eq_some.mpr ⟨_, seen⟩]
      exact Option.some_ne_none _
    · rw [failed] at reach
      have short := mt (reach.done_iff grown wrote.inv own₂.toRooted (by simp)).mpr (by simp)
      rw [still] at short
      simp only [PAGE_SIZE] at taken short ⊢
      omega
    · simp only [PAGE_SIZE] at taken count ⊢
      omega

theorem Owned.mapFresh_cases (inv : PoolInv S st) (own : Owned img st space.owner space.pml4 tab)
    (user : UserPage img (pageOf v)) (noFrame noMap : String) (p : Profile) :
    (∃ st' tab', mapFresh p space noFrame noMap st v = .ok st' ∧
      Repaged S img space.owner space.pml4 {pageOf v} st tab st' tab' ∧
      frameAt st'.mem tab' (pageOf v) ≠ none ∧
      (freeCells st).ncard ≤ (freeCells st').ncard + 4 * PAGE_SIZE) ∨
    (∃ e, mapFresh p space noFrame noMap st v = .error e) ∧ (freeCells st).ncard < 4 * PAGE_SIZE := by
  rcases own.fresh inv user (fun m _ => m) (fun _ _ _ _ => rfl) p with
    ⟨st₁, alloc, empty, -⟩ | ⟨f, st₁, r, st₂, tab₂, alloc, -, mapped, repaged, there, failed, free⟩
  · refine Or.inr ⟨⟨.expect noFrame, by rw [mapFresh, alloc]; rfl⟩, ?_⟩
    rw [empty, Set.ncard_empty]
    decide
  · cases r with
    | none =>
      refine Or.inr ⟨⟨.expect noMap, ?_⟩, failed rfl⟩
      simp only [mapFresh, alloc, ok_bind, AddressSpace.pages, mapped]
    | some =>
      refine Or.inl ⟨st₂, tab₂, ?_, repaged, there rfl, free⟩
      simp only [mapFresh, alloc, ok_bind, AddressSpace.pages, mapped]
      rfl

/-- The pages at some places of the stack. -/
def stackPages (indices : List Nat) : Set Nat := {q | ∃ i ∈ indices, pageOf (USTACK_BASE + i * 0x1000) = q}

/-- The loop that maps the stack goes through if there are four free frames for each page. -/
theorem Owned.mapStack_cases {indices : List Nat} (inv : PoolInv S st)
    (own : Owned img st space.owner space.pml4 tab)
    (user : ∀ q ∈ stackPages indices, UserPage img q) (noFrame noMap : String) (p : Profile) :
    (∃ st' tab', indices.foldlM (fun st i =>
        mapFresh p space noFrame noMap st (USTACK_BASE + i * 0x1000)) st = .ok st' ∧
      Repaged S img space.owner space.pml4 (stackPages indices) st tab st' tab' ∧
      (∀ q ∈ stackPages indices, frameAt st'.mem tab' q ≠ none) ∧
      (freeCells st).ncard ≤ (freeCells st').ncard + indices.length * (4 * PAGE_SIZE)) ∨
    (∃ e, indices.foldlM (fun st i =>
        mapFresh p space noFrame noMap st (USTACK_BASE + i * 0x1000)) st = .error e) ∧
      (freeCells st).ncard < indices.length * (4 * PAGE_SIZE) := by
  induction indices generalizing st tab with
  | nil => exact Or.inl ⟨st, tab, rfl, .refl inv own, by simp [stackPages], by simp⟩
  | cons i indices ih =>
    have cons : stackPages (i :: indices) = {pageOf (USTACK_BASE + i * 0x1000)} ∪ stackPages indices := by
      ext q
      simp [stackPages, eq_comm]
    rw [cons] at user ⊢
    have here : UserPage img (pageOf (USTACK_BASE + i * 0x1000)) := user _ (Or.inl rfl)
    simp only [List.foldlM_cons, List.length_cons, Nat.add_mul, Nat.one_mul]
    rcases own.mapFresh_cases inv here noFrame noMap p with
      ⟨st₁, tab₁, run, repaged, there, free⟩ | ⟨⟨e, run⟩, short⟩
    · simp only [run, ok_bind]
      rcases ih repaged.step.inv repaged.own fun q hq => user q (Or.inr hq) with
        ⟨st₂, tab₂, rest, repaged', all, free'⟩ | ⟨⟨e, rest⟩, short⟩
      · refine Or.inl ⟨st₂, tab₂, rest, repaged.trans repaged', fun q hq => ?_, by omega⟩
        -- a page that comes again gets a new frame, any other keeps the one of this step
        by_cases later : q ∈ stackPages indices
        · exact all q later
        · obtain rfl := hq.resolve_right later
          exact repaged'.there here later there
      · exact Or.inr ⟨⟨e, rest⟩, by omega⟩
    · exact Or.inr ⟨⟨e, by rw [run]; rfl⟩, by omega⟩

theorem writeTcb_outside {m : Memory} {f x : Nat} (canary : Nat) (hx : x ∉ pageBytes f) :
    writeTcb m f canary x = m x := by
  simp only [pageBytes, Set.mem_Ico, PAGE_SIZE] at hx
  unfold writeTcb
  simp only [FS_BASE, TCB_PAGE, PAGE_SIZE]
  rw [Memory.write64_outside, Memory.write64_outside, Memory.write64_outside,
    Memory.fill_outside] <;> omega

/-- The provisional thread control block: without a frame there is none, and with four free frames
nothing can fail. -/
theorem Owned.mapTcb_cases (image : Image) (inv : PoolInv S st)
    (own : Owned img st image.space.owner image.space.pml4 tab) (user : UserPage img (pageOf TCB_PAGE))
    (canary : Nat) (p : Profile) :
    (∃ image' st' tab', mapTcb p image canary st = .ok (image', st') ∧
      image'.space.pml4 = image.space.pml4 ∧
      Repaged S img image.space.owner image.space.pml4 {pageOf TCB_PAGE} st tab st' tab') ∨
    (∃ e, mapTcb p image canary st = .error e) ∧ (freeCells st).ncard < 4 * PAGE_SIZE := by
  rcases own.fresh inv user (fun m f => writeTcb m f canary)
    (fun m f x hx => writeTcb_outside canary hx) p with
    ⟨st₁, alloc, -, repaged⟩ | ⟨f, st₁, r, st₂, tab₂, alloc, direct, mapped, repaged, -, failed, -⟩
  · exact Or.inl ⟨image, st₁, tab, by rw [mapTcb, alloc]; rfl, rfl, repaged.mono (Set.empty_subset _)⟩
  · cases r with
    | none =>
      refine Or.inr ⟨⟨.expect "tcb map", ?_⟩, failed rfl⟩
      simp only [mapTcb, alloc, ok_bind, physToVirt_ok direct, AddressSpace.pages, mapped]
    | some =>
      refine Or.inl ⟨{ image with
        space := addVmaOk image.space ⟨TCB_PAGE, TCB_PAGE + 0x1000, .rw, .anonymous⟩,
        fsBase := FS_BASE }, st₂, tab₂, ?_, ?_, repaged⟩
      · simp only [mapTcb, alloc, ok_bind, physToVirt_ok direct, AddressSpace.pages, mapped]
        rfl
      · simp only [addVmaOk]
        split <;> rfl

/-! ## Stores to a window -/

theorem frames_of_there {m : Memory} {lo hi : Nat}
    (there : ∀ q ∈ Set.Ico lo hi, frameAt m tab q ≠ none) (q : Nat) (low : lo ≤ q) (high : q < hi) :
    frameAt m tab q = some ((frameAt m tab q).getD 0) := by
  obtain ⟨f, seen⟩ := Option.ne_none_iff_exists'.mp (there q ⟨low, high⟩)
  rw [seen, Option.getD_some]

theorem Repaged.seen_kept {lo hi : Nat} {frame : Nat → Nat}
    (repaged : Repaged S img owner root Q st tab st' tab')
    (user : ∀ q, lo ≤ q → q < hi → UserPage img q) (off : ∀ q, lo ≤ q → q < hi → q ∉ Q)
    (there : ∀ q, lo ≤ q → q < hi → frameAt st.mem tab q = some (frame q)) :
    (∀ q, lo ≤ q → q < hi → frameAt st'.mem tab' q = some (frame q)) ∧
      seen lo hi frame st'.mem = seen lo hi frame st.mem := by
  have same (q : Nat) (low : lo ≤ q) (high : q < hi) : ∃ flags,
      view st'.mem tab' q = some (frame q, flags) ∧ bytesAt st'.mem (frame q) = bytesAt st.mem (frame q) := by
    obtain ⟨flags, before⟩ := frameAt_eq_some.mp (there q low high)
    have shown : pageAt st.mem tab q = some ⟨frame q, flags, bytesAt st.mem (frame q)⟩ :=
      pageAt_eq_some.mpr ⟨before, rfl⟩
    rw [← repaged.kept q (user q low high) (off q low high)] at shown
    obtain ⟨after, bytes⟩ := pageAt_eq_some.mp shown
    exact ⟨flags, after, bytes.symm⟩
  refine ⟨fun q low high => ?_, funext fun v => ?_⟩
  · obtain ⟨flags, after, -⟩ := same q low high
    exact frameAt_eq_some.mpr ⟨flags, after⟩
  · simp only [seen]
    split
    · rename_i inside
      simp only [PAGE_SIZE] at inside
      obtain ⟨-, -, bytes⟩ := same (v / PAGE_SIZE) (by simp only [PAGE_SIZE]; omega)
        (by simp only [PAGE_SIZE]; omega)
      have byte := congrFun bytes (v % PAGE_SIZE)
      simpa only [bytesAt, if_pos (Nat.mod_lt v Buddy.page_pos)] using byte
    · rfl

theorem Owned.shown {lo hi : Nat} {frame : Nat → Nat} {vm m' : Memory} (inv : PoolInv S st)
    (own : Owned img st owner root tab) (user : ∀ q, lo ≤ q → q < hi → UserPage img q)
    (there : ∀ q, lo ≤ q → q < hi → frameAt st.mem tab q = some (frame q))
    (shows_ : Shows st.mem lo hi frame vm m') :
    Repaged S img owner root (Set.Ico lo hi) st tab ⟨m', st.pool⟩ tab ∧
      ∀ q, frameAt m' tab q = frameAt st.mem tab q := by
  have off {g : Nat} (held : st.holds owner ⟨g, 0⟩) (ne : ∀ q, lo ≤ q → q < hi → g ≠ frame q) :
      Set.EqOn m' st.mem (pageBytes g) :=
    fun x inside => shows_.outside x (own.off_window inv user there held ne inside)
  have tables : ∀ π t, tab π = some t → Set.EqOn m' st.mem (pageBytes t) := fun π t table =>
    off (own.tables table) fun q low high same => by
      obtain ⟨flags, seen⟩ := frameAt_eq_some.mp (there q low high)
      exact (own.pages (user q low high) seen).2 π (same ▸ table)
  have views := Tree.view_congr tables
  refine ⟨⟨.write inv fun x foreign => shows_.outside x fun q low high => ?_,
    ⟨⟨own.tree.congr tables, own.tables⟩, ?_, ?_, ?_⟩, fun q hq outside => ?_⟩,
    fun q => by rw [frameAt, views, frameAt]⟩
  · obtain ⟨flags, seen⟩ := frameAt_eq_some.mp (there q low high)
    by_contra inside
    refine foreign ((own.pages (user q low high) seen).1.page_own ?_)
    simp only [pageBytes, Set.mem_Ico]
    omega
  · exact fun user seen => own.pages user (views _ ▸ seen)
  · exact fun hq hr seen seen' => own.inj hq hr (views _ ▸ seen) (views _ ▸ seen')
  · exact fun lower inside seen => own.image lower inside (views _ ▸ seen)
  · refine pageAt_congr (views q) fun g flags seen => off (own.pages hq seen).1 ?_
    -- no two user pages share a frame
    rintro r low high rfl
    obtain ⟨flags', seen'⟩ := frameAt_eq_some.mp (there r low high)
    obtain rfl := own.inj hq (user r low high) seen seen'
    exact outside ⟨low, high⟩

end Ferrum
