import Ferrum.AddressSpace.Demand

/-!
# Touching many pages

Each page that is touched for the first time takes one place in the page-owner table for good, and at
most four frames. The table has a fixed number of places, and the fault that does not get one panics,
however much memory is free.
-/
namespace Ferrum

open Machine (Local PoolInv Own)

variable {S img : Set Nat} {st st' : Machine Pool} {tab tab' : Tables} {p : Profile}
  {space : AddressSpace} {addrs : List Nat} {a : Nat}

/-- The pages of some addresses that have no frame yet. -/
def untouched (m : Memory) (tab : Tables) (addrs : List Nat) : Set Nat :=
  {q | q ∈ addrs.map pageOf ∧ frameAt m tab q = none}

theorem finite_untouched (m : Memory) (tab : Tables) (addrs : List Nat) :
    (untouched m tab addrs).Finite :=
  (List.finite_toSet (addrs.map pageOf)).subset fun _ here => here.1

theorem untouched_cons_there {m : Memory} (there : frameAt m tab (pageOf a) ≠ none) :
    untouched m tab (a :: addrs) = untouched m tab addrs := by
  ext q
  simp only [untouched, List.map_cons, List.mem_cons, Set.mem_ofPred_eq]
  constructor
  · rintro ⟨rfl | inside, absent⟩
    · exact absurd absent there
    · exact ⟨inside, absent⟩
  · rintro ⟨inside, absent⟩
    exact ⟨Or.inr inside, absent⟩

theorem untouched_cons_absent {m m' : Memory} (absent : frameAt m tab (pageOf a) = none)
    (now : frameAt m' tab' (pageOf a) ≠ none)
    (same : ∀ q ∈ addrs.map pageOf, q ≠ pageOf a → frameAt m' tab' q = frameAt m tab q) :
    (untouched m tab (a :: addrs)).ncard = (untouched m' tab' addrs).ncard + 1 := by
  have split : untouched m tab (a :: addrs) = insert (pageOf a) (untouched m' tab' addrs) := by
    ext q
    simp only [untouched, List.map_cons, List.mem_cons, Set.mem_ofPred_eq, Set.mem_insert_iff]
    constructor
    · rintro ⟨inside, none⟩
      by_cases here : q = pageOf a
      · exact Or.inl here
      · exact Or.inr ⟨inside.resolve_left here, by rw [same q (inside.resolve_left here) here, none]⟩
    · rintro (rfl | ⟨inside, none⟩)
      · exact ⟨Or.inl rfl, absent⟩
      · have other : q ≠ pageOf a := by
          rintro rfl
          exact now none
        exact ⟨Or.inr inside, by rw [← same q inside other, none]⟩
  rw [split, Set.ncard_insert_of_notMem (fun here => now here.2) (finite_untouched _ _ _)]

/-- With a place in the table and four frames, a page that has no frame gets one. -/
theorem Owned.fault_ok {vma : VMA} (inv : PoolInv S st) (own : Owned img st space.owner space.pml4 tab)
    (wf : Vmas.Wf space.vmas) (user : UserAreas img space.vmas)
    (area : Vmas.findVma space.vmas a = some vma) (absent : frameAt st.mem tab (pageOf a) = none)
    (entries : st.pool.owners.length < RESERVE_CAPACITY)
    (free : 4 * PAGE_SIZE ≤ (freeCells st).ncard) (p : Profile) :
    ∃ f st' tab', space.handlePageFault p st a = .ok (.ok (), st') ∧
      Faulted S img space a vma f true st tab st' tab' := by
  have bound := tablesMissing_le st.mem space.pml4 (pagePath (pageOf a))
  have short : (pagePath (pageOf a)).length = 3 := rfl
  rcases own.fault_absent inv wf user area absent p with
    ⟨none, -⟩ | ⟨-, full, -⟩ | ⟨-, -, f, done, st', tab', run, faulted, exact⟩
  · rw [none, Set.ncard_empty] at free
    simp only [PAGE_SIZE] at free
    omega
  · omega
  · obtain rfl : done = true := exact.mpr (le_trans (Nat.mul_le_mul_right _ (by omega)) free)
    exact ⟨f, st', tab', run, faulted⟩

/-- What touching pages leaves: the pages that were there are as before, and all others are there. -/
structure Touched (S img : Set Nat) (space : AddressSpace) (addrs : List Nat) (st : Machine Pool)
    (tab : Tables) (st' : Machine Pool) (tab' : Tables) : Prop where
  step : Local S space.owner st st'
  own : Owned img st' space.owner space.pml4 tab'
  entries : st'.pool.owners.length = st.pool.owners.length + (untouched st.mem tab addrs).ncard
  free : (freeCells st).ncard ≤
    (freeCells st').ncard + (untouched st.mem tab addrs).ncard * (4 * PAGE_SIZE)
  there : ∀ q ∈ addrs.map pageOf, frameAt st'.mem tab' q ≠ none
  same : ∀ q, UserPage img q → q ∉ untouched st.mem tab addrs →
    pageAt st'.mem tab' q = pageAt st.mem tab q

/-- With a place in the table and four frames for each page that has no frame yet, touching pages of
areas goes through. -/
theorem Owned.touch (inv : PoolInv S st) (own : Owned img st space.owner space.pml4 tab)
    (wf : Vmas.Wf space.vmas) (user : UserAreas img space.vmas)
    (areas : ∀ a ∈ addrs, ∃ vma, Vmas.findVma space.vmas a = some vma)
    (entries : st.pool.owners.length + (untouched st.mem tab addrs).ncard ≤ RESERVE_CAPACITY)
    (frames : (untouched st.mem tab addrs).ncard * (4 * PAGE_SIZE) ≤ (freeCells st).ncard)
    (p : Profile) : ∃ st' tab',
      handleFaults p (addrs.map fun a => (space, a)) st = .ok (addrs.map fun _ => .ok (), st') ∧
      Touched S img space addrs st tab st' tab' := by
  induction addrs generalizing st tab with
  | nil =>
    have nothing : untouched st.mem tab [] = ∅ := Set.eq_empty_of_forall_notMem fun q here =>
      absurd here.1 (by simp)
    exact ⟨st, tab, rfl, .refl inv, own, by simp [nothing], by simp [nothing], by simp, fun _ _ _ => rfl⟩
  | cons a addrs ih =>
    obtain ⟨vma, area⟩ := areas a List.mem_cons_self
    have later : ∀ a ∈ addrs, ∃ vma, Vmas.findVma space.vmas a = some vma :=
      fun b hb => areas b (List.mem_cons_of_mem _ hb)
    obtain ⟨-, page, -, -⟩ := user.page_of_area wf area
    cases there : frameAt st.mem tab (pageOf a) with
    | some f =>
      have old : frameAt st.mem tab (pageOf a) ≠ none := by simp [there]
      rw [untouched_cons_there old] at entries frames
      obtain ⟨st', tab', run, touched⟩ := ih inv own later entries frames
      refine ⟨st', tab', ?_, touched.step, touched.own, ?_, ?_, fun q hq => ?_, fun q hq new => ?_⟩
      · rw [List.map_cons, handleFaults_cons p _ (own.fault_there wf user area there p), run]
        rfl
      · rw [untouched_cons_there old]
        exact touched.entries
      · rw [untouched_cons_there old]
        exact touched.free
      · rcases List.mem_cons.mp hq with rfl | inside
        · rw [frameAt_congr (touched.same _ page fun new => old new.2)]
          exact old
        · exact touched.there q inside
      · exact touched.same q hq (untouched_cons_there old ▸ new)
    | none =>
      have some : 0 < (untouched st.mem tab (a :: addrs)).ncard :=
        (Set.ncard_pos (finite_untouched _ _ _)).mpr ⟨pageOf a, by simp, there⟩
      obtain ⟨f, st₁, tab₁, run₁, faulted⟩ := own.fault_ok inv wf user area there (by omega)
        (le_trans (Nat.le_mul_of_pos_left _ some) frames) p
      have shown := faulted.pages _ page
      rw [if_pos ⟨rfl, rfl⟩] at shown
      have now : frameAt st₁.mem tab₁ (pageOf a) ≠ none := by
        rw [frameAt_eq_some.mpr ⟨_, (pageAt_eq_some.mp shown).1⟩]
        exact Option.some_ne_none _
      have others {q} (hq : UserPage img q) (other : q ≠ pageOf a) :
          pageAt st₁.mem tab₁ q = pageAt st.mem tab q := by
        rw [faulted.pages q hq, if_neg fun here => other here.2]
      have rest : ∀ q ∈ addrs.map pageOf, UserPage img q := by
        intro q hq
        obtain ⟨b, hb, rfl⟩ := List.mem_map.mp hq
        obtain ⟨vma, area⟩ := later b hb
        exact (user.page_of_area wf area).2.1
      have count := untouched_cons_absent there now fun q hq other => frameAt_congr (others (rest q hq) other)
      have entered := faulted.owners
      have lost := faulted.free
      obtain ⟨st', tab', run, touched⟩ := ih faulted.step.inv faulted.own later (by omega)
        (by rw [count, Nat.add_mul, Nat.one_mul] at frames; omega)
      have unseen : pageOf a ∉ untouched st₁.mem tab₁ addrs := fun new => now new.2
      refine ⟨st', tab', ?_, faulted.step.trans touched.step, touched.own, ?_, ?_, fun q hq => ?_,
        fun q hq new => ?_⟩
      · rw [List.map_cons, handleFaults_cons p _ run₁, run]
        rfl
      · rw [touched.entries, entered, count]
        omega
      · have := touched.free
        rw [count, Nat.add_mul, Nat.one_mul]
        omega
      · rcases List.mem_cons.mp hq with rfl | inside
        · rw [frameAt_congr (touched.same _ page unseen)]
          exact now
        · exact touched.there q inside
      · have other : q ≠ pageOf a := by
          rintro rfl
          exact new ⟨by simp, there⟩
        rw [touched.same q hq fun new' => ?_, others hq other]
        refine new ⟨List.mem_cons_of_mem _ new'.1, ?_⟩
        rw [← frameAt_congr (others hq other)]
        exact new'.2

/-- Once every place in the table is taken, the next page panics although memory is free. -/
theorem Owned.touch_panics (inv : PoolInv S st) (own : Owned img st space.owner space.pml4 tab)
    (wf : Vmas.Wf space.vmas) (user : UserAreas img space.vmas)
    (areas : ∀ b ∈ addrs ++ [a], ∃ vma, Vmas.findVma space.vmas b = some vma)
    (next : pageOf a ∉ addrs.map pageOf) (absent : frameAt st.mem tab (pageOf a) = none)
    (full : st.pool.owners.length + (untouched st.mem tab addrs).ncard = RESERVE_CAPACITY)
    (frames : (untouched st.mem tab addrs).ncard * (4 * PAGE_SIZE) < (freeCells st).ncard)
    (p : Profile) : handleFaults p ((addrs ++ [a]).map fun b => (space, b)) st =
      .error (.ownersFull RESERVE_CAPACITY) := by
  obtain ⟨st₁, tab₁, run, touched⟩ := own.touch inv wf user
    (fun b hb => areas b (List.mem_append_left _ hb)) (Nat.le_of_eq full) (Nat.le_of_lt frames) p
  obtain ⟨vma, area⟩ := areas a (by simp)
  obtain ⟨-, page, -, -⟩ := user.page_of_area wf area
  have still : frameAt st₁.mem tab₁ (pageOf a) = none := by
    rw [frameAt_congr (touched.same _ page fun new => next new.1), absent]
  rw [List.map_append, List.map_singleton, handleFaults_snoc p run]
  rcases touched.own.fault_absent touched.step.inv wf user area still p with
    ⟨none, -⟩ | ⟨-, -, panics⟩ | ⟨-, room, -⟩
  · have left := touched.free
    rw [none, Set.ncard_empty] at left
    omega
  · rw [panics]
    rfl
  · have entries := touched.entries
    omega

/-! ## A process with many pages -/

/-- With a frame to take and a place in the table, `new_user` makes an address space. -/
theorem newUser_ok {owner : Owner} {kernelPml4 pid : Nat} (inv : PoolInv S st)
    (free : freeCells st ≠ ∅) (entries : st.pool.owners.length < RESERVE_CAPACITY)
    (window : kernelPml4 < DIRECT_MAP_END) (p : Profile) :
    ∃ root st', st.newUser (poolPages p owner) kernelPml4 pid = .ok (some root, st') := by
  obtain ⟨r, st₁, alloc, -, -, owners, -⟩ := Machine.allocPage_spec inv p owner
  cases r with
  | none => exact absurd (inv.allocPage_none alloc).2 free
  | some root =>
    have room : ¬ RESERVE_CAPACITY ≤ st₁.pool.owners.length := owners ▸ Nat.not_le.mpr entries
    simp only [Machine.newUser, poolPages, alloc, ok_bind, Pool.track, if_neg room,
      physToVirt_ok window]
    exact ⟨root, _, rfl⟩

/-- An area of as many pages as the page-owner table has places. -/
def crowded (root : Nat) : AddressSpace := ⟨root, [⟨0x40000000, 0x42000000, .rw, .anonymous⟩], 1, 0⟩

def crowdedAddr (i : Nat) : Nat := 0x40000000 + i * PAGE_SIZE

/-- A memory of 136 MiB and a new address space. -/
def crowdedStart : Except Stop (Option Nat × Machine Pool) := do
  let b ← Buddy.addRegion .release ⟨fun _ => 0, .new⟩ 0x1000000 0x8800000
  Machine.newUser (poolPages .release (.space 0)) ⟨b.mem, ⟨b.pool, [], []⟩⟩ 0x1000 1

theorem crowded_wf (root : Nat) : Vmas.Wf (crowded root).vmas :=
  ⟨by simpa [crowded] using ⟨by decide, by decide, by decide, by decide⟩, by simp [crowded]⟩

theorem crowded_user (root : Nat) : UserAreas ∅ (crowded root).vmas := by
  intro v hv
  obtain rfl := List.mem_singleton.mp hv
  exact ⟨by decide, by decide, by decide, by decide, fun q _ => Set.notMem_empty q⟩

theorem crowded_area (root : Nat) {i : Nat} (hi : i < RESERVE_CAPACITY) :
    Vmas.findVma (crowded root).vmas (crowdedAddr i) =
      some ⟨0x40000000, 0x42000000, .rw, .anonymous⟩ := by
  refine (Vmas.findVma_eq_some (crowded_wf root)).mpr ⟨List.mem_singleton_self _, ?_, ?_⟩
  all_goals
    simp only [crowdedAddr, PAGE_SIZE, RESERVE_CAPACITY] at *
    omega

theorem pageOf_crowdedAddr {i : Nat} (hi : i < RESERVE_CAPACITY) :
    pageOf (crowdedAddr i) = 0x40000 + i := by
  simp only [RESERVE_CAPACITY] at hi
  have low : crowdedAddr i < 2 ^ 47 := by
    simp only [crowdedAddr, PAGE_SIZE]
    omega
  rw [pageOf_eq low]
  simp only [crowdedAddr, PAGE_SIZE]
  omega

theorem crowdedStart_owned : ∃ root st, crowdedStart = .ok (some root, st) ∧ ∃ S tab, PoolInv S st ∧
    Owned ∅ st (crowded root).owner (crowded root).pml4 tab ∧ st.pool.owners.length = 1 ∧
    (freeCells st).ncard + PAGE_SIZE = 0x8800000 ∧ ∀ q, frameAt st.mem tab q = none := by
  have apart : Disjoint (wholePages 0x1000000 0x8800000) ∅ := by simp
  obtain ⟨b, region⟩ := Buddy.addRegion_ok .release (Buddy.inv_new fun _ => 0) apart (by decide)
    (by decide)
  obtain ⟨free, buddy, -⟩ := Buddy.addRegion_spec (Buddy.inv_new fun _ => 0) apart (by decide)
    (by decide) region
  have inv : PoolInv _ ⟨b.mem, ⟨b.pool, [], []⟩⟩ := ⟨⟨free, buddy⟩, trivial⟩
  have nobody : ∀ o c, ¬ Machine.holds ⟨b.mem, ⟨b.pool, [], []⟩⟩ o c := by
    simp [Machine.holds, outstanding]
  have all : freeCells ⟨b.mem, ⟨b.pool, [], []⟩⟩ = Set.Ico 0x1000000 0x9800000 := by
    have unheld : heldCells ⟨b.mem, ⟨b.pool, [], []⟩⟩ = ∅ := by
      refine Set.eq_empty_of_forall_notMem ?_
      rintro x ⟨o, c, held, -⟩
      exact nobody o c held
    rw [inv.freeCells_eq, unheld, Set.sdiff_empty, Set.union_empty, Buddy.wholePages_eq]
    rfl
  have someFree : freeCells ⟨b.mem, ⟨b.pool, [], []⟩⟩ ≠ ∅ := by
    rw [all]
    exact (Set.nonempty_Ico.mpr (by decide)).ne_empty
  obtain ⟨root, st, new⟩ : ∃ root st, Machine.newUser (poolPages .release (.space 0))
      ⟨b.mem, ⟨b.pool, [], []⟩⟩ 0x1000 1 = .ok (some root, st) :=
    newUser_ok inv someFree (show 0 < RESERVE_CAPACITY by decide) (by decide) .release
  obtain ⟨step, made⟩ := newUser_owned ∅ inv (nobody _) new
  obtain ⟨own, exact, empty⟩ := made root rfl
  refine ⟨root, st, ?_, _, _, step.inv, own, (Machine.newUser_owners new).1, ?_, fun q => ?_⟩
  · rw [crowdedStart, region, ok_bind]
    exact new
  · have lost := step.freeCells_ncard inv (nobody _) fun c held => (exact held).1
    have one : framesOf st (.space 0) = {root} := by
      ext f
      constructor
      · intro held
        rcases (exact held).2 with ⟨π, table⟩ | ⟨q, -, seen⟩
        · exact (Space.newTables_eq_some.mp table).2
        · rw [frameAt, empty q] at seen
          cases seen
      · rintro rfl
        exact own.tables own.tree.root
    rw [one, Set.ncard_singleton, Nat.one_mul, all] at lost
    rw [← lost]
    simp [Set.ncard_eq_toFinset_card']
  · rw [frameAt, empty q]
    rfl

theorem untouched_crowded {m : Memory} (empty : ∀ q, frameAt m tab q = none) {n : Nat}
    (hn : n ≤ RESERVE_CAPACITY) :
    (untouched m tab ((List.range n).map crowdedAddr)).ncard = n := by
  have image : untouched m tab ((List.range n).map crowdedAddr) = Set.Ico 0x40000 (0x40000 + n) := by
    ext q
    simp only [untouched, empty, and_true, List.map_map, List.mem_map, List.mem_range,
      Set.mem_ofPred_eq, Set.mem_Ico, Function.comp_apply]
    constructor
    · rintro ⟨i, hi, rfl⟩
      rw [pageOf_crowdedAddr (by omega)]
      omega
    · rintro ⟨low, high⟩
      exact ⟨q - 0x40000, by omega, by rw [pageOf_crowdedAddr (by omega)]; omega⟩
  rw [image]
  simp [Set.ncard_eq_toFinset_card']

/-- Touching 8192 pages one after the other panics at the last: the table had a place less, for the
table of the address space itself. -/
theorem crowded_panics {root : Nat} {S : Set Nat} (inv : PoolInv S st)
    (own : Owned ∅ st (crowded root).owner (crowded root).pml4 tab)
    (entries : st.pool.owners.length = 1) (free : (freeCells st).ncard + PAGE_SIZE = 0x8800000)
    (empty : ∀ q, frameAt st.mem tab q = none) (p : Profile) :
    handleFaults p ((List.range RESERVE_CAPACITY).map fun i => (crowded root, crowdedAddr i)) st =
      .error (.ownersFull RESERVE_CAPACITY) := by
  have count := untouched_crowded empty (show 8191 ≤ RESERVE_CAPACITY by decide)
  have split : (List.range RESERVE_CAPACITY).map (fun i => (crowded root, crowdedAddr i)) =
      ((List.range 8191).map crowdedAddr ++ [crowdedAddr 8191]).map fun b => (crowded root, b) := by
    rw [show RESERVE_CAPACITY = 8191 + 1 from rfl, List.range_succ]
    simp
  rw [split]
  refine own.touch_panics inv (crowded_wf root) (crowded_user root) ?_ ?_ (empty _) ?_ ?_ p
  · intro b hb
    rw [← List.map_singleton, ← List.map_append, ← List.range_succ] at hb
    obtain ⟨i, hi, rfl⟩ := List.mem_map.mp hb
    exact ⟨_, crowded_area root (List.mem_range.mp hi)⟩
  · intro again
    obtain ⟨b, hb, same⟩ := List.mem_map.mp again
    obtain ⟨i, hi, rfl⟩ := List.mem_map.mp hb
    have less := List.mem_range.mp hi
    rw [pageOf_crowdedAddr (by simp only [RESERVE_CAPACITY]; omega), pageOf_crowdedAddr (by decide)] at same
    omega
  · rw [count, entries]
    rfl
  · rw [count]
    simp only [PAGE_SIZE] at *
    omega

/-- A memory of two frames: the top-level table takes one, and a fault takes the other before it finds
that there is none left for the tables. The answer, and what is still out after `destroy`. -/
def leakRun : Except Stop (Except String Unit × List (Owner × Block)) := do
  let b ← Buddy.addRegion .dev ⟨fun _ => 0, .new⟩ 0x100000 0x2000
  let (root, st) ← Machine.newUser (poolPages .dev (.space 0)) ⟨b.mem, ⟨b.pool, [], []⟩⟩ 0x1000 1
  let space := { residentSpace with pml4 := root.getD 0 }
  let (r, st) ← space.handlePageFault .dev st 0x400123
  let st ← space.destroy .dev st
  return (r, outstanding st.pool.log)

/-! ## Panics and leaks -/

variable {spaces : Set AddressSpace} {faults : List (AddressSpace × Nat)}

/-- A sequence of faults never panics and never leaves a frame behind that `destroy` does not find,
exactly if each fault is affordable when its turn comes. -/
theorem faults_degrade_iff (sharing : Sharing S img spaces st)
    (within : ∀ e ∈ faults, e.1 ∈ spaces ∧ ∃ vma, Vmas.findVma e.1.vmas e.2 = some vma) (p : Profile) :
    (∀ l, l <+: faults → ∃ rs st', handleFaults p l st = .ok (rs, st') ∧
      ∀ s ∈ spaces, Reclaims p st st' s) ↔
    ∀ l s a, l ++ [(s, a)] <+: faults → ∀ rs st', handleFaults p l st = .ok (rs, st') →
      Affordable s st' a := by
  have inside {l} (pre : l <+: faults) :
      ∀ e ∈ l, e.1 ∈ spaces ∧ ∃ vma, Vmas.findVma e.1.vmas e.2 = some vma :=
    fun e he => within e (pre.subset he)
  constructor
  · intro sound l s a pre rs st₁ before
    -- what precedes the first fault that is not affordable has leaked nothing
    induction n : l.length using Nat.strong_induction_on generalizing l s a rs st₁ with
    | _ n ih =>
      have here : l <+: faults := (List.prefix_append _ _).trans pre
      obtain ⟨rs', st', run, inv, unleaked⟩ := sharing.run p (inside here)
        fun l' s' a' pre' rs' st' before' => ih l'.length (by
          have := pre'.length_le
          simp only [List.length_append, List.length_singleton] at this
          omega) l' s' a' (pre'.trans here) rs' st' before' rfl
      obtain ⟨rfl, rfl⟩ := Prod.mk.inj (Except.ok.inj (run.symm.trans before))
      obtain ⟨member, vma, area⟩ := inside pre (s, a) (by simp)
      by_contra short
      obtain ⟨rs₂, st₂, more, reclaims⟩ := sound _ pre
      rw [handleFaults_snoc p before] at more
      cases fault : s.handlePageFault p st' a with
      | error stop =>
        rw [fault] at more
        cases more
      | ok out =>
        rw [fault] at more
        obtain ⟨-, rfl⟩ := Prod.mk.inj (Except.ok.inj more)
        exact (unleaked s member).fault_leaks inv (sharing.wf member) (sharing.user member) area short
          fault (reclaims s member)
  · intro affordable l pre
    obtain ⟨rs, st', run, inv, unleaked⟩ := sharing.run p (inside pre)
      fun l' s a pre' => affordable l' s a (pre'.trans pre)
    refine ⟨rs, st', run, fun s hs => ?_⟩
    obtain ⟨tab, own, -, reach⟩ := unleaked s hs
    exact (reclaims_iff inv own (sharing.user hs) p).mpr reach

/-- The first page of a new process. -/
theorem first_fault_degrades : ∃ root st S, crowdedStart = .ok (some root, st) ∧
    Sharing S ∅ {crowded root} st ∧ ∀ l, l <+: [(crowded root, crowdedAddr 0)] →
      ∃ rs st', handleFaults .release l st = .ok (rs, st') ∧
        ∀ s ∈ ({crowded root} : Set AddressSpace), Reclaims .release st st' s := by
  obtain ⟨root, st, start, S, tab, inv, own, entries, free, -⟩ := crowdedStart_owned
  have sharing : Sharing S ∅ {crowded root} st := by
    refine ⟨inv, ?_, ?_, ?_, ?_⟩
    · rintro _ rfl
      exact crowded_wf root
    · rintro _ rfl
      exact crowded_user root
    · rintro _ _ rfl rfl -
      rfl
    · rintro _ rfl
      exact ⟨tab, own⟩
  have within : ∀ e ∈ [(crowded root, crowdedAddr 0)], e.1 ∈ ({crowded root} : Set AddressSpace) ∧
      ∃ vma, Vmas.findVma e.1.vmas e.2 = some vma := by
    intro e he
    obtain rfl := List.mem_singleton.mp he
    exact ⟨rfl, _, crowded_area root (by decide)⟩
  refine ⟨root, st, S, start, sharing, (faults_degrade_iff sharing within .release).mpr ?_⟩
  intro l s a pre rs st' run
  obtain rfl : l = [] := by
    have := pre.length_le
    simp only [List.length_append, List.length_singleton] at this
    exact List.length_eq_zero_iff.mp (by omega)
  obtain ⟨-, rfl⟩ := Prod.mk.inj (Except.ok.inj run)
  have missing := tablesMissing_le st.mem s.pml4 (pagePath (pageOf a))
  have short : (pagePath (pageOf a)).length = 3 := rfl
  refine Or.inr (Or.inr ⟨by rw [entries]; decide, ?_⟩)
  have four := Nat.mul_le_mul_right PAGE_SIZE (show tablesMissing st.mem s.pml4 (pagePath (pageOf a)) + 1 ≤ 4 by omega)
  simp only [PAGE_SIZE] at *
  omega

/-- The 8192nd page panics, with memory left; and with too little memory a frame is lost. -/
theorem faults_exhaust :
    (∃ root st, crowdedStart = .ok (some root, st) ∧
      (∀ i < 8192, ∃ vma, Vmas.findVma (crowded root).vmas (crowdedAddr i) = some vma) ∧
      handleFaults .release ((List.range 8192).map fun i => (crowded root, crowdedAddr i)) st =
        .error (.ownersFull 8192)) ∧
    leakRun = .ok (.error "Failed to map page", [(.space 0, ⟨0x101000, 0⟩)]) := by
  refine ⟨?_, by decide +kernel⟩
  obtain ⟨root, st, start, S, tab, inv, own, entries, free, empty⟩ := crowdedStart_owned
  exact ⟨root, st, start, fun i hi => ⟨_, crowded_area root hi⟩,
    crowded_panics inv own entries free empty .release⟩

end Ferrum
