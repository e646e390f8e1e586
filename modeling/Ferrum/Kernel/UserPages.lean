import Ferrum.Elf.Loading
import Ferrum.Kernel.Confined
import Ferrum.Kernel.FreshPages
import Ferrum.Kernel.Stores

/-!
# What calls do to the pages of the caller

`mmap` over a range clears it, `execve` fills a new address space, and results are stored through the
page tables. On user pages all of it is the business of the caller alone: its tables and frames stay
its own, and nothing that others hold changes.
-/
namespace Ferrum

open Machine (Local PoolInv Own)

variable {S img : Set Nat} {st st' : Machine Pool} {tab : Tables} {p : Profile}
  {space : AddressSpace} {image image' : Image}

/-- The caller has acted for itself, and what it shows is still its own. -/
def Acted (S img : Set Nat) (owner : Owner) (root : Nat) (st st' : Machine Pool) : Prop :=
  Local S owner st st' ∧ ∃ tab, Owned img st' owner root tab

namespace Acted

variable {owner : Owner} {root : Nat} {st'' : Machine Pool}

theorem refl (inv : PoolInv S st) (own : Owned img st owner root tab) :
    Acted S img owner root st st := ⟨.refl inv, tab, own⟩

theorem trans (h : Acted S img owner root st st') (h' : Acted S img owner root st' st'') :
    Acted S img owner root st st'' := ⟨h.1.trans h'.1, h'.2⟩

end Acted

/-! ## Stores through the page tables -/

/-- The bytes of a store lie in user pages. A walk also stores into pages of the kernel image that the
tables map, but then the kernel has overwritten itself, and such stores are left out. -/
def StoreClear (img : Set Nat) (vaddr len : Nat) : Prop :=
  vaddr + len ≤ 2 ^ 47 ∧ ∀ i < len, pageOf (vaddr + i) ∉ img

theorem pageOf_alignDown {vaddr : Nat} (low : vaddr < 2 ^ 47) :
    pageOf (alignDown vaddr PAGE_SIZE) = pageOf vaddr := by
  rw [alignDown_page (by omega), pageOf_eq low, pageOf_eq (by simp only [PAGE_SIZE]; omega),
    Nat.mul_div_cancel _ Buddy.page_pos]

theorem Owned.fault_outside {a : Nat} (own : Owned img st space.owner space.pml4 tab) (low : a < 2 ^ 47)
    (absent : view st.mem tab (pageOf a) = none) (area : Vmas.findVma space.vmas a = none) :
    space.handlePageFault p st a = .ok (.error "No VMA for fault address", st) := by
  have number : pageOf (alignDown a PAGE_SIZE) = pageOf a := pageOf_alignDown low
  have none : Machine.translate st.mem space.pml4 (alignDown a PAGE_SIZE) = .ok none := by
    rw [own.tree.translate_ok (number ▸ pageOf_lower low), number, absent]
    rfl
  simp only [AddressSpace.handlePageFault, none, ok_bind, Option.isSome_none, Bool.false_eq_true,
    if_false, area]
  rfl

theorem Tree.pageFrame_eq {root vaddr : Nat} (tree : Tree st.mem root tab) (low : vaddr < 2 ^ 47) :
    pageFrame st root vaddr = .ok (frameAt st.mem tab (pageOf vaddr)) := by
  have aligned : alignDown vaddr PAGE_SIZE = vaddr / PAGE_SIZE * PAGE_SIZE :=
    alignDown_page (by omega)
  have number := pageOf_alignDown low
  rw [pageFrame, tree.translate_ok (number.symm ▸ pageOf_lower low), number, aligned,
    Nat.mul_mod_left]
  rfl

theorem Rooted.pageFrame_eq {owner : Owner} {root vaddr : Nat} (rooted : Rooted st owner root tab)
    (low : vaddr < 2 ^ 47) : pageFrame st root vaddr = .ok (frameAt st.mem tab (pageOf vaddr)) :=
  rooted.tree.pageFrame_eq low

/-- The first page of a store: its frame belongs to the process and is no table. -/
theorem Owned.storeFirst {owner : Owner} {root vaddr phys : Nat} {data : List UInt8} (inv : PoolInv S st)
    (own : Owned img st owner root tab) (clear : StoreClear img vaddr data.length) (nonempty : data ≠ [])
    (found : pageFrame st root vaddr = .ok (some phys)) :
    Local S owner st (storeFirst st phys vaddr data) ∧ Owned img (storeFirst st phys vaddr data) owner root tab := by
  obtain ⟨top, off⟩ := clear
  have positive : 0 < data.length := List.length_pos_iff.mpr nonempty
  have low : vaddr < 2 ^ 47 := by omega
  rw [own.pageFrame_eq low] at found
  obtain ⟨flags, seen⟩ := frameAt_eq_some.mp (Except.ok.inj found)
  obtain ⟨held, notTable⟩ := own.pages ⟨pageOf_lower low, off 0 positive⟩ seen
  obtain ⟨step, own', -⟩ := own.write inv held notTable fun x hx => storeFirst_outside hx
  exact ⟨step, own'⟩

theorem Owned.writeViaPt {owner : Owner} {root n vaddr : Nat} {data : List UInt8} {done : Bool}
    (inv : PoolInv S st) (own : Owned img st owner root tab)
    (clear : StoreClear img vaddr data.length)
    (run : writeViaPt p root n st vaddr data = .ok (done, st')) : Acted S img owner root st st' := by
  refine writeViaPt_induction (P := fun vaddr data st st' => PoolInv S st → Owned img st owner root tab →
    StoreClear img vaddr data.length → Acted S img owner root st st') run ?_ ?_ ?_ inv own clear
  · intro vaddr data st inv own clear
    exact .refl inv own
  · intro vaddr data st phys some found inv own clear
    obtain ⟨step, own'⟩ := own.storeFirst inv clear some found
    exact ⟨step, tab, own'⟩
  · intro vaddr data st phys next st' some found longer added rest inv own clear
    obtain ⟨step, own'⟩ := own.storeFirst inv clear some found
    have one : Acted S img owner root st _ := ⟨step, tab, own'⟩
    obtain ⟨top, off⟩ := clear
    rw [p.add_ok (by omega)] at added
    obtain rfl := Except.ok.inj added
    refine one.trans (rest step.inv own' ⟨?_, fun i hi => ?_⟩)
    · rw [List.length_drop]
      omega
    · rw [List.length_drop] at hi
      rw [Nat.add_assoc]
      exact off _ (by omega)

theorem Owned.buildStack {stores : List (Nat × List UInt8)} (inv : PoolInv S st)
    (own : Owned img st space.owner space.pml4 tab)
    (clear : ∀ e ∈ stores, StoreClear img e.1 e.2.length)
    (run : buildStack p space stores st = .ok st') :
    Acted S img space.owner space.pml4 st st' := by
  induction stores generalizing st tab with
  | nil =>
    obtain rfl := Except.ok.inj run
    exact .refl inv own
  | cons e stores ih =>
    rw [Ferrum.buildStack, List.foldlM_cons] at run
    obtain ⟨st₁, stored, rest⟩ := bind_eq_ok.mp run
    obtain ⟨⟨written, st₂⟩, one, out⟩ := bind_eq_ok.mp stored
    obtain ⟨step, tab₁, own₁⟩ := own.writeViaPt inv (clear e List.mem_cons_self) one
    cases written with
    | false => cases out
    | true =>
      obtain rfl := Except.ok.inj out
      exact Acted.trans ⟨step, tab₁, own₁⟩
        (ih step.inv own₁ (fun e he => clear e (List.mem_cons_of_mem _ he)) rest)

/-! ## Fresh pages -/

theorem Repaged.acted {owner : Owner} {root : Nat} {Q : Set Nat} {tab' : Tables}
    (h : Repaged S img owner root Q st tab st' tab') : Acted S img owner root st st' :=
  ⟨h.step, tab', h.own⟩

/-- The pages of the user stack. What was there before is not given back. -/
theorem Owned.mapStack {noFrame noMap : String} {indices : List Nat} (inv : PoolInv S st)
    (own : Owned img st space.owner space.pml4 tab)
    (user : ∀ q ∈ stackPages indices, UserPage img q)
    (run : indices.foldlM (fun st i =>
      mapFresh p space noFrame noMap st (USTACK_BASE + i * 0x1000)) st = .ok st') :
    Acted S img space.owner space.pml4 st st' := by
  rcases own.mapStack_cases inv user noFrame noMap p with
    ⟨st₁, tab₁, same, repaged, -⟩ | ⟨⟨e, failed⟩, -⟩
  · obtain rfl := Except.ok.inj (same.symm.trans run)
    exact repaged.acted
  · rw [failed] at run
    cases run

theorem Owned.mapTcb {canary : Nat} (inv : PoolInv S st)
    (own : Owned img st image.space.owner image.space.pml4 tab)
    (user : UserPage img (pageOf TCB_PAGE))
    (run : mapTcb p image canary st = .ok (image', st')) :
    Acted S img image.space.owner image.space.pml4 st st' := by
  rcases own.mapTcb_cases image inv user canary p with
    ⟨image₁, st₁, tab₁, same, -, repaged⟩ | ⟨⟨e, failed⟩, -⟩
  · obtain ⟨-, rfl⟩ := Prod.mk.inj (Except.ok.inj (same.symm.trans run))
    exact repaged.acted
  · rw [failed] at run
    cases run

/-! ## Holes -/

theorem Clear.userRange {start stop : Nat} (clear : Clear img start stop) (first : PAGE_SIZE ∣ start)
    (last : PAGE_SIZE ∣ stop) : UserRange img start stop := ⟨first, last, clear.1, clear.2⟩

theorem Owned.unmapRange {start stop : Nat} (inv : PoolInv S st)
    (own : Owned img st space.owner space.pml4 tab) (range : UserRange img start stop)
    (run : Ferrum.forPages p (space.unmapPage p) st start stop = .ok st') :
    Acted S img space.owner space.pml4 st st' := by
  by_cases order : start ≤ stop
  · obtain ⟨st₁, same, cleared⟩ :=
      own.forPages (fun inv own user _ => own.unmapPage inv user p) inv range order p
    obtain rfl := Except.ok.inj (same.symm.trans run)
    exact ⟨cleared.step, tab, cleared.owned own range.page⟩
  · rw [Ferrum.forPages, pageLoop, if_neg (by omega)] at run
    obtain rfl := Except.ok.inj run
    exact .refl inv own

theorem hole_range {v : VMA} {start stop : Nat} (proper : v.Proper) (clear : Clear img v.start v.stop)
    (first : PAGE_SIZE ∣ start) (last : PAGE_SIZE ∣ stop) :
    UserRange img (max v.start start) (min v.stop stop) := by
  refine (clear.mono (Nat.le_max_left _ _) (Nat.min_le_left _ _)).userRange ?_ ?_
  · rw [Nat.max_def]
    split
    · exact first
    · exact proper.start
  · rw [Nat.min_def]
    split
    · exact proper.stop
    · exact last

theorem Owned.punchAll {start stop : Nat} {areas vmas vmas' : List VMA} {r : Except String Unit}
    (inv : PoolInv S st) (own : Owned img st space.owner space.pml4 tab)
    (ranges : ∀ v ∈ areas, UserRange img (max v.start start) (min v.stop stop))
    (run : space.punchAll p start stop areas vmas st = .ok (r, vmas', st')) :
    Acted S img space.owner space.pml4 st st' := by
  induction areas generalizing vmas st tab with
  | nil =>
    obtain ⟨-, rest⟩ := Prod.mk.inj (Except.ok.inj run)
    obtain ⟨-, rfl⟩ := Prod.mk.inj rest
    exact .refl inv own
  | cons v areas ih =>
    obtain ⟨⟨r₁, vmas₁, st₁⟩, one, run⟩ := bind_eq_ok.mp run
    obtain ⟨st₂, unmapped, one⟩ := bind_eq_ok.mp one
    have acted := own.unmapRange inv (ranges v List.mem_cons_self) unmapped
    -- whichever pieces could be kept, the machine is the one after the loop
    obtain rfl : st₂ = st₁ := by
      split at one
      · exact (Prod.mk.inj (Prod.mk.inj (Except.ok.inj one)).2).2
      · split at one
        · exact (Prod.mk.inj (Prod.mk.inj (Except.ok.inj one)).2).2
        · exact (Prod.mk.inj (Prod.mk.inj (Except.ok.inj one)).2).2
    cases r₁ with
    | error e =>
      obtain ⟨-, rest⟩ := Prod.mk.inj (Except.ok.inj run)
      obtain ⟨-, rfl⟩ := Prod.mk.inj rest
      exact acted
    | ok =>
      obtain ⟨step, tab₁, own₁⟩ := acted
      exact Acted.trans ⟨step, tab₁, own₁⟩
        (ih step.inv own₁ (fun w hw => ranges w (List.mem_cons_of_mem _ hw)) run)

/-! ## The calls -/

namespace Image.Valid

variable {r : Except String Nat} {addr len prot flags : Nat}

theorem mmap_acted (valid : image.Valid) (clear : Vmas.Clear img image.space.vmas)
    (inv : PoolInv S st) (own : Owned img st image.space.owner image.space.pml4 tab)
    (fits : Fits p image (.mmap addr len prot flags))
    (run : mmapImage p image addr len prot flags st = .ok (r, image', st')) :
    Acted S img image.space.owner image.space.pml4 st st' := by
  obtain ⟨pos, fits⟩ := fits
  unfold mmapImage at run
  split at run
  · rename_i fixed
    rw [if_pos fixed] at fits
    obtain ⟨⟨r', space, st₁⟩, ran, out⟩ := bind_eq_ok.mp run
    obtain ⟨-, rest⟩ := Prod.mk.inj (Except.ok.inj out)
    obtain ⟨-, rfl⟩ := Prod.mk.inj rest
    rw [AddressSpace.mmapFixed, Vmas.range_ok p fits.1 fits.2, ok_bind] at ran
    obtain ⟨⟨r₁, vmas, st₂⟩, punched, ran⟩ := bind_eq_ok.mp ran
    have acted := own.punchAll inv (fun v hv => ?_) punched
    · obtain rfl : st₂ = st₁ := by
        dsimp only at ran
        split at ran
        · exact (Prod.mk.inj (Prod.mk.inj (Except.ok.inj ran)).2).2
        · split at ran
          · exact (Prod.mk.inj (Prod.mk.inj (Except.ok.inj ran)).2).2
          · exact (Prod.mk.inj (Prod.mk.inj (Except.ok.inj ran)).2).2
      exact acted
    · have mem := (AddressSpace.mem_overlapping valid.areas.1 hv).1
      exact hole_range (valid.areas.1.proper v mem) (clear v mem) (dvd_roundUp addr)
        (Nat.dvd_add (dvd_roundUp addr) (dvd_roundUp len))
  · obtain ⟨⟨r', space⟩, -, out⟩ := bind_eq_ok.mp run
    obtain ⟨-, rest⟩ := Prod.mk.inj (Except.ok.inj out)
    obtain ⟨-, rfl⟩ := Prod.mk.inj rest
    exact .refl inv own

theorem munmap_acted (inv : PoolInv S st)
    (own : Owned img st image.space.owner image.space.pml4 tab)
    (fits : Fits p image (.munmap addr len)) (confines : Confines img p image (.munmap addr len))
    (run : munmapImage p image addr len st = .ok (image', st')) :
    Acted S img image.space.owner image.space.pml4 st st' := by
  obtain ⟨⟨r, space, st₁⟩, ran, out⟩ := bind_eq_ok.mp run
  obtain ⟨-, rfl⟩ := Prod.mk.inj (Except.ok.inj out)
  obtain ⟨start, stop, ranged, first, last, -⟩ := Kernel.range_pages fits
  rw [AddressSpace.munmap, ranged, ok_bind] at ran
  dsimp only at ran
  split at ran
  · obtain ⟨-, rest⟩ := Prod.mk.inj (Except.ok.inj ran)
    obtain ⟨-, rfl⟩ := Prod.mk.inj rest
    exact .refl inv own
  · obtain ⟨st₂, unmapped, ran⟩ := bind_eq_ok.mp ran
    obtain ⟨-, rest⟩ := Prod.mk.inj (Except.ok.inj ran)
    obtain ⟨-, rfl⟩ := Prod.mk.inj rest
    exact own.unmapRange inv ((confines start stop ranged).userRange first last) unmapped

theorem loadable {file : List UInt8} {stack : StackImage}
    (fits : Fits p image (.execve (some file) stack))
    (confines : Confines img p image (.execve (some file) stack)) :
    ∀ j ∈ Elf.segments file 0 (Elf.ePhnum file), Elf.Loadable img (Elf.header file j) := by
  rintro j ⟨-, high, load⟩
  have inside : j < Elf.ePhnum file := by omega
  obtain ⟨first, last, -⟩ := Elf.Phdr.bounds load
  exact ⟨load, (confines.1 j inside load).userRange first last, (fits j inside load).2⟩

theorem stackPage (clear : Clear img USTACK_BASE (TCB_PAGE + 0x1000)) {v : Nat} (low : USTACK_BASE ≤ v)
    (high : v < TCB_PAGE + 0x1000) (page : PAGE_SIZE ∣ v) : UserPage img (pageOf v) := by
  have below := lt_of_lt_of_le high clear.1
  refine ⟨pageOf_lower below, clear.2 _ ?_⟩
  rw [pageOf_eq below, pagesIn, Set.mem_ofPred_eq, Nat.div_mul_cancel page]
  exact ⟨low, high⟩

theorem stackPages_user (clear : Clear img USTACK_BASE (TCB_PAGE + 0x1000)) :
    ∀ q ∈ stackPages (List.range USTACK_PAGES), UserPage img q := by
  rintro q ⟨i, hi, rfl⟩
  have before := Nat.mul_lt_mul_of_pos_right (List.mem_range.mp hi) (show 0 < 0x1000 by decide)
  refine stackPage clear (Nat.le_add_right _ _) ?_ ?_
  · exact lt_of_lt_of_le (Nat.add_lt_add_left before _) (by decide)
  · exact Nat.dvd_add (by decide) (Nat.dvd_mul_left _ _)

theorem addVmaOk_eq (space : AddressSpace) (vma : VMA) :
    ∃ vmas, addVmaOk space vma = { space with vmas } := by
  unfold addVmaOk
  split
  · exact ⟨_, rfl⟩
  · exact ⟨_, rfl⟩

theorem execve_acted (valid : image.Valid) (clear : Vmas.Clear img image.space.vmas)
    (inv : PoolInv S st) (own : Owned img st image.space.owner image.space.pml4 tab)
    {file : List UInt8} {stack : StackImage} (fits : Fits p image (.execve (some file) stack))
    (confines : Confines img p image (.execve (some file) stack))
    (stores : ∀ e ∈ stack.stores, StoreClear img e.1 e.2.length)
    (run : execImage p image file stack st = .ok (r, image', st')) :
    Acted S img image.space.owner image.space.pml4 st st' := by
  obtain ⟨⟨space₁, st₁⟩, emptied, run⟩ := bind_eq_ok.mp run
  obtain ⟨st₁', same, cleared⟩ :=
    AddressSpace.clearUser_spec inv own (clear.userAreas valid.areas.1) p
  obtain ⟨rfl, rfl⟩ := Prod.mk.inj (Except.ok.inj (same.symm.trans emptied))
  have own₁ : Owned img st₁' (AddressSpace.owner { image.space with vmas := [] }) image.space.pml4 tab :=
    cleared.owned own (clear.userAreas valid.areas.1).page
  obtain ⟨⟨loaded, space₂, st₂⟩, load, run⟩ := bind_eq_ok.mp run
  rcases Elf.load_spec (loadable fits confines) cleared.step.inv own₁ Vmas.wf_nil p with ⟨r₂, vmas, st₂', tab₂, same, done⟩ | ⟨stuck, -⟩
  · obtain ⟨-, rest⟩ := Prod.mk.inj (Except.ok.inj (same.symm.trans load))
    obtain ⟨rfl, rfl⟩ := Prod.mk.inj rest
    have begun : Acted S img image.space.owner image.space.pml4 st st₂' :=
      ⟨cleared.step.trans done.step, tab₂, done.own⟩
    cases loaded with
    | error e =>
      obtain ⟨-, rest⟩ := Prod.mk.inj (Except.ok.inj run)
      obtain ⟨-, rfl⟩ := Prod.mk.inj rest
      exact begun
    | ok entry =>
      obtain ⟨brk, -, run⟩ := bind_eq_ok.mp run
      obtain ⟨st₃, stacked, run⟩ := bind_eq_ok.mp run
      obtain ⟨step₃, tab₃, own₃⟩ :=
        Owned.mapStack done.step.inv done.own (stackPages_user confines.2) stacked
      obtain ⟨st₄, built, run⟩ := bind_eq_ok.mp run
      obtain ⟨⟨image₅, st₅⟩, mapped, run⟩ := bind_eq_ok.mp run
      obtain ⟨-, rest⟩ := Prod.mk.inj (Except.ok.inj run)
      obtain ⟨rfl, rfl⟩ := Prod.mk.inj rest
      obtain ⟨vmas', widened⟩ := addVmaOk_eq { image.space with vmas }
        ⟨USTACK_BASE, USTACK_VIRT + 0x1000, .rw, .stack⟩
      rw [widened] at built mapped
      have own₃' : Owned img st₃ (AddressSpace.owner { image.space with vmas := vmas' })
          image.space.pml4 tab₃ := own₃
      obtain ⟨step₄, tab₄, own₄⟩ := Owned.buildStack step₃.inv own₃' stores built
      have tcb := stackPage confines.2 (v := TCB_PAGE) (by decide) (by decide) (by decide)
      have last {tab} (own : Owned img st₄ _ _ tab) := Owned.mapTcb step₄.inv own tcb mapped
      exact begun.trans (Acted.trans ⟨step₃, tab₃, own₃⟩ (Acted.trans ⟨step₄, tab₄, own₄⟩ (last own₄)))
  · rw [stuck] at load
    cases load

end Image.Valid

end Ferrum
