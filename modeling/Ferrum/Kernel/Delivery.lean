import Ferrum.AddressSpace.Exhaustion
import Ferrum.Kernel.Progress
import Ferrum.Kernel.UserStores

/-!
# What `write_to_user` delivers

`write_to_user` asks the page table where each page of the range lies, and stops at the first one that is
not there. So it writes the bytes before that page, each at the place that its address is translated to,
and nothing else.

A page that user code has not touched yet is not there, although the area allows the store and a store by
user code would have brought the page in.
-/
namespace Ferrum

open Machine (Local PoolInv Own)

variable {S img Q : Set Nat} {st st' : Machine Pool} {tab tab' : Tables} {p : Profile}
  {space : AddressSpace} {root a n k : Nat} {data : List UInt8}

/-! ## Ranges that are there -/

/-- Every address of a range leads somewhere. -/
def RangeMapped (st : Machine Pool) (root a len : Nat) : Prop :=
  ∀ i < len, ∃ x, Machine.translate st.mem root (a + i) = .ok (some x)

/-- The bytes stand at the addresses. -/
def HoldsBytes (st : Machine Pool) (root a : Nat) (data : List UInt8) : Prop :=
  ∀ i < data.length, ∃ x, Machine.translate st.mem root (a + i) = .ok (some x) ∧
    st.mem x = data.getD i 0

/-- `write_to_user` returns; it succeeds, and the bytes are there, exactly if the range was mapped. -/
theorem Owned.writeToUser (inv : PoolInv S st) {owner : Owner} (own : Owned img st owner root tab)
    (clear : StoreClear img a data.length) (p : Profile) :
    ∃ done st', writeToUser p st root a data = .ok (done, st') ∧
      (done = true ↔ RangeMapped st root a data.length) ∧
      (RangeMapped st root a data.length → HoldsBytes st' root a data) ∧
      (HoldsBytes st' root a data → RangeMapped st root a data.length) := by
  have inside : ∀ i < data.length, pageOf (a + i) ∈ {q | UserPage img q} := fun i hi =>
    ⟨pageOf_lower (by have := clear.1; omega), clear.2 i hi⟩
  obtain ⟨k, m', run, delivered, tree', views⟩ :=
    (own.separate inv).writeViaPt own.tree clear.1 inside (Nat.le_refl _) p
  have same {i} (hi : i < data.length) :
      Machine.translate m' root (a + i) = Machine.translate st.mem root (a + i) := by
    have lower : LowerPage (pageOf (a + i)) := UserPage.lower (inside i hi)
    rw [tree'.translate_ok lower, own.tree.translate_ok lower, views]
  have whole : k = data.length ↔ RangeMapped st root a data.length := by
    constructor
    · rintro rfl i hi
      obtain ⟨x, leads, -⟩ := delivered.bytes i hi
      exact ⟨x, leads⟩
    · intro mapped
      by_contra short
      have less : k < data.length := lt_of_le_of_ne delivered.le short
      obtain ⟨x, leads⟩ := mapped k less
      rw [delivered.stopped less] at leads
      cases leads
  refine ⟨_, _, run, ?_, fun mapped i hi => ?_, fun holds i hi => ?_⟩
  · rw [decide_eq_true_iff, whole]
  · obtain rfl := whole.mpr mapped
    obtain ⟨x, leads, byte⟩ := delivered.bytes i hi
    exact ⟨x, (same hi).trans leads, byte⟩
  · obtain ⟨x, leads, -⟩ := holds i hi
    exact ⟨x, (same hi).symm.trans leads⟩

/-- `write_to_user` succeeds and the bytes arrive. -/
def Arrives (p : Profile) (space : AddressSpace) (st : Machine Pool) (a : Nat) (data : List UInt8) : Prop :=
  ∃ st', Ferrum.writeToUser p st space.pml4 a data = .ok (true, st') ∧ HoldsBytes st' space.pml4 a data

theorem Owned.arrives_iff (inv : PoolInv S st) (own : Owned img st space.owner space.pml4 tab)
    (clear : StoreClear img a data.length) (p : Profile) :
    Arrives p space st a data ↔ RangeMapped st space.pml4 a data.length := by
  obtain ⟨done, st', run, success, holds, -⟩ := own.writeToUser inv clear p
  constructor
  · rintro ⟨st'', run', -⟩
    obtain ⟨rfl, -⟩ := Prod.mk.inj (Except.ok.inj (run.symm.trans run'))
    exact success.mp rfl
  · intro mapped
    obtain rfl := success.mpr mapped
    exact ⟨st', run, holds mapped⟩

theorem areas_clear (wf : Vmas.Wf space.vmas) (user : UserAreas img space.vmas) {kind : AccessKind}
    (areas : ∀ i < n, AreaAllows space.vmas (a + i) kind) (some : 0 < n) : StoreClear img a n := by
  have page {i} (hi : i < n) : a + i < 2 ^ 47 ∧ UserPage img (pageOf (a + i)) := by
    obtain ⟨vma, area, -⟩ := areas i hi
    obtain ⟨low, page, -⟩ := user.page_of_area wf area
    exact ⟨low, page⟩
  refine ⟨?_, fun i hi => (page hi).2.off⟩
  have last := (page (show n - 1 < n by omega)).1
  omega

/-- In a range that its areas allow to be written, the bytes arrive exactly if every page has been
touched. Touching them is what a store by user code does first, and with memory for the missing pages
that goes through. -/
theorem write_to_user_delivers_iff (inv : PoolInv S st) (own : Owned img st space.owner space.pml4 tab)
    (wf : Vmas.Wf space.vmas) (user : UserAreas img space.vmas)
    (areas : ∀ i < data.length, AreaAllows space.vmas (a + i) .write) (p : Profile) :
    (Arrives p space st a data ↔ RangeMapped st space.pml4 a data.length) ∧
    (st.pool.owners.length + (untouched st.mem tab ((List.range data.length).map (a + ·))).ncard ≤
        RESERVE_CAPACITY →
      (untouched st.mem tab ((List.range data.length).map (a + ·))).ncard * (4 * PAGE_SIZE) ≤
        (freeCells st).ncard →
      ∃ rs st', handleFaults p ((List.range data.length).map fun i => (space, a + i)) st = .ok (rs, st') ∧
        (∀ r ∈ rs, r = .ok ()) ∧ Arrives p space st' a data) := by
  cases data with
  | nil =>
    have arrives (st : Machine Pool) : Arrives p space st a [] := ⟨st, rfl, by simp [HoldsBytes]⟩
    exact ⟨iff_of_true (arrives st) (by simp [RangeMapped]), fun _ _ => ⟨[], st, rfl, by simp, arrives st⟩⟩
  | cons byte data =>
    have clear := areas_clear wf user areas (Nat.succ_pos _)
    refine ⟨own.arrives_iff inv clear p, fun entries frames => ?_⟩
    have inside : ∀ b ∈ (List.range (byte :: data).length).map (a + ·),
        ∃ vma, Vmas.findVma space.vmas b = some vma := by
      intro b hb
      obtain ⟨i, hi, rfl⟩ := List.mem_map.mp hb
      obtain ⟨vma, area, -⟩ := areas i (List.mem_range.mp hi)
      exact ⟨vma, area⟩
    obtain ⟨st', tab', run, touched⟩ := own.touch inv wf user inside entries frames p
    rw [List.map_map] at run
    refine ⟨_, st', run, by simp, (touched.own.arrives_iff touched.step.inv clear p).mpr fun i hi => ?_⟩
    have lower : a + i < 2 ^ 47 := by
      have := clear.1
      omega
    have there := touched.there (pageOf (a + i))
      (List.mem_map_of_mem (List.mem_map_of_mem (List.mem_range.mpr hi)))
    obtain ⟨f, there⟩ := Option.ne_none_iff_exists'.mp there
    obtain ⟨flags, seen⟩ := frameAt_eq_some.mp there
    rw [touched.own.tree.translate_ok (pageOf_lower lower), seen]
    exact ⟨_, rfl⟩

/-- A store to the resident page. -/
theorem write_resident_arrives : ∃ st, residentStart = .ok st ∧
    Arrives .dev residentSpace st 0x400ffe [0x12, 0x34] := by
  have evaluates : (do
      let st ← residentStart
      let first ← Machine.translate st.mem residentSpace.pml4 (0x400ffe + 0)
      let second ← Machine.translate st.mem residentSpace.pml4 (0x400ffe + 1)
      return (first, second)) = Except.ok (some 0x101ffe, some 0x101fff) := by
    decide +kernel
  obtain ⟨st, start, rest⟩ := bind_eq_ok.mp evaluates
  obtain ⟨first, leads, rest⟩ := bind_eq_ok.mp rest
  obtain ⟨second, leads', rest⟩ := bind_eq_ok.mp rest
  obtain ⟨rfl, rfl⟩ := Prod.mk.inj (Except.ok.inj rest)
  obtain ⟨S, tab, inv, own, -⟩ := residentStart_owned (Set.notMem_empty 0x400) start
  refine ⟨st, start, (write_to_user_delivers_iff inv own residentSpace_wf
    (residentSpace_user (Set.notMem_empty 0x400)) (fun i hi => ?_) .dev).1.mpr fun i hi => ?_⟩
  · refine ⟨⟨0x400000, 0x401000, .rw, .anonymous⟩, ?_, rfl⟩
    refine (Vmas.findVma_eq_some residentSpace_wf).mpr ⟨List.mem_singleton_self _, ?_, ?_⟩
    all_goals
      simp only [List.length_cons, List.length_nil] at *
      omega
  · have two : i = 0 ∨ i = 1 := by
      simp only [List.length_cons, List.length_nil] at hi
      omega
    rcases two with rfl | rfl
    exacts [⟨_, leads⟩, ⟨_, leads'⟩]

/-- A new process with plenty of memory: user code may write to its area, and its store would fault the
page in; `write_to_user` fails. -/
theorem write_untouched_fails : ∃ root st, crowdedStart = .ok (some root, st) ∧
    AreaAllows (crowded root).vmas (crowdedAddr 0) .write ∧ 8192 * PAGE_SIZE ≤ (freeCells st).ncard ∧
    writeToUser .release st (crowded root).pml4 (crowdedAddr 0) [1] = .ok (false, st) ∧
    ∃ st', (crowded root).handlePageFault .release st (crowdedAddr 0) = .ok (.ok (), st') := by
  obtain ⟨root, st, start, S, tab, inv, own, entries, free, empty⟩ := crowdedStart_owned
  have area := crowded_area root (show 0 < RESERVE_CAPACITY by decide)
  refine ⟨root, st, start, ⟨_, area, rfl⟩, ?_, ?_, ?_⟩
  · simp only [PAGE_SIZE] at *
    omega
  · rw [writeToUser, List.length_singleton, writeViaPt, if_neg (by simp),
      own.pageFrame_eq (show crowdedAddr 0 < 2 ^ 47 by decide), empty]
    rfl
  · have room : st.pool.owners.length < RESERVE_CAPACITY := by
      rw [entries]
      decide
    obtain ⟨f, st', tab', run, -⟩ := own.fault_ok inv (crowded_wf root) (crowded_user root) area
      (empty _) room (by simp only [PAGE_SIZE] at *; omega) .release
    exact ⟨st', run⟩

end Ferrum
