import Ferrum.AddressSpace.Clearing
import Ferrum.Allocator.Region

/-!
# Demand faults

`handle_page_fault` backs a page of an area with a zeroed frame, or changes nothing that the address
space shows.
-/
namespace Ferrum

open Machine (Local PoolInv Own)

variable {S img : Set Nat} {st st' : Machine Pool} {tab : Tables} {p : Profile} {addr : Nat}
  {space : AddressSpace}

theorem bytesAt_fill {m : Memory} {f : Nat} : bytesAt (m.fill f PAGE_SIZE 0) f = fun _ => 0 := by
  funext i
  unfold bytesAt
  split
  · exact if_pos ⟨by omega, by omega⟩
  · rfl

theorem UserAreas.page_of_mem {vmas : List VMA} (user : UserAreas img vmas) {vma : VMA}
    (member : vma ∈ vmas) (low : vma.start ≤ addr) (high : addr < vma.stop) :
    UserPage img (pageOf (alignDown addr PAGE_SIZE)) ∧
      pageOf (alignDown addr PAGE_SIZE) = addr / PAGE_SIZE ∧ addr / PAGE_SIZE ∈ pagesIn vma.start vma.stop := by
  obtain ⟨-, range⟩ := user vma member
  have below := range.below
  have inside : addr / PAGE_SIZE ∈ pagesIn vma.start vma.stop := by
    obtain ⟨k, first⟩ := range.first
    simp only [pagesIn, Set.mem_ofPred_eq, PAGE_SIZE] at *
    omega
  have page : pageOf (alignDown addr PAGE_SIZE) = addr / PAGE_SIZE := by
    rw [alignDown_page (by omega), pageOf_eq (by simp only [PAGE_SIZE]; omega),
      Nat.mul_div_cancel _ Buddy.page_pos]
  exact ⟨page ▸ range.page _ inside, page, inside⟩

/-- What a fault may do to the page `q`: nothing, or put zeros there if it had no frame. -/
def Backs (space : AddressSpace) (addr q : Nat) (before after : Option Page) : Prop :=
  after = before ∨ (before = none ∧ q = addr / PAGE_SIZE ∧ ∃ vma ∈ space.vmas, vma.start ≤ addr ∧
    addr < vma.stop ∧ ∃ f, after = some ⟨f, vma.flags.toPageFlags, fun _ => 0⟩)

/-- The two ends of a fault: no page changes, and if the call succeeds the page was there; or the page had
no frame, and has one with the rights of its area now. -/
theorem Owned.fault_cases {r : Except String Unit} (inv : PoolInv S st)
    (own : Owned img st space.owner space.pml4 tab) (wf : Vmas.Wf space.vmas)
    (user : UserAreas img space.vmas) (run : space.handlePageFault p st addr = .ok (r, st')) :
    ∃ tab', Local S space.owner st st' ∧ Owned img st' space.owner space.pml4 tab' ∧
      ((∀ q, UserPage img q → pageAt st'.mem tab' q = pageAt st.mem tab q) ∧
          (r = .ok () → st' = st ∧ ∃ phys, Machine.translate st.mem space.pml4
            (alignDown addr PAGE_SIZE) = .ok (some phys)) ∨
        r = .ok () ∧ Machine.translate st.mem space.pml4 (alignDown addr PAGE_SIZE) = .ok none ∧
          ∃ vma f, Vmas.findVma space.vmas addr = some vma ∧ UserPage img (addr / PAGE_SIZE) ∧
            pageOf addr = addr / PAGE_SIZE ∧ pageAt st.mem tab (addr / PAGE_SIZE) = none ∧
            ∀ q, UserPage img q → pageAt st'.mem tab' q =
              if q = addr / PAGE_SIZE then some ⟨f, vma.flags.toPageFlags, fun _ => 0⟩
              else pageAt st.mem tab q) := by
  unfold AddressSpace.handlePageFault at run
  simp only at run
  obtain ⟨found, translated, run⟩ := bind_eq_ok.mp run
  split at run
  · rename_i present
    obtain ⟨phys, rfl⟩ := Option.isSome_iff_exists.mp present
    obtain ⟨-, rfl⟩ := by simpa using run
    exact ⟨tab, .refl inv, own, .inl ⟨fun _ _ => rfl, fun _ => ⟨rfl, phys, translated⟩⟩⟩
  rename_i absent
  obtain rfl : found = none := by simpa using absent
  have refused {e : String} (error : r = .error e) : r = .ok () → st' = st ∧
      ∃ phys, Machine.translate st.mem space.pml4 (alignDown addr PAGE_SIZE) = .ok (some phys) := by
    rintro rfl
    cases error
  cases area : Vmas.findVma space.vmas addr with
  | none =>
    simp only [area] at run
    obtain ⟨rfl, rfl⟩ := Prod.mk.inj (Except.ok.inj run)
    exact ⟨tab, .refl inv, own, .inl ⟨fun _ _ => rfl, refused rfl⟩⟩
  | some vma =>
    obtain ⟨member, low, high⟩ := (Vmas.findVma_eq_some wf).mp area
    obtain ⟨page, number, -⟩ := user.page_of_mem member low high
    have empty : view st.mem tab (pageOf (alignDown addr PAGE_SIZE)) = none := by
      rw [own.tree.translate_ok page.lower] at translated
      simpa using translated
    obtain ⟨a, st₁, -, alloc, step₁, own₁, same₁, -, result⟩ := own.alloc inv p
    simp only [area, alloc, ok_bind] at run
    cases a with
    | none =>
      obtain ⟨rfl, rfl⟩ := Prod.mk.inj (Except.ok.inj run)
      exact ⟨tab, step₁, own₁, .inl ⟨same₁, refused rfl⟩⟩
    | some f =>
      obtain ⟨-, -, spare, -⟩ := result
      obtain ⟨pool, tracked, run⟩ := bind_eq_ok.mp run
      obtain rfl := Pool.track_owners tracked
      obtain ⟨_, -, run⟩ := bind_eq_ok.mp run
      have zeroed : ∀ x, x ∉ pageBytes f → st₁.mem.fill f PAGE_SIZE 0 x = st₁.mem x := by
        intro x hx
        refine Memory.fill_outside ?_
        simp only [pageBytes, Set.mem_Ico] at hx
        omega
      obtain ⟨r', st₂, tab', mapped, step₂, own₂, -, -, -, shown⟩ := own₁.place step₁.inv p page spare
        zeroed (st₁.pool.owners ++ [(f, ⟨vma.kind.ownerTag, space.ownerPid, 0⟩)])
        vma.flags.toPageFlags
      simp only [AddressSpace.pages, Machine.zeroPage, mapped, ok_bind] at run
      cases r' with
      | none =>
        obtain ⟨rfl, rfl⟩ := Prod.mk.inj (Except.ok.inj run)
        refine ⟨tab', step₁.trans step₂, own₂, .inl ⟨fun q hq => ?_, refused rfl⟩⟩
        rw [shown q hq, same₁ q hq]
        simp
      | some =>
        obtain ⟨rfl, rfl⟩ := Prod.mk.inj (Except.ok.inj run)
        have below := (user vma member).2.below
        refine ⟨tab', step₁.trans step₂, own₂, .inr ⟨rfl, translated, vma, f, rfl, number ▸ page,
          pageOf_eq (by omega), number ▸ pageAt_eq_none.mpr empty, fun q hq => ?_⟩⟩
        rw [shown q hq, same₁ q hq, number, bytesAt_fill]
        simp only [Option.isSome_some, true_and]
        rfl

/-- A fault backs the page that it is about with zeros, if that lies in an area and has no frame
yet. -/
theorem Owned.handlePageFault {r : Except String Unit} (inv : PoolInv S st)
    (own : Owned img st space.owner space.pml4 tab) (wf : Vmas.Wf space.vmas)
    (user : UserAreas img space.vmas) (run : space.handlePageFault p st addr = .ok (r, st')) :
    ∃ tab', Local S space.owner st st' ∧ Owned img st' space.owner space.pml4 tab' ∧
      ∀ q, UserPage img q → Backs space addr q (pageAt st.mem tab q) (pageAt st'.mem tab' q) := by
  obtain ⟨tab', step, own', ⟨same, -⟩ | ⟨-, -, vma, f, area, -, -, empty, shown⟩⟩ :=
    own.fault_cases inv wf user run
  · exact ⟨tab', step, own', fun q hq => .inl (same q hq)⟩
  · obtain ⟨member, low, high⟩ := (Vmas.findVma_eq_some wf).mp area
    refine ⟨tab', step, own', fun q hq => ?_⟩
    rw [shown q hq]
    split
    · rename_i here
      subst here
      exact .inr ⟨empty, rfl, vma, member, low, high, f, rfl⟩
    · exact .inl rfl

/-! ## A process with a resident page -/

/-- An area of one page. -/
def residentSpace : AddressSpace := ⟨0x100000, [⟨0x400000, 0x401000, .rw, .anonymous⟩], 1, 0⟩

/-- One region of memory, new tables, and a fault in the area. -/
def residentStart : Except Stop (Machine Pool) := do
  let b ← Buddy.addRegion .dev ⟨fun _ => 0, .new⟩ 0x100000 0x20000
  let (root, st) ← Machine.newUser (poolPages .dev (.space 0)) ⟨b.mem, ⟨b.pool, [], []⟩⟩ 0x1000 1
  if root ≠ some 0x100000 then .error .diverges
  let (_, st) ← residentSpace.handlePageFault .dev st 0x400123
  return st

theorem residentSpace_wf : Vmas.Wf residentSpace.vmas :=
  ⟨by simpa [residentSpace] using ⟨by decide, by decide, by decide, by decide⟩, by simp [residentSpace]⟩

theorem residentSpace_pages {q : Nat} : q ∈ areaPages residentSpace.vmas ↔ q = 0x400 := by
  simp only [areaPages, residentSpace, List.mem_singleton, exists_eq_left, pagesIn, PAGE_SIZE,
    Set.mem_ofPred_eq]
  omega

theorem residentSpace_user (off : 0x400 ∉ img) : UserAreas img residentSpace.vmas := by
  intro v hv
  refine ⟨?_, ?_, ?_, ?_, fun q inside image => off ?_⟩
  · obtain rfl := List.mem_singleton.mp hv
    decide
  · exact (residentSpace_wf.proper v hv).start
  · exact (residentSpace_wf.proper v hv).stop
  · obtain rfl := List.mem_singleton.mp hv
    decide
  · rwa [← residentSpace_pages.mp ⟨v, hv, inside⟩]

/-- The process owns its address space, and nobody else holds anything. -/
theorem residentStart_owned (off : 0x400 ∉ img) (start : residentStart = .ok st) :
    ∃ S tab, PoolInv S st ∧ Owned img st residentSpace.owner residentSpace.pml4 tab ∧
      (∀ o b, o ≠ .space 0 → ¬ st.holds o b) ∧
      (∀ q, UserPage img q → frameAt st.mem tab q ≠ none → q = 0x400) ∧
      S ⊆ Set.Ico 0x100000 0x120000 := by
  obtain ⟨b, region, rest⟩ := bind_eq_ok.mp start
  obtain ⟨⟨root, st₀⟩, new, rest⟩ := bind_eq_ok.mp rest
  obtain rfl : root = some 0x100000 := by
    by_contra other
    simp [other] at rest
  obtain ⟨⟨r, st₁⟩, fault, rest⟩ := bind_eq_ok.mp rest
  obtain rfl := Except.ok.inj rest
  obtain ⟨free, buddy, -⟩ := Buddy.addRegion_spec (Buddy.inv_new fun _ => 0) (by simp) (by decide)
    (by decide) region
  have inv₀ : PoolInv _ ⟨b.mem, ⟨b.pool, [], []⟩⟩ := ⟨⟨free, buddy⟩, trivial⟩
  have nobody : ∀ o b', ¬ Machine.holds ⟨b.mem, ⟨b.pool, [], []⟩⟩ o b' := by
    simp [Machine.holds, outstanding]
  obtain ⟨step₀, made⟩ := newUser_owned img inv₀ (nobody _) new
  obtain ⟨own₀, -, empty⟩ := made _ rfl
  obtain ⟨tab, step, own, backs⟩ :=
    Owned.handlePageFault step₀.inv own₀ residentSpace_wf (residentSpace_user off) fault
  refine ⟨_, tab, step.inv, own, fun o b' ne held => ?_, fun q user mapped => ?_, ?_⟩
  · exact nobody _ _ ((step₀.holds ne).mp ((step.holds ne).mp held))
  · rcases backs q user with same | ⟨-, page, -⟩
    · rw [pageAt_eq_none.mpr (empty q), pageAt_eq_none] at same
      exact absurd (by rw [frameAt, same]; rfl) mapped
    · exact page
  · rw [Set.union_empty]
    rintro x ⟨low, high⟩
    simp only [PAGE_SIZE] at low high
    exact ⟨by omega, by omega⟩

end Ferrum
