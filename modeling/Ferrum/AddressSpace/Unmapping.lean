import Ferrum.AddressSpace.Faults

/-!
# What munmap does

`munmap` looks for the area that starts at the address, takes the whole of it out of the list, and
clears the pages of the range it was given. The two agree only if the area ends with the range: an area
that `add_vma` has joined with its neighbour loses more than was asked for. The page tables know the low
48 bits of an address only, so the range has to lie in the user half; `mmap` does not ask for that.
-/
namespace Ferrum

open Machine (Local PoolInv Own)

variable {S img : Set Nat} {st st' : Machine Pool} {tab : Tables} {p : Profile} {addr size : Nat}
  {space space' : AddressSpace}

/-- The area that starts at `start` ends within the range, and no other area meets the range. -/
def Whole (vmas : List VMA) (start stop : Nat) : Prop :=
  ∃ v ∈ vmas, v.start = start ∧ v.stop ≤ stop ∧
    ∀ w ∈ vmas, w ≠ v → w.stop ≤ start ∨ stop ≤ w.start

theorem munmap_range (p : Profile) (range : UserRange img addr (addr + roundUp size)) :
    Vmas.range p addr size = .ok (addr, addr + roundUp size) := by
  have below := range.below
  have grows := le_roundUp size
  have aligned := roundUp_of_dvd range.first
  have low : addr + PAGE_SIZE < 2 ^ 64 := by simp only [PAGE_SIZE]; omega
  have high : roundUp addr + size + PAGE_SIZE < 2 ^ 64 := by
    rw [aligned]
    simp only [PAGE_SIZE]
    omega
  rw [Vmas.range_ok p low high, aligned]

theorem Owned.munmap (inv : PoolInv S st) (own : Owned img st space.owner space.pml4 tab)
    (range : UserRange img addr (addr + roundUp size)) {v : VMA} {vmas : List VMA}
    (found : Vmas.removeVma space.vmas addr = some (v, vmas)) (p : Profile) :
    ∃ st', space.munmap p st addr size = .ok (.ok (), { space with vmas }, st') ∧
      Cleared S img space.owner space.pml4 tab (pagesIn addr (addr + roundUp size)) st st' := by
  obtain ⟨st', run, cleared⟩ := own.forPages (fun inv own user _ => own.unmapPage inv user p) inv range
    (by omega) p
  exact ⟨st', by simp [AddressSpace.munmap, munmap_range p range, found, run], cleared⟩

/-- Outside of the user half `munmap` reaches other pages: the region at `2 ^ 48 + 0x400000` is an area
of its own, and unmapping it takes the page at `0x400000` away. -/
theorem munmap_beyond : (do
    let st ← residentStart
    let (r, space) ← residentSpace.mmap .dev 0x1_0000_0040_0000 4096 .rw .anonymous
    let before ← Machine.translate st.mem space.pml4 0x400000
    let (r', _, st) ← space.munmap .dev st 0x1_0000_0040_0000 4096
    let after ← Machine.translate st.mem space.pml4 0x400000
    return (r.toOption, before.isSome, r'.isOk, after.isSome)) =
      Except.ok (some 0x1_0000_0040_0000, true, true, false) := by
  decide +kernel

end Ferrum
