import Ferrum.Paging.Model

/-!
# Words of a page table

An entry packs a page-aligned address below `2 ^ 52` and the flags into one word; taking it apart
returns both. The rest of the development only uses these laws, never the bit patterns.
-/
namespace Ferrum

/-- An address that fits the address field of an entry. -/
def PageAddr (p : Nat) : Prop := PAGE_SIZE ∣ p ∧ p < 2 ^ 52

instance (p : Nat) : Decidable (PageAddr p) := inferInstanceAs (Decidable (_ ∧ _))

theorem PageAddr.testBit {p : Nat} (h : PageAddr p) {i : Nat} (hi : i < 12 ∨ 52 ≤ i) :
    p.testBit i = false := by
  obtain ⟨⟨k, rfl⟩, small⟩ := h
  rcases hi with low | high
  · have eq : PAGE_SIZE * k = 2 ^ 12 * k := rfl
    rw [eq, Nat.testBit_two_pow_mul]
    simp [Nat.not_le.mpr low]
  · exact Nat.testBit_lt_two_pow (lt_of_lt_of_le small (Nat.pow_le_pow_right (by omega) high))

theorem PageFlags.testBit_bits (f : PageFlags) (i : Nat) : f.bits.testBit i =
    (f.present && i = 0 || f.writable && i = 1 || f.user && i = 2 || f.accessed && i = 5 ||
      f.dirty && i = 6 || f.huge && i = 7 || f.noExec && i = 63) := by
  have shifted (b : Bool) (k : Nat) : (b.toNat <<< k).testBit i = (b && decide (i = k)) := by
    rw [Nat.testBit_shiftLeft]
    rcases Nat.lt_trichotomy i k with below | rfl | above
    · simp [Nat.not_le.mpr below, Nat.ne_of_lt below]
    · cases b <;> simp
    · obtain ⟨n, hn⟩ : ∃ n, i - k = n + 1 := ⟨i - k - 1, by omega⟩
      have other : i ≠ k := by omega
      cases b <;> simp [hn, Nat.testBit_succ, other]
  simp only [bits, Nat.testBit_or, shifted]

theorem PageFlags.bits_lt (f : PageFlags) : f.bits < 2 ^ 64 := by
  apply Nat.lt_pow_two_of_testBit
  intro i hi
  rw [testBit_bits]
  simp
  omega

namespace Entry

variable {p : Nat} {f : PageFlags}

theorem isPresent_eq (e : Nat) : isPresent e = e.testBit 0 := by
  have swap : e &&& 1 <<< 0 = 1 &&& e >>> 0 := Nat.and_comm _ _
  rw [isPresent, swap, Nat.testBit]

@[simp] theorem isPresent_zero : isPresent 0 = false := rfl

theorem flags_present (e : Nat) : (flags e).present = isPresent e := (isPresent_eq e).symm

theorem testBit_newPage (h : PageAddr p) {i : Nat} (hi : i < 12 ∨ 52 ≤ i) :
    (newPage p f).testBit i = f.bits.testBit i := by
  rw [newPage, Nat.testBit_or, h.testBit hi, Bool.false_or]

@[simp] theorem isPresent_newPage (h : PageAddr p) : isPresent (newPage p f) = f.present := by
  rw [isPresent_eq, testBit_newPage h (by omega), PageFlags.testBit_bits]
  simp

@[simp] theorem flags_newPage (h : PageAddr p) : flags (newPage p f) = f := by
  unfold flags PageFlags.fromBitsTruncate
  congr 1 <;> rw [testBit_newPage h (by omega), PageFlags.testBit_bits] <;> simp

@[simp] theorem physAddr_newPage (h : PageAddr p) : physAddr (newPage p f) = p := by
  have mask : PHYS_ADDR_MASK = 2 ^ 12 * (2 ^ 40 - 1) := by decide
  apply Nat.eq_of_testBit_eq
  intro i
  rw [physAddr, Nat.testBit_and, mask, Nat.mul_comm, Nat.mul_comm, Nat.testBit_two_pow_mul,
    Nat.testBit_two_pow_sub_one]
  by_cases inside : 12 ≤ i ∧ i < 52
  · have noFlag : f.bits.testBit i = false := by
      rw [PageFlags.testBit_bits]
      simp
      omega
    rw [newPage, Nat.testBit_or, noFlag]
    simp [inside.1, show i - 12 < 40 by omega]
  · rw [h.testBit (i := i) (by omega)]
    simp
    omega

theorem newPage_lt (h : PageAddr p) : newPage p f < 2 ^ 64 :=
  Nat.or_lt_two_pow (lt_of_lt_of_le h.2 (Nat.pow_le_pow_right (by omega) (by omega))) f.bits_lt

/-- A table entry is a page entry; the source has two constructors for the two uses. -/
theorem newTable_eq (p : Nat) (f : PageFlags) : newTable p f = newPage p f := rfl

end Entry
end Ferrum
