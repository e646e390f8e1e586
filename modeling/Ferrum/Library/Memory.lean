import Mathlib

/-!
# Byte-addressed memory with little-endian words

Memory is a total function from addresses to bytes. Every store is defined pointwise, so a frame
fact is a comparison of intervals and never an induction over the bytes that were written.
`Set.EqOn` says that two memories agree on a set of addresses; reads are stable under it.
-/
namespace Ferrum

abbrev Memory := Nat → UInt8

namespace Memory

/-- The little-endian value of `n` bytes, starting at an address. -/
def readLe (m : Memory) : Nat → Nat → Nat
  | _, 0 => 0
  | a, n + 1 => (m a).toNat + 256 * readLe m (a + 1) n

/-- Store the low `n` bytes of `v` at `a`. -/
def writeLe (m : Memory) (a n v : Nat) : Memory := fun x =>
  if a ≤ x ∧ x < a + n then UInt8.ofNat (v / 256 ^ (x - a)) else m x

def read64 (m : Memory) (a : Nat) : Nat := m.readLe a 8
def write64 (m : Memory) (a v : Nat) : Memory := m.writeLe a 8 v

/-- `core::ptr::write_bytes`. -/
def fill (m : Memory) (a n : Nat) (b : UInt8) : Memory := fun x =>
  if a ≤ x ∧ x < a + n then b else m x

/-- `core::ptr::copy_nonoverlapping` between two places of memory. -/
def copy (m : Memory) (src dst n : Nat) : Memory := fun x =>
  if dst ≤ x ∧ x < dst + n then m (src + (x - dst)) else m x

/-- Store a byte string. -/
def writeBytes (m : Memory) (a : Nat) (bs : List UInt8) : Memory := fun x =>
  if a ≤ x ∧ x < a + bs.length then bs.getD (x - a) 0 else m x

theorem readLe_congr {m m' : Memory} {a n : Nat} (h : ∀ x, a ≤ x → x < a + n → m' x = m x) :
    m'.readLe a n = m.readLe a n := by
  induction n generalizing a with
  | zero => rfl
  | succ n ih =>
    have head : m' a = m a := h a (by omega) (by omega)
    have tail : m'.readLe (a + 1) n = m.readLe (a + 1) n :=
      ih fun x hl hr => h x (by omega) (by omega)
    simp only [readLe, head, tail]

theorem readLe_lt (m : Memory) (a n : Nat) : m.readLe a n < 256 ^ n := by
  induction n generalizing a with
  | zero => simp [readLe]
  | succ n ih =>
    have head : (m a).toNat < 256 := (m a).toNat_lt
    have tail := ih (a + 1)
    simp only [readLe, Nat.pow_succ]
    omega

theorem writeLe_outside {m : Memory} {a n v x : Nat} (h : x < a ∨ a + n ≤ x) :
    m.writeLe a n v x = m x := by
  simp only [writeLe, ite_eq_right_iff]
  omega

/-- Reading back part of a stored value: `k` bytes from offset `j`. -/
theorem readLe_writeLe (m : Memory) (a n v : Nat) {j k : Nat} (h : j + k ≤ n) :
    (m.writeLe a n v).readLe (a + j) k = v / 256 ^ j % 256 ^ k := by
  induction k generalizing j with
  | zero => simp [readLe, Nat.mod_one]
  | succ k ih =>
    have byte : (m.writeLe a n v (a + j)).toNat = v / 256 ^ j % 256 := by
      have inside : a ≤ a + j ∧ a + j < a + n := by omega
      simp [writeLe, inside]
    have rest : (m.writeLe a n v).readLe (a + j + 1) k = v / 256 ^ j / 256 % 256 ^ k := by
      rw [Nat.add_assoc, ih (by omega), Nat.pow_succ, Nat.div_div_eq_div_mul]
    rw [readLe, byte, rest, Nat.pow_succ', Nat.mod_mul]

@[simp] theorem read64_write64 (m : Memory) (a v : Nat) :
    (m.write64 a v).read64 a = v % 2 ^ 64 := by
  have h := readLe_writeLe m a 8 v (j := 0) (k := 8) (by omega)
  simpa [read64, write64] using h

theorem read64_lt (m : Memory) (a : Nat) : m.read64 a < 2 ^ 64 := by
  simpa [read64] using m.readLe_lt a 8

theorem read64_congr {m m' : Memory} {a : Nat} (h : ∀ x, a ≤ x → x < a + 8 → m' x = m x) :
    m'.read64 a = m.read64 a := readLe_congr h

theorem read64_eqOn {m m' : Memory} {a : Nat} {S : Set Nat} (h : Set.EqOn m' m S)
    (sub : Set.Ico a (a + 8) ⊆ S) : m'.read64 a = m.read64 a :=
  read64_congr fun _ hl hr => h (sub ⟨hl, hr⟩)

theorem write64_outside {m : Memory} {a v x : Nat} (h : x < a ∨ a + 8 ≤ x) :
    m.write64 a v x = m x := writeLe_outside h

theorem read64_write64_of_disjoint {m : Memory} {a b v : Nat} (h : b + 8 ≤ a ∨ a + 8 ≤ b) :
    (m.write64 a v).read64 b = m.read64 b :=
  read64_congr fun _ _ _ => write64_outside (by omega)

theorem fill_outside {m : Memory} {a n x : Nat} {b : UInt8} (h : x < a ∨ a + n ≤ x) :
    m.fill a n b x = m x := by
  simp only [fill, ite_eq_right_iff]
  omega

theorem readLe_zero {m : Memory} {a n : Nat} (h : ∀ x, a ≤ x → x < a + n → m x = 0) :
    m.readLe a n = 0 := by
  induction n generalizing a with
  | zero => rfl
  | succ n ih =>
    have tail : m.readLe (a + 1) n = 0 := ih fun x hl hr => h x (by omega) (by omega)
    simp [readLe, tail, h a (by omega) (by omega)]

theorem read64_fill_zero {m : Memory} {a n b : Nat} (lo : a ≤ b) (hi : b + 8 ≤ a + n) :
    (m.fill a n 0).read64 b = 0 :=
  readLe_zero fun x hl hr => by
    have inside : a ≤ x ∧ x < a + n := by omega
    simp [fill, inside]

theorem copy_inside {m : Memory} {src dst n i : Nat} (h : i < n) :
    m.copy src dst n (dst + i) = m (src + i) := by
  have inside : dst ≤ dst + i ∧ dst + i < dst + n := by omega
  simp [copy, inside]

theorem copy_outside {m : Memory} {src dst n x : Nat} (h : x < dst ∨ dst + n ≤ x) :
    m.copy src dst n x = m x := by
  simp only [copy, ite_eq_right_iff]
  omega

theorem writeBytes_outside {m : Memory} {a x : Nat} {bs : List UInt8}
    (h : x < a ∨ a + bs.length ≤ x) : m.writeBytes a bs x = m x := by
  simp only [writeBytes, ite_eq_right_iff]
  omega

end Memory
end Ferrum
