import Ferrum.Library.Memory
import Ferrum.Library.Outcome
import Mathlib

/-!
# Machine words, build profiles and abnormal stops

Kernel integers are natural numbers below `2 ^ 64`. The two build profiles of the workspace differ
in one thing that matters here: the `dev` profile aborts on an arithmetic overflow and runs the
`debug_assertions` checks, the `release` profile wraps and skips them. Every kernel function that
can abort returns in `Except Stop`.

Physical memory is reached through the higher-half window, so an access at `phys_to_virt p` is an
access to byte `p`; `physToVirt` itself only has to be asked whether the window contains `p`.
-/
namespace Ferrum

def PAGE_SIZE : Nat := 4096
def KERNEL_VIRT_BASE : Nat := 0xffff_8000_0000_0000

/-- Why the kernel produced no further state. All but the last are panics of the source; the last
stands for a loop that does not end. -/
inductive Stop where
  | overflow
  | indexOutOfBounds
  | physToVirt (phys : Nat)
  | pushNull (order : Nat)
  | popEmpty (order : Nat)
  | listCycle (caller : String) (order count : Nat)
  | listLength (caller : String) (order walked counted : Nat)
  | ownersFull (capacity : Nat)
  | tableAtZero
  | forkSameFrame (phys : Nat)
  | expect (message : String)
  | diverges
  deriving DecidableEq, Repr

inductive Profile where
  | dev
  | release
  deriving DecidableEq, Repr

namespace Profile

def add : Profile → Nat → Nat → Except Stop Nat
  | .dev, a, b => if a + b < 2 ^ 64 then .ok (a + b) else .error .overflow
  | .release, a, b => .ok ((a + b) % 2 ^ 64)

def sub : Profile → Nat → Nat → Except Stop Nat
  | .dev, a, b => if b ≤ a then .ok (a - b) else .error .overflow
  | .release, a, b => .ok ((2 ^ 64 + a - b) % 2 ^ 64)

theorem add_ok (p : Profile) {a b : Nat} (h : a + b < 2 ^ 64) : p.add a b = .ok (a + b) := by
  cases p with
  | dev => exact if_pos h
  | release => rw [add, Nat.mod_eq_of_lt h]

theorem lt_of_dev_add_ok {a b c : Nat} (h : dev.add a b = .ok c) : a + b < 2 ^ 64 := by
  by_contra large
  rw [add, if_neg large] at h
  cases h

theorem add_lt {p : Profile} {a b n : Nat} (h : p.add a b = .ok n) : n < 2 ^ 64 := by
  cases p with
  | dev =>
    rw [Profile.add] at h
    split at h
    next fits =>
      cases h
      exact fits
    next => cases h
  | release =>
    cases h
    exact Nat.mod_lt _ (by decide)

theorem sub_ok (p : Profile) {a b : Nat} (h : b ≤ a) (ha : a < 2 ^ 64) :
    p.sub a b = .ok (a - b) := by
  cases p with
  | dev => exact if_pos h
  | release => rw [sub, show 2 ^ 64 + a - b = a - b + 2 ^ 64 by omega, Nat.add_mod_right,
      Nat.mod_eq_of_lt (by omega)]

end Profile

/-- A slice of bytes is not longer than `isize::MAX`. -/
abbrev Slice := { bytes : List UInt8 // bytes.length < 2 ^ 63 }

/-- `!x` on a 64-bit word. -/
def not64 (x : Nat) : Nat := 2 ^ 64 - 1 - x

def alignDown (addr align : Nat) : Nat := addr &&& not64 (align - 1)

/-- `(addr + align - 1) & !(align - 1)`, evaluated from left to right. -/
def alignUp (p : Profile) (addr align : Nat) : Except Stop Nat := do
  let past ← p.add addr align
  let last ← p.sub past 1
  return last &&& not64 (align - 1)

theorem and_not64_two_pow {a k : Nat} (ha : a < 2 ^ 64) (hk : k ≤ 64) :
    a &&& not64 (2 ^ k - 1) = a / 2 ^ k * 2 ^ k := by
  have mask : not64 (2 ^ k - 1) = 2 ^ k * (2 ^ (64 - k) - 1) := by
    have split : 2 ^ k * 2 ^ (64 - k) = 2 ^ 64 := by rw [← Nat.pow_add]; congr 1; omega
    have pos := Nat.two_pow_pos k
    rw [not64, Nat.mul_sub, split]
    omega
  apply Nat.eq_of_testBit_eq
  intro i
  rw [mask, Nat.mul_comm _ (2 ^ k)]
  simp only [Nat.testBit_and, Nat.testBit_two_pow_mul, Nat.testBit_two_pow_sub_one,
    Nat.testBit_div_two_pow]
  by_cases low : k ≤ i
  · simp only [ge_iff_le, low, decide_true, Bool.true_and, Nat.sub_add_cancel low]
    by_cases high : i < 64
    · simp [show i - k < 64 - k by omega]
    · have := Nat.testBit_lt_two_pow (lt_of_lt_of_le ha (Nat.pow_le_pow_right (by omega)
        (show 64 ≤ i by omega)))
      simp [this]
  · simp [low]

theorem alignDown_page {a : Nat} (ha : a < 2 ^ 64) :
    alignDown a PAGE_SIZE = a / PAGE_SIZE * PAGE_SIZE :=
  and_not64_two_pow (k := 12) ha (by omega)

/-- In the release profile, rounding up past the top of the address space wraps to `0`. -/
theorem alignUp_release (a : Nat) : alignUp .release a PAGE_SIZE =
    .ok ((a + (PAGE_SIZE - 1)) % 2 ^ 64 / PAGE_SIZE * PAGE_SIZE) := by
  have last : (2 ^ 64 + (a + PAGE_SIZE) % 2 ^ 64 - 1) % 2 ^ 64 = (a + (PAGE_SIZE - 1)) % 2 ^ 64 := by
    simp only [PAGE_SIZE]
    omega
  have round := and_not64_two_pow (a := (a + (PAGE_SIZE - 1)) % 2 ^ 64) (k := 12)
    (Nat.mod_lt _ (by omega)) (by omega)
  simp only [alignUp, Profile.add, Profile.sub, ok_bind, last, pure_eq_ok]
  exact congrArg Except.ok round

theorem alignUp_dev_error {a : Nat} (h : 2 ^ 64 ≤ a + PAGE_SIZE) :
    alignUp .dev a PAGE_SIZE = .error .overflow := by
  rw [alignUp, Profile.add, if_neg (Nat.not_lt.mpr h), error_bind]

/-- Away from the top of the address space, both profiles round up in the same way. -/
theorem alignUp_page (p : Profile) {a : Nat} (h : a + PAGE_SIZE < 2 ^ 64) :
    alignUp p a PAGE_SIZE = .ok ((a + (PAGE_SIZE - 1)) / PAGE_SIZE * PAGE_SIZE) := by
  have past : 1 ≤ a + PAGE_SIZE := by simp [PAGE_SIZE]
  have same : alignUp p a PAGE_SIZE = alignUp .release a PAGE_SIZE := by
    simp only [alignUp, p.add_ok h, Profile.release.add_ok h, ok_bind, p.sub_ok past h,
      Profile.release.sub_ok past h]
  rw [same, alignUp_release, Nat.mod_eq_of_lt (by simp only [PAGE_SIZE] at h ⊢; omega)]

/-- `phys_to_virt`: the address of a physical byte in the higher-half window. -/
def physToVirt (phys : Nat) : Except Stop Nat :=
  if KERNEL_VIRT_BASE + phys < 2 ^ 64 then .ok (KERNEL_VIRT_BASE + phys)
  else .error (.physToVirt phys)

/-- The physical addresses that the higher-half window reaches. -/
def DIRECT_MAP_END : Nat := 2 ^ 47

theorem physToVirt_ok {phys : Nat} (h : phys < DIRECT_MAP_END) :
    physToVirt phys = .ok (KERNEL_VIRT_BASE + phys) :=
  if_pos (by simp only [KERNEL_VIRT_BASE, DIRECT_MAP_END] at *; omega)

theorem lt_of_physToVirt_ok {phys v : Nat} (h : physToVirt phys = .ok v) :
    phys < DIRECT_MAP_END := by
  simp only [physToVirt] at h
  split at h
  case isTrue inside => simp only [KERNEL_VIRT_BASE, DIRECT_MAP_END] at *; omega
  case isFalse => cases h

/-- Physical memory together with the state of whoever hands it out. -/
structure Machine (A : Type) where
  mem : Memory
  pool : A

end Ferrum
