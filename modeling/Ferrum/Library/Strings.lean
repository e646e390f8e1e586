import Ferrum.Library.Memory
import Mathlib

/-!
# Byte strings in memory

A memory holds a byte string at an address if its bytes stand there in order. A string that ends in a
null byte is found again from its address alone.
-/
namespace Ferrum

namespace Memory

variable {m m' : Memory} {a n : Nat} {bs cs : List UInt8}

/-- The bytes of a string stand in memory, from an address on. -/
def Holds (m : Memory) (a : Nat) (bs : List UInt8) : Prop :=
  ∀ i, (h : i < bs.length) → m (a + i) = bs[i]

theorem holds_nil (m : Memory) (a : Nat) : m.Holds a [] := nofun

theorem holds_writeBytes (m : Memory) (a : Nat) (bs : List UInt8) : (m.writeBytes a bs).Holds a bs := by
  intro i hi
  rw [writeBytes, if_pos (by omega), Nat.add_sub_cancel_left, List.getD_eq_getElem _ _ hi]

theorem Holds.congr (h : m.Holds a bs) (same : ∀ x, a ≤ x → x < a + bs.length → m' x = m x) :
    m'.Holds a bs := by
  intro i hi
  rw [same (a + i) (by omega) (by omega), h i hi]

theorem holds_cons {b : UInt8} : m.Holds a (b :: bs) ↔ m a = b ∧ m.Holds (a + 1) bs := by
  constructor
  · intro h
    refine ⟨h 0 (by simp), fun i hi => ?_⟩
    have next : m (a + (i + 1)) = bs[i] := h (i + 1) (Nat.succ_lt_succ hi)
    rwa [show a + (i + 1) = a + 1 + i by omega] at next
  · rintro ⟨head, tail⟩ i hi
    cases i with
    | zero => exact head
    | succ i =>
      have inside : i < bs.length := Nat.lt_of_succ_lt_succ hi
      have next : m (a + 1 + i) = bs[i] := tail i inside
      rwa [show a + 1 + i = a + (i + 1) by omega] at next

theorem holds_append : m.Holds a (bs ++ cs) ↔ m.Holds a bs ∧ m.Holds (a + bs.length) cs := by
  induction bs generalizing a with
  | nil => simp [holds_nil]
  | cons b bs ih =>
    rw [List.cons_append, holds_cons, holds_cons, ih, and_assoc, List.length_cons, Nat.add_assoc,
      Nat.add_comm 1]

/-- The string at an address, up to its null byte, which must be among the next `n` bytes. -/
def cstr (m : Memory) : Nat → Nat → Option (List UInt8)
  | _, 0 => none
  | a, n + 1 => if m a = 0 then some [] else (cstr m (a + 1) n).map (m a :: ·)

theorem cstr_eq_some : m.cstr a n = some bs ↔ m.Holds a (bs ++ [0]) ∧ 0 ∉ bs ∧ bs.length < n := by
  induction n generalizing a bs with
  | zero => simp [cstr]
  | succ n ih =>
    rw [cstr]
    by_cases zero : m a = 0
    · rw [if_pos zero]
      constructor
      · rintro ⟨⟩
        exact ⟨holds_cons.mpr ⟨zero, holds_nil _ _⟩, by simp, by simp⟩
      · rintro ⟨holds, clean, -⟩
        cases bs with
        | nil => rfl
        | cons b bs =>
          -- the string would begin with a null byte
          have first := (holds_cons.mp holds).1
          exact absurd (by rw [← zero, first]; exact List.mem_cons_self) clean
    · rw [if_neg zero, Option.map_eq_some_iff]
      constructor
      · rintro ⟨rest, found, rfl⟩
        obtain ⟨holds, clean, short⟩ := ih.mp found
        refine ⟨holds_cons.mpr ⟨rfl, holds⟩, ?_, by simpa using short⟩
        rw [List.mem_cons, not_or]
        exact ⟨Ne.symm zero, clean⟩
      · rintro ⟨holds, clean, short⟩
        cases bs with
        | nil => exact absurd (holds_cons.mp holds).1 zero
        | cons b bs =>
          obtain ⟨first, rest⟩ := holds_cons.mp holds
          rw [List.mem_cons, not_or] at clean
          exact ⟨bs, ih.mpr ⟨rest, clean.2, by simpa using short⟩, by rw [first]⟩

end Memory
end Ferrum
