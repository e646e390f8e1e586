import Mathlib

/-!
# Null-terminated chains

A singly linked list whose links live at the nodes' own addresses, with `0` as the null address.
`Chain next h l` says that the links met from `h` on spell out exactly `l`. The list is determined
by `next` and `h`, and therefore has no repetition: a cycle would never reach the null address.
-/
namespace Ferrum

/-- Following `next` from `h` visits `l` in order and ends in the null address. -/
def Chain (next : Nat → Nat) : Nat → List Nat → Prop
  | h, [] => h = 0
  | h, a :: l => h = a ∧ a ≠ 0 ∧ Chain next (next a) l

namespace Chain

variable {next next' : Nat → Nat} {h a p : Nat} {l l' xs ys : List Nat}

theorem congr (c : Chain next h l) (same : ∀ a ∈ l, next' a = next a) : Chain next' h l := by
  induction l generalizing h with
  | nil => exact c
  | cons a l ih =>
    obtain ⟨rfl, nonzero, tail⟩ := c
    refine ⟨rfl, nonzero, ?_⟩
    rw [same h (by simp)]
    exact ih tail fun b hb => same b (by simp [hb])

/-- A chain is a function of its links and its head. -/
theorem unique (c : Chain next h l) (c' : Chain next h l') : l = l' := by
  induction l generalizing h l' with
  | nil =>
    cases l' with
    | nil => rfl
    | cons b l' => exact absurd (c'.1.symm.trans c) c'.2.1
  | cons a l ih =>
    cases l' with
    | nil => exact absurd (c.1.symm.trans c') c.2.1
    | cons b l' =>
      obtain ⟨rfl, _, tail⟩ := c
      obtain ⟨rfl, _, tail'⟩ := c'
      rw [ih tail tail']

theorem suffix (c : Chain next h (xs ++ a :: ys)) : Chain next a (a :: ys) := by
  induction xs generalizing h with
  | nil => exact ⟨rfl, c.2⟩
  | cons x xs ih => exact ih c.2.2

/-- A node met twice would be followed by two different tails. -/
theorem nodup (c : Chain next h l) : l.Nodup := by
  induction l generalizing h with
  | nil => simp
  | cons a l ih =>
    obtain ⟨rfl, nonzero, tail⟩ := c
    refine List.nodup_cons.mpr ⟨fun mem => ?_, ih tail⟩
    obtain ⟨xs, ys, rfl⟩ := List.append_of_mem mem
    have whole : Chain next h (h :: (xs ++ h :: ys)) := ⟨rfl, nonzero, tail⟩
    have same := congrArg List.length (whole.unique tail.suffix)
    simp at same
    omega

theorem head_eq_zero (c : Chain next h l) : h = 0 ↔ l = [] := by
  cases l with
  | nil => simpa using (show h = 0 from c)
  | cons a l =>
    obtain ⟨rfl, nonzero, _⟩ := c
    simpa using nonzero

/-- Unlinking the node after `p`: the predecessor takes over its link. -/
theorem unlink (c : Chain next h (xs ++ p :: a :: ys)) :
    Chain (Function.update next p (next a)) h (xs ++ p :: ys) := by
  have distinct := c.nodup
  induction xs generalizing h with
  | nil =>
    obtain ⟨rfl, nonzero, link, _, tail⟩ := c
    refine ⟨rfl, nonzero, ?_⟩
    rw [Function.update_self]
    refine tail.congr fun b hb => Function.update_of_ne ?_ _ _
    rintro rfl
    simp [hb] at distinct
  | cons x xs ih =>
    obtain ⟨rfl, nonzero, tail⟩ := c
    have other : h ≠ p := by
      rintro rfl
      simp at distinct
    refine ⟨rfl, nonzero, ?_⟩
    rw [Function.update_of_ne other]
    exact ih tail (List.nodup_cons.mp distinct).2

end Chain
end Ferrum
