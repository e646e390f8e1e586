import Mathlib

/-!
# Tables of optional entries

A table is a list of slots, each empty or holding an entry; entries keep their place while others
come and go. Operations are described by what each slot holds afterwards, and a numerical total over
the entries is tracked through them.
-/
namespace Ferrum.Slots

variable {α : Type*} {l : List (Option α)} {i j : Nat} {a b : α} {o : Option α}

def get (l : List (Option α)) (i : Nat) : Option α := l[i]?.join

def update (l : List (Option α)) (i : Nat) (f : α → α) : List (Option α) := l.modify i (Option.map f)

def firstFree (l : List (Option α)) : Option Nat := l.findIdx? Option.isNone

/-- Put an entry in the first empty slot, or in a new one. -/
def insert (l : List (Option α)) (a : α) : List (Option α) :=
  match firstFree l with
  | some i => l.set i (some a)
  | none => l ++ [some a]

/-- The sum of a weight over all entries. -/
def tally (w : α → Nat) (l : List (Option α)) : Nat := (l.map fun o => o.elim 0 w).sum

@[simp] theorem get_nil : get ([] : List (Option α)) i = none := rfl

@[simp] theorem get_cons_zero : get (o :: l) 0 = o := by cases o <;> rfl

@[simp] theorem get_cons_succ : get (o :: l) (i + 1) = get l i := by simp [get]

theorem lt_of_get (h : get l i = some a) : i < l.length := by
  by_contra outside
  simp [get, List.getElem?_eq_none (Nat.le_of_not_lt outside)] at h

theorem get_eq_some_iff : get l i = some a ↔ l[i]? = some (some a) := by
  simp [get, Option.join_eq_some_iff]

theorem get_set (inside : i < l.length) : get (l.set i o) j = if j = i then o else get l j := by
  simp only [get, List.getElem?_set]
  by_cases same : j = i
  · subst same
    simp [inside]
  · simp [same, Ne.symm same]

theorem get_update (f : α → α) :
    get (update l i f) j = if j = i then (get l j).map f else get l j := by
  simp only [get, update, List.getElem?_modify]
  by_cases same : j = i
  · subst same
    cases h : l[j]? with
    | none => simp
    | some o => cases o <;> simp
  · simp [same, Ne.symm same]

@[simp] theorem length_update (f : α → α) : (update l i f).length = l.length := by simp [update]

theorem get_append_one : get (l ++ [some a]) j = if j = l.length then some a else get l j := by
  simp only [get, List.getElem?_append]
  split
  · rw [if_neg (by omega)]
  · by_cases same : j = l.length
    · simp [same]
    · have past : l.length < j := by omega
      simp [same, List.getElem?_eq_none (show l.length ≤ j by omega),
        List.getElem?_eq_none (show [some a].length ≤ j - l.length by simp; omega)]

theorem firstFree_spec (h : firstFree l = some i) : i < l.length ∧ get l i = none := by
  obtain ⟨inside, empty, -⟩ := List.findIdx?_eq_some_iff_getElem.mp h
  refine ⟨inside, ?_⟩
  simpa [get, List.getElem?_eq_getElem inside] using empty

/-- An insertion fills one empty slot and leaves the others alone. -/
theorem insert_spec (l : List (Option α)) (a : α) :
    ∃ i, get l i = none ∧ ∀ j, get (insert l a) j = if j = i then some a else get l j := by
  unfold insert
  cases h : firstFree l with
  | none =>
    refine ⟨l.length, ?_, fun j => get_append_one⟩
    simp [get]
  | some i =>
    obtain ⟨inside, empty⟩ := firstFree_spec h
    exact ⟨i, empty, fun j => get_set inside⟩

/-! ## Totals -/

section Tally

variable (w : α → Nat)

@[simp] theorem tally_nil : tally w ([] : List (Option α)) = 0 := rfl

@[simp] theorem tally_cons : tally w (o :: l) = o.elim 0 w + tally w l := by simp [tally]

@[simp] theorem tally_append (l' : List (Option α)) : tally w (l ++ l') = tally w l + tally w l' := by
  simp [tally]

/-- Replacing the contents of one slot exchanges one summand. -/
theorem tally_set (inside : i < l.length) :
    tally w (l.set i o) + (get l i).elim 0 w = tally w l + o.elim 0 w := by
  induction l generalizing i with
  | nil => simp at inside
  | cons x l ih =>
    cases i with
    | zero => simp only [List.set_cons_zero, tally_cons, get_cons_zero]; omega
    | succ i =>
      have := ih (Nat.lt_of_succ_lt_succ inside)
      simp only [List.set_cons_succ, tally_cons, get_cons_succ]
      omega

theorem update_eq_set (h : get l i = some a) (f : α → α) : update l i f = l.set i (some (f a)) := by
  have held := get_eq_some_iff.mp h
  apply List.ext_getElem?
  intro j
  rw [update, List.getElem?_modify, List.getElem?_set]
  by_cases same : i = j
  · subst same
    rw [held, if_pos rfl, if_pos (lt_of_get h)]
    simp
  · simp [same]

theorem update_of_none (h : get l i = none) (f : α → α) : update l i f = l := by
  apply List.ext_getElem?
  intro j
  rw [update, List.getElem?_modify]
  by_cases same : i = j
  · subst same
    cases held : l[i]? with
    | none => simp
    | some o =>
      cases o with
      | none => simp
      | some a => simp [get, held] at h
  · simp [same]

theorem tally_insert : tally w (insert l a) = tally w l + w a := by
  unfold insert
  cases h : firstFree l with
  | none => simp
  | some i =>
    obtain ⟨inside, empty⟩ := firstFree_spec h
    simpa [empty] using tally_set w (o := some a) inside

theorem le_tally (h : get l i = some a) : w a ≤ tally w l := by
  have := tally_set w (o := none) (lt_of_get h)
  simp only [h, Option.elim_some, Option.elim_none] at this
  omega

theorem tally_eq_zero_iff : tally w l = 0 ↔ ∀ i a, get l i = some a → w a = 0 := by
  constructor
  · intro zero i a h
    have := le_tally w h
    omega
  · intro each
    induction l with
    | nil => rfl
    | cons o l ih =>
      have tail := ih fun i a h => each (i + 1) a (by simpa using h)
      cases o with
      | none => simpa using tail
      | some a => simpa [tail] using each 0 a (by simp)

theorem tally_congr {w' : α → Nat} (same : ∀ i a, get l i = some a → w a = w' a) :
    tally w l = tally w' l := by
  induction l with
  | nil => rfl
  | cons o l ih =>
    have tail := ih fun i a h => same (i + 1) a (by simpa using h)
    cases o with
    | none => simpa using tail
    | some a => simpa [tail] using same 0 a (by simp)

theorem tally_mono {w' : α → Nat} (le : ∀ a, w a ≤ w' a) : tally w l ≤ tally w' l := by
  induction l with
  | nil => exact Nat.le_refl 0
  | cons o l ih =>
    cases o with
    | none => simpa using ih
    | some a => simpa using Nat.add_le_add (le a) ih

end Tally
end Ferrum.Slots
