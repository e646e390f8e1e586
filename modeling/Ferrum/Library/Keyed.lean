import Mathlib

/-!
# Lists of keyed values

An unordered list of pairs in which a key is looked up by the first match. As long as the keys are
distinct, the list is a finite map, and appending, removing and renaming a key act on it as they do on
the map.
-/
namespace Keyed

variable {κ ν : Type} [DecidableEq κ]

def get (l : List (κ × ν)) (k : κ) : Option ν := (l.find? (·.1 = k)).map Prod.snd

/-- Without the first match. -/
def remove (l : List (κ × ν)) (k : κ) : List (κ × ν) := l.eraseP (·.1 = k)

/-- Give the first match another key. -/
def rekey : List (κ × ν) → κ → κ → List (κ × ν)
  | [], _, _ => []
  | e :: l, old, new => if e.1 = old then (new, e.2) :: l else e :: rekey l old new

/-- No key occurs twice. -/
def Distinct (l : List (κ × ν)) : Prop := (l.map Prod.fst).Nodup

variable {l : List (κ × ν)} {k k' old new : κ} {v : ν} {e : κ × ν}

@[simp] theorem get_nil : get ([] : List (κ × ν)) k = none := rfl

@[simp] theorem get_cons : get (e :: l) k = if e.1 = k then some e.2 else get l k := by
  by_cases here : e.1 = k <;> simp [get, here]

theorem get_eq_none : get l k = none ↔ ∀ e ∈ l, e.1 ≠ k := by
  induction l with
  | nil => simp
  | cons e l ih => grind [get_cons]

theorem distinct_cons : Distinct (e :: l) ↔ get l e.1 = none ∧ Distinct l := by
  rw [get_eq_none, Distinct, List.map_cons, List.nodup_cons, List.mem_map]
  grind [Distinct]

/-! ## Appending -/

theorem get_append : get (l ++ [(k, v)]) k' = (get l k').or (if k = k' then some v else none) := by
  induction l with
  | nil => simp
  | cons e l ih => grind [get_cons]

theorem Distinct.append (h : Distinct l) (fresh : get l k = none) : Distinct (l ++ [(k, v)]) := by
  induction l with
  | nil => simp [Distinct]
  | cons e l ih => grind [distinct_cons, get_cons, get_append]

/-! ## Removing -/

theorem Distinct.get_remove (h : Distinct l) :
    get (remove l k) k' = if k' = k then none else get l k' := by
  induction l with
  | nil => simp [remove]
  | cons e l ih =>
    obtain ⟨fresh, rest⟩ := distinct_cons.mp h
    by_cases here : e.1 = k
    · grind [remove, get_cons]
    · have kept : remove (e :: l) k = e :: remove l k := by simp [remove, here]
      grind [get_cons]

theorem Distinct.remove (h : Distinct l) : Distinct (remove l k) :=
  h.sublist (List.Sublist.map _ (List.eraseP_sublist))

/-! ## Renaming -/

theorem Distinct.get_rekey (h : Distinct l) (found : get l old = some v)
    (free : new = old ∨ get l new = none) :
    get (rekey l old new) k = if k = new then some v else if k = old then none else get l k := by
  induction l with
  | nil => simp at found
  | cons e l ih => grind [distinct_cons, get_cons, rekey]

theorem Distinct.rekey (h : Distinct l) (free : new = old ∨ get l new = none) :
    Distinct (rekey l old new) := by
  cases found : get l old with
  | none =>
    have same : Keyed.rekey l old new = l := by
      clear h free
      induction l with
      | nil => rfl
      | cons e l ih => grind [get_cons, Keyed.rekey]
    rwa [same]
  | some v =>
    induction l with
    | nil => simp at found
    | cons e l ih => grind [distinct_cons, get_cons, Keyed.rekey, Distinct.get_rekey]

/-! ## What is left -/

theorem mem_keys_remove (other : k' ≠ k) (mem : k' ∈ l.map Prod.fst) : k' ∈ (remove l k).map Prod.fst := by
  obtain ⟨e, he, rfl⟩ := List.mem_map.mp mem
  exact List.mem_map_of_mem ((List.mem_eraseP_of_neg (by simpa using other)).mpr he)

theorem mem_rekey (mem : e ∈ rekey l old new) : e ∈ l ∨ e.1 = new := by
  induction l with
  | nil => cases mem
  | cons e l ih => grind [rekey]

theorem map_snd_rekey : (rekey l old new).map Prod.snd = l.map Prod.snd := by
  induction l with
  | nil => rfl
  | cons e l ih => grind [rekey]

theorem get_rekey_of_ne (notOld : k ≠ old) (notNew : k ≠ new) : get (rekey l old new) k = get l k := by
  induction l with
  | nil => rfl
  | cons e l ih => grind [rekey, get_cons]

theorem get_remove_of_ne (other : k' ≠ k) : get (remove l k) k' = get l k' := by
  induction l with
  | nil => rfl
  | cons e l ih => grind [remove, get_cons]

theorem mem_keys_rekey (other : k ≠ old) (mem : k ∈ l.map Prod.fst) :
    k ∈ (rekey l old new).map Prod.fst := by
  induction l with
  | nil => cases mem
  | cons e l ih => grind [rekey]

theorem rekey_self : rekey l k k = l := by
  induction l with
  | nil => rfl
  | cons e l ih => grind [rekey]

theorem get_isSome : (get l k).isSome ↔ k ∈ l.map Prod.fst := by
  induction l with
  | nil => simp
  | cons e l ih => grind [get_cons]

end Keyed
