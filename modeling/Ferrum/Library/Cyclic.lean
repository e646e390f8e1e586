import Mathlib

/-!
# Searching around a circle

A search looks at `n` places in cyclic order, from some place on, and takes the first one that passes a
test. If every search starts right behind the place that the last one took, a place that keeps passing
the test is taken within one round, whatever happens to the others: each search that takes another place
comes nearer.
-/
namespace Ferrum.Cyclic

variable {n start i j d k : Nat} {test : Nat → Prop}

/-- The places in the order of a search from `start`. -/
def order (start n : Nat) : List Nat := (List.range n).map fun d => (start + d) % n

/-- The first place from `start` on that passes the test. -/
def IsFirst (start n : Nat) (test : Nat → Prop) (j : Nat) : Prop :=
  ∃ d < n, (start + d) % n = j ∧ test j ∧ ∀ e < d, ¬ test ((start + e) % n)

theorem find?_order {test : Nat → Bool} :
    (order start n).find? test = some j ↔ IsFirst start n (test ·) j := by
  rw [order, List.find?_map, Option.map_eq_some_iff]
  constructor
  · rintro ⟨d, found, rfl⟩
    obtain ⟨passes, inside, before⟩ := List.find?_range_eq_some.mp found
    refine ⟨d, List.mem_range.mp inside, rfl, passes, fun e early => ?_⟩
    simpa using before e early
  · rintro ⟨d, inside, rfl, passes, before⟩
    refine ⟨d, List.find?_range_eq_some.mpr ⟨passes, List.mem_range.mpr inside, fun e early => ?_⟩, rfl⟩
    simpa using before e early

/-- Where a search starts matters up to whole rounds. -/
theorem isFirst_mod : IsFirst (start % n) n test j ↔ IsFirst start n test j := by
  simp only [IsFirst, Nat.mod_add_mod]

/-! ## The way to a place -/

/-- How many places a search from `start` passes before it comes to `i`. -/
def gap (start n i : Nat) : Nat := if start % n ≤ i then i - start % n else i + n - start % n

theorem gap_lt (start : Nat) (inside : i < n) : gap start n i < n := by
  have := Nat.mod_lt start (Nat.zero_lt_of_lt inside)
  unfold gap
  split <;> omega

theorem add_gap (start : Nat) (inside : i < n) : (start + gap start n i) % n = i := by
  have bound := Nat.mod_lt start (Nat.zero_lt_of_lt inside)
  rw [← Nat.mod_add_mod]
  unfold gap
  split
  · rw [Nat.add_sub_cancel' (by assumption), Nat.mod_eq_of_lt inside]
  · rw [Nat.add_sub_cancel' (by omega), Nat.add_mod_right, Nat.mod_eq_of_lt inside]

/-- A circle has one way of less than a round to each place. -/
theorem gap_eq (short : d < n) (leads : (start + d) % n = i) : gap start n i = d := by
  have bound := Nat.mod_lt start (Nat.zero_lt_of_lt short)
  rw [← Nat.mod_add_mod] at leads
  unfold gap
  rcases Nat.lt_or_ge (start % n + d) n with direct | around
  · rw [Nat.mod_eq_of_lt direct] at leads
    rw [if_pos (by omega)]
    omega
  · rw [Nat.mod_eq_sub_mod around, Nat.mod_eq_of_lt (by omega)] at leads
    rw [if_neg (by omega)]
    omega

theorem mem_order (inside : i < n) : i ∈ order start n :=
  List.mem_map.mpr ⟨gap start n i, List.mem_range.mpr (gap_lt start inside), add_gap start inside⟩

/-- A search that could take `i` and takes another place has that place on its way to `i`, and the next
search has less far to go. -/
theorem IsFirst.gap_lt (first : IsFirst start n test j) (inside : i < n) (passes : test i) (other : j ≠ i) :
    gap (j + 1) n i < gap start n i := by
  obtain ⟨d, short, rfl, -, before⟩ := first
  have leads := add_gap start inside
  have bound := Cyclic.gap_lt start inside
  have nearer : d < gap start n i := by
    rcases Nat.lt_trichotomy d (gap start n i) with less | same | more
    · exact less
    · exact absurd (same ▸ leads) other
    · exact absurd (leads.symm ▸ passes) (before _ more)
  have rest : gap ((start + d) % n + 1) n i = gap start n i - d - 1 := by
    refine gap_eq (by omega) ?_
    rw [Nat.add_assoc, Nat.mod_add_mod, show start + d + (1 + (gap start n i - d - 1)) =
      start + gap start n i by omega, leads]
  omega

theorem exists_isFirst (start : Nat) (inside : i < n) (passes : test i) : ∃ j, IsFirst start n test j := by
  classical
  have some : ∃ d, test ((start + d) % n) := ⟨gap start n i, by rwa [add_gap start inside]⟩
  have early : Nat.find some ≤ gap start n i := Nat.find_min' some (by rwa [add_gap start inside])
  exact ⟨_, Nat.find some, early.trans_lt (gap_lt start inside), rfl, Nat.find_spec some,
    fun e less => Nat.find_min some less⟩

/-! ## Search after search -/

section Searches

variable (starts : Nat → Nat) {tests : Nat → Nat → Prop} {choice : Nat → Option Nat}
  (waits : ∀ k < n, (∀ l < k, choice l ≠ some i) → tests k i)
  (search : ∀ k < n, (∀ l < k, choice l ≠ some i) →
    ∀ j, IsFirst (starts k) n (tests k) j → choice k = some j)
  (next : ∀ k j, choice k = some j → starts (k + 1) % n = (j + 1) % n)
include waits search next

/-- As long as `i` has not been taken, every search has come at least one place nearer. -/
theorem gap_add_le (inside : i < n) (enough : k ≤ n) (untaken : ∀ l < k, choice l ≠ some i) :
    gap (starts k) n i + k ≤ gap (starts 0) n i := by
  induction k with
  | zero => exact Nat.le_refl _
  | succ k ih =>
    have earlier : ∀ l < k, choice l ≠ some i := fun l less => untaken l (by omega)
    have before := ih (by omega) earlier
    have passes := waits k (by omega) earlier
    obtain ⟨j, first⟩ := exists_isFirst (starts k) inside passes
    have taken := search k (by omega) earlier j first
    have other : j ≠ i := fun same => untaken k (Nat.lt_succ_self k) (same ▸ taken)
    have nearer := first.gap_lt inside passes other
    have same : gap (starts (k + 1)) n i = gap (j + 1) n i := by rw [gap, gap, next k j taken]
    omega

/-- A place that keeps passing the test until it is taken is taken within one round. -/
theorem taken_within (inside : i < n) : ∃ k ≤ gap (starts 0) n i, choice k = some i := by
  by_contra never
  push Not at never
  have bound := gap_lt (starts 0) inside
  have := gap_add_le starts waits search next inside (k := gap (starts 0) n i + 1) (by omega)
    fun l less => never l (by omega)
  omega

end Searches
end Ferrum.Cyclic
