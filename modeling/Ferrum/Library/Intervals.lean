import Mathlib

/-!
# Taking intervals out of an interval

Half-open intervals of a linear order, given by their ends. What is left of a list of intervals when one
more is taken out is again a list of intervals. If these stand in order with gaps between them, then so
do the new ones, and there is at most one more of them.
-/
namespace Intervals

variable {α : Type} [LinearOrder α] {x y : α} {ex r r' : α × α} {l : List (α × α)}

/-- What is left of one interval; a part that would be empty is left out. -/
def cut (ex r : α × α) : List (α × α) :=
  if r.1 < ex.2 ∧ ex.1 < r.2 then
    (if r.1 < ex.1 then [(r.1, ex.1)] else []) ++ (if ex.2 < r.2 then [(ex.2, r.2)] else [])
  else [r]

def cutAll (ex : α × α) (l : List (α × α)) : List (α × α) := l.flatMap (cut ex)

/-- The points of the intervals. -/
def covered (l : List (α × α)) : Set α := {x | ∃ r ∈ l, x ∈ Set.Ico r.1 r.2}

/-- In order, with gaps. -/
def Spaced (l : List (α × α)) : Prop := l.Pairwise fun r r' => r.2 < r'.1

/-! ## One interval -/

theorem mem_cut : r' ∈ cut ex r ↔ if r.1 < ex.2 ∧ ex.1 < r.2 then
    (r.1 < ex.1 ∧ r' = (r.1, ex.1)) ∨ (ex.2 < r.2 ∧ r' = (ex.2, r.2)) else r' = r := by
  unfold cut
  split
  · rw [List.mem_append]
    refine or_congr ?_ ?_
    · split <;> simp [*]
    · split <;> simp [*]
  · exact List.mem_singleton

theorem covered_cut : (∃ r' ∈ cut ex r, x ∈ Set.Ico r'.1 r'.2) ↔
    x ∈ Set.Ico r.1 r.2 ∧ x ∉ Set.Ico ex.1 ex.2 := by
  simp only [mem_cut, Set.mem_Ico]
  split
  next meets =>
    constructor
    · rintro ⟨r', ⟨left, rfl⟩ | ⟨right, rfl⟩, low, high⟩
      · exact ⟨⟨low, high.trans meets.2⟩, fun inside => not_lt.mpr inside.1 high⟩
      · exact ⟨⟨meets.1.le.trans low, high⟩, fun inside => not_lt.mpr low inside.2⟩
    · rintro ⟨⟨low, high⟩, outside⟩
      rcases lt_or_ge x ex.1 with before | behind
      · exact ⟨(r.1, ex.1), .inl ⟨low.trans_lt before, rfl⟩, low, before⟩
      · have past : ex.2 ≤ x := not_lt.mp fun inside => outside ⟨behind, inside⟩
        exact ⟨(ex.2, r.2), .inr ⟨past.trans_lt high, rfl⟩, past, high⟩
  next apart =>
    simp only [exists_eq_left]
    refine ⟨fun here => ⟨here, fun inside => apart ?_⟩, And.left⟩
    exact ⟨here.1.trans_lt inside.2, inside.1.trans_lt here.2⟩

/-- The parts of an interval lie in it. -/
theorem cut_inside (mem : r' ∈ cut ex r) : r.1 ≤ r'.1 ∧ r'.2 ≤ r.2 := by
  rw [mem_cut] at mem
  split at mem
  next meets =>
    rcases mem with ⟨-, rfl⟩ | ⟨-, rfl⟩
    · exact ⟨le_rfl, meets.2.le⟩
    · exact ⟨meets.1.le, le_rfl⟩
  next =>
    subst mem
    exact ⟨le_rfl, le_rfl⟩

theorem spaced_cut (nonempty : ex.1 < ex.2) : Spaced (cut ex r) := by
  unfold cut Spaced
  split
  · refine List.pairwise_append.mpr ⟨?_, ?_, ?_⟩
    · split <;> simp
    · split <;> simp
    · intro left memLeft right memRight
      split at memLeft
      · split at memRight
        · obtain rfl := List.mem_singleton.mp memLeft
          obtain rfl := List.mem_singleton.mp memRight
          exact nonempty
        · cases memRight
      · cases memLeft
  · exact List.pairwise_singleton _ _

/-- There are two parts only if the interval reaches behind what is taken out. -/
theorem length_cut (ex r : α × α) : (cut ex r).length ≤ 1 ∨ (cut ex r).length = 2 ∧ ex.2 < r.2 := by
  unfold cut
  split
  · rw [List.length_append]
    split
    · split
      next behind => exact .inr ⟨rfl, behind⟩
      next => exact .inl le_rfl
    · split
      · exact .inl le_rfl
      · exact .inl (Nat.zero_le _)
  · exact .inl le_rfl

/-! ## A list of intervals -/

theorem covered_cutAll (ex : α × α) (l : List (α × α)) :
    covered (cutAll ex l) = covered l \ Set.Ico ex.1 ex.2 := by
  ext x
  simp only [covered, cutAll, List.mem_flatMap, Set.mem_ofPred_eq, Set.mem_sdiff]
  constructor
  · rintro ⟨r', ⟨r, mem, part⟩, inside⟩
    obtain ⟨here, outside⟩ := covered_cut.mp ⟨r', part, inside⟩
    exact ⟨⟨r, mem, here⟩, outside⟩
  · rintro ⟨⟨r, mem, here⟩, outside⟩
    obtain ⟨r', part, inside⟩ := covered_cut.mpr ⟨here, outside⟩
    exact ⟨r', ⟨r, mem, part⟩, inside⟩

theorem Spaced.cutAll (spaced : Spaced l) (nonempty : ex.1 < ex.2) : Spaced (cutAll ex l) := by
  refine List.pairwise_flatMap.mpr ⟨fun r _ => spaced_cut nonempty, spaced.imp fun gap => ?_⟩
  intro left memLeft right memRight
  exact (cut_inside memLeft).2.trans_lt (gap.trans_le (cut_inside memRight).1)

/-- Intervals behind what is taken out stay whole. -/
theorem cutAll_of_behind (behind : ∀ r ∈ l, ex.2 < r.1) : cutAll ex l = l := by
  induction l with
  | nil => rfl
  | cons r l ih =>
    have first : ex.2 < r.1 := behind r List.mem_cons_self
    have whole : cut ex r = [r] := if_neg fun meets => lt_asymm meets.1 first
    rw [Intervals.cutAll, List.flatMap_cons, whole, ← Intervals.cutAll,
      ih fun r mem => behind r (List.mem_cons_of_mem _ mem)]
    rfl

/-- At most one interval is divided in two. -/
theorem Spaced.length_cutAll (spaced : Spaced l) : (Intervals.cutAll ex l).length ≤ l.length + 1 := by
  induction l with
  | nil => exact Nat.zero_le _
  | cons r l ih =>
    obtain ⟨gaps, spaced⟩ := List.pairwise_cons.mp spaced
    rw [Intervals.cutAll, List.flatMap_cons, ← Intervals.cutAll, List.length_append, List.length_cons]
    rcases length_cut ex r with one | ⟨two, behind⟩
    · exact (Nat.add_le_add one (ih spaced)).trans_eq (Nat.add_comm _ _)
    · rw [two, cutAll_of_behind fun r' mem => behind.trans (gaps r' mem), Nat.add_comm]

/-- All points from one covered point to another are covered only if one interval has both. -/
theorem Spaced.mem_of_segment (spaced : Spaced l) (mem : r ∈ l) (inside : x ∈ Set.Ico r.1 r.2)
    (segment : Set.Ico x y ⊆ covered l) : y ≤ r.2 := by
  by_contra past
  -- the end of the interval would be covered by another one
  obtain ⟨r', mem', low, high⟩ := segment ⟨inside.2.le, not_le.mp past⟩
  by_cases same : r = r'
  · subst same
    exact lt_irrefl _ high
  · have symm : Std.Symm fun r r' : α × α => r.2 < r'.1 ∨ r'.2 < r.1 := ⟨fun _ _ => Or.symm⟩
    have apart : l.Pairwise fun r r' => r.2 < r'.1 ∨ r'.2 < r.1 := spaced.imp Or.inl
    rcases apart.forall mem mem' same with before | behind
    · exact not_lt.mpr low before
    · exact lt_asymm high (behind.trans_le (inside.1.trans inside.2.le))

end Intervals
