import Ferrum.Vma.Model
import Mathlib

/-!
# Lists of areas

A well-formed list holds non-empty areas of whole pages, in order and without overlap. On lists in
order the searches with `partition_point` find what they look for, and `add_vma` is insertion up to the
joining of neighbours, which shows in no address.
-/
namespace Ferrum

/-- A non-empty area of whole pages. -/
structure VMA.Proper (v : VMA) : Prop where
  nonempty : v.start < v.stop
  start : PAGE_SIZE ∣ v.start
  stop : PAGE_SIZE ∣ v.stop
  bound : v.stop < 2 ^ 64

theorem VMA.contains_iff {v : VMA} {a : Nat} : v.contains a ↔ v.start ≤ a ∧ a < v.stop := by
  simp [VMA.contains]

namespace Vmas

variable {l l' before after : List VMA} {v w vma : VMA} {a s : Nat} {f : VMAFlags} {k : VMAKind}

/-- Areas in order and without overlap, none of them empty. -/
structure Laid (l : List VMA) : Prop where
  nonempty : ∀ v ∈ l, v.start < v.stop
  sorted : l.Pairwise fun v w => v.stop ≤ w.start

structure Wf (l : List VMA) : Prop where
  proper : ∀ v ∈ l, v.Proper
  sorted : l.Pairwise fun v w => v.stop ≤ w.start

theorem Wf.laid (h : Wf l) : Laid l := ⟨fun v hv => (h.proper v hv).nonempty, h.sorted⟩

instance : CoeOut (Wf l) (Laid l) := ⟨Wf.laid⟩

/-- The address lies in an area with these attributes. -/
def Has (l : List VMA) (a : Nat) (f : VMAFlags) (k : VMAKind) : Prop :=
  ∃ v ∈ l, v.start ≤ a ∧ a < v.stop ∧ v.flags = f ∧ v.kind = k

theorem has_cons : Has (v :: l) a f k ↔
    (v.start ≤ a ∧ a < v.stop ∧ v.flags = f ∧ v.kind = k) ∨ Has l a f k := by
  simp [Has]

/-- The attributes that `find_vma` reports for an address. -/
def attr (l : List VMA) (a : Nat) : Option (VMAFlags × VMAKind) :=
  (findVma l a).map fun v => (v.flags, v.kind)

theorem wf_nil : Wf [] := ⟨by simp, .nil⟩

theorem Wf.sublist (h : Wf l) (sub : l'.Sublist l) : Wf l' :=
  ⟨fun v hv => h.proper v (sub.subset hv), h.sorted.sublist sub⟩

theorem Laid.sublist (h : Laid l) (sub : l'.Sublist l) : Laid l' :=
  ⟨fun v hv => h.nonempty v (sub.subset hv), h.sorted.sublist sub⟩

theorem Laid.apart (h : Laid l) (hv : v ∈ l) (hw : w ∈ l) :
    v = w ∨ v.stop ≤ w.start ∨ w.stop ≤ v.start := by
  by_cases same : v = w
  · exact .inl same
  · have symm : l.Pairwise fun v w => v.stop ≤ w.start ∨ w.stop ≤ v.start := h.sorted.imp Or.inl
    have : Std.Symm fun v w : VMA => v.stop ≤ w.start ∨ w.stop ≤ v.start := ⟨fun _ _ => Or.symm⟩
    exact .inr (symm.forall hv hw same)

theorem Laid.eq_of_mem (h : Laid l) (hv : v ∈ l) (hw : w ∈ l) (va : v.start ≤ a ∧ a < v.stop)
    (wa : w.start ≤ a ∧ a < w.stop) : v = w := by
  rcases h.apart hv hw with same | order | order
  · exact same
  · omega
  · omega

theorem Laid.nodup (h : Laid l) : l.Nodup := by
  refine (h.sorted.imp_of_mem fun {v w} hv hw order => ?_)
  rintro rfl
  have := h.nonempty v hv
  omega

/-! ## Searching -/

theorem mem_dropWhile_start (h : Laid l) (hv : v ∈ l.dropWhile (·.start < s)) : s ≤ v.start := by
  induction l with
  | nil => simp at hv
  | cons w l ih =>
    rw [List.dropWhile_cons] at hv
    split at hv
    · exact ih (h.sublist (List.sublist_cons_self w l)) hv
    · rename_i first
      have first : s ≤ w.start := by simpa using first
      rcases List.mem_cons.mp hv with rfl | later
      · exact first
      · have order := (List.pairwise_cons.mp h.sorted).1 v later
        have := h.nonempty w List.mem_cons_self
        omega

theorem below_append_above (l : List VMA) (s : Nat) : below l s ++ above l s = l :=
  List.takeWhile_append_dropWhile

theorem mem_below (hv : v ∈ below l s) : v ∈ l ∧ v.start < s := by
  refine ⟨(List.takeWhile_prefix _).subset hv, ?_⟩
  simpa using List.mem_takeWhile_imp hv

theorem mem_above (h : Laid l) (hv : v ∈ above l s) : v ∈ l ∧ s ≤ v.start :=
  ⟨(List.dropWhile_sublist _).subset hv, mem_dropWhile_start h hv⟩

theorem findVma_eq_some (h : Laid l) :
    findVma l a = some v ↔ v ∈ l ∧ v.start ≤ a ∧ a < v.stop := by
  have first : ∀ w ∈ l.takeWhile (·.start ≤ a), w ∈ l ∧ w.start ≤ a := fun w hw =>
    ⟨(List.takeWhile_prefix _).subset hw, by simpa using List.mem_takeWhile_imp hw⟩
  have rest : ∀ w ∈ l, w.start ≤ a → w ∈ l.takeWhile (·.start ≤ a) := by
    intro w hw low
    rw [← List.takeWhile_append_dropWhile (p := fun v : VMA => v.start < a + 1) (l := l)] at hw
    have same : l.takeWhile (·.start ≤ a) = l.takeWhile (·.start < a + 1) := by
      simp only [Nat.lt_succ_iff]
    rcases List.mem_append.mp hw with front | back
    · rwa [same]
    · have := mem_dropWhile_start h back
      omega
  unfold findVma
  cases last : (l.takeWhile (·.start ≤ a)).getLast? with
  | none =>
    have empty : l.takeWhile (·.start ≤ a) = [] := List.getLast?_eq_none_iff.mp last
    simp only [reduceCtorEq, false_iff]
    rintro ⟨hv, low, -⟩
    have := rest v hv low
    simp [empty] at this
  | some c =>
    obtain ⟨init, split⟩ := List.getLast?_eq_some_iff.mp last
    have hc := first c (by rw [split]; simp)
    have order : ∀ w ∈ init, w.stop ≤ c.start := by
      have sorted := h.sorted.sublist (List.takeWhile_sublist (fun v : VMA => decide (v.start ≤ a)))
      rw [split] at sorted
      exact fun w hw => (List.pairwise_append.mp sorted).2.2 w hw c (by simp)
    simp only
    constructor
    · intro found
      obtain ⟨inside, same⟩ := Option.ite_none_right_eq_some.mp found
      obtain rfl := Option.some.inj same
      exact ⟨hc.1, VMA.contains_iff.mp inside⟩
    · rintro ⟨hv, low, high⟩
      have mem := rest v hv low
      rw [split] at mem
      rcases List.mem_append.mp mem with early | late
      · have := order v early
        omega
      · obtain rfl : v = c := by simpa using late
        rw [if_pos (VMA.contains_iff.mpr ⟨low, high⟩)]

theorem attr_eq_some (h : Laid l) : attr l a = some (f, k) ↔ Has l a f k := by
  simp only [attr, Option.map_eq_some_iff, findVma_eq_some h, Prod.mk.injEq, Has]
  constructor
  · rintro ⟨v, ⟨hv, low, high⟩, rfl, rfl⟩
    exact ⟨v, hv, low, high, rfl, rfl⟩
  · rintro ⟨v, hv, low, high, rfl, rfl⟩
    exact ⟨v, ⟨hv, low, high⟩, rfl, rfl⟩

theorem attr_eq_none (h : Laid l) : attr l a = none ↔ ∀ v ∈ l, ¬ (v.start ≤ a ∧ a < v.stop) := by
  constructor
  · intro none v hv inside
    have found : attr l a = some (v.flags, v.kind) :=
      (attr_eq_some h).mpr ⟨v, hv, inside.1, inside.2, rfl, rfl⟩
    rw [none] at found
    cases found
  · intro outside
    cases found : attr l a with
    | none => rfl
    | some x =>
      obtain ⟨v, hv, low, high, -⟩ := (attr_eq_some h).mp found
      exact absurd ⟨low, high⟩ (outside v hv)

theorem attr_congr (h : Laid l) (h' : Laid l') (same : ∀ f k, Has l' a f k ↔ Has l a f k) :
    attr l' a = attr l a := by
  cases found : attr l a with
  | some x => exact (attr_eq_some h').mpr ((same _ _).mpr ((attr_eq_some h).mp found))
  | none =>
    refine Option.eq_none_iff_forall_ne_some.mpr fun x found' => ?_
    have := (attr_eq_some h).mpr ((same _ _).mp ((attr_eq_some h').mp found'))
    rw [found] at this
    cases this

/-! ## Removal -/

theorem removeVma_eq_some (found : removeVma l s = some (v, l')) :
    v.start = s ∧ ∃ before after, l = before ++ v :: after ∧ l' = before ++ after := by
  unfold removeVma at found
  split at found
  · rename_i w rest here
    obtain ⟨same, out⟩ := Option.ite_none_right_eq_some.mp found
    obtain ⟨rfl, rfl⟩ := Prod.mk.inj (Option.some.inj out)
    exact ⟨same, _, _, by rw [← here, below_append_above], rfl⟩
  · cases found

theorem removeVma_eq_none (h : Laid l) : removeVma l s = none ↔ ∀ v ∈ l, v.start ≠ s := by
  unfold removeVma
  cases here : above l s with
  | nil =>
    simp only [true_iff]
    intro v hv same
    rw [← below_append_above l s, here, List.append_nil] at hv
    have := (mem_below hv).2
    omega
  | cons w rest =>
    have hw := mem_above h (here ▸ List.mem_cons_self : w ∈ above l s)
    simp only [ite_eq_right_iff, reduceCtorEq, imp_false]
    constructor
    · intro other v hv same
      rw [← below_append_above l s, here] at hv
      rcases List.mem_append.mp hv with low | high
      · have := (mem_below low).2
        omega
      · rcases List.mem_cons.mp high with rfl | later
        · exact other same
        · -- whatever follows starts later still
          have sorted : (above l s).Pairwise fun v w => v.stop ≤ w.start :=
            h.sorted.sublist (List.dropWhile_sublist _)
          rw [here] at sorted
          have order := (List.pairwise_cons.mp sorted).1 v later
          have := h.nonempty w hw.1
          omega
    · exact fun none same => none w hw.1 same

theorem mem_of_removeVma (h : Laid l) (found : removeVma l s = some (v, l')) :
    w ∈ l' ↔ w ∈ l ∧ w ≠ v := by
  obtain ⟨-, before, after, rfl, rfl⟩ := removeVma_eq_some found
  have nodup := h.nodup
  rw [List.nodup_middle, List.nodup_cons] at nodup
  simp only [List.mem_append, List.mem_cons] at nodup ⊢
  constructor
  · intro hw
    exact ⟨by tauto, by rintro rfl; exact nodup.1 hw⟩
  · tauto

theorem wf_of_removeVma (h : Wf l) (found : removeVma l s = some (v, l')) : Wf l' := by
  obtain ⟨-, before, after, rfl, rfl⟩ := removeVma_eq_some found
  exact h.sublist (List.Sublist.append_left (List.sublist_cons_self v after) before)

/-! ## Insertion -/

/-- Two areas that touch and agree, as one. -/
def join (u w : VMA) : VMA := { w with start := u.start }

theorem mergeableWith_iff : v.mergeableWith w ↔ v.flags = w.flags ∧ v.kind = w.kind := by
  simp [VMA.mergeableWith]

/-- The list that `add_vma` makes: the new area between its neighbours, joined with one or both. -/
inductive Inserted (before after : List VMA) (vma : VMA) : List VMA → Prop
  | plain : Inserted before after vma (before ++ vma :: after)
  | left {init : List VMA} {prev : VMA} (last : before = init ++ [prev])
      (touch : prev.stop = vma.start) (agree : prev.mergeableWith vma) :
      Inserted before after vma (init ++ join prev vma :: after)
  | right {next : VMA} {rest : List VMA} (first : after = next :: rest)
      (touch : vma.stop = next.start) (agree : vma.mergeableWith next) :
      Inserted before after vma (before ++ join vma next :: rest)
  | both {init : List VMA} {prev next : VMA} {rest : List VMA} (last : before = init ++ [prev])
      (touch : prev.stop = vma.start) (agree : prev.mergeableWith vma) (first : after = next :: rest)
      (touch' : vma.stop = next.start) (agree' : vma.mergeableWith next) :
      Inserted before after vma (init ++ join (join prev vma) next :: rest)

theorem mergeRight_cases (u : VMA) (after : List VMA) :
    (mergeRight u after).1 :: (mergeRight u after).2 = u :: after ∨ ∃ next rest, after = next :: rest ∧
      u.stop = next.start ∧ u.mergeableWith next ∧
      (mergeRight u after).1 :: (mergeRight u after).2 = join u next :: rest := by
  unfold mergeRight
  split
  · rename_i next rest
    split
    · rename_i both
      obtain ⟨touch, agree⟩ : u.stop = next.start ∧ u.mergeableWith next := by simpa using both
      obtain ⟨flags, kind⟩ := mergeableWith_iff.mp agree
      refine .inr ⟨next, rest, rfl, touch, agree, ?_⟩
      simp [join, flags, kind]
    · exact .inl rfl
  · exact .inl rfl

theorem addVma_eq_ok (ok : addVma l vma = .ok l') :
    (∀ prev ∈ (below l vma.start).getLast?, prev.stop ≤ vma.start) ∧
    (∀ next ∈ (above l vma.start).head?, vma.stop ≤ next.start) ∧
    Inserted (below l vma.start) (above l vma.start) vma l' := by
  unfold addVma at ok
  simp only at ok
  split at ok
  · cases ok
  split at ok
  · cases ok
  rename_i noLeft noRight
  obtain rfl := Except.ok.inj ok
  refine ⟨fun prev hp => ?_, fun next hn => ?_, ?_⟩
  · rw [Option.mem_def] at hp
    simpa [hp] using noLeft
  · rw [Option.mem_def] at hn
    simpa [hn] using noRight
  unfold mergeLeft
  split
  · rename_i prev last
    obtain ⟨init, split⟩ := List.getLast?_eq_some_iff.mp last
    split
    · rename_i both
      obtain ⟨touch, agree⟩ : prev.stop = vma.start ∧ prev.mergeableWith vma := by simpa using both
      have short : (below l vma.start).dropLast = init := by rw [split]; simp
      rw [short]
      rcases mergeRight_cases (join prev vma) (above l vma.start) with
        same | ⟨next, rest, first, touch', agree', same⟩
      · rw [show ({ vma with start := prev.start } : VMA) = join prev vma from rfl, same]
        exact .left split touch agree
      · rw [show ({ vma with start := prev.start } : VMA) = join prev vma from rfl, same]
        exact .both split touch agree first touch' agree'
    · rcases mergeRight_cases vma (above l vma.start) with
        same | ⟨next, rest, first, touch', agree', same⟩
      · rw [same]
        exact .plain
      · rw [same]
        exact .right first touch' agree'
  · rcases mergeRight_cases vma (above l vma.start) with
      same | ⟨next, rest, first, touch', agree', same⟩
    · rw [same]
      exact .plain
    · rw [same]
      exact .right first touch' agree'

/-- A property of single areas that survives joining survives `add_vma`. -/
theorem forall_addVma {P : VMA → Prop} (ok : addVma l vma = .ok l') (new : P vma)
    (old : ∀ v ∈ l, P v) (joins : ∀ u w, P u → P w → u.stop = w.start → u.mergeableWith w →
      P (join u w)) : ∀ v ∈ l', P v := by
  obtain ⟨-, -, inserted⟩ := addVma_eq_ok ok
  have low : ∀ v ∈ below l vma.start, P v := fun v hv => old v (mem_below hv).1
  have high : ∀ v ∈ above l vma.start, P v := fun v hv => old v ((List.dropWhile_sublist _).subset hv)
  generalize below l vma.start = before at *
  generalize above l vma.start = after at *
  intro v hv
  cases inserted with
  | plain =>
    rcases List.mem_append.mp hv with h | h
    · exact low v h
    · rcases List.mem_cons.mp h with rfl | h
      · exact new
      · exact high v h
  | @left init prev last touch agree =>
    subst last
    have joined := joins prev vma (low prev (by simp)) new touch agree
    rcases List.mem_append.mp hv with h | h
    · exact low v (List.mem_append_left _ h)
    · rcases List.mem_cons.mp h with rfl | h
      · exact joined
      · exact high v h
  | @right next rest first touch agree =>
    subst first
    have joined := joins vma next new (high next (by simp)) touch agree
    rcases List.mem_append.mp hv with h | h
    · exact low v h
    · rcases List.mem_cons.mp h with rfl | h
      · exact joined
      · exact high v (List.mem_cons_of_mem _ h)
  | @both init prev next rest last touch agree first touch' agree' =>
    subst last first
    have joined := joins prev vma (low prev (by simp)) new touch agree
    have joined' := joins (join prev vma) next joined (high next (by simp)) touch' agree'
    rcases List.mem_append.mp hv with h | h
    · exact low v (List.mem_append_left _ h)
    · rcases List.mem_cons.mp h with rfl | h
      · exact joined'
      · exact high v (List.mem_cons_of_mem _ h)

theorem proper_join {u : VMA} (hu : u.Proper) (hw : w.Proper) (touch : u.stop = w.start) :
    (join u w).Proper :=
  ⟨by have := hu.nonempty; have := hw.nonempty; simp only [join]; omega, hu.start, hw.stop, hw.bound⟩

theorem laid_join {u : VMA} (h : Laid (before ++ u :: w :: after)) (touch : u.stop = w.start)
    (agree : u.mergeableWith w) : Laid (before ++ join u w :: after) ∧
      ∀ a f k, Has (before ++ join u w :: after) a f k ↔ Has (before ++ u :: w :: after) a f k := by
  obtain ⟨flags, kind⟩ := mergeableWith_iff.mp agree
  have hu := h.nonempty u (by simp)
  have hw := h.nonempty w (by simp)
  obtain ⟨sortedBefore, sortedRest, cross⟩ := List.pairwise_append.mp h.sorted
  obtain ⟨uFirst, sortedRest⟩ := List.pairwise_cons.mp sortedRest
  obtain ⟨wFirst, sortedAfter⟩ := List.pairwise_cons.mp sortedRest
  refine ⟨⟨fun v hv => ?_, ?_⟩, fun a f k => ?_⟩
  · rcases List.mem_append.mp hv with early | late
    · exact h.nonempty v (List.mem_append_left _ early)
    · rcases List.mem_cons.mp late with rfl | late
      · simp only [join]
        omega
      · exact h.nonempty v (by simp [late])
  · refine List.pairwise_append.mpr ⟨sortedBefore, List.pairwise_cons.mpr ⟨wFirst, sortedAfter⟩, ?_⟩
    intro v hv x hx
    rcases List.mem_cons.mp hx with rfl | later
    · exact cross v hv u (by simp)
    · exact cross v hv x (by simp [later])
  · constructor
    · rintro ⟨v, hv, low, high, rfl, rfl⟩
      rcases List.mem_append.mp hv with early | late
      · exact ⟨v, List.mem_append_left _ early, low, high, rfl, rfl⟩
      · rcases List.mem_cons.mp late with rfl | late
        · by_cases left : a < u.stop
          · exact ⟨u, by simp, low, left, flags, kind⟩
          · exact ⟨w, by simp, by omega, high, rfl, rfl⟩
        · exact ⟨v, by simp [late], low, high, rfl, rfl⟩
    · rintro ⟨v, hv, low, high, rfl, rfl⟩
      rcases List.mem_append.mp hv with early | late
      · exact ⟨v, List.mem_append_left _ early, low, high, rfl, rfl⟩
      · rcases List.mem_cons.mp late with rfl | late
        · exact ⟨join v w, by simp, low, by simp only [join]; omega, flags.symm, kind.symm⟩
        · rcases List.mem_cons.mp late with rfl | late
          · exact ⟨join u v, by simp, by simp only [join]; omega, high, rfl, rfl⟩
          · exact ⟨v, by simp [late], low, high, rfl, rfl⟩

theorem below_bounded (h : Laid l) (left : ∀ prev ∈ (below l s).getLast?, prev.stop ≤ a)
    (hv : v ∈ below l s) : v.stop ≤ a := by
  have sorted : (below l s).Pairwise fun v w => v.stop ≤ w.start :=
    h.sorted.sublist (List.takeWhile_sublist _)
  cases last : (below l s).getLast? with
  | none =>
    rw [List.getLast?_eq_none_iff.mp last] at hv
    cases hv
  | some prev =>
    obtain ⟨init, split⟩ := List.getLast?_eq_some_iff.mp last
    have bound := left prev last
    rw [split] at hv sorted
    rcases List.mem_append.mp hv with early | late
    · have order := (List.pairwise_append.mp sorted).2.2 v early prev (by simp)
      have := h.nonempty prev (mem_below (split ▸ by simp : prev ∈ below l s)).1
      omega
    · obtain rfl : v = prev := by simpa using late
      exact bound

theorem laid_insert (h : Laid l) (new : vma.start < vma.stop)
    (left : ∀ prev ∈ (below l vma.start).getLast?, prev.stop ≤ vma.start)
    (right : ∀ next ∈ (above l vma.start).head?, vma.stop ≤ next.start) :
    Laid (below l vma.start ++ vma :: above l vma.start) := by
  have whole : Laid (below l vma.start ++ above l vma.start) := (below_append_above l vma.start).symm ▸ h
  obtain ⟨sortedBelow, sortedAbove, cross⟩ := List.pairwise_append.mp whole.sorted
  refine ⟨fun v hv => ?_, List.pairwise_append.mpr ⟨sortedBelow, List.pairwise_cons.mpr ⟨?_,
    sortedAbove⟩, ?_⟩⟩
  · simp only [List.mem_append, List.mem_cons] at hv
    rcases hv with early | rfl | late
    · exact h.nonempty v (mem_below early).1
    · exact new
    · exact h.nonempty v (mem_above h late).1
  · intro x hx
    cases rest : above l vma.start with
    | nil => simp [rest] at hx
    | cons next rest' =>
      rw [rest] at hx sortedAbove right
      have first : vma.stop ≤ next.start := right next (by simp)
      rcases List.mem_cons.mp hx with rfl | later
      · exact first
      · have order := (List.pairwise_cons.mp sortedAbove).1 x later
        have := h.nonempty next (mem_above h (rest ▸ List.mem_cons_self)).1
        omega
  · intro v hv x hx
    rcases List.mem_cons.mp hx with rfl | later
    · exact below_bounded h left hv
    · exact cross v hv x later

/-- `add_vma` adds the new area and nothing else, and keeps the list in order. -/
theorem Laid.addVma (h : Laid l) (new : vma.start < vma.stop) (ok : Vmas.addVma l vma = .ok l') :
    Laid l' ∧ (∀ v ∈ l, v.stop ≤ vma.start ∨ vma.stop ≤ v.start) ∧
      ∀ a f k, Has l' a f k ↔
        Has l a f k ∨ (vma.start ≤ a ∧ a < vma.stop ∧ vma.flags = f ∧ vma.kind = k) := by
  obtain ⟨left, right, inserted⟩ := addVma_eq_ok ok
  have wf := laid_insert h new left right
  have members {v : VMA} : v ∈ below l vma.start ++ vma :: above l vma.start ↔ v ∈ l ∨ v = vma := by
    conv_rhs => rw [← below_append_above l vma.start]
    simp only [List.mem_append, List.mem_cons]
    tauto
  have apart : ∀ v ∈ l, v.stop ≤ vma.start ∨ vma.stop ≤ v.start := by
    intro v hv
    obtain ⟨-, rest, cross⟩ := List.pairwise_append.mp wf.sorted
    rw [← below_append_above l vma.start] at hv
    rcases List.mem_append.mp hv with early | late
    · exact .inl (cross v early vma (by simp))
    · exact .inr ((List.pairwise_cons.mp rest).1 v late)
  have plain (a f k) : Has (below l vma.start ++ vma :: above l vma.start) a f k ↔
      Has l a f k ∨ (vma.start ≤ a ∧ a < vma.stop ∧ vma.flags = f ∧ vma.kind = k) := by
    constructor
    · rintro ⟨v, hv, inside⟩
      rcases members.mp hv with old | rfl
      · exact .inl ⟨v, old, inside⟩
      · exact .inr inside
    · rintro (⟨v, hv, inside⟩ | inside)
      · exact ⟨v, members.mpr (.inl hv), inside⟩
      · exact ⟨vma, members.mpr (.inr rfl), inside⟩
  generalize below l vma.start = before at *
  generalize above l vma.start = after at *
  cases inserted with
  | plain => exact ⟨wf, apart, plain⟩
  | @left init prev last touch agree =>
    subst last
    rw [List.append_assoc, List.singleton_append] at wf plain
    obtain ⟨joined, same⟩ := laid_join wf touch agree
    exact ⟨joined, apart, fun a f k => (same a f k).trans (plain a f k)⟩
  | @right next rest first touch agree =>
    subst first
    obtain ⟨joined, same⟩ := laid_join wf touch agree
    exact ⟨joined, apart, fun a f k => (same a f k).trans (plain a f k)⟩
  | @both init prev next rest last touch agree first touch' agree' =>
    subst last first
    rw [List.append_assoc, List.singleton_append] at wf plain
    obtain ⟨joined, same⟩ := laid_join wf touch agree
    obtain ⟨joined', same'⟩ := laid_join joined touch' agree'
    exact ⟨joined', apart, fun a f k => ((same' a f k).trans (same a f k)).trans (plain a f k)⟩

theorem addVma_spec (h : Wf l) (new : vma.Proper) (ok : addVma l vma = .ok l') :
    Wf l' ∧ (∀ v ∈ l, v.stop ≤ vma.start ∨ vma.stop ≤ v.start) ∧
      ∀ a f k, Has l' a f k ↔
        Has l a f k ∨ (vma.start ≤ a ∧ a < vma.stop ∧ vma.flags = f ∧ vma.kind = k) := by
  obtain ⟨laid, apart, has⟩ := h.laid.addVma new.nonempty ok
  have proper := forall_addVma ok new h.proper fun u w hu hw touch _ => proper_join hu hw touch
  exact ⟨⟨proper, laid.sorted⟩, apart, has⟩

theorem addVma_ok (apart : ∀ v ∈ l, v.stop ≤ vma.start ∨ vma.stop ≤ v.start) (h : Laid l)
    (new : vma.start < vma.stop) : ∃ l', addVma l vma = .ok l' := by
  have left : (below l vma.start).getLast?.any (fun prev => decide (vma.start < prev.stop)) = false := by
    cases last : (below l vma.start).getLast? with
    | none => rfl
    | some prev =>
      obtain ⟨mem, low⟩ := mem_below (List.mem_of_getLast? last)
      rcases apart prev mem with order | order
      · simpa using order
      · omega
  have right : (above l vma.start).head?.any (fun next => decide (next.start < vma.stop)) = false := by
    cases first : (above l vma.start).head? with
    | none => rfl
    | some next =>
      obtain ⟨mem, high⟩ := mem_above h (List.mem_of_head? first)
      have := h.nonempty next mem
      rcases apart next mem with order | order
      · omega
      · simpa using order
  exact ⟨_, by simp only [addVma, left, right]; rfl⟩

end Vmas
end Ferrum
