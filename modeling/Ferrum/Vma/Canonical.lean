import Ferrum.Vma.Place

/-!
# Insertion and its canonical form

`add_vma` looks at two neighbours only, and joins the new area with either. On a list in order this
is enough to refuse exactly the areas that overlap. Joining keeps the list maximal: areas that touch
differ in their attributes. A maximal list is determined by the attributes of the addresses, so the
order in which areas are added does not show.
-/
namespace Ferrum

/-- Two areas have an address in common. -/
def VMA.Meets (v w : VMA) : Prop := w.start < v.stop ∧ v.start < w.stop

namespace Vmas

variable {l l' before after vs : List VMA} {v w vma : VMA} {a : Nat} {f : VMAFlags} {k : VMAKind}

/-! ## What is added and what is found -/

theorem addVma_error_iff (h : Laid l) (new : vma.start < vma.stop) :
    (∃ e, addVma l vma = .error e) ↔ ∃ w ∈ l, vma.Meets w := by
  constructor
  · rintro ⟨e, refused⟩
    by_contra none
    have apart : ∀ w ∈ l, w.stop ≤ vma.start ∨ vma.stop ≤ w.start := by grind [VMA.Meets]
    obtain ⟨l', ok⟩ := addVma_ok apart h new
    rw [refused] at ok
    cases ok
  · rintro ⟨w, hw, meets⟩
    cases added : addVma l vma with
    | error e => exact ⟨e, rfl⟩
    | ok l' =>
      have apart := (h.addVma new added).2.1 w hw
      grind [VMA.Meets]

/-- The addresses of the new area get its attributes, all others keep theirs. -/
theorem attr_addVma (h : Laid l) (new : vma.start < vma.stop) (ok : addVma l vma = .ok l') (a : Nat) :
    attr l' a = if vma.start ≤ a ∧ a < vma.stop then some (vma.flags, vma.kind) else attr l a := by
  obtain ⟨laid, -, has⟩ := h.addVma new ok
  split
  · rename_i inside
    exact (attr_eq_some laid).mpr ((has _ _ _).mpr (.inr ⟨inside.1, inside.2, rfl, rfl⟩))
  · rename_i outside
    refine attr_congr h laid fun f k => (has a f k).trans (or_iff_left ?_)
    exact fun inside => outside ⟨inside.1, inside.2.1⟩

/-- Adding to a list in order, and finding in it. -/
theorem add_and_find (h : Laid l) (new : vma.start < vma.stop) :
    ((∃ e, addVma l vma = .error e) ↔ ∃ w ∈ l, vma.Meets w) ∧
    (∀ l', addVma l vma = .ok l' → Laid l' ∧ ∀ a, attr l' a =
      if vma.start ≤ a ∧ a < vma.stop then some (vma.flags, vma.kind) else attr l a) ∧
    ∀ a w, findVma l a = some w ↔ w ∈ l ∧ w.start ≤ a ∧ a < w.stop :=
  ⟨addVma_error_iff h new, fun _ ok => ⟨(h.addVma new ok).1, attr_addVma h new ok⟩,
    fun _ _ => findVma_eq_some h⟩

/-- An area that fills the gap between two others that agree with it. -/
theorem add_and_find_between :
    addVma [⟨0x1000, 0x2000, .rw, .heap⟩, ⟨0x3000, 0x4000, .rw, .heap⟩] ⟨0x2000, 0x3000, .rw, .heap⟩ =
      .ok [⟨0x1000, 0x4000, .rw, .heap⟩] ∧
    attr [⟨0x1000, 0x4000, .rw, .heap⟩] 0x2fff = some (.rw, .heap) := by
  have laid : Laid [⟨0x1000, 0x2000, .rw, .heap⟩, ⟨0x3000, 0x4000, .rw, .heap⟩] :=
    ⟨by simp, by simp⟩
  have added : addVma [⟨0x1000, 0x2000, .rw, .heap⟩, ⟨0x3000, 0x4000, .rw, .heap⟩]
      ⟨0x2000, 0x3000, .rw, .heap⟩ = .ok [⟨0x1000, 0x4000, .rw, .heap⟩] := by decide
  refine ⟨added, ?_⟩
  rw [((add_and_find laid (by decide)).2.1 _ added).2, if_pos (by decide)]

/-! ## Maximal lists -/

/-- Areas that touch do not agree. -/
structure Canonical (l : List VMA) : Prop extends Laid l where
  maximal : l.Pairwise fun v w => v.stop = w.start → ¬ v.mergeableWith w

theorem canonical_nil : Canonical [] := ⟨⟨nofun, .nil⟩, .nil⟩

theorem Canonical.sublist (h : Canonical l) (sub : l'.Sublist l) : Canonical l' :=
  ⟨h.toLaid.sublist sub, h.maximal.sublist sub⟩

/-- What is left of the list after a join on the left does not agree with the joined area. -/
theorem mergeLeft_maximal (h : Canonical before) (left : ∀ prev ∈ before.getLast?, prev.stop ≤ vma.start)
    (hv : v ∈ (mergeLeft before vma).1) (touch : v.stop = (mergeLeft before vma).2.start) :
    ¬ v.mergeableWith (mergeLeft before vma).2 := by
  cases last : before.getLast? with
  | none =>
    rw [List.getLast?_eq_none_iff.mp last] at hv
    cases hv
  | some prev =>
    have bound := left prev last
    obtain ⟨init, rfl⟩ := List.getLast?_eq_some_iff.mp last
    have order : ∀ x ∈ init, x.stop ≤ prev.start := fun x hx =>
      (List.pairwise_append.mp h.sorted).2.2 x hx prev (List.mem_singleton_self prev)
    have maximal : ∀ x ∈ init, x.stop = prev.start → ¬ x.mergeableWith prev := fun x hx =>
      (List.pairwise_append.mp h.maximal).2.2 x hx prev (List.mem_singleton_self prev)
    have nonempty := h.nonempty prev (by simp)
    simp only [mergeLeft, last, List.dropLast_concat] at hv touch ⊢
    grind [mergeableWith_iff]

theorem mergeRight_maximal (h : Canonical after) (right : ∀ next ∈ after.head?, v.stop ≤ next.start)
    (hw : w ∈ (mergeRight v after).2) (touch : (mergeRight v after).1.stop = w.start) :
    ¬ (mergeRight v after).1.mergeableWith w := by
  cases after with
  | nil => cases hw
  | cons next rest =>
    have bound := right next (by simp)
    have order := (List.pairwise_cons.mp h.sorted).1
    have maximal := (List.pairwise_cons.mp h.maximal).1
    have nonempty := h.nonempty next List.mem_cons_self
    simp only [mergeRight] at hw touch ⊢
    grind [mergeableWith_iff]

theorem mergeLeft_sublist : (mergeLeft before vma).1.Sublist before := by
  unfold mergeLeft
  grind [List.dropLast_sublist]

theorem mergeRight_sublist : (mergeRight v after).2.Sublist after := by
  unfold mergeRight
  grind [List.sublist_cons_self]

theorem mergeLeft_stop : (mergeLeft before vma).2.stop = vma.stop := by
  unfold mergeLeft
  grind

theorem mergeRight_start (v : VMA) (after : List VMA) : (mergeRight v after).1.start = v.start ∧
    (mergeRight v after).1.flags = v.flags ∧ (mergeRight v after).1.kind = v.kind := by
  unfold mergeRight
  grind

theorem addVma_merges (ok : addVma l vma = .ok l') :
    l' = (mergeLeft (below l vma.start) vma).1 ++
      (mergeRight (mergeLeft (below l vma.start) vma).2 (above l vma.start)).1 ::
        (mergeRight (mergeLeft (below l vma.start) vma).2 (above l vma.start)).2 := by
  unfold addVma at ok
  grind

theorem Canonical.addVma (h : Canonical l) (new : vma.start < vma.stop)
    (ok : Vmas.addVma l vma = .ok l') : Canonical l' := by
  refine ⟨(h.toLaid.addVma new ok).1, ?_⟩
  obtain ⟨noLeft, noRight, -⟩ := addVma_eq_ok ok
  have whole : Canonical (below l vma.start ++ above l vma.start) := (below_append_above l _).symm ▸ h
  have low := whole.sublist (List.sublist_append_left _ _)
  have high := whole.sublist (List.sublist_append_right _ _)
  have cross := (List.pairwise_append.mp whole.maximal).2.2
  obtain rfl := addVma_merges ok
  generalize below l vma.start = before at *
  generalize above l vma.start = after at *
  have noRight' : ∀ next ∈ after.head?, (mergeLeft before vma).2.stop ≤ next.start := fun next hn =>
    mergeLeft_stop.trans_le (noRight next hn)
  obtain ⟨start, flags, kind⟩ := mergeRight_start (mergeLeft before vma).2 after
  refine List.pairwise_append.mpr ⟨low.maximal.sublist mergeLeft_sublist, List.pairwise_cons.mpr
    ⟨fun w hw => mergeRight_maximal high noRight' hw, high.maximal.sublist mergeRight_sublist⟩, ?_⟩
  intro v hv w hw
  rcases List.mem_cons.mp hw with rfl | later
  · intro touch agree
    refine mergeLeft_maximal low noLeft hv (touch.trans start) ?_
    grind [mergeableWith_iff]
  · exact cross v (mergeLeft_sublist.subset hv) w (mergeRight_sublist.subset later)

/-- In a maximal list that begins like another one, the first area is not the shorter one. -/
theorem Canonical.stop_le (h : Canonical (v :: l)) (start : v.start = w.start)
    (agree : v.mergeableWith w) (same : ∀ a f k, Has (w :: l') a f k → Has (v :: l) a f k) :
    w.stop ≤ v.stop := by
  by_contra shorter
  have nonempty := h.nonempty v List.mem_cons_self
  -- the address after the first area would belong to another area that agrees with it
  obtain ⟨u, hu, low, high, flags, kind⟩ := same v.stop w.flags w.kind
    ⟨w, List.mem_cons_self, by omega, by omega, rfl, rfl⟩
  rcases List.mem_cons.mp hu with rfl | later
  · omega
  · have order := (List.pairwise_cons.mp h.sorted).1 u later
    refine (List.pairwise_cons.mp h.maximal).1 u later (by omega) ?_
    grind [mergeableWith_iff]

theorem Laid.start_le (h : Laid (v :: l)) (inside : Has (v :: l) a f k) : v.start ≤ a := by
  obtain ⟨u, hu, low, -⟩ := inside
  have nonempty := h.nonempty v List.mem_cons_self
  have order := (List.pairwise_cons.mp h.sorted).1
  grind

theorem Laid.has_tail (h : Laid (v :: l)) : Has l a f k ↔ Has (v :: l) a f k ∧ v.stop ≤ a := by
  have order := (List.pairwise_cons.mp h.sorted).1
  constructor
  · rintro ⟨u, hu, low, rest⟩
    exact ⟨⟨u, List.mem_cons_of_mem _ hu, low, rest⟩, Nat.le_trans (order u hu) low⟩
  · rintro ⟨⟨u, hu, low, high, rest⟩, past⟩
    rcases List.mem_cons.mp hu with rfl | later
    · omega
    · exact ⟨u, later, low, high, rest⟩

theorem Canonical.ext (h : Canonical l) (h' : Canonical l')
    (same : ∀ a f k, Has l a f k ↔ Has l' a f k) : l = l' := by
  induction l generalizing l' with
  | nil =>
    cases l' with
    | nil => rfl
    | cons w l' =>
      obtain ⟨u, hu, -⟩ := (same w.start w.flags w.kind).mpr
        ⟨w, List.mem_cons_self, Nat.le_refl _, h'.nonempty w List.mem_cons_self, rfl, rfl⟩
      cases hu
  | cons v l ih =>
    have first : Has (v :: l) v.start v.flags v.kind :=
      ⟨v, List.mem_cons_self, Nat.le_refl _, h.nonempty v List.mem_cons_self, rfl, rfl⟩
    cases l' with
    | nil =>
      obtain ⟨u, hu, -⟩ := (same _ _ _).mp first
      cases hu
    | cons w l' =>
      have first' : Has (w :: l') w.start w.flags w.kind :=
        ⟨w, List.mem_cons_self, Nat.le_refl _, h'.nonempty w List.mem_cons_self, rfl, rfl⟩
      have start : v.start = w.start :=
        Nat.le_antisymm (h.start_le ((same _ _ _).mpr first')) (h'.start_le ((same _ _ _).mp first))
      have agree : v.mergeableWith w := by
        obtain ⟨u, hu, low, high, flags, kind⟩ := (same _ _ _).mp first
        have here : u = w := h'.eq_of_mem hu List.mem_cons_self ⟨low, high⟩
          ⟨start.ge, by have := h'.nonempty w List.mem_cons_self; omega⟩
        grind [mergeableWith_iff]
      have stop : v.stop = w.stop := by
        have agree' : w.mergeableWith v := by grind [mergeableWith_iff]
        exact Nat.le_antisymm
          (h'.stop_le start.symm agree' fun a f k => (same a f k).mp)
          (h.stop_le start agree fun a f k => (same a f k).mpr)
      obtain rfl : v = w := by
        obtain ⟨flags, kind⟩ := mergeableWith_iff.mp agree
        cases v
        cases w
        simp_all
      rw [ih (h.sublist (List.sublist_cons_self _ _)) (h'.sublist (List.sublist_cons_self _ _)) ?_]
      intro a f k
      rw [h.has_tail, h'.has_tail, same]

/-! ## Any order -/

/-- Add the areas one by one. -/
def addAll (l vs : List VMA) : Except String (List VMA) := vs.foldlM addVma l

/-- Adding areas that meet neither each other nor the list never fails. -/
theorem addAll_ok (h : Canonical l) (new : ∀ v ∈ vs, v.start < v.stop)
    (apart : vs.Pairwise fun v w => ¬ v.Meets w) (clear : ∀ v ∈ vs, ∀ w ∈ l, ¬ v.Meets w) :
    ∃ l', addAll l vs = .ok l' ∧ Canonical l' ∧
      ∀ a f k, Has l' a f k ↔ Has l a f k ∨ Has vs a f k := by
  induction vs generalizing l with
  | nil => exact ⟨l, rfl, h, by simp [Has]⟩
  | cons v vs ih =>
    have hv := new v List.mem_cons_self
    obtain ⟨first, apart⟩ := List.pairwise_cons.mp apart
    have room : ∀ w ∈ l, w.stop ≤ v.start ∨ v.stop ≤ w.start := by
      intro w hw
      have := clear v List.mem_cons_self w hw
      grind [VMA.Meets]
    obtain ⟨l₁, added⟩ := addVma_ok room h.toLaid hv
    obtain ⟨laid, -, has⟩ := h.toLaid.addVma hv added
    -- an area of the new list consists of addresses of the old one and of the added area
    have clear' : ∀ u ∈ vs, ∀ w ∈ l₁, ¬ u.Meets w := by
      intro u hu w hw meets
      have hu' := new u (List.mem_cons_of_mem v hu)
      have hw' := laid.nonempty w hw
      have inside : Has l₁ (max u.start w.start) w.flags w.kind := ⟨w, hw, by grind [VMA.Meets]⟩
      rcases (has _ _ _).mp inside with ⟨x, hx, low, high, -⟩ | ⟨low, high, -⟩
      · have := clear u (List.mem_cons_of_mem v hu) x hx
        grind [VMA.Meets]
      · have := first u hu
        grind [VMA.Meets]
    obtain ⟨l', rest, canonical, has'⟩ := ih (h.addVma hv added)
      (fun u hu => new u (List.mem_cons_of_mem v hu)) apart clear'
    refine ⟨l', ?_, canonical, fun a f k => ?_⟩
    · rw [addAll, List.foldlM_cons, added]
      exact rest
    · rw [has', has, has_cons, or_assoc]

/-- The areas are disjoint and none is empty. -/
structure Scattered (vs : List VMA) : Prop where
  nonempty : ∀ v ∈ vs, v.start < v.stop
  apart : vs.Pairwise fun v w => ¬ v.Meets w

theorem Scattered.perm (h : Scattered vs) (perm : vs.Perm l) : Scattered l :=
  ⟨fun v hv => h.nonempty v (perm.mem_iff.mpr hv),
    h.apart.perm perm fun meets meets' => meets ⟨meets'.2, meets'.1⟩⟩

theorem Laid.scattered (h : Laid l) : Scattered l :=
  ⟨h.nonempty, h.sorted.imp fun order meets => by grind [VMA.Meets]⟩

theorem addAll_nil (h : Scattered vs) :
    ∃ l, addAll [] vs = .ok l ∧ Canonical l ∧ ∀ a f k, Has l a f k ↔ Has vs a f k := by
  obtain ⟨l, ok, canonical, has⟩ := addAll_ok canonical_nil h.nonempty h.apart fun _ _ _ hw => nomatch hw
  exact ⟨l, ok, canonical, fun a f k => (has a f k).trans (or_iff_right fun ⟨_, hv, _⟩ => nomatch hv)⟩

/-- The lists that an address space can hold: areas come by `add_vma` and go by `remove_vma`. -/
inductive Built : List VMA → Prop
  | new : Built []
  | add {l l' : List VMA} {vma : VMA} (old : Built l) (nonempty : vma.start < vma.stop)
      (ok : addVma l vma = .ok l') : Built l'
  | remove {l l' : List VMA} {vma : VMA} {start : Nat} (old : Built l)
      (found : removeVma l start = some (vma, l')) : Built l'

theorem Built.canonical (h : Built l) : Canonical l := by
  induction h with
  | new => exact canonical_nil
  | add _ nonempty ok ih => exact ih.addVma nonempty ok
  | remove _ found ih =>
    obtain ⟨-, before, after, rfl, rfl⟩ := removeVma_eq_some found
    exact ih.sublist (List.Sublist.append_left (List.sublist_cons_self _ after) before)

/-- The order in which disjoint areas are added does not matter: the result is the one maximal list
with their addresses. A list that an address space holds is its own result. -/
theorem add_any_order :
    (∀ vs, Scattered vs → ∃ l, Canonical l ∧ (∀ a f k, Has l a f k ↔ Has vs a f k) ∧
      (∀ order, order.Perm vs → addAll [] order = .ok l) ∧
      ∀ l', Canonical l' → (∀ a f k, Has l' a f k ↔ Has vs a f k) → l' = l) ∧
    ∀ l, Built l → addAll [] l = .ok l := by
  constructor
  · intro vs scattered
    obtain ⟨l, -, canonical, has⟩ := addAll_nil scattered
    have unique : ∀ l', Canonical l' → (∀ a f k, Has l' a f k ↔ Has vs a f k) → l' = l :=
      fun l' canonical' has' => canonical'.ext canonical fun a f k => (has' a f k).trans (has a f k).symm
    refine ⟨l, canonical, has, fun order perm => ?_, unique⟩
    obtain ⟨l', ok, canonical', has'⟩ := addAll_nil (scattered.perm perm.symm)
    rw [ok, unique l' canonical' fun a f k => (has' a f k).trans ?_]
    simp only [Has, perm.mem_iff]
  · intro l built
    have canonical := built.canonical
    obtain ⟨l', ok, canonical', has⟩ := addAll_nil canonical.toLaid.scattered
    rw [ok, canonical'.ext canonical has]

/-- Three areas that end up as one. -/
theorem add_any_order_three :
    addAll [] [⟨0x1000, 0x2000, .rw, .heap⟩, ⟨0x3000, 0x4000, .rw, .heap⟩,
      ⟨0x2000, 0x3000, .rw, .heap⟩] = .ok [⟨0x1000, 0x4000, .rw, .heap⟩] ∧
    addAll [] [⟨0x1000, 0x2000, .rw, .heap⟩, ⟨0x2000, 0x3000, .rw, .heap⟩,
      ⟨0x3000, 0x4000, .rw, .heap⟩] = .ok [⟨0x1000, 0x4000, .rw, .heap⟩] := by
  have scattered : Scattered [⟨0x1000, 0x2000, .rw, .heap⟩, ⟨0x3000, 0x4000, .rw, .heap⟩,
      ⟨0x2000, 0x3000, .rw, .heap⟩] := ⟨by simp, by simp [VMA.Meets]⟩
  have one : addAll [] [⟨0x1000, 0x2000, .rw, .heap⟩, ⟨0x3000, 0x4000, .rw, .heap⟩,
      ⟨0x2000, 0x3000, .rw, .heap⟩] = .ok [⟨0x1000, 0x4000, .rw, .heap⟩] := by decide
  obtain ⟨l, -, -, anyOrder, -⟩ := add_any_order.1 _ scattered
  obtain rfl := Except.ok.inj ((anyOrder _ (.refl _)).symm.trans one)
  exact ⟨one, anyOrder _ (.cons _ (.swap _ _ _))⟩

end Vmas
end Ferrum
