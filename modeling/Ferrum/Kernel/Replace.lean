import Ferrum.Vma.Canonical
import Ferrum.Kernel.Accounts
import Ferrum.Kernel.RoundTrip

/-!
# Mapping over what is there

`mmap_fixed` punches a hole into the areas and puts the new area into it. Each area that meets the hole
leaves the list; what sticks out of the hole on the left or on the right is inserted again, where it may
be joined with a neighbour. An area that is still to be visited meets the hole, so it touches no such
piece and is found as it was.
-/
namespace Ferrum

open Machine (Local PoolInv)

namespace Vmas

variable {l l' : List VMA} {v w vma : VMA} {s e : Nat}

/-! ## The list of areas -/

theorem mem_addVma (ok : addVma l vma = .ok l') (hw : w ∈ l) (left : w.stop ≠ vma.start)
    (right : w.start ≠ vma.stop) : w ∈ l' := by
  obtain ⟨-, -, inserted⟩ := addVma_eq_ok ok
  rw [← below_append_above l vma.start] at hw
  cases inserted <;> grind

theorem apart_of_free (h : Laid l) (order : s < e) (free : ∀ a, s ≤ a → a < e → ∀ f k, ¬ Has l a f k) :
    ∀ w ∈ l, w.stop ≤ s ∨ e ≤ w.start := by
  intro w hw
  by_contra meets
  have nonempty := h.nonempty w hw
  have inside : s ≤ max s w.start ∧ max s w.start < e ∧ w.start ≤ max s w.start ∧
    max s w.start < w.stop := by omega
  exact free _ inside.1 inside.2.1 _ _ ⟨w, hw, inside.2.2.1, inside.2.2.2, rfl, rfl⟩

theorem keepPiece_spec (h : Wf l) (proper : s < e → (piece v s e).Proper)
    (free : ∀ a, s ≤ a → a < e → ∀ f k, ¬ Has l a f k) :
    ∃ l', AddressSpace.keepPiece l v s e = .ok l' ∧ Wf l' ∧
      (∀ a f k, Has l' a f k ↔ Has l a f k ∨ (s ≤ a ∧ a < e ∧ v.flags = f ∧ v.kind = k)) ∧
      ∀ w ∈ l, (s < e → w.stop ≠ s ∧ w.start ≠ e) → w ∈ l' := by
  unfold AddressSpace.keepPiece
  split
  · rename_i order
    have apart : ∀ w ∈ l, w.stop ≤ (piece v s e).start ∨ (piece v s e).stop ≤ w.start :=
      apart_of_free h order free
    obtain ⟨l', ok⟩ := addVma_ok apart h order
    obtain ⟨wf, -, has⟩ := addVma_spec h (proper order) ok
    exact ⟨l', ok, wf, has, fun w hw far => mem_addVma ok hw (far order).1 (far order).2⟩
  · exact ⟨l, rfl, h, fun a f k => by grind, fun w hw _ => hw⟩

theorem mem_takeWhile_start (h : Laid l) (hv : v ∈ l) (first : v.start < e) :
    v ∈ l.takeWhile (·.start < e) := by
  induction l with
  | nil => cases hv
  | cons w l ih =>
    obtain ⟨before, sorted⟩ := List.pairwise_cons.mp h.sorted
    have nonempty := h.nonempty w List.mem_cons_self
    have rest : Laid l := h.sublist (List.sublist_cons_self w l)
    rcases List.mem_cons.mp hv with rfl | later
    · simp [first]
    · have := before v later
      have : w.start < e := by omega
      simp [this, ih rest later]

/-- An area that starts before a point and reaches beyond it is the last one below. -/
theorem getLast?_below (h : Laid l) (hv : v ∈ l) (first : v.start < s) (last : s < v.stop) :
    (below l s).getLast? = some v := by
  have there : v ∈ below l s := mem_takeWhile_start h hv first
  obtain ⟨init, u, split⟩ := (List.eq_nil_or_concat' (below l s)).resolve_left (List.ne_nil_of_mem there)
  have sorted := h.sorted.sublist (List.takeWhile_sublist (fun v : VMA => decide (v.start < s)))
  have mine : u ∈ below l s := by simp [split]
  have low : u.start < s := (mem_below mine).2
  change (below l s).Pairwise _ at sorted
  rw [split, List.pairwise_append] at sorted
  rw [split, List.getLast?_concat]
  rw [split] at there
  grind

/-- The areas that `punch_hole` looks at are some of the list, in order. -/
theorem visited_sublist (l : List VMA) (s : Nat) :
    (((below l s).getLast?.filter fun v => s < v.stop).toList ++ above l s).Sublist l := by
  have sub : ((below l s).getLast?.filter fun v => s < v.stop).toList.Sublist (below l s) := by
    cases found : (below l s).getLast? with
    | none => simp
    | some u =>
      have mem := List.mem_of_getLast? found
      rw [Option.filter_some]
      split <;> simp [mem]
  simpa [below_append_above] using sub.append_right (above l s)

/-- The areas that `punch_hole` collects are those that meet the hole. -/
theorem overlapping_iff (h : Wf l) :
    v ∈ AddressSpace.overlapping l s e ↔ v ∈ l ∧ v.start < e ∧ s < v.stop := by
  refine ⟨AddressSpace.mem_overlapping h, ?_⟩
  rintro ⟨hv, first, last⟩
  refine mem_takeWhile_start (h.laid.sublist (visited_sublist l s)) ?_ first
  rcases Nat.lt_or_ge v.start s with low | high
  · simp [getLast?_below h.laid hv low last, last]
  · rw [← below_append_above l s] at hv
    refine List.mem_append_right _ ((List.mem_append.mp hv).resolve_left fun early => ?_)
    have := (mem_below early).2
    omega

theorem overlapping_nodup (h : Laid l) : (AddressSpace.overlapping l s e).Nodup :=
  h.nodup.sublist ((List.takeWhile_sublist _).trans (visited_sublist l s))

theorem punched (h : Wf l) (hv : v ∈ l) (first : v.start < e) (last : s < v.stop) (order : s < e)
    (hs : PAGE_SIZE ∣ s) (he : PAGE_SIZE ∣ e) :
    ∃ m l₁ l₂, removeVma l v.start = some (v, m) ∧ AddressSpace.keepPiece m v v.start s = .ok l₁ ∧
      AddressSpace.keepPiece l₁ v e v.stop = .ok l₂ ∧ Wf l₂ ∧
      (∀ a f k, Has l₂ a f k ↔ Has l a f k ∧ ¬ (s ≤ a ∧ a < e ∧ v.start ≤ a ∧ a < v.stop)) ∧
      ∀ w ∈ l, w ≠ v → w.start < e → s < w.stop → w ∈ l₂ := by
  have proper := h.proper v hv
  obtain ⟨m, removed⟩ : ∃ m, removeVma l v.start = some (v, m) := by
    cases removed : removeVma l v.start with
    | none => exact absurd rfl ((removeVma_eq_none h).mp removed v hv)
    | some out =>
      obtain ⟨w, m⟩ := out
      obtain ⟨same, before, after, rfl, rfl⟩ := removeVma_eq_some removed
      have := (h.proper w (by simp)).nonempty
      have := proper.nonempty
      obtain rfl : w = v := h.laid.eq_of_mem (by simp) hv (a := v.start) (by omega) (by omega)
      exact ⟨_, rfl⟩
  have wf := wf_of_removeVma h removed
  have mem {w} : w ∈ m ↔ w ∈ l ∧ w ≠ v := mem_of_removeVma h removed
  have apart {w} (hw : w ∈ m) : w.stop ≤ v.start ∨ v.stop ≤ w.start :=
    (h.laid.apart (mem.mp hw).1 hv).resolve_left (mem.mp hw).2
  have free : ∀ a, v.start ≤ a → a < v.stop → ∀ f k, ¬ Has m a f k := by
    rintro a low high f k ⟨w, hw, low', high', -⟩
    rcases apart hw with left | right <;> omega
  obtain ⟨l₁, left, wf₁, has₁, kept₁⟩ := keepPiece_spec (v := v) (s := v.start) (e := s) wf
    (fun order => proper_piece proper proper.start hs order (by omega))
    (fun a low high => free a low (by omega))
  obtain ⟨l₂, right, wf₂, has₂, kept₂⟩ := keepPiece_spec (v := v) (s := e) (e := v.stop) wf₁
    (fun order => proper_piece proper he proper.stop order (by omega))
    (fun a low high f k has => by
      rcases (has₁ a f k).mp has with old | new
      · exact free a (by omega) high f k old
      · omega)
  refine ⟨m, l₁, l₂, removed, left, right, wf₂, fun a f k => ?_, fun w hw ne first' last' => ?_⟩
  · rw [has₂, has₁]
    constructor
    · rintro ((⟨w, hw, inside⟩ | new) | new)
      · refine ⟨⟨w, (mem.mp hw).1, inside⟩, ?_⟩
        rcases apart hw with left | right <;> omega
      · exact ⟨⟨v, hv, new.1, by omega, new.2.2⟩, by omega⟩
      · exact ⟨⟨v, hv, by omega, new.2.1, new.2.2⟩, by omega⟩
    · rintro ⟨⟨w, hw, inside⟩, out⟩
      by_cases same : w = v
      · subst same
        grind
      · exact .inl (.inl ⟨w, mem.mpr ⟨hw, same⟩, inside⟩)
  · have there : w ∈ m := mem.mpr ⟨hw, ne⟩
    have nonempty := (h.proper w hw).nonempty
    have sides := apart there
    exact kept₂ w (kept₁ w there (by omega)) (by omega)

end Vmas

/-! ## The pages -/

section Pages

variable {S img : Set Nat} {st st' : Machine Pool} {tab : Tables} {p : Profile} {space : AddressSpace}
  {s e : Nat}

/-- The pages of some areas that lie in a hole. -/
def holePages (vmas : List VMA) (s e : Nat) : Set Nat :=
  {q | ∃ v ∈ vmas, q ∈ pagesIn (max v.start s) (min v.stop e)}

theorem holePages_cons (v : VMA) (vmas : List VMA) : holePages (v :: vmas) s e =
    pagesIn (max v.start s) (min v.stop e) ∪ holePages vmas s e := by
  ext q
  simp [holePages]

theorem mem_holePages {vmas : List VMA} {q : Nat} :
    q ∈ holePages vmas s e ↔ q ∈ pagesIn s e ∧ q ∈ areaPages vmas := by
  simp only [holePages, pagesIn, areaPages, Set.mem_ofPred_eq]
  constructor
  · rintro ⟨v, hv, low, high⟩
    exact ⟨⟨by omega, by omega⟩, v, hv, by omega, by omega⟩
  · rintro ⟨⟨low, high⟩, v, hv, low', high'⟩
    exact ⟨v, hv, by omega, by omega⟩

theorem area_clear {v : VMA} (area : v.start ≤ v.stop ∧ UserRange img v.start v.stop) :
    Clear img v.start v.stop := ⟨area.2.below, area.2.off⟩

/-- All rounds: the hole is free of areas and of their pages, and the rest is as it was. -/
theorem Owned.punchAll_spec {rest vmas : List VMA} (inv : PoolInv S st)
    (own : Owned img st space.owner space.pml4 tab) (wf : Vmas.Wf vmas) (order : s < e)
    (hs : PAGE_SIZE ∣ s) (he : PAGE_SIZE ∣ e) (distinct : rest.Nodup)
    (meet : ∀ v ∈ rest, v ∈ vmas ∧ v.start < e ∧ s < v.stop) (user : UserAreas img rest) (p : Profile) :
    ∃ vmas' st', space.punchAll p s e rest vmas st = .ok (.ok (), vmas', st') ∧ Vmas.Wf vmas' ∧
      (∀ a f k, Vmas.Has vmas' a f k ↔ Vmas.Has vmas a f k ∧
        ¬ (s ≤ a ∧ a < e ∧ ∃ v ∈ rest, v.start ≤ a ∧ a < v.stop)) ∧
      Cleared S img space.owner space.pml4 tab (holePages rest s e) st st' := by
  induction rest generalizing vmas st with
  | nil =>
    have none : holePages [] s e = ∅ := by simp [holePages]
    exact ⟨vmas, st, rfl, wf, by simp, none ▸ .refl inv own.toRooted⟩
  | cons v rest ih =>
    obtain ⟨other, distinct⟩ := List.nodup_cons.mp distinct
    obtain ⟨hv, first, last⟩ := meet v List.mem_cons_self
    have nonempty := (wf.proper v hv).nonempty
    obtain ⟨m, l₁, l₂, removed, left, right, wf₂, has₂, kept⟩ :=
      Vmas.punched wf hv first last order hs he
    have range := hole_range (wf.proper v hv) (area_clear (user v List.mem_cons_self)) hs he
    obtain ⟨st₁, pages, cleared⟩ := own.forPages (fun inv own user _ => own.unmapPage inv user p) inv
      range (by omega) p
    have one : space.punchOne p s e vmas st v = .ok (.ok (), l₂, st₁) := by
      simp [AddressSpace.punchOne, removed, pages, left, right]
    obtain ⟨vmas', st', run, wf', has, cleared'⟩ := ih cleared.step.inv (cleared.owned own range.page)
      wf₂ distinct (fun w hw => by
        obtain ⟨mem, first', last'⟩ := meet w (List.mem_cons_of_mem _ hw)
        exact ⟨kept w mem (fun same => other (same ▸ hw)) first' last', first', last'⟩)
      fun w hw => user w (List.mem_cons_of_mem _ hw)
    refine ⟨vmas', st', by rw [AddressSpace.punchAll, one, ok_bind]; exact run, wf', fun a f k => ?_, ?_⟩
    · rw [has, has₂]
      grind
    · rw [holePages_cons]
      refine cleared.trans (fun q hq => ?_) cleared'
      obtain ⟨w, hw, hq⟩ := hq
      have mem := (meet w (List.mem_cons_of_mem _ hw)).1
      have area := area_clear (user w (List.mem_cons_of_mem _ hw))
      exact ((hole_range (wf.proper w mem) area hs he).page q hq).lower

/-! ## The frames -/

/-- Page frames have been given back one by one, and each was struck from the table as it went. -/
def Returned (st st' : Machine Pool) : Prop :=
  ∃ given : List (Owner × Nat),
    st'.pool.log = given.map (fun g => Event.free g.1 ⟨g.2, 0⟩) ++ st.pool.log ∧
    ((st.pool.owners.map Prod.fst).Nodup → (st'.pool.owners.map Prod.fst).Nodup ∧
      ∀ entry, entry ∈ st'.pool.owners ↔ entry ∈ st.pool.owners ∧ ∀ g ∈ given, entry.1 ≠ g.2)

theorem Returned.trans {st'' : Machine Pool} (h : Returned st st') (h' : Returned st' st'') :
    Returned st st'' := by
  obtain ⟨given, log, table⟩ := h
  obtain ⟨given', log', table'⟩ := h'
  refine ⟨given' ++ given, by simp [log', log], fun once => ?_⟩
  obtain ⟨once₁, mem₁⟩ := table once
  obtain ⟨once₂, mem₂⟩ := table' once₁
  refine ⟨once₂, fun entry => ?_⟩
  rw [mem₂, mem₁, List.forall_mem_append]
  tauto

theorem Returned.giving : Giving Returned := by
  refine ⟨⟨fun log owners => ⟨[], by simpa using log, fun once => ?_⟩, Returned.trans⟩, ?_⟩
  · exact ⟨owners ▸ once, fun entry => by simp [owners]⟩
  · intro p space st st' f run
    obtain ⟨log, table⟩ := release_log run
    refine ⟨[(space.owner, f)], log, fun once => ?_⟩
    simpa using table once

/-- The frames of the cleared pages, and no others, have been given back, each of them once. -/
theorem frames_given {Q : Set Nat} (cleared : Cleared S img space.owner space.pml4 tab Q st st')
    (own : Owned img st space.owner space.pml4 tab) (inside : ∀ q ∈ Q, UserPage img q)
    (inv : PoolInv S st) (returned : Returned st st') :
    ∃ given : List Nat, given.Nodup ∧
      st'.pool.log = given.map (fun f => Event.free space.owner ⟨f, 0⟩) ++ st.pool.log ∧
      (∀ f, f ∈ given ↔ ∃ q ∈ Q, frameAt st.mem tab q = some f) ∧
      ((st.pool.owners.map Prod.fst).Nodup → (st'.pool.owners.map Prod.fst).Nodup ∧
        ∀ entry, entry ∈ st'.pool.owners ↔ entry ∈ st.pool.owners ∧ entry.1 ∉ given) := by
  obtain ⟨given, log, table⟩ := returned
  have events : given.map (fun g => Event.free g.1 ⟨g.2, 0⟩) =
      (given.map fun g => (g.1, (⟨g.2, 0⟩ : Block))).map fun e => Event.free e.1 e.2 := by simp
  have clean := cleared.step.inv.clean
  rw [log, events] at clean
  have moved := outstanding_frees clean
  rw [← events, ← log] at moved
  have distinct := moved.nodup_iff.mpr inv.nodup.of_map
  have apart := List.disjoint_of_nodup_append distinct
  have mem (o : Owner) (f : Nat) : (o, f) ∈ given ↔ st.holds o ⟨f, 0⟩ ∧ ¬ st'.holds o ⟨f, 0⟩ := by
    have here : (o, f) ∈ given ↔ (o, (⟨f, 0⟩ : Block)) ∈ given.map fun g => (g.1, ⟨g.2, 0⟩) := by
      simp
    have either := moved.mem_iff (a := (o, (⟨f, 0⟩ : Block)))
    rw [List.mem_append] at either
    rw [here, Machine.holds, Machine.holds]
    exact ⟨fun h => ⟨either.mp (Or.inl h), fun h' => apart h h'⟩,
      fun h => (either.mpr h.1).resolve_right h.2⟩
  have mine : ∀ g ∈ given, g.1 = space.owner := by
    intro g hg
    by_contra other
    obtain ⟨held, gone⟩ := (mem g.1 g.2).mp hg
    exact gone ((cleared.step.holds other).mpr held)
  have all : given = (given.map Prod.snd).map fun f => (space.owner, f) := by
    rw [List.map_map]
    exact (List.map_id given).symm.trans (List.map_congr_left fun g hg => Prod.ext (mine g hg) rfl)
  refine ⟨given.map Prod.snd, ?_, ?_, fun f => ?_, fun once => ?_⟩
  · refine List.Nodup.map_on (fun g hg h hh same => Prod.ext ((mine g hg).trans (mine h hh).symm) same) ?_
    exact distinct.of_append_left.of_map
  · rw [log]
    congr 1
    rw [List.map_map]
    exact List.map_congr_left fun g hg => by simp [mine g hg]
  · have there : f ∈ given.map Prod.snd ↔ (space.owner, f) ∈ given := by
      constructor
      · intro hf
        obtain ⟨g, hg, rfl⟩ := List.mem_map.mp hf
        exact mine g hg ▸ hg
      · exact fun hf => List.mem_map_of_mem hf
    rw [there, mem, cleared.holds]
    constructor
    · rintro ⟨held, lost⟩
      by_contra none
      exact lost ⟨held, fun other => none other.2⟩
    · rintro ⟨q, hq, seen⟩
      obtain ⟨held, -⟩ := own.frame_of_page (inside q hq) seen
      exact ⟨held, fun other => other.2 ⟨rfl, q, hq, seen⟩⟩
  · obtain ⟨once', entries⟩ := table once
    refine ⟨once', fun entry => ?_⟩
    rw [entries]
    refine and_congr_right fun _ => ⟨fun far hf => ?_, fun out g hg same => ?_⟩
    · obtain ⟨g, hg, same⟩ := List.mem_map.mp hf
      exact far g hg same.symm
    · exact out (same ▸ List.mem_map_of_mem hg)

/-! ## mmap_fixed -/

/-- What `mmap_fixed` leaves: the new area in its place, with no page of the old ones behind it, and
everything else as it was. -/
structure Replaced (S img : Set Nat) (tab : Tables) (area : VMA) (space : AddressSpace)
    (st : Machine Pool) (space' : AddressSpace) (st' : Machine Pool) : Prop where
  wf : Vmas.Wf space'.vmas
  attr : ∀ a, Vmas.attr space'.vmas a =
    if area.start ≤ a ∧ a < area.stop then some (area.flags, area.kind) else Vmas.attr space.vmas a
  pages : Cleared S img space.owner space.pml4 tab
    (pagesIn area.start area.stop ∩ areaPages space.vmas) st st'
  frames : ∃ given : List Nat, given.Nodup ∧
    st'.pool.log = given.map (fun f => Event.free space.owner ⟨f, 0⟩) ++ st.pool.log ∧
    (∀ f, f ∈ given ↔ ∃ q ∈ pagesIn area.start area.stop ∩ areaPages space.vmas,
      frameAt st.mem tab q = some f) ∧
    ((st.pool.owners.map Prod.fst).Nodup → (st'.pool.owners.map Prod.fst).Nodup ∧
      ∀ entry, entry ∈ st'.pool.owners ↔ entry ∈ st.pool.owners ∧ entry.1 ∉ given)

/-- Rounding up gives a page boundary, whatever it does at the top of the address space. -/
theorem alignUp_boundary {a r : Nat} (run : alignUp p a PAGE_SIZE = .ok r) :
    PAGE_SIZE ∣ r ∧ r < 2 ^ 64 := by
  cases p with
  | dev =>
    by_cases fits : a + PAGE_SIZE < 2 ^ 64
    · obtain rfl := Except.ok.inj ((alignUp_ok .dev fits).symm.trans run)
      have := roundUp_lt a
      exact ⟨dvd_roundUp a, by omega⟩
    · rw [alignUp_dev_error (by omega)] at run
      cases run
  | release =>
    obtain rfl := Except.ok.inj ((alignUp_release a).symm.trans run)
    have := Nat.mod_lt (a + (PAGE_SIZE - 1)) (show 0 < 2 ^ 64 by decide)
    exact ⟨Nat.dvd_mul_left _ _, lt_of_le_of_lt (Nat.div_mul_le_self _ _) this⟩

theorem range_boundaries {addr size start stop : Nat}
    (range : Vmas.range p addr size = .ok (start, stop)) :
    PAGE_SIZE ∣ start ∧ PAGE_SIZE ∣ stop ∧ stop < 2 ^ 64 := by
  obtain ⟨start', first, range⟩ := bind_eq_ok.mp range
  obtain ⟨past, -, range⟩ := bind_eq_ok.mp range
  obtain ⟨stop', last, range⟩ := bind_eq_ok.mp range
  obtain ⟨rfl, rfl⟩ := Prod.mk.inj (Except.ok.inj range)
  exact ⟨(alignUp_boundary first).1, alignUp_boundary last⟩

/-- Mapping over a range is never refused and replaces what is in the range. -/
theorem mmap_fixed_replaces (inv : PoolInv S st) (own : Owned img st space.owner space.pml4 tab)
    (wf : Vmas.Wf space.vmas) (user : UserAreas img space.vmas) {addr size start stop : Nat}
    (range : Vmas.range p addr size = .ok (start, stop)) (order : start < stop) (flags : VMAFlags)
    (kind : VMAKind) : ∃ space' st',
      space.mmapFixed p st addr size flags kind = .ok (.ok start, space', st') ∧
      Replaced S img tab ⟨start, stop, flags, kind⟩ space st space' st' := by
  obtain ⟨first, last, bound⟩ := range_boundaries range
  have meet : ∀ v ∈ AddressSpace.overlapping space.vmas start stop,
      v ∈ space.vmas ∧ v.start < stop ∧ start < v.stop := fun v => (Vmas.overlapping_iff wf).mp
  obtain ⟨vmas₁, st', punched, wf₁, has₁, cleared⟩ := own.punchAll_spec inv wf order first last
    (Vmas.overlapping_nodup wf) meet (fun v hv => user v (meet v hv).1) p
  have proper : (⟨start, stop, flags, kind⟩ : VMA).Proper := ⟨order, first, last, bound⟩
  have free : ∀ a, start ≤ a → a < stop → ∀ f k, ¬ Vmas.Has vmas₁ a f k := by
    intro a low high f k has
    obtain ⟨⟨v, hv, inside⟩, out⟩ := (has₁ a f k).mp has
    exact out ⟨low, high, v, (Vmas.overlapping_iff wf).mpr ⟨hv, by omega, by omega⟩, inside.1, inside.2.1⟩
  obtain ⟨vmas₂, added⟩ := Vmas.addVma_ok (Vmas.apart_of_free wf₁ order free) wf₁ proper.nonempty
  have run : space.mmapFixed p st addr size flags kind =
      .ok (.ok start, { space with vmas := vmas₂ }, st') := by
    simp [AddressSpace.mmapFixed, range, AddressSpace.punchHole, punched, added]
  have same : holePages (AddressSpace.overlapping space.vmas start stop) start stop =
      pagesIn start stop ∩ areaPages space.vmas := by
    ext q
    rw [mem_holePages, Set.mem_inter_iff]
    refine and_congr_right fun here => ⟨Exists.imp fun v => And.imp_left fun hv => (meet v hv).1, ?_⟩
    rintro ⟨v, hv, hq⟩
    exact ⟨v, (Vmas.overlapping_iff wf).mpr ⟨hv, hq.1.trans_lt here.2, here.1.trans_lt hq.2⟩, hq⟩
  rw [same] at cleared
  refine ⟨_, st', run, (Vmas.addVma_spec wf₁ proper added).1, fun a => ?_, cleared,
    frames_given cleared own (fun q hq => user.page q hq.2) inv (Returned.giving.mmapFixed run)⟩
  rw [Vmas.attr_addVma wf₁ proper.nonempty added]
  split
  · rfl
  · rename_i out
    refine Vmas.attr_congr wf wf₁ fun f k => ?_
    rw [has₁]
    exact ⟨And.left, fun has => ⟨has, fun inside => out ⟨inside.1, inside.2.1⟩⟩⟩

end Pages

/-- The resident process maps two pages over the end of which its page lies. -/
theorem mmap_fixed_over_resident : ∃ (S : Set Nat) (tab : Tables) (st st' : Machine Pool)
    (space' : AddressSpace), residentStart = .ok st ∧
    residentSpace.mmapFixed .dev st 0x3ff000 0x2000 ⟨true, false, false⟩ .anonymous =
      .ok (.ok 0x3ff000, space', st') ∧
    Replaced S ∅ tab ⟨0x3ff000, 0x401000, ⟨true, false, false⟩, .anonymous⟩ residentSpace st space' st' := by
  obtain ⟨st, start⟩ : ∃ st, residentStart = .ok st := by
    have evaluates : (do let _ ← residentStart) = Except.ok () := by decide +kernel
    obtain ⟨st, start, -⟩ := bind_eq_ok.mp evaluates
    exact ⟨st, start⟩
  obtain ⟨S, tab, inv, own, -⟩ := residentStart_owned (Set.notMem_empty _) start
  have range : Vmas.range .dev 0x3ff000 0x2000 = .ok (0x3ff000, 0x401000) := by decide
  obtain ⟨space', st', run, replaced⟩ := mmap_fixed_replaces inv own residentSpace_wf
    (residentSpace_user (Set.notMem_empty _)) range (by decide) ⟨true, false, false⟩ .anonymous
  exact ⟨S, tab, st, st', space', start, run, replaced⟩

/-- The areas of the resident process after it has mapped a page at `2 ^ 48 + 0x400000`. -/
def aliasedAreas : List VMA := [⟨0x400000, 0x401000, .rw, .anonymous⟩,
  ⟨2 ^ 48 + 0x400000, 2 ^ 48 + 0x401000, .rw, .anonymous⟩]

/-- An address that is not canonical is taken for the one with the same low bits: mapping once more at
`2 ^ 48 + 0x400000` takes the page at `0x400000` away, which lies in another area. -/
theorem mmap_fixed_alias : Vmas.Wf aliasedAreas ∧ (do
    let st ← residentStart
    let (r, space, st) ← residentSpace.mmapFixed .dev st (2 ^ 48 + 0x400000) 0x1000 .rw .anonymous
    let before ← Machine.translate st.mem space.pml4 0x400000
    let (r', space', st') ← space.mmapFixed .dev st (2 ^ 48 + 0x400000) 0x1000 .rw .anonymous
    let after ← Machine.translate st'.mem space'.pml4 0x400000
    return (r.toOption, space.vmas, before, r'.toOption, after)) =
      Except.ok (some (2 ^ 48 + 0x400000), aliasedAreas, some 0x101000, some (2 ^ 48 + 0x400000), none) := by
  refine ⟨⟨fun v hv => ?_, by decide⟩, by decide +kernel⟩
  simp only [aliasedAreas, List.mem_cons, List.not_mem_nil, or_false] at hv
  rcases hv with rfl | rfl
  · exact ⟨by decide, by decide, by decide, by decide⟩
  · exact ⟨by decide, by decide, by decide, by decide⟩

end Ferrum
