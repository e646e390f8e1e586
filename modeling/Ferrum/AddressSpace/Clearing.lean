import Ferrum.AddressSpace.Owned

/-!
# Clearing pages

`munmap`, `punch_hole`, `clear_user` and `destroy` take pages out of the tables and give their frames
back, page by page. `Cleared` says what a number of such steps amounts to: the pages of a set are
gone, their frames are free, and nothing else has changed. The steps compose, whatever the order.
-/
namespace Ferrum

open Machine (Local PoolInv Own)

variable {S img : Set Nat} {st st' st'' : Machine Pool} {owner : Owner} {root : Nat}
  {tab : Tables} {p : Profile} {v f : Nat} {space : AddressSpace} {Q Q' : Set Nat}

structure Cleared (S img : Set Nat) (owner : Owner) (root : Nat) (tab : Tables) (Q : Set Nat)
    (st st' : Machine Pool) : Prop where
  step : Local S owner st st'
  rooted : Rooted st' owner root tab
  gone : ∀ {q}, q ∈ Q → LowerPage q → view st'.mem tab q = none
  kept : ∀ {q}, q ∉ Q → LowerPage q → view st'.mem tab q = view st.mem tab q
  data : ∀ {q f flags}, UserPage img q → q ∉ Q → view st.mem tab q = some (f, flags) →
    Set.EqOn st'.mem st.mem (pageBytes f)
  holds : ∀ {b}, st'.holds owner b ↔
    st.holds owner b ∧ ¬ (b.order = 0 ∧ ∃ q ∈ Q, frameAt st.mem tab q = some b.addr)

namespace Cleared

theorem refl (inv : PoolInv S st) (rooted : Rooted st owner root tab) :
    Cleared S img owner root tab ∅ st st :=
  ⟨.refl inv, rooted, by simp, fun _ _ => rfl, fun _ _ _ _ _ => rfl, by simp⟩

theorem frameAt (h : Cleared S img owner root tab Q st st') {q : Nat} (lower : LowerPage q) :
    frameAt st'.mem tab q = some f ↔ q ∉ Q ∧ Ferrum.frameAt st.mem tab q = some f := by
  by_cases inside : q ∈ Q
  · simp [Ferrum.frameAt, h.gone inside lower, inside]
  · simp [Ferrum.frameAt, h.kept inside lower, inside]

theorem trans (lower : ∀ q ∈ Q', LowerPage q) (h : Cleared S img owner root tab Q st st')
    (h' : Cleared S img owner root tab Q' st' st'') :
    Cleared S img owner root tab (Q ∪ Q') st st'' := by
  refine ⟨h.step.trans h'.step, h'.rooted, ?_, ?_, ?_, ?_⟩
  · intro q inside hq
    by_cases again : q ∈ Q'
    · exact h'.gone again hq
    · rw [h'.kept again hq]
      exact h.gone (((Set.mem_union ..).mp inside).resolve_right again) hq
  · intro q outside hq
    rw [Set.mem_union, not_or] at outside
    rw [h'.kept outside.2 hq, h.kept outside.1 hq]
  · intro q f flags user outside seen
    rw [Set.mem_union, not_or] at outside
    have still : view st'.mem tab q = some (f, flags) := (h.kept outside.1 user.lower).trans seen
    exact (h'.data user outside.2 still).trans (h.data user outside.1 seen)
  · intro b
    rw [h'.holds, h.holds, and_assoc, ← not_or, ← and_or_left]
    refine and_congr_right fun _ => not_congr (and_congr_right fun _ => ?_)
    constructor
    · rintro (⟨q, hq, seen⟩ | ⟨q, hq, seen⟩)
      · exact ⟨q, Set.mem_union_left _ hq, seen⟩
      · exact ⟨q, Set.mem_union_right _ hq, ((h.frameAt (lower q hq)).mp seen).2⟩
    · rintro ⟨q, hq, seen⟩
      by_cases first : q ∈ Q
      · exact Or.inl ⟨q, first, seen⟩
      · have hq := ((Set.mem_union ..).mp hq).resolve_left first
        exact Or.inr ⟨q, hq, (h.frameAt (lower q hq)).mpr ⟨first, seen⟩⟩

theorem owned (h : Cleared S img owner root tab Q st st') (own : Owned img st owner root tab)
    (inside : ∀ q ∈ Q, UserPage img q) : Owned img st' owner root tab := by
  have shown {q f flags} (lower : LowerPage q) (seen : view st'.mem tab q = some (f, flags)) :
      q ∉ Q ∧ view st.mem tab q = some (f, flags) := by
    by_cases hq : q ∈ Q
    · rw [h.gone hq lower] at seen
      cases seen
    · exact ⟨hq, h.kept hq lower ▸ seen⟩
  refine ⟨h.rooted, ?_, ?_, ?_⟩
  · intro q f flags user seen
    obtain ⟨outside, seen⟩ := shown user.lower seen
    obtain ⟨held, notTable⟩ := own.pages user seen
    refine ⟨h.holds.mpr ⟨held, ?_⟩, notTable⟩
    rintro ⟨-, r, hr, shared⟩
    obtain ⟨flags', seen'⟩ := frameAt_eq_some.mp shared
    exact outside (own.inj user (inside r hr) seen seen' ▸ hr)
  · intro q r f flags flags' hq hr seen seen'
    exact own.inj hq hr (shown hq.lower seen).2 (shown hr.lower seen').2
  · intro q f flags lower image seen
    exact own.image lower image (shown lower seen).2

end Cleared

/-! ## One page -/

theorem Rooted.release (inv : PoolInv S st) (rooted : Rooted st space.owner root tab)
    (held : st.holds space.owner ⟨f, 0⟩) (notTable : ∀ π, tab π ≠ some f) (p : Profile) :
    ∃ st', space.release p st f = .ok st' ∧ Local S space.owner st st' ∧
      Rooted st' space.owner root tab ∧ (∀ q, view st'.mem tab q = view st.mem tab q) ∧
      (∀ {g}, st.holds space.owner ⟨g, 0⟩ → g ≠ f → Set.EqOn st'.mem st.mem (pageBytes g)) ∧
      ∀ {b}, st'.holds space.owner b ↔ st.holds space.owner b ∧ b ≠ ⟨f, 0⟩ := by
  obtain ⟨st', run, inv', frame, -, log⟩ := Machine.freeBlock_spec inv p held
  have holds {b} : st'.holds space.owner b ↔ st.holds space.owner b ∧ b ≠ ⟨f, 0⟩ := by
    simp [Machine.holds_free inv log, and_comm]
  have other {g} (hg : st.holds space.owner ⟨g, 0⟩) (ne : g ≠ f) :
      Set.EqOn st'.mem st.mem (pageBytes g) := by
    have still : st'.holds space.owner ⟨g, 0⟩ := holds.mpr ⟨hg, by simpa using ne⟩
    intro x hx
    exact frame fun _ => ⟨_, still.mem_out, by rwa [Machine.cells_page]⟩
  have tables : ∀ π t, tab π = some t → Set.EqOn st'.mem st.mem (pageBytes t) := fun π t h =>
    other (rooted.tables h) fun eq => notTable π (eq ▸ h)
  have freed := Local.of_free inv inv' frame log
  obtain ⟨owners, untracked⟩ := st'.pool.untrack_owners f
  refine ⟨⟨st'.mem, { st'.pool with owners }⟩, ?_, freed.trans (.owners inv' owners),
    ⟨rooted.tree.congr tables, fun h => holds.mpr ⟨rooted.tables h, ?_⟩⟩, Tree.view_congr tables,
    other, holds⟩
  · simp [AddressSpace.release, run, untracked]
  · rintro ⟨⟩
    exact notTable _ h

/-- The frame of a user page, once for both orders of freeing and unmapping. -/
theorem Owned.frame_of_page (own : Owned img st owner root tab) {q : Nat} (user : UserPage img q)
    (seen : frameAt st.mem tab q = some f) :
    st.holds owner ⟨f, 0⟩ ∧ (∀ π, tab π ≠ some f) ∧
      ∀ {r g flags}, UserPage img r → r ≠ q → view st.mem tab r = some (g, flags) →
        st.holds owner ⟨g, 0⟩ ∧ (∀ π, tab π ≠ some g) ∧ g ≠ f := by
  obtain ⟨flags, seen⟩ := frameAt_eq_some.mp seen
  obtain ⟨held, notTable⟩ := own.pages user seen
  refine ⟨held, notTable, fun {r g flags'} hr ne there => ?_⟩
  obtain ⟨held', notTable'⟩ := own.pages hr there
  refine ⟨held', notTable', ?_⟩
  rintro rfl
  exact ne (own.inj hr user there seen)

theorem Owned.unmapPage (inv : PoolInv S st) (own : Owned img st space.owner space.pml4 tab)
    (user : UserPage img (pageOf v)) (p : Profile) : ∃ st', space.unmapPage p st v = .ok st' ∧
      Cleared S img space.owner space.pml4 tab {pageOf v} st st' := by
  obtain ⟨st₁, run, pool, grown, views⟩ := own.toRooted.unmap inv user.lower
  have holds {b} : st₁.holds space.owner b ↔ st.holds space.owner b := by
    rw [Machine.holds, pool, Machine.holds]
  have gone : view st₁.mem tab (pageOf v) = none := by
    rw [views _ user.lower.lt, Function.update_self]
  have kept {q} (ne : q ∉ ({pageOf v} : Set Nat)) (lower : LowerPage q) :
      view st₁.mem tab q = view st.mem tab q := by
    rw [views q lower.lt, Function.update_of_ne ne]
  simp only [AddressSpace.unmapPage, run, ok_bind]
  cases seen : frameAt st.mem tab (pageOf v) with
  | none =>
    refine ⟨st₁, rfl, grown.step, grown.rooted, ?_, kept, ?_, by simp [holds, seen]⟩
    · rintro q rfl _
      exact gone
    · intro q g flags hq _ there
      obtain ⟨held, notTable⟩ := own.pages hq there
      exact (grown.spare_data held notTable).2
  | some f =>
    obtain ⟨held, notTable, others⟩ := own.frame_of_page user seen
    obtain ⟨st₂, release, step, rooted, same, data, left⟩ :=
      grown.rooted.release grown.step.inv (holds.mpr held) notTable p
    refine ⟨st₂, release, grown.step.trans step, rooted, ?_, ?_, ?_, ?_⟩
    · rintro q rfl _
      rw [same, gone]
    · intro q ne lower
      rw [same, kept ne lower]
    · intro q g flags hq ne there
      obtain ⟨held', notTable', differ⟩ := others hq ne there
      exact (data (holds.mpr held') differ).trans (grown.spare_data held' notTable').2
    · intro b
      rw [left, holds]
      obtain ⟨a, order⟩ := b
      simp [seen, and_comm, eq_comm]

theorem Owned.clearPage (inv : PoolInv S st) (own : Owned img st space.owner space.pml4 tab)
    (user : UserPage img (pageOf v)) (aligned : PAGE_SIZE ∣ v) (p : Profile) :
    ∃ st', space.clearPage p st v = .ok st' ∧
      Cleared S img space.owner space.pml4 tab {pageOf v} st st' := by
  have found : Machine.translate st.mem space.pml4 v = .ok (frameAt st.mem tab (pageOf v)) := by
    rw [own.tree.translate_ok user.lower, Nat.mod_eq_zero_of_dvd aligned]
    rfl
  simp only [AddressSpace.clearPage, found, ok_bind]
  cases seen : frameAt st.mem tab (pageOf v) with
  | none =>
    have absent : view st.mem tab (pageOf v) = none := by simpa [frameAt] using seen
    refine ⟨st, rfl, .refl inv, own.toRooted, ?_, fun _ _ => rfl, fun _ _ _ _ _ => rfl,
      by simp [seen]⟩
    rintro q rfl _
    exact absent
  | some f =>
    obtain ⟨held, notTable, others⟩ := own.frame_of_page user seen
    obtain ⟨st₁, release, step, rooted, same, data, left⟩ :=
      own.toRooted.release inv held notTable p
    obtain ⟨st₂, run, pool, grown, views⟩ := rooted.unmap step.inv user.lower
    refine ⟨st₂, by simp [release, run], step.trans grown.step, grown.rooted, ?_, ?_, ?_, ?_⟩
    · rintro q rfl lower
      rw [views _ lower.lt, Function.update_self]
    · intro q ne lower
      rw [views q lower.lt, Function.update_of_ne ne, same]
    · intro q g flags hq ne there
      obtain ⟨held', notTable', differ⟩ := others hq ne there
      have still : st₁.holds space.owner ⟨g, 0⟩ := left.mpr ⟨held', by simpa using differ⟩
      exact (grown.spare_data still notTable').2.trans (data held' differ)
    · intro b
      have unchanged : st₂.holds space.owner b ↔ st₁.holds space.owner b := by
        rw [Machine.holds, pool, Machine.holds]
      rw [unchanged, left]
      obtain ⟨a, order⟩ := b
      simp [seen, and_comm, eq_comm]

/-! ## Ranges and areas -/

/-- The pages that start in a range. -/
def pagesIn (start stop : Nat) : Set Nat := {q | start ≤ q * PAGE_SIZE ∧ q * PAGE_SIZE < stop}

/-- A range of whole user pages. -/
structure UserRange (img : Set Nat) (start stop : Nat) : Prop where
  first : PAGE_SIZE ∣ start
  last : PAGE_SIZE ∣ stop
  below : stop ≤ 2 ^ 47
  off : ∀ q ∈ pagesIn start stop, q ∉ img

theorem UserRange.lower {start stop q : Nat} (below : stop ≤ 2 ^ 47) (hq : q ∈ pagesIn start stop) :
    LowerPage q := by
  simp only [pagesIn, Set.mem_ofPred_eq, PAGE_SIZE] at hq
  simp only [LowerPage]
  omega

theorem UserRange.page {start stop : Nat} (range : UserRange img start stop) :
    ∀ q ∈ pagesIn start stop, UserPage img q :=
  fun q hq => ⟨UserRange.lower range.below hq, range.off q hq⟩

/-- The page of an address in a range, and the pages below the next one. -/
theorem pagesIn_step {start stop addr : Nat} (first : PAGE_SIZE ∣ start) (aligned : PAGE_SIZE ∣ addr)
    (low : start ≤ addr) (high : addr < stop) (below : stop ≤ 2 ^ 47) :
    pageOf addr ∈ pagesIn start stop ∧
      pagesIn start (addr + PAGE_SIZE) = pagesIn start addr ∪ {pageOf addr} := by
  rw [pageOf_eq (by omega)]
  obtain ⟨k, rfl⟩ := aligned
  obtain ⟨j, rfl⟩ := first
  simp only [pagesIn, Set.ext_iff, Set.mem_union, Set.mem_singleton_iff, Set.mem_ofPred_eq, PAGE_SIZE]
    at *
  refine ⟨by omega, fun q => ?_⟩
  omega

theorem Owned.forPages {body : Machine Pool → Nat → Except Stop (Machine Pool)}
    (clears : ∀ {st v}, PoolInv S st → Owned img st owner root tab → UserPage img (pageOf v) →
      PAGE_SIZE ∣ v → ∃ st', body st v = .ok st' ∧ Cleared S img owner root tab {pageOf v} st st')
    (inv : PoolInv S st) (own : Owned img st owner root tab) {start stop : Nat}
    (range : UserRange img start stop) (order : start ≤ stop) (p : Profile) :
    ∃ st', Ferrum.forPages p body st start stop = .ok st' ∧
      Cleared S img owner root tab (pagesIn start stop) st st' := by
  have inside {addr} (high : addr ≤ stop) : ∀ q ∈ pagesIn start addr, UserPage img q := fun q hq =>
    range.page q ⟨hq.1, hq.2.trans_le high⟩
  refine forPages_spec (fun addr st' => Cleared S img owner root tab (pagesIn start addr) st st')
    range.first range.last order (lt_of_le_of_lt range.below (by omega)) ?_ ?_
  · intro addr st' aligned low high cleared
    obtain ⟨member, grows⟩ := pagesIn_step range.first aligned low high range.below
    have user := range.page _ member
    obtain ⟨st'', run, one⟩ := clears cleared.step.inv
      (cleared.owned own (inside (by omega))) user aligned
    refine ⟨st'', run, ?_⟩
    rw [grows]
    refine cleared.trans ?_ one
    rintro q rfl
    exact user.lower
  · have none : pagesIn start start = ∅ := by
      ext q
      simp only [pagesIn, Set.mem_ofPred_eq, Set.mem_empty_iff_false, iff_false]
      omega
    rw [none]
    exact .refl inv own.toRooted

/-- The pages of a list of areas. -/
def areaPages (vmas : List VMA) : Set Nat := {q | ∃ v ∈ vmas, q ∈ pagesIn v.start v.stop}

/-- Every area is a non-empty range of user pages. -/
def UserAreas (img : Set Nat) (vmas : List VMA) : Prop :=
  ∀ v ∈ vmas, v.start ≤ v.stop ∧ UserRange img v.start v.stop

theorem UserAreas.page {vmas : List VMA} (user : UserAreas img vmas) :
    ∀ q ∈ areaPages vmas, UserPage img q := by
  rintro q ⟨v, hv, hq⟩
  exact (user v hv).2.page q hq

theorem mem_areaPages {vmas : List VMA} {q : Nat} :
    q ∈ areaPages vmas ↔ ∃ f k, Vmas.Has vmas (q * PAGE_SIZE) f k := by
  constructor
  · rintro ⟨v, hv, low, high⟩
    exact ⟨v.flags, v.kind, v, hv, low, high, rfl, rfl⟩
  · rintro ⟨f, k, v, hv, low, high, -⟩
    exact ⟨v, hv, low, high⟩

/-- An address space in order: it owns what it shows, and its areas are user areas. -/
structure AddressSpace.Sound (img : Set Nat) (st : Machine Pool) (space : AddressSpace) : Prop where
  own : ∃ tab, Owned img st space.owner space.pml4 tab
  wf : Vmas.Wf space.vmas
  areas : UserAreas img space.vmas

theorem UserAreas.of_has {vmas vmas' : List VMA} (user : UserAreas img vmas) (wf : Vmas.Wf vmas')
    (has : ∀ {a f k}, Vmas.Has vmas' a f k → Vmas.Has vmas a f k) : UserAreas img vmas' := by
  intro v hv
  have proper := wf.proper v hv
  have inside {a} (low : v.start ≤ a) (high : a < v.stop) :
      ∃ w ∈ vmas, w.start ≤ a ∧ a < w.stop := by
    obtain ⟨w, hw, low', high', -⟩ := has ⟨v, hv, low, high, rfl, rfl⟩
    exact ⟨w, hw, low', high'⟩
  refine ⟨proper.nonempty.le, proper.start, proper.stop, ?_, fun q hq => ?_⟩
  · have nonempty := proper.nonempty
    obtain ⟨w, hw, -, high⟩ := inside (show v.start ≤ v.stop - 1 by omega) (by omega)
    have := (user w hw).2.below
    omega
  · obtain ⟨w, hw, range⟩ := inside hq.1 hq.2
    exact (user w hw).2.off q range

theorem Owned.forAreas {body : Machine Pool → Nat → Except Stop (Machine Pool)}
    (clears : ∀ {st v}, PoolInv S st → Owned img st owner root tab → UserPage img (pageOf v) →
      PAGE_SIZE ∣ v → ∃ st', body st v = .ok st' ∧ Cleared S img owner root tab {pageOf v} st st')
    (p : Profile) {vmas : List VMA} (inv : PoolInv S st) (own : Owned img st owner root tab)
    (user : UserAreas img vmas) : ∃ st', AddressSpace.forAreas p body vmas st = .ok st' ∧
      Cleared S img owner root tab (areaPages vmas) st st' := by
  induction vmas generalizing st with
  | nil =>
    have none : areaPages [] = ∅ := by simp [areaPages]
    exact ⟨st, rfl, none ▸ .refl inv own.toRooted⟩
  | cons v vmas ih =>
    obtain ⟨order, range⟩ := user v List.mem_cons_self
    have rest : UserAreas img vmas := fun w hw => user w (List.mem_cons_of_mem _ hw)
    obtain ⟨st₁, run, cleared⟩ := own.forPages clears inv range order p
    obtain ⟨st₂, more, cleared'⟩ := ih cleared.step.inv (cleared.owned own range.page) rest
    have pages : areaPages (v :: vmas) = pagesIn v.start v.stop ∪ areaPages vmas := by
      ext q
      simp [areaPages]
    refine ⟨st₂, ?_, pages ▸ cleared.trans (fun q hq => (rest.page q hq).lower) cleared'⟩
    simp only [AddressSpace.forAreas, List.foldlM_cons, run, ok_bind]
    exact more

namespace AddressSpace

theorem unmapAreas_spec (inv : PoolInv S st) (own : Owned img st space.owner space.pml4 tab)
    (user : UserAreas img space.vmas) (p : Profile) :
    ∃ st', forAreas p (space.unmapPage p) space.vmas st = .ok st' ∧
      Cleared S img space.owner space.pml4 tab (areaPages space.vmas) st st' :=
  own.forAreas (fun inv own user _ => own.unmapPage inv user p) p inv user

theorem clearUser_spec (inv : PoolInv S st) (own : Owned img st space.owner space.pml4 tab)
    (user : UserAreas img space.vmas) (p : Profile) :
    ∃ st', space.clearUser p st = .ok ({ space with vmas := [] }, st') ∧
      Cleared S img space.owner space.pml4 tab (areaPages space.vmas) st st' := by
  obtain ⟨st', run, cleared⟩ :=
    own.forAreas (fun inv own user aligned => own.clearPage inv user aligned p) p inv user
  exact ⟨st', by simp [clearUser, run], cleared⟩

end AddressSpace

end Ferrum
