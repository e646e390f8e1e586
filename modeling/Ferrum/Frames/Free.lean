import Ferrum.Allocator.Coalescing
import Ferrum.Frames.Local
import Mathlib

/-!
# Free memory

The bytes on the free lists, and how many there are. What is taken from the free memory is what the
free memory loses, so an allocation fails exactly when the pages taken so far are all there were.
-/
namespace Ferrum

open Machine (Local PoolInv Own)

variable {S : Set Nat} {st st' : Machine Pool} {owner : Owner} {p : Profile} {order : Nat}

/-- The bytes of the blocks on the free lists. -/
def freeCells (st : Machine Pool) : Set Nat :=
  {x | ∃ b, st.buddy.Listed b ∧ x ∈ b.cells PAGE_SIZE}

/-- The bytes that somebody holds. -/
def heldCells (st : Machine Pool) : Set Nat := {x | ∃ o b, st.holds o b ∧ x ∈ b.cells PAGE_SIZE}

namespace Machine.PoolInv

theorem freeCells_eq (inv : PoolInv S st) : freeCells st = S \ heldCells st := by
  obtain ⟨free, inv⟩ := inv.buddy
  ext x
  have held : x ∉ heldCells st ↔ ∀ b ∈ st.out, x ∉ b.cells PAGE_SIZE := by
    simp only [heldCells, Machine.out, Machine.holds, Set.mem_ofPred_eq, List.mem_map, Prod.exists,
      exists_eq_right]
    grind
  have cover := inv.tiling.append_right.cover x
  rw [Set.mem_sdiff, held]
  refine Iff.trans (exists_congr fun b => and_congr_left fun _ => inv.listed_iff) cover.symm

theorem freeCells_congr (inv : PoolInv S st) (inv' : PoolInv S st')
    (same : ∀ o b, st'.holds o b ↔ st.holds o b) : freeCells st' = freeCells st := by
  rw [inv.freeCells_eq, inv'.freeCells_eq, heldCells, heldCells]
  simp only [same]

theorem finite_freeCells (inv : PoolInv S st) : (freeCells st).Finite := by
  obtain ⟨free, inv⟩ := inv.buddy
  have cells : freeCells st ⊆ ⋃ b ∈ {b | b ∈ freeBlocks free MAX_ORDER}, b.cells PAGE_SIZE := by
    rintro x ⟨b, listed, hx⟩
    exact Set.mem_biUnion (inv.listed_iff.mp listed) hx
  refine (Set.Finite.biUnion (List.finite_toSet _) fun b _ => ?_).subset cells
  exact Set.finite_Ico _ _

/-- An allocation that fails changes nothing; no block is large enough. -/
theorem allocBlock_none (inv : PoolInv S st)
    (run : st.allocBlock p owner order = .ok (none, st')) :
    st' = st ∧ ∀ b, st.buddy.Listed b → b.order < order := by
  obtain ⟨⟨r, b⟩, alloc, out⟩ := bind_eq_ok.mp run
  obtain ⟨rfl, rfl⟩ := Prod.mk.inj (Except.ok.inj out)
  obtain ⟨free, buddy⟩ := inv.buddy
  rcases Buddy.alloc_spec p buddy order with ⟨none, empty⟩ | ⟨a, s', free', some, -⟩
  · obtain ⟨-, rfl⟩ := Prod.mk.inj (Except.ok.inj (alloc.symm.trans none))
    refine ⟨rfl, fun b listed => ?_⟩
    obtain ⟨bound, member⟩ := mem_freeBlocks.mp (buddy.listed_iff.mp listed)
    by_contra large
    rw [empty b.order (Nat.not_lt.mp large) bound] at member
    cases member
  · rw [some] at alloc
    cases alloc

theorem allocPage_none (inv : PoolInv S st) (run : st.allocPage p owner = .ok (none, st')) :
    st' = st ∧ freeCells st = ∅ := by
  obtain ⟨⟨r, st₁⟩, alloc, out⟩ := bind_eq_ok.mp run
  cases r with
  | none =>
    obtain ⟨-, rfl⟩ := Prod.mk.inj (Except.ok.inj out)
    obtain ⟨same, small⟩ := inv.allocBlock_none alloc
    refine ⟨same, Set.eq_empty_of_forall_notMem fun x ⟨b, listed, _⟩ => ?_⟩
    exact absurd (small b listed) (Nat.not_lt_zero _)
  | some phys =>
    obtain ⟨_, -, out⟩ := bind_eq_ok.mp out
    cases out

/-! ## Counting -/

theorem freeCells_ncard (inv : PoolInv S st) (inv' : PoolInv S st') {T : Set Nat}
    (taken : heldCells st' = heldCells st ∪ T) (new : Disjoint T (heldCells st)) :
    (freeCells st).ncard = (freeCells st').ncard + T.ncard := by
  have inside : T ⊆ S := by
    intro x hx
    obtain ⟨o, b, held, cell⟩ : x ∈ heldCells st' := taken ▸ Or.inr hx
    exact inv'.cells_registered held cell
  have split : freeCells st = freeCells st' ∪ T := by
    rw [inv.freeCells_eq, inv'.freeCells_eq, taken]
    ext x
    have := @inside x
    have apart : x ∈ T → x ∉ heldCells st := fun hx => Set.disjoint_left.mp new hx
    simp only [Set.mem_sdiff, Set.mem_union]
    tauto
  have apart : Disjoint (freeCells st') T := by
    rw [inv'.freeCells_eq, taken]
    exact Set.disjoint_left.mpr fun x hx hT => hx.2 (Or.inr hT)
  have finite : T.Finite := inv.finite_freeCells.subset (split ▸ Set.subset_union_right)
  rw [split, Set.ncard_union_eq apart inv'.finite_freeCells finite]

end Machine.PoolInv

theorem ncard_bytesOf {F : Set Nat} (aligned : ∀ f ∈ F, PAGE_SIZE ∣ f) :
    (bytesOf F).ncard = F.ncard * PAGE_SIZE := by
  have image : bytesOf F = (fun x : Nat × Nat => x.1 + x.2) '' (F ×ˢ ↑(Finset.range PAGE_SIZE)) := by
    ext x
    simp only [bytesOf, pageBytes, Set.mem_ofPred_eq, Set.mem_image, Set.mem_prod, Set.mem_Ico,
      Finset.coe_range, Set.mem_Iio, Prod.exists]
    constructor
    · rintro ⟨f, hf, low, high⟩
      exact ⟨f, x - f, ⟨hf, by omega⟩, by omega⟩
    · rintro ⟨f, i, ⟨hf, hi⟩, rfl⟩
      exact ⟨f, hf, by omega, by omega⟩
  have inj : Set.InjOn (fun x : Nat × Nat => x.1 + x.2) (F ×ˢ ↑(Finset.range PAGE_SIZE)) := by
    rintro ⟨f, i⟩ ⟨hf, hi⟩ ⟨g, j⟩ ⟨hg, hj⟩ same
    simp only [Finset.coe_range, Set.mem_Iio] at hf hi hg hj same
    obtain ⟨k, rfl⟩ := aligned f hf
    obtain ⟨l, rfl⟩ := aligned g hg
    simp only [PAGE_SIZE, Prod.mk.injEq] at *
    omega
  rw [image, inj.ncard_image, Set.ncard_prod, Set.ncard_coe_finset, Finset.card_range]

theorem Machine.PoolInv.freeCells_le (inv : PoolInv S st) (inv' : PoolInv S st') :
    (freeCells st).ncard ≤ (freeCells st').ncard + (heldCells st').ncard := by
  have finite : (heldCells st').Finite := by
    have blocks : heldCells st' ⊆ ⋃ b ∈ {b | b ∈ st'.out}, b.cells PAGE_SIZE := by
      rintro x ⟨o, b, held, hx⟩
      exact Set.mem_biUnion held.mem_out hx
    exact (Set.Finite.biUnion (List.finite_toSet _) fun b _ => Set.finite_Ico _ _).subset blocks
  refine le_trans (Set.ncard_le_ncard ?_ (inv'.finite_freeCells.union finite)) (Set.ncard_union_le _ _)
  rw [inv.freeCells_eq, inv'.freeCells_eq, Set.sdiff_union_self]
  exact fun x hx => Or.inl hx.1

theorem heldCells_le (inv : PoolInv S st)
    (single : (outstanding st.pool.log).all (·.2.order = 0) = true) :
    (heldCells st).ncard ≤ (outstanding st.pool.log).length * PAGE_SIZE := by
  have frames : st.frames ⊆ ↑((outstanding st.pool.log).map fun e => e.2.addr).toFinset := by
    rintro f ⟨o, held⟩
    simp only [List.coe_toFinset, Set.mem_ofPred_eq]
    exact List.mem_map_of_mem (f := fun e => e.2.addr) held
  have cells : heldCells st = bytesOf st.frames := by
    ext x
    constructor
    · rintro ⟨o, ⟨a, order⟩, held, hx⟩
      obtain rfl : order = 0 := by simpa using List.all_eq_true.mp single _ held
      exact ⟨a, ⟨o, held⟩, by rwa [← Machine.cells_page]⟩
    · rintro ⟨f, ⟨o, held⟩, hx⟩
      exact ⟨o, ⟨f, 0⟩, held, by rwa [Machine.cells_page]⟩
  rw [cells, ncard_bytesOf fun f hf => inv.aligned hf]
  refine Nat.mul_le_mul_right _ (le_trans (Set.ncard_le_ncard frames (Finset.finite_toSet _)) ?_)
  rw [Set.ncard_coe_finset]
  exact le_trans (List.toFinset_card_le _) (by rw [List.length_map])

/-- The single frames of an owner. -/
def framesOf (st : Machine Pool) (owner : Owner) : Set Nat := {f | st.holds owner ⟨f, 0⟩}

/-- The single frames that an owner has taken are what the free memory has lost. -/
theorem Machine.Local.freeCells_taken (step : Local S owner st st') (inv : PoolInv S st) {F : Set Nat}
    (fresh : ∀ f ∈ F, f ∉ st.frames)
    (holds : ∀ {b}, st'.holds owner b ↔ st.holds owner b ∨ (b.order = 0 ∧ b.addr ∈ F)) :
    (freeCells st).ncard = (freeCells st').ncard + F.ncard * PAGE_SIZE := by
  have held {f} (hf : f ∈ F) : st'.holds owner ⟨f, 0⟩ := holds.mpr (Or.inr ⟨rfl, hf⟩)
  have keep {o b} (h : st.holds o b) : st'.holds o b := by
    by_cases mine : o = owner
    · subst mine
      exact holds.mpr (Or.inl h)
    · exact (step.holds mine).mpr h
  have taken : heldCells st' = heldCells st ∪ bytesOf F := by
    ext x
    constructor
    · rintro ⟨o, ⟨a, order⟩, h, hx⟩
      by_cases mine : o = owner
      · subst mine
        rcases holds.mp h with old | ⟨single, inside⟩
        · exact Or.inl ⟨o, _, old, hx⟩
        · obtain rfl : order = 0 := single
          exact Or.inr ⟨a, inside, by rwa [← Machine.cells_page]⟩
      · exact Or.inl ⟨o, _, (step.holds mine).mp h, hx⟩
    · rintro (⟨o, b, h, hx⟩ | ⟨f, hf, hx⟩)
      · exact ⟨o, b, keep h, hx⟩
      · exact ⟨owner, ⟨f, 0⟩, held hf, by rwa [Machine.cells_page]⟩
  have apart : Disjoint (bytesOf F) (heldCells st) := by
    refine Set.disjoint_left.mpr fun x ⟨f, hf, hx⟩ ⟨o, b, h, hx'⟩ => ?_
    have differ : (⟨f, 0⟩ : Block) ≠ b := by
      rintro rfl
      exact fresh f hf ⟨o, h⟩
    exact Set.disjoint_left.mp (step.inv.apart (held hf).mem_out (keep h).mem_out differ).disjoint
      (by rwa [Machine.cells_page]) hx'
  rw [inv.freeCells_ncard step.inv taken apart,
    ncard_bytesOf fun f hf => (step.inv.tableFrame (held hf)).aligned]

/-- What an owner that held nothing holds now, in single pages, is what the free memory has lost. -/
theorem Machine.Local.freeCells_ncard (step : Local S owner st st') (inv : PoolInv S st)
    (fresh : ∀ b, ¬ st.holds owner b) (single : ∀ b, st'.holds owner b → b.order = 0) :
    (freeCells st).ncard = (freeCells st').ncard + (framesOf st' owner).ncard * PAGE_SIZE := by
  refine step.freeCells_taken inv (fun f held ⟨o, other⟩ => ?_) fun {b} => ?_
  · -- a frame of somebody else is not the owner's
    have ne : o ≠ owner := by
      rintro rfl
      exact fresh _ other
    have still := (step.holds ne).mpr other
    have inside : f ∈ Block.cells PAGE_SIZE ⟨f, 0⟩ := by
      rw [Machine.cells_page]
      exact ⟨Nat.le_refl f, Nat.lt_add_of_pos_right (by decide)⟩
    exact step.inv.cells_disjoint held still ne inside inside
  · constructor
    · intro held
      obtain ⟨a, order⟩ := b
      obtain rfl : order = 0 := single _ held
      exact Or.inr ⟨rfl, held⟩
    · rintro (old | ⟨zero, held⟩)
      · exact absurd old (fresh b)
      · obtain ⟨a, order⟩ := b
        obtain rfl : order = 0 := zero
        exact held

end Ferrum
