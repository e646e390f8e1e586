import Mathlib

/-!
# Tilings by aligned power-of-two blocks

A block of order `o` is an interval of `u * 2 ^ o` cells, aligned to its own size; `u` is the size
of the smallest block. `Tiling bs S` says that the blocks of `bs` are pairwise apart, aligned, and
cover exactly `S`. Splitting a block into its two halves and merging two buddies into their parent
are the two ways to change a tiling without changing the set it covers. Only the multiset of the
blocks matters, so the order in which an implementation keeps them never enters these proofs.
-/
namespace Ferrum

structure Block where
  addr : Nat
  order : Nat
  deriving DecidableEq, Repr

/-- The number of cells in a block of order `o`. -/
def blockSize (u o : Nat) : Nat := u * 2 ^ o

theorem blockSize_succ (u o : Nat) : blockSize u (o + 1) = 2 * blockSize u o := by
  simp only [blockSize, Nat.pow_succ]
  ring

theorem blockSize_pos {u : Nat} (hu : 0 < u) (o : Nat) : 0 < blockSize u o :=
  Nat.mul_pos hu (Nat.two_pow_pos o)

namespace Block

variable (u : Nat)

/-- One past the last cell. -/
def stop (b : Block) : Nat := b.addr + blockSize u b.order

def cells (b : Block) : Set Nat := Set.Ico b.addr (b.stop u)

def Aligned (b : Block) : Prop := blockSize u b.order ∣ b.addr

def Apart (b c : Block) : Prop := b.stop u ≤ c.addr ∨ c.stop u ≤ b.addr

variable {u}

theorem Apart.symm {b c : Block} (h : b.Apart u c) : c.Apart u b := Or.symm h

instance : Std.Symm (Apart u) := ⟨fun _ _ => Apart.symm⟩

theorem Apart.disjoint {b c : Block} (h : b.Apart u c) : Disjoint (b.cells u) (c.cells u) := by
  rw [Set.disjoint_left]
  rintro x ⟨hb, hb'⟩ ⟨hc, hc'⟩
  rcases h with h | h <;> omega

theorem addr_mem_cells (hu : 0 < u) (b : Block) : b.addr ∈ b.cells u := by
  have := blockSize_pos hu b.order
  exact ⟨le_refl _, by simp only [stop]; omega⟩

theorem apart_of_disjoint (hu : 0 < u) {b c : Block} (h : Disjoint (b.cells u) (c.cells u)) :
    b.Apart u c := by
  by_contra near
  simp only [Apart, not_or, not_le] at near
  have hb := blockSize_pos hu b.order
  have hc := blockSize_pos hu c.order
  simp only [stop] at near
  -- the larger of the two first cells lies in both blocks
  have mem : max b.addr c.addr ∈ b.cells u ∩ c.cells u := by
    simp only [cells, stop, Set.mem_inter_iff, Set.mem_Ico]
    omega
  exact Set.disjoint_left.mp h mem.1 mem.2

/-- The first half of a block of order `o + 1` at the same address. -/
theorem Aligned.of_succ {a o : Nat} (h : Aligned u ⟨a, o + 1⟩) : Aligned u ⟨a, o⟩ := by
  simp only [Aligned, blockSize_succ] at h ⊢
  exact (Dvd.intro_left 2 rfl).trans h

/-- Flipping bit `o` of the block number reaches the other half of the parent block. -/
theorem Aligned.buddy_cases {a o : Nat} (hu : 0 < u) (h : Aligned u ⟨a, o⟩) :
    ((a / u ^^^ 2 ^ o) * u = a + blockSize u o ∧ Aligned u ⟨a, o + 1⟩) ∨
      (a = (a / u ^^^ 2 ^ o) * u + blockSize u o ∧
        Aligned u ⟨(a / u ^^^ 2 ^ o) * u, o + 1⟩) := by
  obtain ⟨k, rfl⟩ : u * 2 ^ o ∣ a := h
  have number : u * 2 ^ o * k / u = 2 ^ o * k := by
    rw [Nat.mul_assoc, Nat.mul_div_cancel_left _ hu]
  have flip : 2 ^ o * k ^^^ 2 ^ o = (k ^^^ 1) * 2 ^ o := by
    have := (Nat.shiftLeft_xor_distrib (a := k) (b := 1) (i := o)).symm
    simpa [Nat.shiftLeft_eq, Nat.mul_comm] using this
  simp only [blockSize, number, flip, Aligned]
  rcases Nat.even_or_odd k with even | odd
  · left
    rw [Nat.xor_one_of_even even]
    refine ⟨by ring, ?_⟩
    obtain ⟨j, rfl⟩ := even
    exact ⟨j, by ring⟩
  · right
    rw [Nat.xor_one_of_odd odd]
    obtain ⟨j, rfl⟩ := odd
    exact ⟨by simp only [Nat.add_sub_cancel]; ring, j, by simp only [Nat.add_sub_cancel]; ring⟩

/-- Of two aligned blocks that share a cell, the smaller lies in the larger. -/
theorem Aligned.nested {b c : Block} (hb : b.Aligned u) (hc : c.Aligned u) (le : b.order ≤ c.order) {x : Nat}
    (xb : x ∈ b.cells u) (xc : x ∈ c.cells u) : b.cells u ⊆ c.cells u := by
  obtain ⟨i, hi⟩ := hb
  obtain ⟨j, hj⟩ := hc
  have scale : blockSize u c.order = blockSize u b.order * 2 ^ (c.order - b.order) := by
    rw [blockSize, blockSize, Nat.mul_assoc, ← Nat.pow_add, Nat.add_sub_cancel' le]
  rw [scale, Nat.mul_assoc] at hj
  simp only [cells, stop, Set.mem_Ico, hi, hj, scale, ← Nat.mul_succ, ← Nat.mul_add] at xb xc
  -- counted in blocks of the smaller size, the larger block starts no later and ends no earlier
  have first : 2 ^ (c.order - b.order) * j ≤ i :=
    Nat.le_of_lt_succ (Nat.lt_of_mul_lt_mul_left (lt_of_le_of_lt xc.1 xb.2))
  have last : i < 2 ^ (c.order - b.order) * j + 2 ^ (c.order - b.order) :=
    Nat.lt_of_mul_lt_mul_left (lt_of_le_of_lt xb.1 xc.2)
  intro y hy
  simp only [cells, stop, Set.mem_Ico, hi, hj, scale, ← Nat.mul_succ, ← Nat.mul_add] at hy ⊢
  exact ⟨le_trans (Nat.mul_le_mul_left _ first) hy.1, lt_of_lt_of_le hy.2 (Nat.mul_le_mul_left _ last)⟩

theorem eq_of_cells_subset {b c : Block} (hu : 0 < u) (same : b.order = c.order)
    (sub : b.cells u ⊆ c.cells u) : b = c := by
  have hb := blockSize_pos hu b.order
  have first := sub (b.addr_mem_cells hu)
  have last : b.stop u - 1 ∈ c.cells u := sub (by
    simp only [cells, stop, Set.mem_Ico]
    omega)
  obtain ⟨a, o⟩ := b
  obtain ⟨a', o'⟩ := c
  obtain rfl : o = o' := same
  simp only [cells, stop, Set.mem_Ico] at first last hb
  simp only [Block.mk.injEq, and_true]
  omega

end Block

/-- The blocks `bs` are apart and aligned, and cover exactly `S`. -/
structure Tiling (u : Nat) (bs : List Block) (S : Set Nat) : Prop where
  apart : bs.Pairwise (Block.Apart u)
  aligned : ∀ b ∈ bs, b.Aligned u
  cover : ∀ x, x ∈ S ↔ ∃ b ∈ bs, x ∈ b.cells u

namespace Tiling

variable {u : Nat} {bs bs' : List Block} {S : Set Nat} {a o : Nat} {b c : Block}

theorem nil (u : Nat) : Tiling u [] ∅ := ⟨List.Pairwise.nil, by simp, by simp⟩

theorem perm (t : Tiling u bs S) (h : bs.Perm bs') : Tiling u bs' S where
  apart := (h.pairwise_iff Block.Apart.symm).mp t.apart
  aligned b hb := t.aligned b (h.mem_iff.mpr hb)
  cover x := by simpa only [← h.mem_iff] using t.cover x

theorem head_apart (t : Tiling u (b :: bs) S) : ∀ c ∈ bs, b.Apart u c :=
  (List.pairwise_cons.mp t.apart).1

theorem cells_subset (t : Tiling u bs S) (hb : b ∈ bs) : b.cells u ⊆ S :=
  fun x hx => (t.cover x).mpr ⟨b, hb, hx⟩

/-- A new block outside `S` extends the tiling. -/
theorem cons (hu : 0 < u) (t : Tiling u bs S) (hb : b.Aligned u) (fresh : Disjoint (b.cells u) S) :
    Tiling u (b :: bs) (b.cells u ∪ S) where
  apart := by
    refine List.pairwise_cons.mpr ⟨fun c hc => ?_, t.apart⟩
    exact Block.apart_of_disjoint hu (fresh.mono_right (t.cells_subset hc))
  aligned := by simpa [hb] using t.aligned
  cover x := by simp [t.cover x]

/-- Replace a block by its two halves. -/
theorem split (t : Tiling u (⟨a, o + 1⟩ :: bs) S) :
    Tiling u (⟨a, o⟩ :: ⟨a + blockSize u o, o⟩ :: bs) S := by
  have size := blockSize_succ u o
  have far := t.head_apart
  have rest := (List.pairwise_cons.mp t.apart).2
  have align : Block.Aligned u ⟨a, o + 1⟩ := t.aligned _ (by simp)
  refine ⟨?_, ?_, fun x => ?_⟩
  · simp only [List.pairwise_cons, List.mem_cons, forall_eq_or_imp]
    refine ⟨⟨?_, fun c hc => ?_⟩, fun c hc => ?_, rest⟩
    · exact Or.inl (by simp [Block.stop])
    all_goals
      have := far c hc
      simp only [Block.Apart, Block.stop] at this ⊢
      omega
  · intro b hb
    simp only [List.mem_cons] at hb
    rcases hb with rfl | rfl | hb
    · exact align.of_succ
    · exact Nat.dvd_add align.of_succ (dvd_refl _)
    · exact t.aligned b (by simp [hb])
  · rw [t.cover x]
    simp only [List.mem_cons, exists_eq_or_imp]
    rw [← or_assoc]
    refine or_congr_left ?_
    simp only [Block.cells, Block.stop, Set.mem_Ico]
    omega

/-- Replace the two halves of a block by the block itself. -/
theorem merge (hu : 0 < u) (t : Tiling u (⟨a, o⟩ :: ⟨a + blockSize u o, o⟩ :: bs) S)
    (align : Block.Aligned u ⟨a, o + 1⟩) : Tiling u (⟨a, o + 1⟩ :: bs) S := by
  have size := blockSize_succ u o
  obtain ⟨far, far', rest⟩ := by simpa [List.pairwise_cons] using t.apart
  refine ⟨?_, ?_, fun x => ?_⟩
  · refine List.pairwise_cons.mpr ⟨fun c hc => ?_, rest⟩
    have lo := far.2 c hc
    have hi := far' c hc
    have nonempty := blockSize_pos hu c.order
    simp only [Block.Apart, Block.stop] at lo hi ⊢
    omega
  · intro b hb
    simp only [List.mem_cons] at hb
    rcases hb with rfl | hb
    · exact align
    · exact t.aligned b (by simp [hb])
  · rw [t.cover x]
    simp only [List.mem_cons, exists_eq_or_imp]
    rw [← or_assoc]
    refine or_congr_left ?_
    simp only [Block.cells, Block.stop, Set.mem_Ico]
    omega

/-- Merging a block with its buddy, in whichever order the two lie. -/
theorem merge_buddy (hu : 0 < u)
    (t : Tiling u (⟨a, o⟩ :: ⟨(a / u ^^^ 2 ^ o) * u, o⟩ :: bs) S) :
    Tiling u (⟨min a ((a / u ^^^ 2 ^ o) * u), o + 1⟩ :: bs) S := by
  have align : Block.Aligned u ⟨a, o⟩ := t.aligned _ (by simp)
  generalize hb : (a / u ^^^ 2 ^ o) * u = b at t
  rcases align.buddy_cases hu with ⟨eq, parent⟩ | ⟨eq, parent⟩ <;> rw [hb] at eq
  · subst eq
    rw [Nat.min_eq_left (Nat.le_add_right _ _)]
    exact t.merge hu parent
  · rw [hb] at parent
    rw [Nat.min_eq_right (by omega)]
    subst eq
    exact (t.perm (List.Perm.swap _ _ _)).merge hu parent

/-! ## Coalesced tilings -/

/-- Below the order `top`, no block is there together with its buddy. -/
def Coalesced (u top : Nat) (bs : List Block) : Prop :=
  ∀ a o, o < top → Block.Aligned u ⟨a, o + 1⟩ → ⟨a, o⟩ ∈ bs → ⟨a + blockSize u o, o⟩ ∉ bs

/-- The blocks of one part of a tiling tile what the other part leaves. -/
theorem append_right (t : Tiling u (bs ++ bs') S) :
    Tiling u bs' {x | x ∈ S ∧ ∀ b ∈ bs, x ∉ b.cells u} where
  apart := (List.pairwise_append.mp t.apart).2.1
  aligned b hb := t.aligned b (List.mem_append_right _ hb)
  cover x := by
    simp only [Set.mem_ofPred_eq, t.cover x, List.mem_append]
    constructor
    · rintro ⟨⟨b, left | right, hx⟩, outside⟩
      · exact absurd hx (outside b left)
      · exact ⟨b, right, hx⟩
    · rintro ⟨b, hb, hx⟩
      refine ⟨⟨b, .inr hb, hx⟩, fun c hc hx' => ?_⟩
      have apart := (List.pairwise_append.mp t.apart).2.2 c hc b hb
      exact Set.disjoint_left.mp apart.disjoint hx' hx

/-- In a coalesced tiling, an aligned run of covered cells lies in one block. -/
theorem Coalesced.covered {top : Nat} (full : Coalesced u top bs) (hu : 0 < u) (t : Tiling u bs S)
    (ho : o ≤ top) (align : Block.Aligned u ⟨a, o⟩) (sub : Block.cells u ⟨a, o⟩ ⊆ S) :
    ∃ b ∈ bs, o ≤ b.order ∧ Block.cells u ⟨a, o⟩ ⊆ b.cells u := by
  induction o generalizing a with
  | zero =>
    have first := Block.addr_mem_cells hu ⟨a, 0⟩
    obtain ⟨b, hb, mem⟩ := (t.cover a).mp (sub first)
    exact ⟨b, hb, Nat.zero_le _, align.nested (t.aligned b hb) (Nat.zero_le _) first mem⟩
  | succ o ih =>
    have size := blockSize_succ u o
    have pos := blockSize_pos hu o
    have lower : Block.cells u ⟨a, o⟩ ⊆ Block.cells u ⟨a, o + 1⟩ := by
      intro x hx
      simp only [Block.cells, Block.stop, Set.mem_Ico] at hx ⊢
      omega
    have upper : Block.cells u ⟨a + blockSize u o, o⟩ ⊆ Block.cells u ⟨a, o + 1⟩ := by
      intro x hx
      simp only [Block.cells, Block.stop, Set.mem_Ico] at hx ⊢
      omega
    have align' : Block.Aligned u ⟨a + blockSize u o, o⟩ := Nat.dvd_add align.of_succ (dvd_refl _)
    obtain ⟨b, hb, big, inB⟩ := ih (by omega) align.of_succ (lower.trans sub)
    obtain ⟨c, hc, big', inC⟩ := ih (by omega) align' (upper.trans sub)
    have meetB := Block.addr_mem_cells hu ⟨a, o⟩
    have meetC := Block.addr_mem_cells hu ⟨a + blockSize u o, o⟩
    -- a block that is larger than a half contains the whole run
    by_cases largeB : o + 1 ≤ b.order
    · exact ⟨b, hb, largeB, align.nested (t.aligned b hb) largeB (lower meetB) (inB meetB)⟩
    by_cases largeC : o + 1 ≤ c.order
    · exact ⟨c, hc, largeC, align.nested (t.aligned c hc) largeC (upper meetC) (inC meetC)⟩
    -- otherwise both halves are blocks, which a coalesced tiling does not have
    obtain rfl := Block.eq_of_cells_subset hu (show o = b.order by omega) inB
    obtain rfl := Block.eq_of_cells_subset hu (show o = c.order by omega) inC
    exact absurd hc (full a o (by omega) align hb)

/-- A set has one coalesced tiling. -/
theorem Coalesced.unique {top : Nat} (full : Coalesced u top bs) (full' : Coalesced u top bs')
    (hu : 0 < u) (t : Tiling u bs S) (t' : Tiling u bs' S) (small : ∀ b ∈ bs, b.order ≤ top)
    (small' : ∀ b ∈ bs', b.order ≤ top) (hb : b ∈ bs) : b ∈ bs' := by
  obtain ⟨c, hc, le, inC⟩ :=
    full'.covered hu t' (small b hb) (t.aligned b hb) (t.cells_subset hb)
  obtain ⟨d, hd, le', inD⟩ :=
    full.covered hu t (small' c hc) (t'.aligned c hc) (t'.cells_subset hc)
  -- the block of the first tiling that contains them both is the one we started from
  have first := b.addr_mem_cells hu
  have same : b = d := by
    by_contra ne
    have apart := t.apart.forall hb hd ne
    exact Set.disjoint_left.mp apart.disjoint first (inD (inC first))
  subst same
  rwa [Block.eq_of_cells_subset hu (Nat.le_antisymm le le') inC]

end Tiling
end Ferrum
