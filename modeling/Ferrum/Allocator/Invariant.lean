import Ferrum.Allocator.Model
import Ferrum.Library.Chain
import Mathlib

/-!
# The allocator's invariant

`Inv s free out S` ties the allocator's state `s` to three ghost values: the free list of each
order, the blocks that are out of the lists (with a client, or in the hands of an operation that
has not finished), and the set `S` of registered bytes. Free and outstanding blocks tile `S`.

A block changes sides between `free` and `out` by `push` and `take`; within `out` it can be split
and merged. All operations of the allocator are sequences of these four moves.
-/
namespace Ferrum

/-- The blocks on the free lists of the orders below a bound. -/
def freeBlocks (free : Nat → List Nat) : Nat → List Block
  | 0 => []
  | n + 1 => (free n).map (Block.mk · n) ++ freeBlocks free n

theorem mem_freeBlocks {free : Nat → List Nat} {n : Nat} {b : Block} :
    b ∈ freeBlocks free n ↔ b.order < n ∧ b.addr ∈ free b.order := by
  induction n with
  | zero => simp [freeBlocks]
  | succ n ih =>
    simp only [freeBlocks, List.mem_append, List.mem_map, ih]
    constructor
    · rintro (⟨a, ha, rfl⟩ | ⟨hb, ha⟩)
      · exact ⟨by simp, ha⟩
      · exact ⟨by omega, ha⟩
    · rintro ⟨hb, ha⟩
      by_cases top : b.order = n
      · exact Or.inl ⟨b.addr, top ▸ ha, by rw [← top]⟩
      · exact Or.inr ⟨by omega, ha⟩

theorem freeBlocks_congr {free free' : Nat → List Nat} {n : Nat}
    (h : ∀ k < n, free' k = free k) : freeBlocks free' n = freeBlocks free n := by
  induction n with
  | zero => rfl
  | succ n ih => rw [freeBlocks, freeBlocks, h n (by omega), ih fun k hk => h k (by omega)]

/-- Taking one node off a free list takes one block off the free blocks. -/
theorem freeBlocks_take {free : Nat → List Nat} {n o a : Nat} {l : List Nat} (ho : o < n)
    (h : (free o).Perm (a :: l)) :
    (freeBlocks free n).Perm (⟨a, o⟩ :: freeBlocks (Function.update free o l) n) := by
  induction n with
  | zero => omega
  | succ n ih =>
    simp only [freeBlocks]
    by_cases top : o = n
    · subst top
      have below : freeBlocks (Function.update free o l) o = freeBlocks free o :=
        freeBlocks_congr fun k hk => Function.update_of_ne (by omega) _ _
      rw [Function.update_self, below]
      exact (h.map _).append_right _
    · rw [Function.update_of_ne (Ne.symm top)]
      exact ((ih (by omega)).append_left _).trans List.perm_middle

namespace Buddy

/-- Everything the allocator accounts for: the blocks that are out, then the free ones. -/
def blocks (free : Nat → List Nat) (out : List Block) : List Block :=
  out ++ freeBlocks free MAX_ORDER

/-- The bytes that the allocator has no business with: unregistered ones and those in blocks that
are out. -/
def Held (out : List Block) (S : Set Nat) : Set Nat :=
  {x | x ∈ S → ∃ b ∈ out, x ∈ b.cells PAGE_SIZE}

structure Inv (s : Buddy) (free : Nat → List Nat) (out : List Block) (S : Set Nat) : Prop where
  tiling : Tiling PAGE_SIZE (blocks free out) S
  bound : ∀ b ∈ out, b.order < MAX_ORDER
  lists : ∀ o < MAX_ORDER, Chain s.mem.read64 (s.pool.freeHeads o) (free o)
  counts : ∀ o < MAX_ORDER, s.pool.freeCounts o = (free o).length
  window : S ⊆ Set.Ico PAGE_SIZE DIRECT_MAP_END

variable {s : Buddy} {free : Nat → List Nat} {out out' : List Block} {S : Set Nat} {a o : Nat}

theorem page_pos : 0 < PAGE_SIZE := by decide

theorem orderToSize_eq (o : Nat) : orderToSize o = blockSize PAGE_SIZE o := Nat.shiftLeft_eq _ _

theorem page_le_blockSize (o : Nat) : PAGE_SIZE ≤ blockSize PAGE_SIZE o :=
  Nat.le_mul_of_pos_right _ (Nat.two_pow_pos o)

theorem held_mono (h : out ⊆ out') : Held out S ⊆ Held out' S := fun _ hx hS =>
  let ⟨b, hb, hc⟩ := hx hS
  ⟨b, h hb, hc⟩

namespace Inv

theorem perm (inv : Inv s free out S) (h : out.Perm out') : Inv s free out' S where
  tiling := inv.tiling.perm (h.append_right _)
  bound b hb := inv.bound b (h.mem_iff.mpr hb)
  lists := inv.lists
  counts := inv.counts
  window := inv.window

theorem cells_window {b : Block} (inv : Inv s free out S) (hb : b ∈ blocks free out) :
    b.cells PAGE_SIZE ⊆ Set.Ico PAGE_SIZE DIRECT_MAP_END :=
  (inv.tiling.cells_subset hb).trans inv.window

/-- The address of every block is a page of the higher-half window, and not page 0. -/
theorem addr_window {b : Block} (inv : Inv s free out S) (hb : b ∈ blocks free out) :
    PAGE_SIZE ≤ b.addr ∧ b.addr < DIRECT_MAP_END :=
  inv.cells_window hb (b.addr_mem_cells page_pos)

theorem mem_free (ho : o < MAX_ORDER) (ha : a ∈ free o) : (⟨a, o⟩ : Block) ∈ blocks free out :=
  List.mem_append_right _ (mem_freeBlocks.mpr ⟨ho, ha⟩)

theorem out_apart_free (inv : Inv s free out S) {b : Block} (hb : b ∈ out)
    (ho : o < MAX_ORDER) (ha : a ∈ free o) : b.Apart PAGE_SIZE ⟨a, o⟩ :=
  (List.pairwise_append.mp inv.tiling.apart).2.2 b hb _ (mem_freeBlocks.mpr ⟨ho, ha⟩)

theorem free_notHeld (inv : Inv s free out S) (ho : o < MAX_ORDER) (ha : a ∈ free o) {x : Nat}
    (hx : x ∈ Block.cells PAGE_SIZE ⟨a, o⟩) : x ∉ Held out S := by
  intro held
  obtain ⟨b, hb, hc⟩ := held (inv.tiling.cells_subset (mem_free ho ha) hx)
  exact Set.disjoint_left.mp (inv.out_apart_free hb ho ha).disjoint hc hx

theorem congr_mem {m : Memory} (inv : Inv s free out S)
    (same : ∀ x ∈ S, x ∉ Held out S → m x = s.mem x) : Inv { s with mem := m } free out S where
  tiling := inv.tiling
  bound := inv.bound
  lists o ho := by
    refine (inv.lists o ho).congr fun a ha => ?_
    have inside : Set.Ico a (a + 8) ⊆ Block.cells PAGE_SIZE ⟨a, o⟩ := by
      have := page_le_blockSize o
      intro x hx
      simp only [Block.cells, Block.stop, PAGE_SIZE, Set.mem_Ico] at this hx ⊢
      omega
    refine Memory.read64_congr fun x hl hr => same x ?_ (inv.free_notHeld ho ha (inside ⟨hl, hr⟩))
    exact inv.tiling.cells_subset (mem_free ho ha) (inside ⟨hl, hr⟩)
  counts := inv.counts
  window := inv.window

theorem length_lt (inv : Inv s free out S) (ho : o < MAX_ORDER) : (free o).length < 2 ^ 64 := by
  have small : (free o).toFinset ⊆ Finset.range DIRECT_MAP_END := by
    intro a ha
    have := (inv.addr_window (mem_free ho (by simpa using ha))).2
    simpa using this
  have card := Finset.card_le_card small
  rw [List.toFinset_card_of_nodup (inv.lists o ho).nodup, Finset.card_range] at card
  simp only [DIRECT_MAP_END] at card
  omega

theorem split (inv : Inv s free (⟨a, o + 1⟩ :: out) S) :
    Inv s free (⟨a + blockSize PAGE_SIZE o, o⟩ :: ⟨a, o⟩ :: out) S where
  tiling := by
    have halves : Tiling PAGE_SIZE
        (⟨a, o⟩ :: ⟨a + blockSize PAGE_SIZE o, o⟩ :: blocks free out) S :=
      Tiling.split (by simpa [blocks] using inv.tiling)
    exact halves.perm (List.Perm.swap _ _ _)
  bound := by
    have parent : o + 1 < MAX_ORDER := inv.bound _ List.mem_cons_self
    simp only [List.mem_cons, forall_eq_or_imp]
    exact ⟨by omega, by omega, fun b hb => inv.bound b (by simp [hb])⟩
  lists := inv.lists
  counts := inv.counts
  window := inv.window

theorem merge (inv : Inv s free (⟨buddyOf a o, o⟩ :: ⟨a, o⟩ :: out) S) (ho : o + 1 < MAX_ORDER) :
    Inv s free (⟨min a (buddyOf a o), o + 1⟩ :: out) S where
  tiling := by
    have formula : buddyOf a o = (a / PAGE_SIZE ^^^ 2 ^ o) * PAGE_SIZE := by
      rw [buddyOf, Nat.one_shiftLeft]
    have pair := inv.tiling.perm (List.Perm.swap _ _ _)
    rw [formula] at pair ⊢
    exact Tiling.merge_buddy page_pos (by simpa [blocks] using pair)
  bound := by
    simp only [List.mem_cons, forall_eq_or_imp]
    exact ⟨ho, fun b hb => inv.bound b (by simp [hb])⟩
  lists := inv.lists
  counts := inv.counts
  window := inv.window

theorem register (inv : Inv s free out S) (ho : o < MAX_ORDER)
    (align : Block.Aligned PAGE_SIZE ⟨a, o⟩)
    (fresh : Disjoint (Block.cells PAGE_SIZE ⟨a, o⟩) S)
    (window : Block.cells PAGE_SIZE ⟨a, o⟩ ⊆ Set.Ico PAGE_SIZE DIRECT_MAP_END) :
    Inv s free (⟨a, o⟩ :: out) (Block.cells PAGE_SIZE ⟨a, o⟩ ∪ S) where
  tiling := inv.tiling.cons page_pos align fresh
  bound := by
    simp only [List.mem_cons, forall_eq_or_imp]
    exact ⟨ho, inv.bound⟩
  lists := inv.lists
  counts := inv.counts
  window := Set.union_subset window inv.window

end Inv

/-! ## Buddies -/

/-- Below the largest order, no free list holds a block and its buddy. -/
def Merged (free : Nat → List Nat) : Prop :=
  ∀ o < MAX_ORDER - 1, ∀ a ∈ free o, buddyOf a o ∉ free o

theorem buddyOf_eq (a o : Nat) : buddyOf a o = (a / PAGE_SIZE ^^^ 2 ^ o) * PAGE_SIZE := by
  rw [buddyOf, Nat.one_shiftLeft]

theorem buddyOf_buddyOf (page : PAGE_SIZE ∣ a) : buddyOf (buddyOf a o) o = a := by
  rw [buddyOf_eq, buddyOf_eq, Nat.mul_div_cancel _ page_pos, Nat.xor_assoc, Nat.xor_self, Nat.xor_zero,
    Nat.div_mul_cancel page]

theorem buddyOf_ne : buddyOf a o ≠ a := by
  rw [buddyOf_eq]
  intro same
  have same : a / PAGE_SIZE ^^^ 2 ^ o = a / PAGE_SIZE := by
    rw [← Nat.mul_div_cancel (a / PAGE_SIZE ^^^ 2 ^ o) page_pos, same]
  have flipped := congrArg (·.testBit o) same
  simp [Nat.testBit_xor] at flipped

theorem buddyOf_half (align : Block.Aligned PAGE_SIZE ⟨a, o + 1⟩) :
    buddyOf a o = a + blockSize PAGE_SIZE o := by
  rw [buddyOf_eq]
  rcases align.of_succ.buddy_cases page_pos with ⟨same, -⟩ | ⟨same, parent⟩
  · exact same
  · -- the other half would have the parent's alignment, too
    generalize (a / PAGE_SIZE ^^^ 2 ^ o) * PAGE_SIZE = b at same parent
    have pos := blockSize_pos page_pos o
    simp only [Block.Aligned, blockSize_succ] at align parent
    have half : 2 * blockSize PAGE_SIZE o ∣ blockSize PAGE_SIZE o :=
      (Nat.dvd_add_right parent).mp (same ▸ align)
    have := Nat.le_of_dvd pos half
    omega

theorem Inv.page_dvd (inv : Inv s free out S) (ho : o < MAX_ORDER) (ha : a ∈ free o) :
    PAGE_SIZE ∣ a :=
  (Nat.dvd_mul_right _ _).trans (inv.tiling.aligned _ (Inv.mem_free ho ha))

theorem Inv.out_page_dvd (inv : Inv s free (⟨a, o⟩ :: out) S) : PAGE_SIZE ∣ a :=
  (Nat.dvd_mul_right _ _).trans (inv.tiling.aligned ⟨a, o⟩ List.mem_cons_self)

theorem Merged.coalesced (merged : Merged free) :
    Tiling.Coalesced PAGE_SIZE (MAX_ORDER - 1) (freeBlocks free MAX_ORDER) := by
  intro a o ho align left right
  rw [← buddyOf_half align] at right
  exact merged o ho a (mem_freeBlocks.mp left).2 (mem_freeBlocks.mp right).2

theorem Merged.take (merged : Merged free) {l : List Nat} (sub : l ⊆ free o) :
    Merged (Function.update free o l) := by
  intro k hk b hb
  by_cases same : k = o
  · subst same
    rw [Function.update_self] at hb ⊢
    exact fun mem => merged k hk b (sub hb) (sub mem)
  · rw [Function.update_of_ne same] at hb ⊢
    exact merged k hk b hb

theorem Merged.push (merged : Merged free) (inv : Inv s free out S)
    (alone : o < MAX_ORDER - 1 → buddyOf a o ∉ free o) :
    Merged (Function.update free o (a :: free o)) := by
  intro k hk b hb mem
  by_cases same : k = o
  · subst same
    rw [Function.update_self] at hb mem
    rcases List.mem_cons.mp hb with rfl | old
    · rcases List.mem_cons.mp mem with self | older
      · exact buddyOf_ne self
      · exact alone hk older
    · rcases List.mem_cons.mp mem with other | older
      · have : buddyOf a k = b := by
          rw [← other, buddyOf_buddyOf (inv.page_dvd (by omega) old)]
        exact alone hk (this ▸ old)
      · exact merged k hk b old older
  · rw [Function.update_of_ne same] at hb mem
    exact merged k hk b hb mem

theorem inv_new (m : Memory) : Inv ⟨m, .new⟩ (fun _ => []) [] ∅ where
  tiling := Tiling.nil _
  bound := by simp
  lists o _ := rfl
  counts o _ := rfl
  window := Set.empty_subset _

end Buddy
end Ferrum
