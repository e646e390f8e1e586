import Ferrum.Allocator.Run
import Ferrum.Heap.Slab
import Ferrum.Library.Parcels

/-!
# The heap's invariant

The heap holds blocks of the buddy allocator: pages that are cut into objects of one class, and blocks
that serve one large layout each. Every piece of them is a node of a free list or is live, so the
pieces are the nodes and the live blocks in another order.
-/
namespace Ferrum

/-- A block in use, with the layout that it was allocated for. -/
structure Live where
  ptr : Nat
  layout : Layout
  deriving DecidableEq

/-- The physical bytes that the layout may use. -/
def Live.bytes (b : Live) : Set Nat :=
  Set.Ico (b.ptr - KERNEL_VIRT_BASE) (b.ptr - KERNEL_VIRT_BASE + b.layout.size)

/-- The piece of memory that it was served with. -/
def Live.parcel (b : Live) : Parcel := ⟨b.ptr - KERNEL_VIRT_BASE, b.layout.extent⟩

theorem Live.bytes_subset (b : Live) : b.bytes ⊆ b.parcel.cells := by
  have := b.layout.size_le_extent
  intro x hx
  simp only [bytes, parcel, Parcel.cells, Set.mem_Ico] at *
  omega

def Block.parcel (b : Block) : Parcel := ⟨b.addr, blockSize PAGE_SIZE b.order⟩

/-- A block that the heap holds: a page of a slab cache, or a block for a large layout. -/
inductive Holding where
  | page (addr slab : Nat)
  | large (block : Block)
  deriving DecidableEq

namespace Holding

def block : Holding → Block
  | .page addr _ => ⟨addr, 0⟩
  | .large b => b

def pieces : Holding → List Parcel
  | .page addr slab => Parcel.cut addr (slabSize slab) (PAGE_SIZE / slabSize slab)
  | .large b => [b.parcel]

theorem pieces_apart (x : Holding) : x.pieces.Pairwise Parcel.Apart := by
  cases x with
  | page => exact Parcel.cut_apart
  | large => exact List.pairwise_singleton _ _

theorem pieces_inside (x : Holding) : ∀ q ∈ x.pieces, q.cells ⊆ x.block.parcel.cells := by
  cases x with
  | page addr slab =>
    intro q hq y hy
    have inside := Parcel.cells_cut hq hy
    have fits := Nat.div_mul_le_self PAGE_SIZE (slabSize slab)
    simp only [Parcel.cells, Set.mem_Ico, block, Block.parcel, blockSize, Nat.pow_zero, Nat.mul_one]
      at inside ⊢
    omega
  | large b =>
    intro q hq
    obtain rfl := List.mem_singleton.mp hq
    exact subset_rfl

theorem pieces_aligned (x : Holding) (align : x.block.Aligned PAGE_SIZE) {q : Parcel}
    (hq : q ∈ x.pieces) : q.size ∣ q.addr := by
  cases x with
  | page addr slab =>
    obtain ⟨k, hk, rfl⟩ := List.mem_map.mp hq
    have inside : slab < SLABS := by
      by_contra outside
      rw [slabSize_none (Nat.le_of_not_lt outside), Nat.div_zero] at hk
      exact absurd (List.mem_range.mp hk) (Nat.not_lt_zero k)
    have page : PAGE_SIZE ∣ addr := (Nat.dvd_mul_right _ _).trans align
    exact Nat.dvd_add ((Dvd.intro_left _ (slabSize_page inside)).trans page) (Nat.dvd_mul_left _ _)
  | large b =>
    obtain rfl := List.mem_singleton.mp hq
    exact align

theorem large_of_piece {x : Holding} {q : Parcel} (hq : q ∈ x.pieces) (large : PAGE_SIZE < q.size) :
    ∃ b, x = .large b ∧ q = b.parcel := by
  cases x with
  | page addr slab =>
    obtain ⟨k, -, rfl⟩ := List.mem_map.mp hq
    exact absurd large (Nat.not_lt.mpr (slabSize_le slab))
  | large b => exact ⟨b, rfl, List.mem_singleton.mp hq⟩

end Holding

/-- The heap at work, beside other users of the buddy allocator: `given` are the blocks that they
hold, `live` the blocks of the heap that are in use. -/
structure HeapState where
  buddy : Buddy
  given : List Block
  regions : List (Nat × Nat)
  heap : KernelHeap
  live : List Live

/-- The nodes of all free lists. -/
def nodeParcels (nodes : Nat → List Nat) : List Parcel :=
  joined (fun i => (nodes i).map fun a => ⟨a, slabSize i⟩) SLABS

theorem mem_nodeParcels {nodes : Nat → List Nat} {q : Parcel} :
    q ∈ nodeParcels nodes ↔ ∃ i < SLABS, ∃ a ∈ nodes i, q = ⟨a, slabSize i⟩ := by
  simp only [nodeParcels, mem_joined, List.mem_map, eq_comm]

theorem nodeParcels_append (nodes : Nat → List Nat) {i : Nat} (hi : i < SLABS) (front : List Nat) :
    (nodeParcels (Function.update nodes i (front ++ nodes i))).Perm
      (front.map (fun a => ⟨a, slabSize i⟩) ++ nodeParcels nodes) := by
  have family : (fun j => (Function.update nodes i (front ++ nodes i) j).map
        fun a => (⟨a, slabSize j⟩ : Parcel)) =
      Function.update (fun j => (nodes j).map fun a => (⟨a, slabSize j⟩ : Parcel)) i
        (front.map (fun a => ⟨a, slabSize i⟩) ++ (nodes i).map fun a => ⟨a, slabSize i⟩) := by
    funext j
    by_cases same : j = i
    · subst same
      simp
    · simp [Function.update_of_ne same]
  rw [nodeParcels, family]
  exact joined_append hi _

theorem nodeParcels_take {nodes : Nat → List Nat} {i a : Nat} {l : List Nat} (hi : i < SLABS)
    (list : nodes i = a :: l) :
    (nodeParcels nodes).Perm (⟨a, slabSize i⟩ :: nodeParcels (Function.update nodes i l)) := by
  have back := nodeParcels_append (Function.update nodes i l) hi [a]
  rw [Function.update_self, Function.update_idem, List.singleton_append, ← list,
    Function.update_eq_self] at back
  exact back

namespace HeapState

/-- The heap as one more client of the buddy allocator. -/
def client (h : HeapState) (held : List Holding) : Client :=
  ⟨h.buddy, h.given ++ held.map Holding.block, h.regions⟩

structure Inv (h : HeapState) (nodes : Nat → List Nat) (held : List Holding) : Prop where
  good : (h.client held).Good
  sizes : ∀ i < SLABS, (h.heap.slabs i).objectSize = slabSize i
  lists : ∀ i < SLABS, FreeList h.buddy.mem (h.heap.slabs i).freeList (nodes i)
  pieces : (nodeParcels nodes ++ h.live.map Live.parcel).Perm (held.flatMap Holding.pieces)
  window : ∀ b ∈ h.live, KERNEL_VIRT_BASE ≤ b.ptr

variable {h : HeapState} {nodes : Nat → List Nat} {held : List Holding} {q : Parcel} {m : Memory}

/-- Every piece of what is held, and every block that is free or given away, is apart from the others. -/
theorem apart_of_good {free : Nat → List Nat}
    (inv : Buddy.Inv h.buddy free (h.given ++ held.map Holding.block) (h.client held).registered)
    (pieces : (nodeParcels nodes ++ h.live.map Live.parcel).Perm (held.flatMap Holding.pieces)) :
    (nodeParcels nodes ++ h.live.map Live.parcel ++
      (h.given ++ freeBlocks free MAX_ORDER).map Block.parcel).Pairwise Parcel.Apart := by
  have order : (h.given ++ held.map Holding.block ++ freeBlocks free MAX_ORDER).Perm
      (held.map Holding.block ++ (h.given ++ freeBlocks free MAX_ORDER)) := by
    rw [List.append_assoc]
    exact List.perm_append_comm_assoc _ _ _
  have blocks := (inv.tiling.perm order).apart
  have parcels : (held.map (fun x => x.block.parcel) ++
      (h.given ++ freeBlocks free MAX_ORDER).map Block.parcel).Pairwise Parcel.Apart := by
    have all : (List.map Block.parcel _).Pairwise Parcel.Apart :=
      blocks.map Block.parcel fun a b apart => apart.disjoint
    rwa [List.map_append, List.map_map] at all
  have cut := Parcel.pairwise_flatMap (fun x _ => x.pieces_inside) (fun x _ => x.pieces_apart) parcels
  exact ((pieces.append_right _).pairwise_iff Parcel.Apart.symm).mpr cut

namespace Inv

variable (inv : h.Inv nodes held)
include inv

/-- A node or a live block is a piece of something that the heap holds. -/
theorem piece (hq : q ∈ nodeParcels nodes ++ h.live.map Live.parcel) : ∃ x ∈ held, q ∈ x.pieces :=
  List.mem_flatMap.mp (inv.pieces.mem_iff.mp hq)

theorem piece_held (hq : q ∈ nodeParcels nodes ++ h.live.map Live.parcel) :
    ∃ b ∈ held.map Holding.block, q.cells ⊆ b.cells PAGE_SIZE := by
  obtain ⟨x, hx, piece⟩ := inv.piece hq
  exact ⟨x.block, List.mem_map_of_mem hx, x.pieces_inside q piece⟩

theorem piece_window (hq : q ∈ nodeParcels nodes ++ h.live.map Live.parcel) :
    q.cells ⊆ Set.Ico PAGE_SIZE DIRECT_MAP_END := by
  obtain ⟨b, hb, inside⟩ := inv.piece_held hq
  obtain ⟨free, buddy⟩ := inv.good
  exact inside.trans (buddy.cells_window (List.mem_append_left _ (List.mem_append_right _ hb)))

theorem node_window {i a : Nat} (hi : i < SLABS) (ha : a ∈ nodes i) : a < DIRECT_MAP_END := by
  have mem := List.mem_append_left (h.live.map Live.parcel) (mem_nodeParcels.mpr ⟨i, hi, a, ha, rfl⟩)
  have := le_slabSize hi
  exact (inv.piece_window mem ⟨Nat.le_refl a, by simp only; omega⟩).2

theorem live_window {b : Live} (hb : b ∈ h.live) : ∃ a, b.ptr = toVirt a ∧ a < DIRECT_MAP_END := by
  have mem := List.mem_append_right (nodeParcels nodes) (List.mem_map_of_mem (f := Live.parcel) hb)
  have := b.layout.extent_pos
  refine ⟨b.ptr - KERNEL_VIRT_BASE, (Nat.add_sub_cancel' (inv.window b hb)).symm, ?_⟩
  exact (inv.piece_window mem ⟨Nat.le_refl _, by simp only [Live.parcel]; omega⟩).2

theorem lists_congr (same : ∀ q ∈ nodeParcels nodes, Set.EqOn m h.buddy.mem q.cells) :
    ∀ i < SLABS, FreeList m (h.heap.slabs i).freeList (nodes i) := by
  intro i hi
  refine (inv.lists i hi).congr fun a ha => ?_
  refine Memory.read64_eqOn (same _ (mem_nodeParcels.mpr ⟨i, hi, a, ha, rfl⟩)) fun x hx => ?_
  have := le_slabSize hi
  simp only [Parcel.cells, Set.mem_Ico] at *
  omega

theorem lists_of_held (same : ∀ b ∈ held.map Holding.block, Set.EqOn m h.buddy.mem (b.cells PAGE_SIZE)) :
    ∀ i < SLABS, FreeList m (h.heap.slabs i).freeList (nodes i) :=
  inv.lists_congr fun _ hq =>
    let ⟨b, hb, inside⟩ := inv.piece_held (List.mem_append_left _ hq)
    (same b hb).mono inside

/-- A store to a piece that is no node: the lists and the buddy allocator do not notice. -/
theorem write (hq : q ∈ nodeParcels nodes ++ h.live.map Live.parcel)
    (off : ∀ r ∈ nodeParcels nodes, q.Apart r) (outside : ∀ x, x ∉ q.cells → m x = h.buddy.mem x) :
    Inv { h with buddy.mem := m } nodes held where
  good := by
    obtain ⟨free, buddy⟩ := inv.good
    obtain ⟨b, hb, inside⟩ := inv.piece_held hq
    refine ⟨free, buddy.congr_mem fun x _ other => outside x fun hx => other fun _ => ?_⟩
    exact ⟨b, List.mem_append_right _ hb, inside hx⟩
  sizes := inv.sizes
  lists := inv.lists_congr fun r hr x hx =>
    outside x fun hx' => Set.disjoint_left.mp (off r hr) hx' hx
  pieces := inv.pieces
  window := inv.window

theorem live_off {b : Live} (hb : b ∈ h.live) : ∀ r ∈ nodeParcels nodes, b.parcel.Apart r := by
  obtain ⟨free, buddy⟩ := inv.good
  have all := (List.pairwise_append.mp (apart_of_good buddy inv.pieces)).1
  exact fun r hr =>
    ((List.pairwise_append.mp all).2.2 r hr b.parcel (List.mem_map_of_mem hb)).symm

end Inv

end HeapState
end Ferrum
