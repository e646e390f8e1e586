import Ferrum.Heap.Invariant

/-!
# Allocation and release

Each operation of the heap keeps the invariant: an object leaves a free list or comes back to it, a
page is cut up, a large block is taken from the buddy allocator or returned to it.
-/
namespace Ferrum

/-- Where the memory for a layout comes from, and where it goes back to. -/
inductive Supply where
  | slab (i : Nat)
  | buddy (order : Nat)
  deriving DecidableEq, Repr

def Layout.supply (layout : Layout) : Supply :=
  match sizeToSlab layout.request with
  | some i => .slab i
  | none => .buddy layout.order

theorem Layout.of_slab {layout : Layout} {i : Nat} (found : sizeToSlab layout.request = some i) :
    layout.supply = .slab i ∧ layout.extent = slabSize i := by
  simp only [supply, extent, found, and_self]

theorem Layout.of_large {layout : Layout} (large : sizeToSlab layout.request = none) :
    layout.supply = .buddy layout.order ∧ layout.extent = orderToSize layout.order ∧
      PAGE_SIZE < layout.extent := by
  refine ⟨?_, ?_, Nat.lt_of_lt_of_le (sizeToSlab_none large) layout.request_le_extent⟩
  · simp only [supply, large]
  · simp only [extent, large]

namespace KernelHeap

variable {heap : KernelHeap} {nodes : Nat → List Nat} {m : Memory} {i head : Nat} {l : List Nat}

/-- A cache with another list. -/
def setList (heap : KernelHeap) (i head : Nat) : KernelHeap :=
  heap.setSlab i { heap.slabs i with freeList := head }

theorem sizes_setList (sizes : ∀ j < SLABS, (heap.slabs j).objectSize = slabSize j) :
    ∀ j < SLABS, ((heap.setList i head).slabs j).objectSize = slabSize j := by
  intro j hj
  by_cases same : j = i
  · subst same
    simpa [setList, setSlab] using sizes j hj
  · simpa [setList, setSlab, Function.update_of_ne same] using sizes j hj

theorem lists_setList (lists : ∀ j < SLABS, FreeList m (heap.slabs j).freeList (nodes j))
    (list : FreeList m head l) :
    ∀ j < SLABS, FreeList m ((heap.setList i head).slabs j).freeList (Function.update nodes i l j) := by
  intro j hj
  by_cases same : j = i
  · subst same
    simpa [setList, setSlab] using list
  · simpa [setList, setSlab, Function.update_of_ne same] using lists j hj

end KernelHeap

namespace HeapState.Inv

variable {h : HeapState} {nodes : Nat → List Nat} {held : List Holding} {layout : Layout}

section Slabs

variable {i : Nat} (hi : i < SLABS) (extent : layout.extent = slabSize i)

include hi extent

theorem pop (inv : h.Inv nodes held) (p : Profile) (some : (h.heap.slabs i).freeList ≠ 0) :
    ∃ a l, nodes i = a :: l ∧ (h.heap.slabs i).freeList = toVirt a ∧
      (h.heap.slabs i).alloc p h.buddy =
        .ok (toVirt a, { h.heap.slabs i with freeList := h.buddy.mem.read64 a }, h.buddy) ∧
      Inv { h with
        heap := h.heap.setList i (h.buddy.mem.read64 a)
        live := ⟨toVirt a, layout⟩ :: h.live } (Function.update nodes i l) held := by
  obtain ⟨a, l, list, head, rest⟩ := (inv.lists i hi).uncons some
  have window := inv.node_window hi (list ▸ List.mem_cons_self)
  refine ⟨a, l, list, head, ?_, ⟨inv.good, KernelHeap.sizes_setList inv.sizes,
    KernelHeap.lists_setList inv.lists rest, ?_, ?_⟩⟩
  · rw [SlabCache.alloc, if_pos some, head, deref_toVirt window]
    rfl
  · have moved := (nodeParcels_take hi list).append_right (h.live.map Live.parcel)
    have parcel : Live.parcel ⟨toVirt a, layout⟩ = ⟨a, slabSize i⟩ := by
      rw [Live.parcel, toVirt_sub, extent]
    rw [List.map_cons, parcel]
    exact List.perm_middle.trans (moved.symm.trans inv.pieces)
  · simp only [List.mem_cons, forall_eq_or_imp]
    exact ⟨Nat.le_add_right _ _, inv.window⟩

/-- A list that is empty gets the objects of a new page, if there is one. -/
theorem grow (inv : h.Inv nodes held) (p : Profile) (none : (h.heap.slabs i).freeList = 0) :
    (h.heap.slabs i).alloc p h.buddy = .ok (0, h.heap.slabs i, h.buddy) ∨
    ∃ a s' head s l, h.buddy.alloc p 0 = .ok (some a, s') ∧
      (h.heap.slabs i).alloc p h.buddy = .ok (toVirt a, { h.heap.slabs i with freeList := head }, s) ∧
      Inv { h with
        buddy := s
        heap := h.heap.setList i head
        live := ⟨toVirt a, layout⟩ :: h.live } (Function.update nodes i l) (.page a i :: held) := by
  obtain ⟨free, buddy⟩ := inv.good
  rw [SlabCache.alloc, if_neg (not_not.mpr none), SlabCache.grow]
  rcases Buddy.alloc_spec p buddy 0 with ⟨full, -⟩ | ⟨a, s₁, free₁, taken, buddy₁, frame, -⟩
  · left
    have full : h.buddy.alloc p 0 = .ok (Option.none, h.buddy) := full
    rw [full]
    rfl
  · right
    have taken : h.buddy.alloc p 0 = .ok (some a, s₁) := taken
    have empty : nodes i = [] := List.map_eq_nil_iff.mp (((inv.lists i hi).head_eq_zero).mp none)
    have page : a + PAGE_SIZE ≤ DIRECT_MAP_END := by
      have last : a + (PAGE_SIZE - 1) ∈ Block.cells PAGE_SIZE ⟨a, 0⟩ := by
        simp only [Block.cells, Block.stop, blockSize, PAGE_SIZE, Set.mem_Ico]
        omega
      have := (buddy₁.cells_window List.mem_cons_self last).2
      simp only [PAGE_SIZE] at *
      omega
    have here : a < DIRECT_MAP_END := Nat.lt_of_lt_of_le (Nat.lt_add_of_pos_right Buddy.page_pos) page
    obtain ⟨head, m, l, thread, list, cut, outside⟩ :=
      SlabCache.thread_page p hi (inv.sizes i hi) none page (s₁.mem.fill a PAGE_SIZE 0)
    -- nothing outside the new page has changed since it was taken
    have kept : ∀ x, x ∉ Block.cells PAGE_SIZE ⟨a, 0⟩ → m x = s₁.mem x := by
      intro x hx
      have hx : x ∉ Set.Ico a (a + PAGE_SIZE) := by
        simpa [Block.cells, Block.stop, blockSize] using hx
      rw [outside x hx]
      refine Memory.fill_outside ?_
      simp only [Set.mem_Ico] at hx
      omega
    refine ⟨a, s₁, head, { s₁ with mem := m }, l, taken, ?_, ⟨⟨free₁, ?_⟩,
      KernelHeap.sizes_setList inv.sizes, KernelHeap.lists_setList (inv.lists_of_held ?_) list, ?_, ?_⟩⟩
    · have base : physToVirt a = .ok (toVirt a) := physToVirt_ok here
      simp only [taken, ok_bind, base, deref_toVirt here, thread, pure_eq_ok]
    · refine (buddy₁.perm List.perm_middle.symm).congr_mem fun x _ other => kept x fun hx => ?_
      exact other fun _ => ⟨⟨a, 0⟩, List.mem_append_right _ List.mem_cons_self, hx⟩
    · intro b hb x hx
      have apart := buddy₁.tiling.head_apart b
        (List.mem_append_left _ (List.mem_append_right _ hb))
      refine (kept x fun hx' => Set.disjoint_left.mp apart.disjoint hx' hx).trans (frame fun _ => ?_)
      exact ⟨b, List.mem_cons_of_mem _ (List.mem_append_right _ hb), hx⟩
    · have parcel : Live.parcel ⟨toVirt a, layout⟩ = ⟨a, slabSize i⟩ := by
        rw [Live.parcel, toVirt_sub, extent]
      have nodes' := nodeParcels_append nodes hi l
      rw [empty, List.append_nil] at nodes'
      rw [List.map_cons, parcel, List.flatMap_cons, Holding.pieces]
      refine List.perm_middle.trans (.trans ?_ (cut.symm.append inv.pieces))
      rw [List.cons_append, ← List.append_assoc]
      exact (nodes'.append_right _).cons _
    · simp only [List.mem_cons, forall_eq_or_imp]
      exact ⟨Nat.le_add_right _ _, inv.window⟩

end Slabs

theorem push (inv : h.Inv nodes held) {b : Live} (hb : b ∈ h.live) {i : Nat} (hi : i < SLABS)
    (extent : b.layout.extent = slabSize i) :
    ∃ a, b.ptr = toVirt a ∧ (h.heap.slabs i).free h.buddy.mem b.ptr =
        .ok ({ h.heap.slabs i with freeList := b.ptr },
          h.buddy.mem.write64 a (h.heap.slabs i).freeList) ∧
      Inv { h with
        buddy.mem := h.buddy.mem.write64 a (h.heap.slabs i).freeList
        heap := h.heap.setList i b.ptr
        live := h.live.erase b } (Function.update nodes i (a :: nodes i)) held := by
  obtain ⟨a, ptr, window⟩ := inv.live_window hb
  have parcel : b.parcel = ⟨a, slabSize i⟩ := by rw [Live.parcel, ptr, toVirt_sub, extent]
  have link := le_slabSize hi
  have written := inv.write (m := h.buddy.mem.write64 a (h.heap.slabs i).freeList)
    (List.mem_append_right _ (List.mem_map_of_mem hb)) (inv.live_off hb) fun x hx =>
      Memory.write64_outside (by simp only [parcel, Parcel.cells, Set.mem_Ico] at hx; omega)
  have apart : ∀ c ∈ nodes i, c + 8 ≤ a ∨ a + 8 ≤ c := by
    intro c hc
    have off := inv.live_off hb ⟨c, slabSize i⟩ (mem_nodeParcels.mpr ⟨i, hi, c, hc, rfl⟩)
    rw [parcel] at off
    have := off.before (by simp only; omega) (by simp only; omega)
    simp only at this
    omega
  have head := (inv.lists i hi).head_lt fun c hc => inv.node_window hi hc
  refine ⟨a, ptr, ?_, written.good, KernelHeap.sizes_setList inv.sizes,
    KernelHeap.lists_setList written.lists (ptr ▸ (inv.lists i hi).push head apart), ?_, ?_⟩
  · rw [ptr, SlabCache.free_ok _ _ window]
  · have nodes' := nodeParcels_append nodes hi [a]
    have live := (List.perm_cons_erase hb).map Live.parcel
    rw [List.map_cons, parcel] at live
    refine (nodes'.append_right _).trans (.trans ?_ inv.pieces)
    exact List.perm_middle.symm.trans (live.symm.append_left _)
  · exact fun c hc => inv.window c (List.mem_of_mem_erase hc)

theorem takeLarge (inv : h.Inv nodes held) (p : Profile)
    (extent : layout.extent = orderToSize layout.order) :
    h.buddy.alloc p layout.order = .ok (none, h.buddy) ∨
    ∃ a s, h.buddy.alloc p layout.order = .ok (some a, s) ∧ a < DIRECT_MAP_END ∧
      Inv { h with buddy := s, live := ⟨toVirt a, layout⟩ :: h.live } nodes
        (.large ⟨a, layout.order⟩ :: held) := by
  obtain ⟨free, buddy⟩ := inv.good
  rcases Buddy.alloc_spec p buddy layout.order with ⟨full, -⟩ | ⟨a, s, free', taken, buddy', frame, -⟩
  · exact Or.inl full
  · right
    refine ⟨a, s, taken, (buddy'.addr_window List.mem_cons_self).2,
      ⟨free', buddy'.perm List.perm_middle.symm⟩, inv.sizes, inv.lists_of_held fun b hb x hx => ?_, ?_, ?_⟩
    · exact frame fun _ => ⟨b, List.mem_cons_of_mem _ (List.mem_append_right _ hb), hx⟩
    · have parcel : Live.parcel ⟨toVirt a, layout⟩ = Block.parcel ⟨a, layout.order⟩ := by
        rw [Live.parcel, toVirt_sub, extent, Buddy.orderToSize_eq]
        rfl
      rw [List.map_cons, parcel, List.flatMap_cons, Holding.pieces, List.singleton_append]
      exact List.perm_middle.trans (inv.pieces.cons _)
    · simp only [List.mem_cons, forall_eq_or_imp]
      exact ⟨Nat.le_add_right _ _, inv.window⟩

/-- A large block goes back to the buddy allocator, with the order that it was taken with. -/
theorem giveLarge (inv : h.Inv nodes held) (p : Profile) {b : Live} (hb : b ∈ h.live)
    (extent : b.layout.extent = orderToSize b.layout.order) (large : PAGE_SIZE < b.layout.extent) :
    ∃ a s held', b.ptr = toVirt a ∧ a < DIRECT_MAP_END ∧
      (⟨a, b.layout.order⟩ : Block) ∈ held.map Holding.block ∧
      h.buddy.free p a b.layout.order = .ok s ∧
      Inv { h with buddy := s, live := h.live.erase b } nodes held' := by
  obtain ⟨a, ptr, window⟩ := inv.live_window hb
  obtain ⟨x, hx, piece⟩ := inv.piece (List.mem_append_right _ (List.mem_map_of_mem hb))
  obtain ⟨⟨a', o⟩, rfl, parcel⟩ := Holding.large_of_piece piece large
  have size : blockSize PAGE_SIZE o = blockSize PAGE_SIZE b.layout.order := by
    rw [← Buddy.orderToSize_eq b.layout.order, ← extent]
    exact (congrArg Parcel.size parcel).symm
  obtain rfl : o = b.layout.order :=
    Nat.pow_right_injective (Nat.le_refl 2) (Nat.eq_of_mul_eq_mul_left Buddy.page_pos size)
  obtain rfl : a = a' := by
    have := congrArg Parcel.addr parcel
    rwa [Live.parcel, ptr, toVirt_sub] at this
  have kept := List.perm_cons_erase hx
  have blocks : (h.given ++ held.map Holding.block).Perm
      (⟨a, b.layout.order⟩ :: (h.given ++ (held.erase _).map Holding.block)) :=
    ((kept.map Holding.block).append_left _).trans List.perm_middle
  obtain ⟨free, buddy⟩ := inv.good
  obtain ⟨s, free', freed, buddy', frame, -⟩ := Buddy.free_spec p (buddy.perm blocks)
  have pieces : (nodeParcels nodes ++ (h.live.erase b).map Live.parcel).Perm
      ((held.erase (.large ⟨a, b.layout.order⟩)).flatMap Holding.pieces) := by
    have before := inv.pieces.trans (kept.flatMap_right Holding.pieces)
    have live := ((List.perm_cons_erase hb).map Live.parcel).append_left (nodeParcels nodes)
    rw [List.flatMap_cons, Holding.pieces, List.singleton_append, ← parcel] at before
    exact ((List.perm_middle.symm.trans live.symm).trans before).cons_inv
  refine ⟨a, s, _, ptr, window, List.mem_map_of_mem hx, freed, ⟨free', buddy'⟩, inv.sizes,
    inv.lists_congr fun q hq => ?_, pieces, fun c hc => inv.window c (List.mem_of_mem_erase hc)⟩
  -- a node is a piece of something that is still held
  obtain ⟨y, hy, piece⟩ := List.mem_flatMap.mp (pieces.mem_iff.mp (List.mem_append_left _ hq))
  exact fun x hx => frame fun _ =>
    ⟨y.block, List.mem_append_right _ (List.mem_map_of_mem hy), y.pieces_inside q piece hx⟩

end HeapState.Inv
end Ferrum
