import Ferrum.Heap.Operations

/-!
# The heap and its clients

Runs in which blocks of any layout are allocated and released, while other code registers regions,
takes blocks from the buddy allocator and returns them, and everybody writes to the blocks they have.
-/
namespace Ferrum

namespace Client

variable {p : Profile} {s : Buddy} {given mine : List Block} {regions : List (Nat × Nat)} {c : Client}

/-- What one client does beside another leaves the blocks of the other alone. -/
theorem Step.beside (step : Step p ⟨s, given, regions⟩ c) (good : Good ⟨s, given ++ mine, regions⟩) :
    Good ⟨c.buddy, c.out ++ mine, c.regions⟩ ∧
      ∀ b ∈ mine, Set.EqOn c.buddy.mem s.mem (b.cells PAGE_SIZE) := by
  have whole : Step p ⟨s, given ++ mine, regions⟩ ⟨c.buddy, c.out ++ mine, c.regions⟩ := by
    cases step with
    | addRegion fits page0 fresh run => exact .addRegion fits page0 fresh run
    | allocSome run => exact .allocSome run
    | allocNone run => exact .allocNone run
    | @free b _ held run =>
      have out : (given ++ mine).erase b = given.erase b ++ mine := List.erase_append_left _ held
      exact out ▸ .free (List.mem_append_left mine held) run
    | write v held inside => exact .write v (List.mem_append_left mine held) inside
  refine ⟨whole.good good, fun b hb x hx => ?_⟩
  obtain ⟨free, inv⟩ := good
  have hold {S : Set Nat} {out : List Block} : x ∈ Buddy.Held (out ++ mine) S :=
    fun _ => ⟨b, List.mem_append_right _ hb, hx⟩
  cases step with
  | addRegion fits page0 fresh run =>
    obtain ⟨-, -, frame, -⟩ := Buddy.addRegion_spec inv (disjoint_registered fresh) page0 fits run
    exact frame hold
  | @allocSome order a buddy run =>
    rcases Buddy.alloc_spec p inv order with ⟨none, -⟩ | ⟨a', s', free', some, inv', frame, -⟩
    · cases run.symm.trans none
    · cases run.symm.trans some
      exact frame fun _ => ⟨b, List.mem_cons_of_mem _ (List.mem_append_right _ hb), hx⟩
  | @allocNone order buddy run =>
    rcases Buddy.alloc_spec p inv order with ⟨none, -⟩ | ⟨a', s', free', some, -⟩
    · cases run.symm.trans none
      rfl
    · cases run.symm.trans some
  | @free b' _ held run =>
    obtain ⟨s', free', run', inv', frame, -⟩ :=
      Buddy.free_spec p (inv.perm (List.perm_cons_erase (List.mem_append_left mine held)))
    cases run.symm.trans run'
    rw [List.erase_append_left _ held] at frame
    exact frame hold
  | @write b' y v held inside =>
    refine Function.update_of_ne ?_ _ _
    rintro rfl
    have apart := (List.pairwise_append.mp (List.pairwise_append.mp inv.tiling.apart).1).2.2 _ held b hb
    exact Set.disjoint_left.mp apart.disjoint inside hx

end Client

namespace HeapState

variable {p : Profile} {h h' : HeapState} {nodes : Nat → List Nat} {held : List Holding}

/-- What `alloc` takes: an object of one class, from its list or from a new page, or a block of one
order. -/
def Takes (p : Profile) (h : HeapState) (ptr : Nat) (heap : KernelHeap) (buddy : Buddy) : Supply → Prop
  | .slab i => (∀ j, j ≠ i → heap.slabs j = h.heap.slabs j) ∧
      ((h.heap.slabs i).freeList ≠ 0 ∧ ptr = (h.heap.slabs i).freeList ∧ buddy = h.buddy ∨
        (h.heap.slabs i).freeList = 0 ∧ ∃ a s, h.buddy.alloc p 0 = .ok (some a, s) ∧ ptr = toVirt a)
  | .buddy order => heap = h.heap ∧ ∃ a, h.buddy.alloc p order = .ok (some a, buddy) ∧ ptr = toVirt a

/-- Where `dealloc` returns a block to: it becomes the first node of the list of one class, or it is
freed with one order. -/
def Returns (p : Profile) (h : HeapState) (nodes : Nat → List Nat) (ptr : Nat) (heap : KernelHeap)
    (buddy : Buddy) : Supply → Prop
  | .slab i => buddy.pool = h.buddy.pool ∧ (∀ j, j ≠ i → heap.slabs j = h.heap.slabs j) ∧
      ∃ a, ptr = toVirt a ∧ FreeList buddy.mem (heap.slabs i).freeList (a :: nodes i)
  | .buddy order => heap = h.heap ∧ ∃ a, ptr = toVirt a ∧ h.buddy.free p a order = .ok buddy

/-- The list of live blocks after an allocation. A null pointer is no block. -/
def enlist (live : List Live) (ptr : Nat) (layout : Layout) : List Live :=
  if ptr = 0 then live else ⟨ptr, layout⟩ :: live

theorem toVirt_ne_zero (a : Nat) : toVirt a ≠ 0 := by
  simp only [toVirt, KERNEL_VIRT_BASE]
  omega

namespace Inv

/-- An allocation comes back with a block from the supply of its layout, or with a null pointer. -/
theorem alloc (inv : h.Inv nodes held) (p : Profile) (layout : Layout) :
    ∃ ptr heap buddy nodes' held', h.heap.alloc p h.buddy layout = .ok (ptr, heap, buddy) ∧
      Inv { h with heap, buddy, live := enlist h.live ptr layout } nodes' held' ∧
      (ptr ≠ 0 → h.Takes p ptr heap buddy layout.supply) := by
  unfold KernelHeap.alloc
  cases found : sizeToSlab layout.request with
  | some i =>
    obtain ⟨supply, extent⟩ := Layout.of_slab found
    have hi := (sizeToSlab_some found).1
    have others (cache : SlabCache) : ∀ j, j ≠ i → (h.heap.setSlab i cache).slabs j = h.heap.slabs j :=
      fun j ne => Function.update_of_ne ne _ _
    rw [supply]
    by_cases none : (h.heap.slabs i).freeList = 0
    · rcases inv.grow hi extent p none with full | ⟨a, s', head, s, l, page, run, inv'⟩
      · have same : h.heap.setSlab i (h.heap.slabs i) = h.heap := by
          rw [KernelHeap.setSlab, Function.update_eq_self]
        refine ⟨0, h.heap, h.buddy, nodes, held, ?_, inv, fun ne => absurd rfl ne⟩
        simp only [full, ok_bind, same, pure_eq_ok]
      · refine ⟨toVirt a, h.heap.setList i head, s, Function.update nodes i l, .page a i :: held, ?_, ?_,
          fun _ => ⟨others _, .inr ⟨none, a, s', page, rfl⟩⟩⟩
        · simp only [run, ok_bind, pure_eq_ok]
          rfl
        · rw [enlist, if_neg (toVirt_ne_zero a)]
          exact inv'
    · obtain ⟨a, l, -, head, run, inv'⟩ := inv.pop hi extent p none
      refine ⟨toVirt a, h.heap.setList i (h.buddy.mem.read64 a), h.buddy, Function.update nodes i l, held,
        ?_, ?_, fun _ => ⟨others _, .inl ⟨none, head.symm, rfl⟩⟩⟩
      · simp only [run, ok_bind, pure_eq_ok]
        rfl
      · rw [enlist, if_neg (toVirt_ne_zero a)]
        exact inv'
  | none =>
    obtain ⟨supply, extent, -⟩ := Layout.of_large found
    rw [supply]
    simp only [layout.pagesToOrder_ok, ok_bind]
    rcases inv.takeLarge p extent with full | ⟨a, s, run, window, inv'⟩
    · refine ⟨0, h.heap, h.buddy, nodes, held, ?_, inv, fun ne => absurd rfl ne⟩
      simp only [full, ok_bind, pure_eq_ok]
    · have base : physToVirt a = .ok (toVirt a) := physToVirt_ok window
      refine ⟨toVirt a, h.heap, s, nodes, .large ⟨a, layout.order⟩ :: held, ?_, ?_,
        fun _ => ⟨rfl, a, run, rfl⟩⟩
      · simp only [run, ok_bind, base, pure_eq_ok]
      · rw [enlist, if_neg (toVirt_ne_zero a)]
        exact inv'

theorem dealloc (inv : h.Inv nodes held) (p : Profile) {b : Live} (hb : b ∈ h.live) :
    ∃ heap buddy nodes' held', h.heap.dealloc p h.buddy b.ptr b.layout = .ok (heap, buddy) ∧
      Inv { h with heap, buddy, live := h.live.erase b } nodes' held' ∧
      h.Returns p nodes b.ptr heap buddy b.layout.supply := by
  unfold KernelHeap.dealloc
  cases found : sizeToSlab b.layout.request with
  | some i =>
    obtain ⟨supply, extent⟩ := Layout.of_slab found
    have hi := (sizeToSlab_some found).1
    obtain ⟨a, ptr, run, inv'⟩ := inv.push hb hi extent
    have list := inv'.lists i hi
    rw [Function.update_self] at list
    rw [supply]
    refine ⟨_, _, _, _, ?_, inv', rfl, fun j ne => Function.update_of_ne ne _ _, a, ptr, list⟩
    simp only [run, ok_bind, pure_eq_ok]
    rfl
  | none =>
    obtain ⟨supply, extent, large⟩ := Layout.of_large found
    obtain ⟨a, s, held', ptr, window, -, run, inv'⟩ := inv.giveLarge p hb extent large
    rw [supply]
    refine ⟨h.heap, s, nodes, held', ?_, inv', rfl, a, ptr, run⟩
    simp only [b.layout.pagesToOrder_ok, ok_bind, ptr, virtToPhys_toVirt p window, run, pure_eq_ok]

theorem aligned (inv : h.Inv nodes held) {b : Live} (hb : b ∈ h.live) : b.layout.align ∣ b.ptr := by
  obtain ⟨a, ptr, -⟩ := inv.live_window hb
  have mem := List.mem_append_right (nodeParcels nodes) (List.mem_map_of_mem (f := Live.parcel) hb)
  obtain ⟨x, hx, piece⟩ := inv.piece mem
  obtain ⟨free, buddy⟩ := inv.good
  have block := buddy.tiling.aligned x.block
    (List.mem_append_left _ (List.mem_append_right _ (List.mem_map_of_mem hx)))
  have phys : b.layout.extent ∣ a := by
    have := x.pieces_aligned block piece
    rwa [Live.parcel, ptr, toVirt_sub] at this
  -- the window starts at a multiple of every power of two that fits into it
  have base : b.layout.extent ∣ KERNEL_VIRT_BASE := by
    obtain ⟨k, power⟩ := b.layout.extent_power
    have pos := b.layout.extent_pos
    have inside : a + (b.layout.extent - 1) ∈ b.parcel.cells := by
      rw [Live.parcel, ptr, toVirt_sub, Parcel.cells, Set.mem_Ico]
      exact ⟨Nat.le_add_right _ _, by simp only; omega⟩
    have last := inv.piece_window mem inside
    have small : 2 ^ k ≤ 2 ^ 47 := by
      rw [← power]
      have := last.2
      simp only [DIRECT_MAP_END] at this
      omega
    rw [power]
    exact (Nat.pow_dvd_pow 2 ((Nat.pow_le_pow_iff_right (by decide)).mp small)).trans (by decide)
  rw [ptr]
  exact b.layout.align_dvd_extent.trans (Nat.dvd_add base phys)

end Inv

/-! ## Runs -/

/-- A heap that has not been used, over an allocator that has not been used. -/
def Initial (h : HeapState) : Prop :=
  Client.Initial ⟨h.buddy, h.given, h.regions⟩ ∧ h.heap = .new ∧ h.live = []

inductive Step (p : Profile) : HeapState → HeapState → Prop
  | beside {h : HeapState} {c : Client} (step : Client.Step p ⟨h.buddy, h.given, h.regions⟩ c) :
      Step p h { h with buddy := c.buddy, given := c.out, regions := c.regions }
  | alloc {h : HeapState} {layout : Layout} {ptr : Nat} {heap : KernelHeap} {buddy : Buddy}
      (run : h.heap.alloc p h.buddy layout = .ok (ptr, heap, buddy)) :
      Step p h { h with heap, buddy, live := enlist h.live ptr layout }
  | dealloc {h : HeapState} {b : Live} {heap : KernelHeap} {buddy : Buddy} (live : b ∈ h.live)
      (run : h.heap.dealloc p h.buddy b.ptr b.layout = .ok (heap, buddy)) :
      Step p h { h with heap, buddy, live := h.live.erase b }
  | write {h : HeapState} {b : Live} {x : Nat} (v : UInt8) (live : b ∈ h.live) (inside : x ∈ b.bytes) :
      Step p h { h with buddy.mem := Function.update h.buddy.mem x v }

/-- What the heap promises. -/
structure Sound (p : Profile) (h : HeapState) : Prop where
  aligned : ∀ b ∈ h.live, b.ptr ≠ 0 ∧ b.layout.align ∣ b.ptr
  apart : h.live.Pairwise fun b c => Disjoint b.bytes c.bytes
  /-- Live blocks keep off the nodes of the slab lists and off the blocks that the buddy allocator has
  free or has given to others; each returns to the supply that it came from. -/
  lists : ∃ nodes free : Nat → List Nat,
    (∀ i < SLABS, FreeList h.buddy.mem (h.heap.slabs i).freeList (nodes i)) ∧
    (∀ o < MAX_ORDER, Chain h.buddy.mem.read64 (h.buddy.pool.freeHeads o) (free o)) ∧
    ∀ b ∈ h.live,
      (∀ i < SLABS, ∀ a ∈ nodes i, Disjoint b.bytes (Set.Ico a (a + slabSize i))) ∧
      (∀ c ∈ h.given ++ freeBlocks free MAX_ORDER, Disjoint b.bytes (c.cells PAGE_SIZE)) ∧
      ∃ heap buddy, h.heap.dealloc p h.buddy b.ptr b.layout = .ok (heap, buddy) ∧
        h.Returns p nodes b.ptr heap buddy b.layout.supply
  serves : ∀ layout, ∃ ptr heap buddy, h.heap.alloc p h.buddy layout = .ok (ptr, heap, buddy) ∧
    (ptr ≠ 0 → h.Takes p ptr heap buddy layout.supply)

theorem Inv.sound (inv : h.Inv nodes held) : h.Sound p := by
  obtain ⟨free, buddy⟩ := inv.good
  obtain ⟨own, -, others⟩ := List.pairwise_append.mp (apart_of_good buddy inv.pieces)
  obtain ⟨-, live, -⟩ := List.pairwise_append.mp own
  refine ⟨fun b hb => ⟨?_, inv.aligned hb⟩, ?_, ⟨nodes, free, inv.lists, buddy.lists, fun b hb => ?_⟩, ?_⟩
  · obtain ⟨a, ptr, -⟩ := inv.live_window hb
    exact ptr ▸ toVirt_ne_zero a
  · exact (List.pairwise_map.mp live).imp fun apart =>
      Set.disjoint_of_subset (Live.bytes_subset _) (Live.bytes_subset _) apart
  · have mine : b.parcel ∈ nodeParcels nodes ++ h.live.map Live.parcel :=
      List.mem_append_right _ (List.mem_map_of_mem hb)
    obtain ⟨heap, s, -, -, run, -, returns⟩ := inv.dealloc p hb
    refine ⟨fun i hi a ha => ?_, fun c hc => ?_, heap, s, run, returns⟩
    · have off := inv.live_off hb _ (mem_nodeParcels.mpr ⟨i, hi, a, ha, rfl⟩)
      exact Set.disjoint_of_subset_left b.bytes_subset off
    · have off := others _ mine c.parcel (List.mem_map_of_mem hc)
      exact Set.disjoint_of_subset_left b.bytes_subset off
  · intro layout
    obtain ⟨ptr, heap, s, -, -, run, -, takes⟩ := inv.alloc p layout
    exact ⟨ptr, heap, s, run, takes⟩

theorem Initial.inv (start : h.Initial) : h.Inv (fun _ => []) [] := by
  obtain ⟨client, heap, live⟩ := start
  refine ⟨?_, fun i _ => by rw [heap]; rfl, fun i _ => by rw [heap]; exact FreeList.empty _, ?_, ?_⟩
  · change Client.Good ⟨h.buddy, h.given ++ [], h.regions⟩
    rw [List.append_nil]
    exact client.good
  · simp [nodeParcels, joined, live]
  · simp [live]

theorem Step.inv (step : Step p h h') (inv : h.Inv nodes held) : ∃ nodes' held', h'.Inv nodes' held' := by
  cases step with
  | beside step =>
    obtain ⟨good, same⟩ := step.beside inv.good
    exact ⟨nodes, held, good, inv.sizes, inv.lists_of_held same, inv.pieces, inv.window⟩
  | @alloc layout ptr heap buddy run =>
    obtain ⟨ptr', heap', buddy', nodes', held', run', inv', -⟩ := inv.alloc p layout
    cases run.symm.trans run'
    exact ⟨nodes', held', inv'⟩
  | dealloc live run =>
    obtain ⟨heap', buddy', nodes', held', run', inv', -⟩ := inv.dealloc p live
    cases run.symm.trans run'
    exact ⟨nodes', held', inv'⟩
  | @write b x v live inside =>
    refine ⟨nodes, held, inv.write (List.mem_append_right _ (List.mem_map_of_mem live))
      (inv.live_off live) fun y hy => Function.update_of_ne ?_ _ _⟩
    rintro rfl
    exact hy (b.bytes_subset inside)

/-- In every state that a run of allocations and releases of any layouts reaches, beside other users of
the buddy allocator and with stores to blocks in use, the heap keeps its promises. -/
theorem heap_sound (run : Reachable Initial (Step p) h) : h.Sound p := by
  obtain ⟨nodes, held, inv⟩ := run.invariant (P := fun h => ∃ nodes held, Inv h nodes held)
    (fun _ start => ⟨_, _, start.inv⟩) fun _ _ ⟨_, _, inv⟩ step => step.inv inv
  exact inv.sound

/-- The layout of three words. -/
def threeWords : Layout := ⟨24, 8, ⟨3, rfl⟩, by decide⟩

/-- A run that registers four pages and allocates three words: they come from a page that is cut into
objects of 32 bytes. -/
theorem heap_sound_after_alloc : ∃ h : HeapState, Reachable Initial (Step .dev) h ∧
    h.live = [⟨0xffff_8000_0001_0000, threeWords⟩] ∧ h.Sound .dev := by
  have evaluates : (do
      let s ← Buddy.addRegion .dev ⟨fun _ => 0, .new⟩ 0x10000 0x4000
      let r ← KernelHeap.new.alloc .dev s threeWords
      return r.1) = Except.ok 0xffff_8000_0001_0000 := by decide +kernel
  obtain ⟨s, seed, rest⟩ := bind_eq_ok.mp evaluates
  obtain ⟨⟨ptr, heap, s'⟩, take, result⟩ := bind_eq_ok.mp rest
  obtain rfl : ptr = 0xffff_8000_0001_0000 := Except.ok.inj result
  have start : Reachable Initial (Step .dev) ⟨⟨fun _ => 0, .new⟩, [], [], .new, []⟩ :=
    .start ⟨⟨_, rfl⟩, rfl, rfl⟩
  have seeded := start.next (.beside (.addRegion (by decide) (by decide) (by simp) seed))
  have taken := seeded.next (.alloc take)
  exact ⟨_, taken, rfl, heap_sound taken⟩

end HeapState

end Ferrum
