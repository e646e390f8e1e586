import Ferrum.Heap.Slab

/-!
# Byte buffers on the kernel heap

The buddy allocator has no block above `MAX_ORDER - 1`, so there is a size that the heap serves at
most, whatever memory the machine has. The growing buffers of the standard library know nothing of it:
they ask for twice their capacity, and a request that is not served is a panic.
-/
namespace Ferrum

/-- The largest block of the buddy allocator. -/
def MAX_BLOCK : Nat := orderToSize (MAX_ORDER - 1)

/-- The layout of a buffer of bytes. -/
def bytesLayout (size : Nat) (bounded : size < 2 ^ 63) : Layout := ⟨size, 1, ⟨0, rfl⟩, bounded⟩

/-- There is a machine on which the heap, as it is after boot, serves a buffer of that size. -/
def Servable (size : Nat) : Prop :=
  ∃ bounded : size < 2 ^ 63, ∃ (p : Profile) (s : Buddy) (base region : Nat) (ready : Buddy),
    s.pool = .new ∧ s.addRegion p base region = .ok ready ∧
      ∃ ptr heap' s', KernelHeap.new.alloc p ready (bytesLayout size bounded) = .ok (ptr, heap', s') ∧
        ptr ≠ 0

/-! ## The ceiling -/

/-- No state of the buddy allocator has a block of an order that it does not keep. -/
theorem Buddy.alloc_large {p : Profile} {s s' : Buddy} {order : Nat} {block : Option Nat}
    (large : MAX_ORDER ≤ order) (runs : s.alloc p order = .ok (block, s')) : block = none := by
  have nothing : MAX_ORDER - order = 0 := Nat.sub_eq_zero_of_le large
  obtain ⟨_, -, runs⟩ := bind_eq_ok.mp runs
  rw [nothing] at runs
  cases runs
  rfl

/-- No state of the heap serves a buffer that is larger than the largest block. -/
theorem KernelHeap.alloc_large {p : Profile} {heap heap' : KernelHeap} {s s' : Buddy} {size ptr : Nat}
    {bounded : size < 2 ^ 63} (large : MAX_BLOCK < size)
    (runs : heap.alloc p s (bytesLayout size bounded) = .ok (ptr, heap', s')) : ptr = 0 := by
  have big : 2 ^ 10 * PAGE_SIZE < size := large
  have enough : size ≤ (bytesLayout size bounded).request := by
    simp only [Layout.request, bytesLayout]
    omega
  cases slab : sizeToSlab (bytesLayout size bounded).request with
  | some i =>
    have := sizeToSlab_some slab
    have := slabSize_le i
    simp only [PAGE_SIZE] at *
    omega
  | none =>
    have pages : 2 ^ 10 < (bytesLayout size bounded).pages := by
      simp only [Layout.pages, PAGE_SIZE] at *
      omega
    have order : MAX_ORDER ≤ (bytesLayout size bounded).order :=
      (Nat.lt_clog_iff_pow_lt (by decide)).mpr pages
    simp only [alloc, slab, Layout.pagesToOrder_ok, ok_bind] at runs
    obtain ⟨⟨block, s₁⟩, asked, runs⟩ := bind_eq_ok.mp runs
    obtain rfl := Buddy.alloc_large order asked
    cases runs
    rfl

/-! ## What is served -/

/-- A machine before its memory has been found. -/
def noMemory : Buddy := ⟨fun _ => 0, .new⟩

/-- What an allocation yields, `0` if it stops. -/
def yielded {α : Type} (r : Except Stop (Nat × α)) : Nat := (r.toOption.map Prod.fst).getD 0

theorem exists_of_yielded {α : Type} {r : Except Stop (Nat × α)} (h : yielded r ≠ 0) :
    ∃ ptr rest, r = .ok (ptr, rest) ∧ ptr ≠ 0 := by
  cases r with
  | error e => exact absurd rfl h
  | ok r => exact ⟨r.1, r.2, rfl, h⟩

/-- With one block of the largest order, every slab has an object and there is a block of every
order. -/
theorem noMemory_addRegion : ∃ ready, noMemory.addRegion .release MAX_BLOCK MAX_BLOCK = .ok ready ∧
    (∀ i < SLABS, yielded ((KernelHeap.new.slabs i).alloc .release ready) ≠ 0) ∧
    ∀ order < MAX_ORDER, yielded (do
      let (block, s) ← ready.alloc .release order
      let ptr ← physToVirt (block.getD (2 ^ 64))
      return (ptr, s)) ≠ 0 :=
  ⟨_, rfl, by decide +kernel, by decide +kernel⟩

theorem servable_of_le {size : Nat} (small : size ≤ MAX_BLOCK) : Servable size := by
  have bounded : size < 2 ^ 63 := Nat.lt_of_le_of_lt small (by decide)
  obtain ⟨ready, booted, slabs, blocks⟩ := noMemory_addRegion
  refine ⟨bounded, .release, noMemory, _, _, ready, rfl, booted, ?_⟩
  cases slab : sizeToSlab (bytesLayout size bounded).request with
  | some i =>
    obtain ⟨ptr, ⟨cache, s⟩, found, nonzero⟩ := exists_of_yielded (slabs i (sizeToSlab_some slab).1)
    refine ⟨ptr, KernelHeap.new.setSlab i cache, s, ?_, nonzero⟩
    simp only [KernelHeap.alloc, slab, found, ok_bind, pure_eq_ok]
  | none =>
    have pages : (bytesLayout size bounded).pages ≤ 2 ^ 10 := by
      have : size ≤ 2 ^ 10 * PAGE_SIZE := small
      simp only [Layout.pages, Layout.request, bytesLayout, PAGE_SIZE] at *
      omega
    have order : (bytesLayout size bounded).order < MAX_ORDER :=
      Nat.lt_succ_of_le (Nat.clog_le_of_le_pow pages)
    obtain ⟨ptr, s, found, nonzero⟩ := exists_of_yielded (blocks _ order)
    obtain ⟨⟨block, s₁⟩, asked, found⟩ := bind_eq_ok.mp found
    obtain ⟨virt, reached, found⟩ := bind_eq_ok.mp found
    cases found
    cases block with
    | none => cases reached
    | some phys =>
      refine ⟨ptr, .new, s, ?_, nonzero⟩
      rw [Option.getD_some] at reached
      simp only [KernelHeap.alloc, slab, Layout.pagesToOrder_ok, ok_bind, asked, reached,
        pure_eq_ok]

theorem servable_iff {size : Nat} : Servable size ↔ size ≤ MAX_BLOCK := by
  refine ⟨?_, servable_of_le⟩
  rintro ⟨bounded, p, s, base, region, ready, -, -, ptr, heap', s', runs, nonzero⟩
  by_contra large
  exact nonzero (KernelHeap.alloc_large (Nat.lt_of_not_le large) runs)

/-! ## Growing buffers -/

/-- A new buffer of bytes. The standard library refuses what does not fit an `isize`,
`GlobalAlloc::alloc` panics when the heap has nothing. Here it is given everything that the heap can
serve. -/
def allocBytes (size : Nat) : Except Stop Unit :=
  if 2 ^ 63 ≤ size then .error (.expect "capacity overflow")
  else if MAX_BLOCK < size then .error (.expect "[heap] GlobalAlloc::alloc OOM")
  else .ok ()

theorem allocBytes_ok_iff {size : Nat} : allocBytes size = .ok () ↔ Servable size := by
  have low : MAX_BLOCK < 2 ^ 63 := by decide
  rw [servable_iff, allocBytes]
  split
  · simp only [reduceCtorEq, false_iff]
    omega
  · split
    · simp only [reduceCtorEq, false_iff]
      omega
    · simp only [true_iff]
      omega

/-- The capacity that a full buffer of bytes grows to. -/
def grown (cap need : Nat) : Nat := max 8 (max (2 * cap) need)

/-- `Vec::reserve` and `VecDeque::grow`: the capacity after room for `need` bytes has been made. -/
def reserve (cap need : Nat) : Except Stop Nat :=
  if need ≤ cap then .ok cap
  else do
    allocBytes (grown cap need)
    return grown cap need

theorem reserve_cases (cap need : Nat) :
    (reserve cap need = .ok cap ∧ need ≤ cap) ∨
    (reserve cap need = .ok (grown cap need) ∧ cap < need ∧ Servable (grown cap need)) ∨
    ((∃ e, reserve cap need = .error e) ∧ cap < need ∧ ¬ Servable (grown cap need)) := by
  rw [reserve]
  split
  · exact .inl ⟨rfl, ‹_›⟩
  · have more : cap < need := Nat.lt_of_not_le ‹_›
    cases asked : allocBytes (grown cap need) with
    | ok u => exact .inr (.inl ⟨rfl, more, allocBytes_ok_iff.mp asked⟩)
    | error e =>
      refine .inr (.inr ⟨⟨e, rfl⟩, more, fun servable => ?_⟩)
      rw [allocBytes_ok_iff.mpr servable] at asked
      cases asked

/-- `push_back` for each of `n` bytes, to a deque that has `len`. -/
def pushBack : Nat → Nat → Nat → Except Stop Nat
  | 0, _, cap => .ok cap
  | n + 1, len, cap => do
    let cap ← reserve cap (len + 1)
    pushBack n (len + 1) cap

/-- The capacities of a deque that began with a page and has doubled. -/
def Doubled (cap : Nat) : Prop := ∃ k, cap = 2 ^ k ∧ 12 ≤ k ∧ k ≤ 22

theorem Doubled.le {cap : Nat} (h : Doubled cap) : cap ≤ MAX_BLOCK := by
  obtain ⟨k, rfl, -, high⟩ := h
  exact Nat.pow_le_pow_right (by decide) high

theorem Doubled.pos {cap : Nat} (h : Doubled cap) : 0 < cap := by
  obtain ⟨k, rfl, -, -⟩ := h
  exact Nat.two_pow_pos k

/-- Doubling passes through the size of the largest block, so a deque can be filled up to it. -/
theorem Doubled.grown {cap : Nat} (h : Doubled cap) :
    grown cap (cap + 1) = 2 * cap ∧ (cap < MAX_BLOCK → Doubled (2 * cap)) := by
  obtain ⟨k, rfl, low, high⟩ := h
  have page : 2 ^ 12 ≤ 2 ^ k := Nat.pow_le_pow_right (by decide) low
  refine ⟨by simp only [Ferrum.grown]; omega, fun below => ?_⟩
  have : k < 22 := (Nat.pow_lt_pow_iff_right (by decide)).mp (show 2 ^ k < 2 ^ 22 from below)
  exact ⟨k + 1, by rw [Nat.pow_succ, Nat.mul_comm], by omega, by omega⟩

theorem pushBack_cases (n : Nat) {len cap : Nat} (doubled : Doubled cap) (room : len ≤ cap) :
    (∃ cap', pushBack n len cap = .ok cap' ∧ Doubled cap' ∧ len + n ≤ cap') ∨
    ((∃ e, pushBack n len cap = .error e) ∧ ¬ Servable (len + n)) := by
  induction n generalizing len cap with
  | zero => exact .inl ⟨cap, rfl, doubled, room⟩
  | succ n ih =>
    rw [pushBack, show len + (n + 1) = len + 1 + n by omega]
    obtain ⟨runs, fits⟩ | ⟨runs, full, served⟩ | ⟨⟨e, stops⟩, full, refused⟩ :=
      reserve_cases cap (len + 1)
    · rw [runs, ok_bind]
      exact ih doubled fits
    -- the buffer is full, and twice its capacity is a power of two again
    · obtain rfl : len = cap := by omega
      rw [runs, ok_bind, doubled.grown.1]
      rw [doubled.grown.1, servable_iff] at served
      have pos := doubled.pos
      exact ih (doubled.grown.2 (by omega)) (by omega)
    · obtain rfl : len = cap := by omega
      rw [stops, error_bind]
      refine .inr ⟨⟨e, rfl⟩, fun served => refused ?_⟩
      rw [servable_iff] at served ⊢
      rw [doubled.grown.1]
      exact (doubled.grown.2 (by omega)).le

end Ferrum
