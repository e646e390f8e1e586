import Ferrum.Allocator.Model

/-!
# The kernel heap

Small objects come from ten slab caches, one for each power of two up to a page. A cache keeps its free
objects on a list that is threaded through the objects, and cuts up another page of the buddy allocator
when the list is empty. Larger objects are blocks of the buddy allocator.

Pointers are virtual addresses of the kernel's window, `0` is the null pointer, and what is behind a
pointer is a byte of physical memory.
-/
namespace Ferrum

def SLAB_SIZES : List Nat := [8, 16, 32, 64, 128, 256, 512, 1024, 2048, 4096]

/-- `core::alloc::Layout`. -/
structure Layout where
  size : Nat
  align : Nat
  power : ∃ k, align = 2 ^ k
  bounded : size + align ≤ 2 ^ 63
  deriving DecidableEq

structure SlabCache where
  objectSize : Nat
  freeList : Nat

/-- The physical address behind a pointer of the kernel. -/
def deref (ptr : Nat) : Except Stop Nat :=
  if KERNEL_VIRT_BASE ≤ ptr ∧ ptr < 2 ^ 64 then .ok (ptr - KERNEL_VIRT_BASE)
  else .error (.expect "KERNEL PAGE FAULT")

def virtToPhys (p : Profile) (virt : Nat) : Except Stop Nat := p.sub virt KERNEL_VIRT_BASE

namespace SlabCache

def new (objectSize : Nat) : SlabCache := ⟨objectSize, 0⟩

/-- `(*node).next = self.free_list; self.free_list = node`. -/
def free (cache : SlabCache) (m : Memory) (ptr : Nat) : Except Stop (SlabCache × Memory) := do
  let node ← deref ptr
  return ({ cache with freeList := ptr }, m.write64 node cache.freeList)

/-- The loop of `grow` over the objects of a page. -/
def thread (p : Profile) (base : Nat) : Nat → Nat → SlabCache → Memory →
    Except Stop (SlabCache × Memory)
  | 0, _, _, _ => .error .diverges
  | fuel + 1, offset, cache, m => do
    let past ← p.add offset cache.objectSize
    if past ≤ PAGE_SIZE then do
      let node ← p.add base offset
      let (cache, m) ← cache.free m node
      thread p base fuel past cache m
    else return (cache, m)

/-- Cut up another page. Its first object is the result. -/
def grow (p : Profile) (cache : SlabCache) (s : Buddy) : Except Stop (Nat × SlabCache × Buddy) := do
  let (phys, s) ← s.alloc p 0
  match phys with
  | none => return (0, cache, s)
  | some phys => do
    let base ← physToVirt phys
    let page ← deref base
    let m := s.mem.fill page PAGE_SIZE 0
    let (cache, m) ← thread p base PAGE_SIZE cache.objectSize cache m
    return (base, cache, { s with mem := m })

def alloc (p : Profile) (cache : SlabCache) (s : Buddy) : Except Stop (Nat × SlabCache × Buddy) :=
  if cache.freeList ≠ 0 then do
    let node ← deref cache.freeList
    return (cache.freeList, { cache with freeList := s.mem.read64 node }, s)
  else cache.grow p s

end SlabCache

/-- The loop of `pages_to_order`. A shift drops the bits that leave the word. -/
def orderLoop (pages : Nat) : Nat → Nat → Nat → Except Stop Nat
  | 0, _, _ => .error .diverges
  | fuel + 1, n, order =>
    if n < pages then orderLoop pages fuel (n <<< 1 % 2 ^ 64) (order + 1) else .ok order

def pagesToOrder (pages : Nat) : Except Stop Nat := orderLoop pages 65 1 0

def sizeToSlab (size : Nat) : Option Nat := SLAB_SIZES.findIdx? fun s => size ≤ s

/-- The size that a layout is served with. -/
def Layout.request (layout : Layout) : Nat := max (max layout.size layout.align) 8

/-- `size.div_ceil(PAGE_SIZE)`. -/
def Layout.pages (layout : Layout) : Nat := (layout.request + (PAGE_SIZE - 1)) / PAGE_SIZE

structure KernelHeap where
  slabs : Nat → SlabCache

namespace KernelHeap

def new : KernelHeap := ⟨fun i => .new (SLAB_SIZES.getD i 0)⟩

def setSlab (heap : KernelHeap) (idx : Nat) (cache : SlabCache) : KernelHeap :=
  ⟨Function.update heap.slabs idx cache⟩

def alloc (p : Profile) (heap : KernelHeap) (s : Buddy) (layout : Layout) :
    Except Stop (Nat × KernelHeap × Buddy) :=
  match sizeToSlab layout.request with
  | some idx => do
    let (ptr, cache, s) ← (heap.slabs idx).alloc p s
    return (ptr, heap.setSlab idx cache, s)
  | none => do
    let order ← pagesToOrder layout.pages
    let (phys, s) ← s.alloc p order
    match phys with
    | some phys => do
      let ptr ← physToVirt phys
      return (ptr, heap, s)
    | none => return (0, heap, s)

def dealloc (p : Profile) (heap : KernelHeap) (s : Buddy) (ptr : Nat) (layout : Layout) :
    Except Stop (KernelHeap × Buddy) :=
  match sizeToSlab layout.request with
  | some idx => do
    let (cache, m) ← (heap.slabs idx).free s.mem ptr
    return (heap.setSlab idx cache, { s with mem := m })
  | none => do
    let order ← pagesToOrder layout.pages
    let phys ← virtToPhys p ptr
    let s ← s.free p phys order
    return (heap, s)

end KernelHeap
end Ferrum
