import Ferrum.Kernel.Image
import Ferrum.Heap.Run

/-!
# Heap requests under the guard of the frame allocator

`fork`, `execve`, `mmap` at a fixed address and the start of the first process hold the guard of
`ALLOCATOR` while they insert areas into vectors. A vector that is full asks the kernel heap for a
larger buffer, and the heap locks `ALLOCATOR` itself when the slab list of that size is empty or the
buffer is larger than a page. The lock is not reentrant, so the kernel then spins forever.

The sections are written once, for any heap that serves vectors.
-/
namespace Ferrum

/-- Why a section under the guard does not come to its end: it locks `ALLOCATOR` again, or it stops
for another reason. -/
inductive Halt where
  | relocked
  | stop (why : Stop)

/-- A computation that does not touch the heap. -/
def Halt.lift {α : Type} : Except Stop α → Except Halt α
  | .ok a => .ok a
  | .error why => .error (.stop why)

/-- The global allocator, as the vectors of the kernel use it under the guard. -/
structure GlobalAlloc (σ : Type) where
  alloc : σ → Layout → Except Halt (Nat × σ)
  dealloc : σ → Nat → Layout → Except Halt σ

/-- Whether the heap locks `ALLOCATOR` to serve a layout: in `SlabCache::grow`, or for a large block. -/
def KernelHeap.locks (heap : KernelHeap) (layout : Layout) : Bool :=
  match sizeToSlab layout.request with
  | some i => (heap.slabs i).freeList = 0
  | none => true

/-- The kernel heap while `ALLOCATOR` is locked. -/
def guardedHeap (p : Profile) : GlobalAlloc HeapState where
  alloc h layout :=
    if h.heap.locks layout then .error .relocked
    else do
      let (ptr, heap, buddy) ← Halt.lift (h.heap.alloc p h.buddy layout)
      if ptr = 0 then .error (.stop (.expect "[heap] GlobalAlloc::alloc OOM"))
      else return (ptr, { h with heap, buddy, live := ⟨ptr, layout⟩ :: h.live })
  dealloc h ptr layout :=
    -- A large block goes back to `ALLOCATOR`.
    if (sizeToSlab layout.request).isNone then .error .relocked
    else do
      let (heap, buddy) ← Halt.lift (h.heap.dealloc p h.buddy ptr layout)
      return { h with heap, buddy, live := h.live.erase ⟨ptr, layout⟩ }

/-! ## Vectors of areas -/

/-- `size_of::<VMA>()`: two words, three flags and a kind, in whole words. -/
def VMA_SIZE : Nat := 24

/-- A `Vec<VMA>`. -/
structure AreaVec where
  areas : List VMA
  ptr : Nat
  cap : Nat
  bounded : VMA_SIZE * cap + 8 ≤ 2 ^ 63

theorem word_align : ∃ k, 8 = 2 ^ k := ⟨3, rfl⟩

namespace AreaVec

/-- `Vec::new()`, without a buffer. -/
def new : AreaVec := ⟨[], 0, 0, by decide⟩

def layout (v : AreaVec) : Layout := ⟨VMA_SIZE * v.cap, 8, word_align, v.bounded⟩

/-- The buffer of a vector, if it has one. -/
def buffer (v : AreaVec) : List Live := if v.cap = 0 then [] else [⟨v.ptr, v.layout⟩]

variable {σ : Type} (H : GlobalAlloc σ)

/-- The end of a vector. -/
def drop (v : AreaVec) (s : σ) : Except Halt σ :=
  if v.cap = 0 then .ok s else H.dealloc s v.ptr v.layout

/-- Room for one element more than `len`. A buffer that is full is replaced by one of twice the
capacity, and of four elements at first. -/
def growOne (v : AreaVec) (len : Nat) (s : σ) : Except Halt (AreaVec × σ) :=
  if len < v.cap then .ok (v, s)
  else
    let cap := max 4 (max (2 * v.cap) (len + 1))
    if bounded : VMA_SIZE * cap + 8 ≤ 2 ^ 63 then do
      let (ptr, s) ← H.alloc s ⟨VMA_SIZE * cap, 8, word_align, bounded⟩
      let s ← v.drop H s
      return (⟨v.areas, ptr, cap, bounded⟩, s)
    else .error (.stop (.expect "capacity overflow"))

/-- `Vec::push`. -/
def push (v : AreaVec) (s : σ) (vma : VMA) : Except Halt (AreaVec × σ) := do
  let (v, s) ← v.growOne H v.areas.length s
  return ({ v with areas := v.areas ++ [vma] }, s)

/-- `AddressSpace::add_vma`. The neighbours that an area merges with are removed before it is
inserted, so the vector has one element less than afterwards when it looks for room. -/
def addVma (v : AreaVec) (s : σ) (vma : VMA) : Except Halt (Except String Unit × AreaVec × σ) :=
  match Vmas.addVma v.areas vma with
  | .error e => return (.error e, v, s)
  | .ok areas => do
    let (v, s) ← v.growOne H (areas.length - 1) s
    return (.ok (), { v with areas }, s)

/-- `AddressSpace::remove_vma`. -/
def removeVma (v : AreaVec) (start : Nat) : AreaVec :=
  { v with areas := ((Vmas.removeVma v.areas start).map Prod.snd).getD v.areas }

/-- Insert the piece of an area that a hole leaves, if there is one. -/
def keepPiece (v : AreaVec) (s : σ) (vma : VMA) (start stop : Nat) :
    Except Halt (Except String Unit × AreaVec × σ) :=
  if start < stop then v.addVma H s { vma with start, stop } else return (.ok (), v, s)

end AreaVec

/-! ## The sections -/

/-- What the work on pages inside a section comes to. It takes frames and tables, never memory of the
heap, and may stop the section at any place. -/
structure PageWork where
  /-- `fork`: copy the pages of an area. -/
  copy : VMA → Except Stop Unit
  /-- The loader: fill the pages of a segment. -/
  fill : Elf.Phdr → Except Stop (Except String Unit)
  /-- `punch_hole`: release the pages of a range. -/
  unmap : Nat → Nat → Except Stop Unit
  /-- `execve`: map the pages of the stack. -/
  stack : Except Stop Unit

namespace Guarded

variable {σ : Type} (H : GlobalAlloc σ) (p : Profile) (work : PageWork)

/-- The copy loop of `Process::fork`, over the areas of the parent. -/
def forkAreas : List VMA → AreaVec → σ → Except Halt (AreaVec × σ)
  | [], child, s => .ok (child, s)
  | vma :: rest, child, s => do
    let (r, child, s) ← child.addVma H s vma
    match r with
    | .error _ => return (child, s)
    | .ok () => do
      Halt.lift (work.copy vma)
      forkAreas rest child s

/-- One `PT_LOAD` header. -/
def loadSegment (data : List UInt8) (ph : Elf.Phdr) (v : AreaVec) (s : σ) :
    Except Halt (Except String Unit × AreaVec × σ) := do
  if 2 ^ 64 ≤ ph.offset + ph.filesz then return (.error "ELF: p_filesz overflow", v, s)
  if data.length < ph.offset + ph.filesz then
    return (.error "ELF: PT_LOAD file data out of bounds", v, s)
  let (mapStart, mapEnd, _) ← Halt.lift (Elf.segmentRange p ph)
  let (r, v, s) ← v.addVma H s ⟨mapStart, mapEnd, Elf.pflagsToVma ph.flags, .anonymous⟩
  match r with
  | .error _ => return (.error "ELF: add_vma failed", v, s)
  | .ok () => do
    let r ← Halt.lift (work.fill ph)
    return (r, v, s)

def loadHeaders (data : List UInt8) : Nat → Nat → AreaVec → σ →
    Except Halt (Except String Unit × AreaVec × σ)
  | 0, _, v, s => .ok (.ok (), v, s)
  | n + 1, i, v, s => do
    if !(Elf.header data i).isLoad then loadHeaders data n (i + 1) v s
    else do
      let (r, v, s) ← loadSegment H p work data (Elf.header data i) v s
      match r with
      | .error e => return (.error e, v, s)
      | .ok () => loadHeaders data n (i + 1) v s

/-- `ElfLoader::load`. -/
def load (data : List UInt8) (v : AreaVec) (s : σ) : Except Halt (Except String Unit × AreaVec × σ) :=
  match Elf.validate data with
  | .error e => return (.error e, v, s)
  | .ok () => loadHeaders H p work data (Elf.ePhnum data) 0 v s

/-- `syscall_execve` from `clear_user` on, which keeps the buffer of the vector, to the area of the
stack. -/
def execve (data : List UInt8) (v : AreaVec) (s : σ) : Except Halt (AreaVec × σ) := do
  let (r, v, s) ← load H p work data { v with areas := [] } s
  match r with
  | .error _ => return (v, s)
  | .ok () => do
    Halt.lift work.stack
    let (_, v, s) ← v.addVma H s ⟨USTACK_BASE, USTACK_VIRT + 0x1000, .rw, .stack⟩
    return (v, s)

/-- The areas that `punch_hole` collects before it changes anything. -/
def collect : List VMA → AreaVec → σ → Except Halt (AreaVec × σ)
  | [], found, s => .ok (found, s)
  | vma :: rest, found, s => do
    let (found, s) ← found.push H s vma
    collect rest found s

def punchOne (holeStart holeEnd : Nat) (v : AreaVec) (s : σ) (vma : VMA) :
    Except Halt (Except String Unit × AreaVec × σ) := do
  Halt.lift (work.unmap (max vma.start holeStart) (min vma.stop holeEnd))
  let (r, v, s) ← (v.removeVma vma.start).keepPiece H s vma vma.start holeStart
  match r with
  | .error e => return (.error e, v, s)
  | .ok () => v.keepPiece H s vma holeEnd vma.stop

def punchAll (holeStart holeEnd : Nat) : List VMA → AreaVec → σ →
    Except Halt (Except String Unit × AreaVec × σ)
  | [], v, s => .ok (.ok (), v, s)
  | vma :: rest, v, s => do
    let (r, v, s) ← punchOne H work holeStart holeEnd v s vma
    match r with
    | .error e => return (.error e, v, s)
    | .ok () => punchAll holeStart holeEnd rest v s

/-- `AddressSpace::mmap_fixed`. The list of `punch_hole` has a buffer of its own, which goes back when
the hole is made. -/
def mmapFixed (addr size : Nat) (flags : VMAFlags) (kind : VMAKind) (v : AreaVec) (s : σ) :
    Except Halt (AreaVec × σ) := do
  let (start, stop) ← Halt.lift (Vmas.range p addr size)
  let areas := AddressSpace.overlapping v.areas start stop
  let (found, s) ← collect H areas .new s
  let (r, v, s) ← punchAll H work start stop areas v s
  let s ← found.drop H s
  match r with
  | .error _ => return (v, s)
  | .ok () => do
    let (_, v, s) ← v.addVma H s ⟨start, stop, flags, kind⟩
    return (v, s)

end Guarded

/-- The operations that insert areas under a guard of `ALLOCATOR`. -/
inductive GuardedCall where
  | fork
  | execve (data : List UInt8)
  | mmapFixed (addr size : Nat) (flags : VMAFlags) (kind : VMAKind)
  | startScheduler (data : List UInt8)

/-- A call of the process whose areas are `v`. The child of a `fork` and the first process start with
a vector of their own. -/
def GuardedCall.run {σ : Type} (H : GlobalAlloc σ) (p : Profile) (work : PageWork) (v : AreaVec) (s : σ) :
    GuardedCall → Except Halt (AreaVec × σ)
  | .fork => Guarded.forkAreas H work v.areas .new s
  | .execve data => Guarded.execve H p work data v s
  | .mmapFixed addr size flags kind => Guarded.mmapFixed H p work addr size flags kind v s
  | .startScheduler data => do
    let (_, v, s) ← Guarded.load H p work data .new s
    return (v, s)

end Ferrum
