import Ferrum.Elf.Model

/-!
# Process images

What a process owns of the machine: its address space, its kernel stack and the bounds of its heap.
`fork` builds the image of a child, `execve` replaces the one of the caller.

The registers are not modelled. What depends on them is an argument: the saved frame that `fork` puts
on the kernel stack of the child, and the strings and vectors that `execve` puts on the user stack.
-/
namespace Ferrum

structure Image where
  space : AddressSpace
  kernelStackAlloc : Option (Nat × Nat)
  fsBase : Nat
  brkStart : Nat
  brkCurrent : Nat

/-- The frame that holds an address, through the page table. -/
def pageFrame (st : Machine Pool) (pml4 vaddr : Nat) : Except Stop (Option Nat) :=
  Machine.translate st.mem pml4 (alignDown vaddr PAGE_SIZE)

/-- `write_to_user_via_pt`, page by page; a page that is not mapped ends it. The first argument bounds
the number of pages. -/
def writeViaPt (p : Profile) (pml4 : Nat) : Nat → Machine Pool → Nat → List UInt8 →
    Except Stop (Bool × Machine Pool)
  | 0, st, _, _ => .ok (true, st)
  | n + 1, st, vaddr, data =>
    if data = [] then .ok (true, st)
    else do
      match ← pageFrame st pml4 vaddr with
      | none => return (false, st)
      | some phys => do
        let _ ← physToVirt phys
        let off := vaddr % PAGE_SIZE
        let avail := min (PAGE_SIZE - off) data.length
        let st := { st with mem := st.mem.writeBytes (phys + off) (data.take avail) }
        if avail < data.length then do
          let next ← p.add vaddr avail
          writeViaPt p pml4 n st next (data.drop avail)
        else return (true, st)

def writeToUser (p : Profile) (st : Machine Pool) (pml4 vaddr : Nat) (data : List UInt8) :
    Except Stop (Bool × Machine Pool) :=
  writeViaPt p pml4 data.length st vaddr data

/-! ## The kernel image in user tables -/

def PageFlags.kernel : PageFlags := { PageFlags.none with present := true, writable := true }

/-- Where the kernel lies in physical memory. -/
structure ImageRange where
  base : Nat
  size : Nat
  deriving DecidableEq, Repr

def mapIdentity (p : Profile) (space : AddressSpace) (st : Machine Pool) (addr : Nat) :
    Except Stop (Machine Pool) := do
  let (mapped, st) ← st.map (space.pages p) space.pml4 addr addr .kernel
  match mapped with
  | none => .error (.expect "map_kernel_image: map failed")
  | some () => return st

/-- The pages of the kernel image, rounded outwards. -/
def ImageRange.bounds (p : Profile) (image : ImageRange) : Except Stop (Nat × Nat) := do
  let past ← p.add image.base image.size
  let rounded ← p.add past 0xfff
  return (alignDown image.base PAGE_SIZE, alignDown rounded PAGE_SIZE)

def mapKernelImage (p : Profile) (space : AddressSpace) (st : Machine Pool) (image : ImageRange) :
    Except Stop (Machine Pool) := do
  let (start, stop) ← image.bounds p
  forPages p (mapIdentity p space) st start stop

/-! ## fork -/

def KSTACK_ORDER : Nat := 3
def KSTACK_LEN : Nat := 4096 * 8

/-- The `SyscallFrame` and the slot of the trampoline below it. -/
def KSTACK_FRAME : Nat := 128 + 8

/-- Copy one page of the parent, if it is there, into a new frame of the child. -/
def forkPage (p : Profile) (parent child : AddressSpace) (vma : VMA) (st : Machine Pool) (addr : Nat) :
    Except Stop (Machine Pool) := do
  match ← Machine.translate st.mem parent.pml4 addr with
  | none => return st
  | some src => do
    let (frame, st) ← st.allocPage p child.owner
    match frame with
    | none => .error (.expect "fork: OOM during copy")
    | some dst => do
      let pool ← st.pool.track dst ⟨vma.kind.ownerTag, child.ownerPid, 0⟩
      if src = dst then .error (.forkSameFrame dst)
      let _ ← physToVirt src
      let _ ← physToVirt dst
      let st : Machine Pool := ⟨st.mem.copy src dst PAGE_SIZE, pool⟩
      let (mapped, st) ← st.map (child.pages p) child.pml4 addr dst vma.flags.toPageFlags
      match mapped with
      | none => .error (.expect "fork: child_as.page_table.map failed")
      | some () => return st

/-- The loop over the areas of the parent. A refused area ends the call without a child. -/
def forkAreas (p : Profile) (parent : AddressSpace) : List VMA → AddressSpace → Machine Pool →
    Except Stop (Option AddressSpace × Machine Pool)
  | [], child, st => .ok (some child, st)
  | vma :: rest, child, st =>
    match Vmas.addVma child.vmas vma with
    | .error _ => .ok (none, st)
    | .ok vmas => do
      let child := { child with vmas }
      let st ← forPages p (forkPage p parent child vma) st vma.start vma.stop
      forkAreas p parent rest child st

/-- The new kernel stack: zeroed, with the frame to return through at its top. -/
def writeKernelStack (st : Machine Pool) (kstack : Nat) (frame : List UInt8) : Machine Pool :=
  let mem := st.mem.fill kstack KSTACK_LEN 0
  { st with mem := mem.writeBytes (kstack + KSTACK_LEN - KSTACK_FRAME) (frame.take KSTACK_FRAME) }

/-- The address space of a child: new tables, the pages of the parent, the kernel's half and the
kernel image. -/
def forkSpace (p : Profile) (image : ImageRange) (kernelPml4 id : Nat) (parent : AddressSpace)
    (newPid : Nat) (st : Machine Pool) : Except Stop (Option AddressSpace × Machine Pool) := do
  let (root, st) ← st.newUser (poolPages p (.space id)) kernelPml4 newPid
  match root with
  | none => return (none, st)
  | some pml4 => do
    let (child, st) ← forkAreas p parent parent.vmas ⟨pml4, [], newPid, id⟩ st
    match child with
    | none => return (none, st)
    | some child => do
      let _ ← physToVirt parent.pml4
      let _ ← physToVirt child.pml4
      let st := st.copyKernelHalf parent.pml4 child.pml4
      let st ← mapKernelImage p child st image
      return (some child, st)

/-- `Process::fork` without the parts that belong to the scheduler and the descriptors. -/
def forkImage (p : Profile) (image : ImageRange) (kernelPml4 id : Nat) (parent : Image)
    (newPid : Nat) (frame : List UInt8) (st : Machine Pool) :
    Except Stop (Option Image × Machine Pool) := do
  let (kstack, st) ← st.allocBlock p .kernel KSTACK_ORDER
  match kstack with
  | none => return (none, st)
  | some kstack => do
    let pool ← st.pool.track kstack ⟨"proc:stack", newPid, KSTACK_ORDER⟩
    let _ ← physToVirt kstack
    let st := writeKernelStack { st with pool } kstack frame
    let (child, st) ← forkSpace p image kernelPml4 id parent.space newPid st
    match child with
    | none => return (none, st)
    | some space => do
      st.buddy.checkMetadataIntegrity "after_elf_process_registered"
      return (some { parent with space, kernelStackAlloc := some (kstack, KSTACK_ORDER) }, st)

/-! ## execve -/

def USTACK_VIRT : Nat := 0x7fff_0000
def USTACK_PAGES : Nat := 128
def USTACK_BASE : Nat := USTACK_VIRT - USTACK_PAGES * 0x1000
def TCB_PAGE : Nat := 0x7fff_1000
def FS_BASE : Nat := TCB_PAGE + 0x20

def PageFlags.userData : PageFlags :=
  { PageFlags.none with present := true, writable := true, user := true, noExec := true }

/-- A fresh page at an address of the caller. -/
def mapFresh (p : Profile) (space : AddressSpace) (noFrame noMap : String) (st : Machine Pool)
    (addr : Nat) : Except Stop (Machine Pool) := do
  let (frame, st) ← st.allocPage p space.owner
  match frame with
  | none => .error (.expect noFrame)
  | some phys => do
    let (mapped, st) ← st.map (space.pages p) space.pml4 addr phys .userData
    match mapped with
    | none => .error (.expect noMap)
    | some () => return st

/-- The end of the highest area that is not a stack, rounded up. -/
def heapStart (p : Profile) (vmas : List VMA) : Except Stop Nat := do
  let highest := vmas.foldl (fun highest v =>
    if v.kind ≠ .stack ∧ highest < v.stop then v.stop else highest) 0
  let past ← p.add highest 0xfff
  return alignDown past PAGE_SIZE

/-- Insert an area and ignore a refusal. -/
def addVmaOk (space : AddressSpace) (vma : VMA) : AddressSpace :=
  match Vmas.addVma space.vmas vma with
  | .ok vmas => { space with vmas }
  | .error _ => space

/-- The stores of `build_argv_envp_stack`, in order. -/
def buildStack (p : Profile) (space : AddressSpace) (stores : List (Nat × List UInt8))
    (st : Machine Pool) : Except Stop (Machine Pool) :=
  stores.foldlM (fun st (vaddr, data) => do
    let (written, st) ← writeToUser p st space.pml4 vaddr data
    if written then return st else .error (.expect "stack not mapped")) st

/-- The words of the provisional thread control block. -/
def writeTcb (m : Memory) (phys canary : Nat) : Memory :=
  let m := m.fill phys PAGE_SIZE 0
  let at_ := phys + FS_BASE % PAGE_SIZE
  ((m.write64 at_ FS_BASE).write64 (at_ + 0x10) FS_BASE).write64 (at_ + 0x28) canary

/-- The end of `execve`: without a frame there is no control block. -/
def mapTcb (p : Profile) (image : Image) (canary : Nat) (st : Machine Pool) :
    Except Stop (Image × Machine Pool) := do
  let (frame, st) ← st.allocPage p image.space.owner
  match frame with
  | none => return (image, st)
  | some phys => do
    let _ ← physToVirt phys
    let st := { st with mem := writeTcb st.mem phys canary }
    let (mapped, st) ← st.map (image.space.pages p) image.space.pml4 TCB_PAGE phys .userData
    match mapped with
    | none => .error (.expect "tcb map")
    | some () =>
      let space := addVmaOk image.space ⟨TCB_PAGE, TCB_PAGE + 0x1000, .rw, .anonymous⟩
      return ({ image with space, fsBase := FS_BASE }, st)

/-- What the stack of a new program holds. -/
structure StackImage where
  stores : List (Nat × List UInt8)
  canary : Nat

/-- `execve` on the image of the caller, once the file is read. A file that is refused leaves the caller
with what has been loaded of it. -/
def execImage (p : Profile) (image : Image) (file : List UInt8) (stack : StackImage)
    (st : Machine Pool) : Except Stop (Except String Nat × Image × Machine Pool) := do
  let (space, st) ← image.space.clearUser p st
  let (loaded, space, st) ← Elf.load p space st file
  match loaded with
  | .error e => return (.error e, { image with space }, st)
  | .ok entry => do
    let brk ← heapStart p space.vmas
    let st ← (List.range USTACK_PAGES).foldlM (fun st i =>
      mapFresh p space "execve: ustack alloc" "execve: ustack map" st (USTACK_BASE + i * 0x1000)) st
    let space := addVmaOk space ⟨USTACK_BASE, USTACK_VIRT + 0x1000, .rw, .stack⟩
    let st ← buildStack p space stack.stores st
    let image := { image with space, brkStart := brk, brkCurrent := brk }
    let (image, st) ← mapTcb p image stack.canary st
    return (.ok entry, image, st)

/-! ## mmap, munmap and brk -/

def MAP_FIXED : Nat := 0x10

def protToVma (prot : Nat) : VMAFlags where
  read := prot &&& 1 != 0
  write := prot &&& 2 != 0
  exec := prot &&& 4 != 0

def mmapImage (p : Profile) (image : Image) (addr len prot flags : Nat) (st : Machine Pool) :
    Except Stop (Except String Nat × Image × Machine Pool) :=
  if addr ≠ 0 ∧ flags &&& MAP_FIXED ≠ 0 then do
    let (r, space, st) ← image.space.mmapFixed p st addr len (protToVma prot) .anonymous
    return (r, { image with space }, st)
  else do
    let (r, space) ← image.space.mmap p 0 len (protToVma prot) .anonymous
    return (r, { image with space }, st)

def munmapImage (p : Profile) (image : Image) (addr len : Nat) (st : Machine Pool) :
    Except Stop (Image × Machine Pool) := do
  let (_, space, st) ← image.space.munmap p st addr len
  return ({ image with space }, st)

def brkImage (p : Profile) (image : Image) (requested : Nat) : Except Stop (Nat × Image) :=
  if requested = 0 ∨ requested ≤ image.brkCurrent then .ok (image.brkCurrent, image)
  else do
    let past ← p.add requested 0xfff
    let aligned := alignDown past PAGE_SIZE
    let (r, space) ← image.space.extendHeap image.brkStart aligned
    match r with
    | .ok () => return (aligned, { image with space, brkCurrent := aligned })
    | .error _ => return (image.brkCurrent, { image with space })

end Ferrum
