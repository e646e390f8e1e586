import Ferrum.Kernel.Image
import Ferrum.Paging.Refinement
import Ferrum.System.Model

/-!
# The kernel

The system of processes and descriptors together with the machine: physical memory and the frame
pool. Each transition is a system call or a fault of the current process, a store by its user code, or
something that the rest of the kernel does with memory of its own.

The bytes that `read` and its like put into a buffer of the caller are stores of the caller here.
-/
namespace Ferrum

def ENOENT : Nat := 2
def ENOEXEC : Nat := 8

/-- `kernelPml4` and `image` are fixed at boot; `spaces` is the number of the next address space. -/
structure Kernel where
  sys : System Image
  mach : Machine Pool
  kernelPml4 : Nat
  image : ImageRange
  spaces : Nat

namespace Kernel

/-- The image of the current process. -/
def current (k : Kernel) : Option Image := k.sys.sched.current.map Process.image

/-- The current process goes on with a new image. -/
def withImage (k : Kernel) (image : Image) (mach : Machine Pool) : Kernel :=
  { k with
    mach
    sys := { k.sys with sched :=
      k.sys.sched.update k.sys.sched.currentIdx fun process => { process with image } } }

/-- A call on the image of the current process. -/
def onImage (k : Kernel)
    (f : Image → Machine Pool → Except Stop (Answer Image × Image × Machine Pool)) :
    Except Stop (Answer Image × Kernel) :=
  match k.current with
  | none => .ok (.err EPERM, k)
  | some image => do
    let (answer, image, mach) ← f image k.mach
    return (answer, k.withImage image mach)

/-- A value or `-errno`. -/
def answerOr (errno : Nat) : Except String Nat → Answer Image
  | .ok value => .ret value
  | .error _ => .err errno

def mmap (p : Profile) (k : Kernel) (addr len prot flags : Nat) : Except Stop (Answer Image × Kernel) :=
  k.onImage fun image st => do
    let (r, image, st) ← mmapImage p image addr len prot flags st
    return (answerOr ENOMEM r, image, st)

/-- The result of `munmap` is ignored. -/
def munmap (p : Profile) (k : Kernel) (addr len : Nat) : Except Stop (Answer Image × Kernel) :=
  k.onImage fun image st => do
    let (image, st) ← munmapImage p image addr len st
    return (.ret 0, image, st)

def brk (p : Profile) (k : Kernel) (requested : Nat) : Except Stop (Answer Image × Kernel) :=
  k.onImage fun image st => do
    let (r, image) ← brkImage p image requested
    return (.ret r, image, st)

/-- `file` is what the path leads to, if it leads to anything. -/
def execve (p : Profile) (k : Kernel) (file : Option (List UInt8)) (stack : StackImage) :
    Except Stop (Answer Image × Kernel) :=
  match file with
  | none => .ok (.err ENOENT, k)
  | some file => k.onImage fun image st => do
    let (r, image, st) ← execImage p image file stack st
    return (answerOr ENOEXEC (r.map fun _ => 0), image, st)

def fork (p : Profile) (k : Kernel) (frame : List UInt8) : Except Stop (Answer Image × Kernel) := do
  let pid ← k.sys.sched.allocPid p
  match k.current with
  | none => return (.err ENOMEM, k)
  | some parent => do
    let (child, mach) ← forkImage p k.image k.kernelPml4 k.spaces parent pid frame k.mach
    let (answer, sys) := k.sys.adopt pid child
    return (answer, { k with sys, mach, spaces := k.spaces + 1 })

/-- An address in the kernel's half is a fault of the kernel itself. -/
def pageFault (p : Profile) (k : Kernel) (addr : Nat) : Except Stop (Answer Image × Kernel) :=
  if KERNEL_VIRT_BASE ≤ addr then .error (.expect "KERNEL PAGE FAULT")
  else match k.current with
  | none => .error (.expect "AddressSpace not initialized")
  | some image => do
    let (r, mach) ← image.space.handlePageFault p k.mach addr
    match r with
    | .ok () => return (.ret 0, { k with mach })
    | .error _ =>
      let (answer, sys) := k.sys.segfault
      return (answer, { k with sys, mach })

/-- The exit status as `wait4` stores it: an `i32` in little-endian bytes. -/
def statusBytes (exitCode : Int) : List UInt8 := [0, UInt8.ofNat (exitCode % 256).toNat, 0, 0]

def freeKernelStack (p : Profile) (st : Machine Pool) : Option (Nat × Nat) →
    Except Stop (Machine Pool)
  | some (kstack, order) => st.freeBlock p .kernel kstack order
  | none => .ok st

/-- Store the status for the caller, if it asked for it; a page that is not there is ignored. -/
def storeStatus (p : Profile) (st : Machine Pool) (caller : Option Image) (statusPtr : Nat)
    (exitCode : Int) : Except Stop (Machine Pool) :=
  match caller with
  | some image =>
    if statusPtr ≠ 0 then
      Prod.snd <$> writeToUser p st image.space.pml4 statusPtr (statusBytes exitCode)
    else .ok st
  | none => .ok st

/-- What `wait4` does with a zombie that has left the table. -/
def bury (p : Profile) (k : Kernel) (zombie : Process Image) (statusPtr : Nat) :
    Except Stop Kernel := do
  let st ← zombie.image.space.destroy p k.mach
  let st ← freeKernelStack p st zombie.image.kernelStackAlloc
  let st ← storeStatus p st k.current statusPtr zombie.exitCode
  return { k with mach := st }

/-- The rest of a call that may have reaped a child. -/
def settle (p : Profile) (k : Kernel) (statusPtr : Nat) (out : Answer Image × System Image) :
    Except Stop (Answer Image × Kernel) :=
  match out with
  | (.reaped zombie, sys) => do
    let k ← bury p { k with sys } zombie statusPtr
    return (.reaped zombie, k)
  | (answer, sys) => .ok (answer, { k with sys })

def wait4 (p : Profile) (k : Kernel) (target : Int) (statusPtr options : Nat) :
    Except Stop (Answer Image × Kernel) :=
  k.settle p statusPtr (k.sys.wait4 target statusPtr options)

/-- The status pointer of the `wait4` in which the current process was parked. -/
def parkedStatusPtr (k : Kernel) : Nat :=
  match k.sys.sched.current.map Process.context with
  | some (.wait4 _ statusPtr _) => statusPtr
  | _ => 0

def resume (p : Profile) (k : Kernel) : Except Stop (Answer Image × Kernel) :=
  k.settle p k.parkedStatusPtr k.sys.resume

/-! ## Transitions -/

/-- `plain` is a call that works on the process table, descriptors and pipes only. The last three are
the rest of the kernel at work. -/
inductive Call where
  | plain (action : System.Action Image)
  | resume
  | wait4 (target : Int) (statusPtr options : Nat)
  | fork (frame : List UInt8)
  | execve (file : Option (List UInt8)) (stack : StackImage)
  | mmap (addr len prot flags : Nat)
  | munmap (addr len : Nat)
  | brk (requested : Nat)
  | pageFault (addr : Nat)
  | store (addr : Nat) (byte : UInt8)
  | kernelAlloc (order : Nat)
  | kernelFree (addr order : Nat)
  | kernelWrite (mem : Memory)

/-- Calls that have a transition of their own here are not plain. -/
def isPlain : System.Action Image → Bool
  | .resume | .memory _ | .fork _ | .segfault | .wait4 _ _ _ => false
  | _ => true

/-- A store by user code, where the page tables permit one. -/
def store (k : Kernel) (addr : Nat) (byte : UInt8) : Except Stop (Answer Image × Kernel) :=
  match k.current with
  | none => .error .diverges
  | some image => do
    match ← Machine.translate k.mach.mem image.space.pml4 addr with
    | none => .error .diverges
    | some phys =>
      return (.ret 0, { k with mach := { k.mach with mem := k.mach.mem.writeBytes phys [byte] } })

def perform (p : Profile) (k : Kernel) : Call → Except Stop (Answer Image × Kernel)
  | .plain action => do
    let (answer, sys) ← k.sys.perform p action
    return (answer, { k with sys })
  | .resume => k.resume p
  | .wait4 target statusPtr options => k.wait4 p target statusPtr options
  | .fork frame => k.fork p frame
  | .execve file stack => k.execve p file stack
  | .mmap addr len prot flags => k.mmap p addr len prot flags
  | .munmap addr len => k.munmap p addr len
  | .brk requested => k.brk p requested
  | .pageFault addr => k.pageFault p addr
  | .store addr byte => k.store addr byte
  | .kernelAlloc order => do
    let (r, mach) ← k.mach.allocBlock p .kernel order
    return (.ret (r.getD 0), { k with mach })
  | .kernelFree addr order => do
    let mach ← k.mach.freeBlock p .kernel addr order
    return (.ret 0, { k with mach })
  | .kernelWrite mem => .ok (.ret 0, { k with mach := { k.mach with mem } })

/-- The current process is in user code and the system is not idle. -/
def userRuns (k : Kernel) : Prop :=
  k.sys.sched.idle = false ∧ ∃ a, k.sys.sched.current = some a ∧ a.context = .user

/-- Somebody's kernel stack. -/
def IsStack (k : Kernel) (addr order : Nat) : Prop :=
  ∃ i a, k.sys.sched.slot i = some a ∧ a.image.kernelStackAlloc = some (addr, order)

/-- When a transition can happen. The rest of the kernel uses and frees blocks that it holds; kernel
stacks are freed with their process. -/
def Allows (k : Kernel) : Call → Prop
  | .plain action => k.sys.allows action ∧ isPlain action
  | .resume => k.sys.allows .resume
  | .store addr _ => k.userRuns ∧ addr < 2 ^ 47 ∧ ∃ image, k.current = some image ∧
      (effectiveAccess k.mach.mem image.space.pml4 addr).present ∧
      (effectiveAccess k.mach.mem image.space.pml4 addr).user ∧
      (effectiveAccess k.mach.mem image.space.pml4 addr).writable
  | .kernelAlloc _ => True
  | .kernelFree addr order => k.mach.holds .kernel ⟨addr, order⟩ ∧ ¬ k.IsStack addr order
  | .kernelWrite mem => ∀ x, mem x ≠ k.mach.mem x →
      ∃ b, k.mach.holds .kernel b ∧ x ∈ b.cells PAGE_SIZE
  | _ => k.userRuns

def Step (p : Profile) (k : Kernel) (call : Call) (answer : Answer Image) (k' : Kernel) : Prop :=
  k.Allows call ∧ k.perform p call = .ok (answer, k')

end Kernel
end Ferrum
