import Ferrum.Fd.Model

/-!
# Processes and the scheduler

The process table and everything that reads or writes the scheduling state of its entries: the
scheduler proper, and the scheduling parts of `fork`, `exit`, `tgkill`, the fatal page fault and
`wait4`. What a process has besides (its address space and the like) is a parameter.

One processor runs the kernel, and a system call runs with interrupts off until it returns or calls
`schedule`, so each function here is one transition.
-/
namespace Ferrum

inductive ProcessState where
  | ready
  | running
  | waiting
  | blocked
  | dead
  deriving DecidableEq, Repr

/-- Where a process goes on when it is switched to: in user code, inside the loop of the system call
that gave up the processor, or in the `hlt` loop after its end. This stands for the saved registers and
the kernel stack. -/
inductive Context where
  | user
  | wait4 (target : Int) (statusPtr options : Nat)
  | pipeRead (pipe count : Nat)
  | halted
  deriving DecidableEq, Repr

/-- The last two fields name a process for good, as pids do not: a number that is never given twice,
and the number of the process that forked it. Only statements read them. -/
structure Process (ρ : Type) where
  pid : Nat
  parentPid : Nat
  state : ProcessState
  exitCode : Int
  context : Context
  fdTable : FdTable
  image : ρ
  serial : Nat
  forkedBy : Nat
  deriving DecidableEq, Repr

/-- `idle` says that the boot context has been switched back to, which is final; `births` is the
next serial number. -/
structure Scheduler (ρ : Type) where
  processes : List (Option (Process ρ))
  currentIdx : Nat
  initialized : Bool
  idle : Bool
  births : Nat
  deriving DecidableEq, Repr

namespace Scheduler

variable {ρ : Type}

/-- The process in a slot of the table. -/
def slot (s : Scheduler ρ) (i : Nat) : Option (Process ρ) := Slots.get s.processes i

def update (s : Scheduler ρ) (i : Nat) (f : Process ρ → Process ρ) : Scheduler ρ :=
  { s with processes := Slots.update s.processes i f }

/-- `current_mut`: the process on whose behalf the kernel runs. -/
def current (s : Scheduler ρ) : Option (Process ρ) :=
  if s.initialized then s.slot s.currentIdx else none

/-- The first slot whose process satisfies a test. -/
def find (s : Scheduler ρ) (test : Process ρ → Bool) : Option Nat :=
  s.processes.findIdx? fun slot => slot.any test

def addProcess (s : Scheduler ρ) (process : Process ρ) : Scheduler ρ :=
  { s with processes := Slots.insert s.processes process }

/-- The greatest pid in the table, `0` if it is empty. -/
def maxPid (s : Scheduler ρ) : Nat :=
  (s.processes.map fun slot => slot.elim 0 Process.pid).foldr max 0

def allocPid (p : Profile) (s : Scheduler ρ) : Except Stop Nat := p.add s.maxPid 1

def isReady (slot : Option (Process ρ)) : Bool := slot.any (·.state = .ready)

/-- The slots in the order in which `next_process` looks at them. -/
def rotation (s : Scheduler ρ) : List Nat :=
  let len := s.processes.length
  let start := if s.initialized then (s.currentIdx + 1) % len else 0
  (List.range len).map fun i => (start + i) % len

def nextProcess (s : Scheduler ρ) : Option Nat := s.rotation.find? fun i => isReady (s.slot i)

/-- A running process that loses the processor is ready again. -/
def preempt (process : Process ρ) : Process ρ :=
  if process.state = .running then { process with state := .ready } else process

/-- The current process gives back the processor. -/
def putBack (s : Scheduler ρ) : Scheduler ρ :=
  if s.initialized then s.update s.currentIdx preempt else s

def switchTo (s : Scheduler ρ) (idx : Nat) : Scheduler ρ :=
  { s.update idx fun process => { process with state := .running } with
    currentIdx := idx, initialized := true }

/-- `schedule`. Whether some process is ready is asked before the current one is put back. Without a
ready process the caller goes on, unless it is dead: then the boot context takes over. -/
def schedule (s : Scheduler ρ) : Scheduler ρ :=
  let hasReady := s.processes.any isReady
  let s := s.putBack
  let isCurrentDead := s.current.any (·.state = .dead)
  if !hasReady then
    if isCurrentDead then { s with idle := true } else s
  else
    match s.nextProcess with
    | some idx => s.switchTo idx
    | none => s

/-- The scheduler's part of `fork`: a child with the parent's context, ready to return to user code. -/
def adopt (s : Scheduler ρ) (parent : Process ρ) (pid : Nat) (fdTable : FdTable) (image : ρ) :
    Scheduler ρ :=
  { s.addProcess ⟨pid, parent.pid, .ready, 0, .user, fdTable, image, s.births, parent.serial⟩ with
    births := s.births + 1 }

/-- Wake the first waiting process with this pid. -/
def wake (s : Scheduler ρ) (pid : Nat) : Scheduler ρ :=
  match s.find fun process => process.pid = pid && process.state = .waiting with
  | some i => s.update i fun process => { process with state := .ready }
  | none => s

/-- `p.pid as i64`. -/
def pidI64 (pid : Nat) : Int := if pid < 2 ^ 63 then pid else (pid : Int) - 2 ^ 64

/-- Does `wait4` by this caller with this target concern the process? -/
def awaited (caller : Nat) (target : Int) (process : Process ρ) : Bool :=
  process.parentPid = caller && (target ≤ 0 || pidI64 process.pid = target)

/-- The ways in which one round of the loop of `wait4` can end. -/
inductive Wait (ρ : Type) where
  | reaped (zombie : Process ρ)
  | noChild
  | noHang
  | parked

/-- One round of the loop of `wait4`, for the process in the current slot. -/
def waitRound (s : Scheduler ρ) (caller : Process ρ) (target : Int) (statusPtr options : Nat) :
    Wait ρ × Scheduler ρ :=
  let back := fun s : Scheduler ρ => s.update s.currentIdx fun process =>
    { process with context := .user }
  match s.find fun process => awaited caller.pid target process && process.state = .dead with
  | some i =>
    match s.slot i with
    | some zombie => (.reaped zombie, back { s with processes := s.processes.set i none })
    | none => (.noChild, s)
  | none =>
    if (s.find (awaited caller.pid target)).isNone then (.noChild, back s)
    else if options &&& 1 ≠ 0 then (.noHang, back s)
    else (.parked, (s.update s.currentIdx fun process =>
      { process with state := .waiting, context := .wait4 target statusPtr options }).schedule)

end Scheduler
end Ferrum
