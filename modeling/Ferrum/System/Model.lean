import Ferrum.Library.Run
import Ferrum.Process.Model

/-!
# Processes and descriptors as one system

The system calls and faults that act on the process table, the descriptor tables and the pipes, and
the transition system they make up. The address space of a process is a parameter: `fork` is given
the image of the child, or the news that none could be built, and the system calls that only work on
the image are one transition that replaces it.
-/
namespace Ferrum

/-- The error numbers that the modelled calls return. -/
def EPERM : Nat := 1
def EIO : Nat := 5
def EBADF : Nat := 9
def ECHILD : Nat := 10
def ENOMEM : Nat := 12
def EISDIR : Nat := 21
def EMFILE : Nat := 24
def EPIPE : Nat := 32

def F_DUPFD : Nat := 0
def F_DUPFD_CLOEXEC : Nat := 1030

/-- What becomes of a system call. The data of a `read` have been stored in the caller's buffer. -/
inductive Answer (ρ : Type) where
  | ret (value : Nat)
  | err (errno : Nat)
  | data (bytes : List UInt8)
  | reaped (zombie : Process ρ)
  | pending
  | ended
  deriving DecidableEq, Repr

/-- The value in `rax`, for the calls that return. -/
def Answer.value {ρ : Type} : Answer ρ → Option Nat
  | .ret v => some v
  | .err errno => some (2 ^ 64 - errno)
  | .data bytes => some bytes.length
  | .reaped zombie => some zombie.pid
  | .pending => none
  | .ended => none

structure System (ρ : Type) where
  sched : Scheduler ρ
  store : Store
  deriving DecidableEq, Repr

namespace System

variable {ρ : Type}

/-- Run a table operation on the current process, if there is one. -/
def onTable {α : Type} (s : System ρ) (f : FdTable → Store → α × FdTable × Store) :
    Option (α × System ρ) :=
  s.sched.current.map fun process =>
    let (a, fdTable, store) := f process.fdTable s.store
    (a, ⟨s.sched.update s.sched.currentIdx fun process => { process with fdTable }, store⟩)

/-- The answer of a table operation that yields a descriptor or fails. -/
def answerFd (r : Option (Except Nat Nat × System ρ)) (s : System ρ) : Answer ρ × System ρ :=
  match r with
  | some (.ok fd, s) => (.ret fd, s)
  | some (.error errno, s) => (.err errno, s)
  | none => (.err EPERM, s)

/-- A full table is `EMFILE`. -/
def orFull : Option Nat → Except Nat Nat
  | some fd => .ok fd
  | none => .error EMFILE

/-! ## Descriptors -/

def close (s : System ρ) (fd : Nat) : Answer ρ × System ρ :=
  answerFd (s.onTable fun t st =>
    let (closed, t, st) := t.close st fd
    (if closed then .ok 0 else .error EBADF, t, st)) s

def dup (s : System ρ) (oldfd : Nat) : Answer ρ × System ρ :=
  answerFd (s.onTable fun t st =>
    match t.get oldfd with
    | none => (.error EBADF, t, st)
    | some f =>
      let (fd, t, st) := t.allocEntry st f
      (orFull fd, t, st)) s

def dup2 (s : System ρ) (oldfd newfd : Nat) : Answer ρ × System ρ :=
  if FD_MAX ≤ newfd then (.err EBADF, s)
  else answerFd (s.onTable fun t st =>
    match t.get oldfd with
    | none => (.error EBADF, t, st)
    | some f =>
      if oldfd = newfd then (.ok newfd, t, st)
      else
        let (_, t, st) := t.close st newfd
        let (t, st) := t.put st newfd f
        (.ok newfd, t, st)) s

def fcntl (s : System ρ) (fd cmd arg : Nat) : Answer ρ × System ρ :=
  if cmd = F_DUPFD ∨ cmd = F_DUPFD_CLOEXEC then
    answerFd (s.onTable fun t st =>
      match t.get fd with
      | none => (.error EBADF, t, st)
      | some f =>
        let (fd, t) := t.allocFrom f arg
        (orFull fd, t, st)) s
  else (.ret 0, s)

/-- `syscall_pipe`, and the descriptors that it stores through the user's pointer. -/
def pipe (s : System ρ) : Answer ρ × Option (Nat × Nat) × System ρ :=
  match s.onTable FdTable.openPipe with
  | none => (.err EPERM, none, s)
  | some (none, s) => (.err EMFILE, none, s)
  | some (some fds, s) => (.ret 0, some fds, s)

/-- What every successful `open` ends with; the file is not a pipe. -/
def «open» (s : System ρ) (file : OpenFile) : Answer ρ × System ρ :=
  answerFd (s.onTable fun t st =>
    let (fd, t, st) := t.alloc st { file with pipe := none }
    (orFull fd, t, st)) s

/-! ## Reading and writing -/

/-- The line editor of a serial `read`: the bytes so far, and the input yet to come. The call is not
over when the input runs out. -/
def serialLine (count : Nat) : List UInt8 → List UInt8 → Option (List UInt8)
  | line, [] => if count ≤ line.length then some line else none
  | line, b :: input =>
    if count ≤ line.length then some line
    else if b = 0x08 ∨ b = 0x7f then serialLine count line.dropLast input
    else
      let mapped := if b = 0x0d then 0x0a else b
      if mapped = 0x0a then some (line ++ [mapped]) else serialLine count (line ++ [mapped]) input

/-- One round of the loop of a pipe `read`, for the process in the current slot. -/
def readRound (s : System ρ) (q count : Nat) : Answer ρ × System ρ :=
  let back := s.sched.update s.sched.currentIdx fun process => { process with context := .user }
  let inner := s.store.pipe q
  if inner.buf ≠ [] then
    (.data (inner.buf.take count),
      ⟨back, s.store.setPipe q { inner with buf := inner.buf.drop count }⟩)
  else if inner.writeEnds = 0 then (.ret 0, ⟨back, s.store⟩)
  else
    (.pending, { s with sched := (s.sched.update s.sched.currentIdx fun process =>
      { process with context := .pipeRead q count }).schedule })

/-- The open file behind a descriptor of the current process. -/
def entry (s : System ρ) (fd : Nat) : Option (Option Nat) :=
  s.sched.current.map fun process => process.fdTable.get fd

/-- A `read` of at least one byte from an open file that may be read. -/
def readFrom (s : System ρ) (f count : Nat) (input : List UInt8) :
    Except Stop (Answer ρ × System ρ) :=
  match (s.store.file f).kind with
  | .serial =>
    match serialLine count [] input with
    | some line => .ok (.data line, s)
    | none => .error .diverges
  | .file =>
    match (s.store.file f).node.bind fun n => s.store.nodes[n]? with
    | none => .error (.expect "File fd must have node")
    | some node =>
      .ok (.data (node.read (s.store.file f).offset count),
        { s with store := s.store.advance f (node.read (s.store.file f).offset count).length })
  | .directory => .ok (.err EISDIR, s)
  | .devNull => .ok (.ret 0, s)
  | .devZero => .ok (.data (List.replicate count 0), s)
  | .pipe =>
    match (s.store.file f).pipe with
    | none => .error (.expect "Pipe fd must have pipe")
    | some q => .ok (s.readRound q count)

def read (s : System ρ) (fd count : Nat) (input : List UInt8) :
    Except Stop (Answer ρ × System ρ) :=
  if count = 0 then .ok (.ret 0, s)
  else match s.entry fd with
  | none => .ok (.err EPERM, s)
  | some none => .ok (.err EBADF, s)
  | some (some f) =>
    if (s.store.file f).kind = .directory then .ok (.err EISDIR, s)
    else if !(s.store.file f).readable then .ok (.err EBADF, s)
    else s.readFrom f count input

/-- One buffer written to an open file: the number of bytes taken, or an error number. `write` moves
the offset of the file even if it appends, `writev` only if it does not. -/
def writeTo (p : Profile) (st : Store) (f : Nat) (bytes : List UInt8) (moveAppend : Bool) :
    Except Stop (Except Nat Nat × Store) :=
  let desc := st.file f
  match desc.kind with
  | .serial => .ok (.ok bytes.length, st)
  | .file =>
    match desc.node.bind fun n => st.nodes[n]?.map (n, ·) with
    | none => .error (.expect "File fd must have node")
    | some (n, node) => do
      let offset := if desc.append then node.data.length else desc.offset
      match ← node.write p offset bytes with
      | .error _ => return (.error EIO, st)
      | .ok node =>
        let st := if desc.append && !moveAppend then st else st.advance f bytes.length
        return (.ok bytes.length, { st with nodes := st.nodes.set n node })
  | .directory => .ok (.error EISDIR, st)
  | .devNull => .ok (.ok bytes.length, st)
  | .devZero => .ok (.ok bytes.length, st)
  | .pipe =>
    match desc.pipe with
    | none => .error (.expect "Pipe fd must have pipe")
    | some q =>
      let inner := st.pipe q
      if inner.readEnds = 0 then .ok (.error EPIPE, st)
      else .ok (.ok bytes.length, st.setPipe q { inner with buf := inner.buf ++ bytes })

def write (p : Profile) (s : System ρ) (fd : Nat) (bytes : List UInt8) :
    Except Stop (Answer ρ × System ρ) :=
  if bytes = [] then .ok (.ret 0, s)
  else match s.entry fd with
  | none => .ok (.err EPERM, s)
  | some none => .ok (.err EBADF, s)
  | some (some f) =>
    if !(s.store.file f).writable then .ok (.err EBADF, s)
    else do
      let (r, store) ← writeTo p s.store f bytes true
      return (match r with
        | .ok n => .ret n
        | .error errno => .err errno, { s with store })

/-- The loop of `writev`: buffers of length zero are skipped, an error ends it. -/
def writeAll (p : Profile) (f : Nat) : List (List UInt8) → Nat → Store →
    Except Stop (Except Nat Nat × Store)
  | [], total, st => .ok (.ok total, st)
  | bytes :: iov, total, st =>
    if bytes = [] then writeAll p f iov total st
    else do
      let (r, st) ← writeTo p st f bytes false
      match r with
      | .error errno => return (.error errno, st)
      | .ok n => writeAll p f iov (total + n) st

def writev (p : Profile) (s : System ρ) (fd : Nat) (iov : List (List UInt8)) :
    Except Stop (Answer ρ × System ρ) :=
  match s.entry fd with
  | none => .ok (.err EPERM, s)
  | some none => .ok (.err EBADF, s)
  | some (some f) =>
    if !(s.store.file f).writable then .ok (.err EBADF, s)
    else do
      let (r, store) ← writeAll p f iov 0 s.store
      return (match r with
        | .ok n => .ret n
        | .error errno => .err errno, { s with store })

/-! ## Processes -/

/-- A process becomes a zombie: its descriptors are closed, its parent is not told. -/
def kill (s : System ρ) (i : Nat) (exitCode : Option Int) : System ρ :=
  match s.sched.slot i with
  | none => s
  | some process =>
    let (fdTable, store) := process.fdTable.closeAll s.store
    ⟨s.sched.update i fun process => { process with
      state := .dead, fdTable, exitCode := exitCode.getD process.exitCode }, store⟩

def reschedule (s : System ρ) : System ρ := { s with sched := s.sched.schedule }

/-- `schedule(); loop { hlt }`. -/
def halt (s : System ρ) : System ρ :=
  { s with sched := s.sched.update s.sched.currentIdx fun process =>
      { process with context := .halted } }.reschedule

/-- `syscall_exit`, the only way to die that wakes the parent. -/
def exit (s : System ρ) (code : Int) : Answer ρ × System ρ :=
  match s.sched.current with
  | none => (.ended, s.halt)
  | some process =>
    let dead := s.kill s.sched.currentIdx (some code)
    (.ended, { dead with sched := dead.sched.wake process.parentPid }.halt)

/-- The handler of `TGKILL`, which ignores the signal. -/
def tgkill (s : System ρ) (tgid : Nat) : Answer ρ × System ρ :=
  let killed := match s.sched.find (·.pid = tgid) with
    | some i => s.kill i none
    | none => s
  if (killed.sched.current.elim 0 Process.pid) = tgid then (.ended, killed.halt)
  else (.ret 0, killed)

/-- The end of `page_fault_inner` when the fault was not resolved. -/
def segfault (s : System ρ) : Answer ρ × System ρ :=
  (.ended, (s.kill s.sched.currentIdx none).halt)

/-- The end of `fork`, once the pid is chosen and the image of the child is built. -/
def adopt (s : System ρ) (pid : Nat) (child : Option ρ) : Answer ρ × System ρ :=
  match s.sched.current, child with
  | some parent, some image =>
    let (fdTable, store) := parent.fdTable.forkClone s.store
    (.ret pid, ⟨s.sched.adopt parent pid fdTable image, store⟩)
  | _, _ => (.err ENOMEM, s)

def fork (p : Profile) (s : System ρ) (child : Option ρ) : Except Stop (Answer ρ × System ρ) := do
  let pid ← s.sched.allocPid p
  return s.adopt pid child

def answerWait : Scheduler.Wait ρ → Answer ρ
  | .reaped zombie => .reaped zombie
  | .noChild => .err ECHILD
  | .noHang => .ret 0
  | .parked => .pending

/-- `wait4`, on entry or when its caller is switched to again. -/
def wait4 (s : System ρ) (target : Int) (statusPtr options : Nat) : Answer ρ × System ρ :=
  match s.sched.current with
  | none => (.err EPERM, s)
  | some caller =>
    let (r, sched) := s.sched.waitRound caller target statusPtr options
    (answerWait r, { s with sched })

/-- Go on with the system call in which the current process gave up the processor. -/
def resume (s : System ρ) : Answer ρ × System ρ :=
  match s.sched.current.map Process.context with
  | some (.wait4 target statusPtr options) => s.wait4 target statusPtr options
  | some (.pipeRead q count) => s.readRound q count
  | _ => (.pending, s)

/-! ## Transitions -/

/-- `timer` is also the first call of the scheduler, and `memory` stands for the calls and faults
that only work on the image of the current process. -/
inductive Action (ρ : Type) where
  | timer
  | resume
  | yield
  | memory (image : ρ)
  | fork (child : Option ρ)
  | exit (code : Int)
  | tgkill (tgid : Nat)
  | segfault
  | wait4 (target : Int) (statusPtr options : Nat)
  | pipe
  | open (file : OpenFile)
  | close (fd : Nat)
  | dup (oldfd : Nat)
  | dup2 (oldfd newfd : Nat)
  | fcntl (fd cmd arg : Nat)
  | read (fd count : Nat) (input : List UInt8)
  | write (fd : Nat) (bytes : List UInt8)
  | writev (fd : Nat) (iov : List (List UInt8))

def perform (p : Profile) (s : System ρ) : Action ρ → Except Stop (Answer ρ × System ρ)
  | .timer => .ok (.ret 0, s.reschedule)
  | .resume => .ok s.resume
  | .yield => .ok (.ret 0, s.reschedule)
  | .memory image => .ok (.ret 0, { s with
      sched := s.sched.update s.sched.currentIdx fun process => { process with image } })
  | .fork child => s.fork p child
  | .exit code => .ok (s.exit code)
  | .tgkill tgid => .ok (s.tgkill tgid)
  | .segfault => .ok s.segfault
  | .wait4 target statusPtr options => .ok (s.wait4 target statusPtr options)
  | .pipe => .ok (s.pipe.1, s.pipe.2.2)
  | .open file => .ok (s.open file)
  | .close fd => .ok (s.close fd)
  | .dup oldfd => .ok (s.dup oldfd)
  | .dup2 oldfd newfd => .ok (s.dup2 oldfd newfd)
  | .fcntl fd cmd arg => .ok (s.fcntl fd cmd arg)
  | .read fd count input => s.read fd count input
  | .write fd bytes => s.write p fd bytes
  | .writev fd iov => s.writev p fd iov

/-- A timer tick can come at any time; a process that gave up the processor inside a call goes on
there, and user code does the rest. -/
def allows (s : System ρ) (action : Action ρ) : Bool :=
  !s.sched.idle && match action with
  | .timer => true
  | .resume => s.sched.current.any (·.context ≠ .user)
  | _ => s.sched.current.any (·.context = .user)

/-- One transition, with what was done and what came of it. -/
def Step (p : Profile) (s : System ρ) (action : Action ρ) (answer : Answer ρ) (s' : System ρ) : Prop :=
  s.allows action ∧ s.perform p action = .ok (answer, s')

/-- Perform a list of actions, each of which must be allowed when its turn comes. -/
def run (p : Profile) (s : System ρ) : List (Action ρ) → Except Stop (System ρ)
  | [] => .ok s
  | action :: rest =>
    if s.allows action then do
      let (_, s) ← s.perform p action
      run p s rest
    else .error .diverges

theorem reachable_run {p : Profile} {init : System ρ → Prop} {step : System ρ → System ρ → Prop}
    {actions : List (Action ρ)}
    (steps : ∀ action ∈ actions, ∀ s answer s', Step p s action answer s' → step s s')
    {s s' : System ρ} (h : Reachable init step s)
    (run : s.run p actions = .ok s') : Reachable init step s' := by
  induction actions generalizing s with
  | nil => exact Except.ok.inj run ▸ h
  | cons action rest ih =>
    rw [System.run] at run
    split at run
    · obtain ⟨⟨answer, next⟩, done, run⟩ := bind_eq_ok.mp run
      exact ih (fun a mem => steps a (List.mem_cons_of_mem _ mem))
        (h.next (steps action List.mem_cons_self _ _ _ ⟨by assumption, done⟩)) run
    · cases run

/-- The system as the first call of the scheduler finds it: the init process alone in the table. -/
structure Initial (s : System ρ) : Prop where
  table : ∃ init : Process ρ, s.sched.processes = [some init] ∧ init.pid = 1 ∧ init.parentPid = 0 ∧
    init.state = .ready ∧ init.context = .user ∧ init.serial < s.sched.births ∧
    (init.fdTable, s.store) = FdTable.newStdio ⟨[], [], s.store.nodes⟩
  initialized : s.sched.initialized = false
  idle : s.sched.idle = false

end System
end Ferrum
