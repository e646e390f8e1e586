import Ferrum.Library.Slots
import Ferrum.Machine.Basic

/-!
# Descriptors, open files and pipes

The reference-counted objects of the source live in a store and are named by their index in it: a
descriptor slot holds the number of an open file, an open file the number of its pipe or of its node.
Objects are never removed from the store, so a number stays with its object. The end counts of a pipe
are plain numbers: each unit stands for a descriptor slot, so they stay far below `2 ^ 64`.
-/
namespace Ferrum

def FD_MAX : Nat := 16

inductive FdKind where
  | serial
  | file
  | devNull
  | devZero
  | directory
  | pipe
  deriving DecidableEq, Repr

structure OpenFile where
  kind : FdKind
  readable : Bool
  writable : Bool
  append : Bool
  node : Option Nat
  pipe : Option Nat
  offset : Nat
  deriving DecidableEq, Repr

namespace OpenFile

def pipeRead (pipe : Nat) : OpenFile := ⟨.pipe, true, false, false, none, some pipe, 0⟩
def pipeWrite (pipe : Nat) : OpenFile := ⟨.pipe, false, true, false, none, some pipe, 0⟩
def stdin : OpenFile := ⟨.serial, true, true, false, none, none, 0⟩
def stdout : OpenFile := ⟨.serial, true, true, false, none, none, 0⟩
def file (node : Nat) (readable writable append : Bool) : OpenFile :=
  ⟨.file, readable, writable, append, some node, none, 0⟩
def device (kind : FdKind) : OpenFile := ⟨kind, true, true, false, none, none, 0⟩

end OpenFile

structure PipeInner where
  buf : List UInt8
  writeEnds : Nat
  readEnds : Nat
  deriving DecidableEq, Repr

def PipeInner.new : PipeInner := ⟨[], 1, 1⟩

/-- The contents behind a `VfsNode`; the nodes of procfs refuse writes. -/
structure Node where
  data : List UInt8
  readOnly : Bool
  deriving DecidableEq, Repr

namespace Node

def read (node : Node) (offset count : Nat) : List UInt8 := (node.data.drop offset).take count

def write (p : Profile) (node : Node) (offset : Nat) (bytes : List UInt8) :
    Except Stop (Except String Node) := do
  if node.readOnly then return .error "procfs is read-only"
  let stop ← p.add offset bytes.length
  let data := node.data ++ List.replicate (stop - node.data.length) 0
  -- a wrapped end makes the slice run backwards
  if stop < offset then .error .indexOutOfBounds
  return .ok { node with data := data.take offset ++ bytes ++ data.drop stop }

end Node

structure Store where
  files : List OpenFile
  pipes : List PipeInner
  nodes : List Node
  deriving DecidableEq, Repr

namespace Store

def file (st : Store) (f : Nat) : OpenFile := st.files.getD f .stdin
def pipe (st : Store) (q : Nat) : PipeInner := st.pipes.getD q .new

def newFile (st : Store) (file : OpenFile) : Store := { st with files := st.files ++ [file] }

/-- `desc.offset += n`. -/
def advance (st : Store) (f n : Nat) : Store :=
  { st with files := st.files.set f { st.file f with offset := (st.file f).offset + n } }

def setPipe (st : Store) (q : Nat) (inner : PipeInner) : Store :=
  { st with pipes := st.pipes.set q inner }

/-- `new_pipe`: both ends of the result are the same pipe. -/
def newPipe (st : Store) : Nat × Store := (st.pipes.length, { st with pipes := st.pipes ++ [.new] })

/-- Change the end counts of the pipe behind an open file, if there is one. -/
def countEnds (st : Store) (change : Nat → Nat) (f : Nat) : Store :=
  let desc := st.file f
  match desc.pipe with
  | none => st
  | some q =>
    let inner := st.pipe q
    st.setPipe q { inner with
      writeEnds := if desc.writable then change inner.writeEnds else inner.writeEnds
      readEnds := if desc.readable then change inner.readEnds else inner.readEnds }

/-- The block that `fork_clone`, `alloc_entry` and `put` have in common. -/
def addEnds (st : Store) (f : Nat) : Store := st.countEnds (· + 1) f

/-- The block of `close`, with its saturating subtractions. -/
def dropEnds (st : Store) (f : Nat) : Store := st.countEnds (· - 1) f

end Store

/-- The sixteen descriptor slots of a process. -/
structure FdTable where
  entries : List (Option Nat)
  size : entries.length = FD_MAX
  deriving DecidableEq, Repr

namespace FdTable

def get (t : FdTable) (fd : Nat) : Option Nat := Slots.get t.entries fd

def set (t : FdTable) (fd : Nat) (entry : Option Nat) : FdTable :=
  ⟨t.entries.set fd entry, by rw [List.length_set, t.size]⟩

def empty : FdTable := ⟨List.replicate FD_MAX none, List.length_replicate⟩

/-- `new_stdio`: three open files of its own. -/
def newStdio (st : Store) : FdTable × Store :=
  let n := st.files.length
  ((((empty.set 0 (some n)).set 1 (some (n + 1))).set 2 (some (n + 2))),
    { st with files := st.files ++ [.stdin, .stdout, .stdout] })

/-- The file is dropped if no slot is free. -/
def alloc (t : FdTable) (st : Store) (file : OpenFile) : Option Nat × FdTable × Store :=
  match Slots.firstFree t.entries with
  | some fd => (some fd, t.set fd (some st.files.length), st.newFile file)
  | none => (none, t, st)

def close (t : FdTable) (st : Store) (fd : Nat) : Bool × FdTable × Store :=
  match t.get fd with
  | some f => (true, t.set fd none, st.dropEnds f)
  | none => (false, t, st)

/-- The loop `for fd in 0..FD_MAX` with which a process ends. -/
def closeAll (t : FdTable) (st : Store) : FdTable × Store :=
  (List.range FD_MAX).foldl (fun (t, st) fd => (t.close st fd).2) (t, st)

/-- The table part of `pipe`: the two new descriptors. If the second does not fit, the first is
closed again. -/
def openPipe (t : FdTable) (st : Store) : Option (Nat × Nat) × FdTable × Store :=
  let (q, st) := st.newPipe
  match t.alloc st (.pipeRead q) with
  | (none, t, st) => (none, t, st)
  | (some rfd, t, st) =>
    match t.alloc st (.pipeWrite q) with
    | (none, t, st) => (none, (t.close st rfd).2)
    | (some wfd, t, st) => (some (rfd, wfd), t, st)

def forkClone (t : FdTable) (st : Store) : FdTable × Store :=
  (t, t.entries.reduceOption.foldl Store.addEnds st)

def allocEntry (t : FdTable) (st : Store) (f : Nat) : Option Nat × FdTable × Store :=
  match Slots.firstFree t.entries with
  | some fd => (some fd, t.set fd (some f), st.addEnds f)
  | none => (none, t, st)

/-- Unlike `alloc_entry`, this leaves the end counts of a pipe as they are. -/
def allocFrom (t : FdTable) (f minfd : Nat) : Option Nat × FdTable :=
  match Slots.firstFree (t.entries.drop minfd) with
  | some i => (some (minfd + i), t.set (minfd + i) (some f))
  | none => (none, t)

def put (t : FdTable) (st : Store) (fd f : Nat) : FdTable × Store :=
  if fd < FD_MAX then (t.set fd (some f), st.addEnds f) else (t, st)

end FdTable
end Ferrum
