import Ferrum.Library.Keyed
import Ferrum.Library.Run
import Mathlib

/-!
# The root file system

`Ramfs` keeps its entries in a vector and looks a path up by the first match. A node is shared between
its entry and the handles that `open` gives out, so nodes live apart from the entries, and a handle is
the index of a node. Abstractly the store is a map from paths to nodes.
-/
namespace Ferrum

/-- A string of the source, as its bytes. -/
abbrev Path := List UInt8

inductive FileType where
  | regular
  | directory
  deriving DecidableEq, Repr

structure RamfsNode where
  fileType : FileType
  data : List UInt8
  deriving DecidableEq, Repr

structure Ramfs where
  entries : List (Path × Nat)
  nodes : List RamfsNode
  deriving DecidableEq, Repr

namespace Ramfs

def new : Ramfs := ⟨[], []⟩

/-- The handle of the node at a path; the source calls this `open`. -/
def openPath (fs : Ramfs) (path : Path) : Option Nat := Keyed.get fs.entries path

/-- A new entry at the end of the vector, with a node of its own. -/
def push (fs : Ramfs) (path : Path) (node : RamfsNode) : Ramfs :=
  ⟨fs.entries ++ [(path, fs.nodes.length)], fs.nodes ++ [node]⟩

def create (fs : Ramfs) (path : Path) (fileType : FileType) : Except String Ramfs :=
  if fs.entries.any (·.1 = path) then .error "file already exists"
  else .ok (fs.push path ⟨fileType, []⟩)

/-- The data of an existing node change in place, under every handle. -/
def writeFile (fs : Ramfs) (path : Path) (data : List UInt8) : Except String Ramfs :=
  match fs.entries.find? (·.1 = path) with
  | some entry => .ok { fs with nodes := fs.nodes.modify entry.2 fun node => { node with data } }
  | none => .ok (fs.push path ⟨.regular, data⟩)

def mkdir (fs : Ramfs) (path : Path) : Except String Ramfs :=
  if fs.entries.any (·.1 = path) then .ok fs else .ok (fs.push path ⟨.directory, []⟩)

def unlink (fs : Ramfs) (path : Path) : Except String Ramfs :=
  if fs.entries.any (·.1 = path) then .ok { fs with entries := Keyed.remove fs.entries path }
  else .error "not found"

/-- Nothing is done about an entry that has the new path already. -/
def rename (fs : Ramfs) (old new : Path) : Except String Ramfs :=
  if fs.entries.any (·.1 = old) then .ok { fs with entries := Keyed.rekey fs.entries old new }
  else .error "not found"

inductive Op where
  | create (path : Path) (fileType : FileType)
  | writeFile (path : Path) (data : List UInt8)
  | mkdir (path : Path)
  | unlink (path : Path)
  | rename (old new : Path)
  | openPath (path : Path)

inductive Answer where
  | done (r : Except String Unit)
  | handle (h : Option Nat)

/-- A failed change leaves the store as it was. -/
def change (fs : Ramfs) (r : Except String Ramfs) : Answer × Ramfs :=
  match r with
  | .ok fs' => (.done (.ok ()), fs')
  | .error e => (.done (.error e), fs)

def step (fs : Ramfs) : Op → Answer × Ramfs
  | .create path fileType => fs.change (fs.create path fileType)
  | .writeFile path data => fs.change (fs.writeFile path data)
  | .mkdir path => fs.change (fs.mkdir path)
  | .unlink path => fs.change (fs.unlink path)
  | .rename old new => fs.change (fs.rename old new)
  | .openPath path => (.handle (fs.openPath path), fs)

end Ramfs

/-! ## The map -/

/-- What the store is for: at each path at most one node. -/
structure PathMap where
  nodeAt : Path → Option Nat
  nodes : List RamfsNode

namespace PathMap

def empty : PathMap := ⟨fun _ => none, []⟩

def insert (m : PathMap) (path : Path) (node : RamfsNode) : PathMap :=
  ⟨Function.update m.nodeAt path (some m.nodes.length), m.nodes ++ [node]⟩

/-- The node moves from one path to the other, whatever was there. -/
def move (m : PathMap) (old new : Path) (h : Nat) : PathMap :=
  { m with nodeAt := Function.update (Function.update m.nodeAt old none) new (some h) }

def step (m : PathMap) : Ramfs.Op → Ramfs.Answer × PathMap
  | .create path fileType =>
    match m.nodeAt path with
    | some _ => (.done (.error "file already exists"), m)
    | none => (.done (.ok ()), m.insert path ⟨fileType, []⟩)
  | .writeFile path data =>
    match m.nodeAt path with
    | some h => (.done (.ok ()), { m with nodes := m.nodes.modify h fun node => { node with data } })
    | none => (.done (.ok ()), m.insert path ⟨.regular, data⟩)
  | .mkdir path =>
    match m.nodeAt path with
    | some _ => (.done (.ok ()), m)
    | none => (.done (.ok ()), m.insert path ⟨.directory, []⟩)
  | .unlink path =>
    match m.nodeAt path with
    | some _ => (.done (.ok ()), { m with nodeAt := Function.update m.nodeAt path none })
    | none => (.done (.error "not found"), m)
  | .rename old new =>
    match m.nodeAt old with
    | some h => (.done (.ok ()), m.move old new h)
    | none => (.done (.error "not found"), m)
  | .openPath path => (.handle (m.nodeAt path), m)

end PathMap

namespace Ramfs

variable {fs fs' : Ramfs} {m : PathMap} {op : Op} {path old new : Path} {node : RamfsNode} {h : Nat}

/-- No path occurs twice, and a path opens the node that the map has there. -/
structure Refines (fs : Ramfs) (m : PathMap) : Prop where
  distinct : Keyed.Distinct fs.entries
  same : ∀ path, fs.openPath path = m.nodeAt path
  nodes : fs.nodes = m.nodes

theorem any_entries (fs : Ramfs) (path : Path) :
    fs.entries.any (·.1 = path) = (fs.openPath path).isSome := by
  rw [openPath, Keyed.get, Option.isSome_map, List.isSome_find?]

theorem find_entries (fs : Ramfs) (path : Path) :
    (fs.entries.find? (·.1 = path)).map Prod.snd = fs.openPath path := rfl

theorem openPath_push (fresh : fs.openPath path = none) :
    (fs.push path node).openPath = Function.update fs.openPath path (some fs.nodes.length) := by
  funext p
  rw [openPath, push, Keyed.get_append, Function.update_apply]
  by_cases same : path = p
  · subst same
    simp [fresh, ← openPath.eq_def]
  · simp [same, Ne.symm same, ← openPath.eq_def]

theorem Refines.push (r : Refines fs m) (fresh : m.nodeAt path = none) :
    Refines (fs.push path node) (m.insert path node) := by
  have fresh' : fs.openPath path = none := (r.same path).trans fresh
  have same : fs.openPath = m.nodeAt := funext r.same
  refine ⟨r.distinct.append fresh', fun p => ?_, ?_⟩
  · rw [openPath_push fresh', PathMap.insert, same, r.nodes]
  · simp only [Ramfs.push, PathMap.insert, r.nodes]

theorem Refines.modify (r : Refines fs m) (f : RamfsNode → RamfsNode) :
    Refines { fs with nodes := fs.nodes.modify h f } { m with nodes := m.nodes.modify h f } :=
  ⟨r.distinct, r.same, congrArg (·.modify h f) r.nodes⟩

theorem Refines.unlink (r : Refines fs m) (path : Path) : Refines { fs with entries := Keyed.remove fs.entries path }
    { m with nodeAt := Function.update m.nodeAt path none } := by
  refine ⟨r.distinct.remove, fun p => ?_, r.nodes⟩
  rw [openPath, r.distinct.get_remove]
  simp only [Function.update_apply, ← r.same, openPath]

theorem Refines.rename (r : Refines fs m) (found : fs.openPath old = some h)
    (free : new = old ∨ fs.openPath new = none) :
    Refines { fs with entries := Keyed.rekey fs.entries old new } (m.move old new h) := by
  refine ⟨r.distinct.rekey free, fun p => ?_, r.nodes⟩
  rw [openPath, r.distinct.get_rekey found free]
  simp only [PathMap.move, Function.update_apply, ← r.same, openPath]

/-- A rename does not meet an existing entry. -/
def Fits (fs : Ramfs) : Op → Prop
  | .rename old new => new = old ∨ fs.openPath new = none ∨ fs.openPath old = none
  | _ => True

/-- One operation gives the same answer in both, and they stay related. -/
theorem Refines.step (r : Refines fs m) (fits : fs.Fits op) :
    (fs.step op).1 = (m.step op).1 ∧ Refines (fs.step op).2 (m.step op).2 := by
  cases op with
  | create path fileType =>
    simp only [Ramfs.step, Ramfs.create, PathMap.step, any_entries, r.same]
    cases at_ : m.nodeAt path with
    | none => exact ⟨rfl, r.push at_⟩
    | some h => exact ⟨rfl, r⟩
  | writeFile path data =>
    have entry := find_entries fs path
    rw [r.same] at entry
    simp only [Ramfs.step, Ramfs.writeFile, PathMap.step]
    cases at_ : m.nodeAt path with
    | none =>
      rw [at_, Option.map_eq_none_iff] at entry
      rw [entry]
      exact ⟨rfl, r.push at_⟩
    | some h =>
      rw [at_, Option.map_eq_some_iff] at entry
      obtain ⟨e, found, rfl⟩ := entry
      rw [found]
      exact ⟨rfl, r.modify _⟩
  | mkdir path =>
    simp only [Ramfs.step, Ramfs.mkdir, PathMap.step, any_entries, r.same]
    cases at_ : m.nodeAt path with
    | none => exact ⟨rfl, r.push at_⟩
    | some h => exact ⟨rfl, r⟩
  | unlink path =>
    simp only [Ramfs.step, Ramfs.unlink, PathMap.step, any_entries, r.same]
    cases m.nodeAt path with
    | none => exact ⟨rfl, r⟩
    | some h => exact ⟨rfl, r.unlink path⟩
  | rename old new =>
    simp only [Ramfs.step, Ramfs.rename, PathMap.step, any_entries, r.same]
    cases at_ : m.nodeAt old with
    | none => exact ⟨rfl, r⟩
    | some h =>
      have found : fs.openPath old = some h := (r.same old).trans at_
      refine ⟨rfl, r.rename found ?_⟩
      simpa [Fits, found] using fits
  | openPath path => exact ⟨congrArg Answer.handle (r.same path), r⟩

/-! ## Runs -/

/-- Both start empty. -/
def Empty (s : Ramfs × PathMap) : Prop := s = (Ramfs.new, PathMap.empty)

/-- Both do the same operation. -/
def Together (s s' : Ramfs × PathMap) : Prop :=
  ∃ op, s.1.Fits op ∧ s' = ((s.1.step op).2, (s.2.step op).2)

theorem refines_of_reachable (run : Reachable Empty Together (fs, m)) : Refines fs m := by
  refine run.invariant (P := fun s => Refines s.1 s.2) ?_ ?_
  · rintro s rfl
    exact ⟨.nil, fun _ => rfl, rfl⟩
  · rintro s s' r ⟨op, fits, rfl⟩
    exact (r.step fits).2

theorem Refines.after_rename (r : Refines fs m) (other : old ≠ new) (free : fs.openPath new = none)
    (ok : fs.rename old new = .ok fs') :
    (fs.openPath old).isSome ∧ fs'.openPath new = fs.openPath old ∧ fs'.openPath old = none ∧
      (∀ p, p ≠ old → p ≠ new → fs'.openPath p = fs.openPath p) ∧
      ∃ fs'', fs'.unlink new = .ok fs'' ∧ fs''.openPath new = none := by
  rw [Ramfs.rename, any_entries] at ok
  cases found : fs.openPath old with
  | none => simp [found] at ok
  | some h =>
    obtain rfl : { fs with entries := Keyed.rekey fs.entries old new } = fs' := by
      simpa [found] using ok
    have moved := r.rename found (.inr free)
    have at_ : Ramfs.openPath { fs with entries := Keyed.rekey fs.entries old new } new = some h := by
      simp [moved.same, PathMap.move]
    refine ⟨rfl, at_, ?_, fun p notOld notNew => ?_, _, ?_, ((moved.unlink new).same new).trans ?_⟩
    · simp [moved.same, PathMap.move, other]
    · simp [moved.same, PathMap.move, notOld, notNew, r.same]
    · rw [Ramfs.unlink, any_entries, at_]
      rfl
    · simp

/-- As long as no rename meets an existing entry, the file system is the map from paths to nodes. -/
theorem ramfs_refines_map (run : Reachable Empty Together (fs, m)) :
    (fs.entries.map Prod.fst).Nodup ∧ (∀ path, fs.openPath path = m.nodeAt path) ∧ fs.nodes = m.nodes ∧
    (∀ op, fs.Fits op → (fs.step op).1 = (m.step op).1) ∧
    ∀ old new fs', old ≠ new → fs.openPath new = none → fs.rename old new = .ok fs' →
      (fs.openPath old).isSome ∧ fs'.openPath new = fs.openPath old ∧ fs'.openPath old = none ∧
        (∀ p, p ≠ old → p ≠ new → fs'.openPath p = fs.openPath p) ∧
        ∃ fs'', fs'.unlink new = .ok fs'' ∧ fs''.openPath new = none := by
  have r := refines_of_reachable run
  exact ⟨r.distinct, r.same, r.nodes, fun op fits => (r.step fits).1,
    fun old new fs' other free ok => r.after_rename other free ok⟩

/-- A file that moves to a free path. -/
theorem ramfs_refines_map_moved : ∃ m, Reachable Empty Together (⟨[([2], 0)], [⟨.regular, [7]⟩]⟩, m) ∧
    m.nodeAt [2] = some 0 := by
  let s₁ : Ramfs × PathMap :=
    ((Ramfs.new.step (.writeFile [1] [7])).2, (PathMap.empty.step (.writeFile [1] [7])).2)
  have run₀ : Reachable Empty Together (Ramfs.new, PathMap.empty) := .start rfl
  have run₁ : Reachable Empty Together s₁ := run₀.next ⟨.writeFile [1] [7], trivial, rfl⟩
  have run₂ : Reachable Empty Together
      ((s₁.1.step (.rename [1] [2])).2, (s₁.2.step (.rename [1] [2])).2) :=
    run₁.next ⟨.rename [1] [2], .inr (.inl rfl), rfl⟩
  exact ⟨_, run₂, ((ramfs_refines_map run₂).2.1 [2]).symm⟩

/-- After a rename onto an existing file there are two entries, and the other one comes back when the
first is removed. -/
theorem rename_makes_twins :
    ∃ fs fs', Ramfs.new.create [1] .regular = .ok ⟨[([1], 0)], [⟨.regular, []⟩]⟩ ∧
      Ramfs.create ⟨[([1], 0)], [⟨.regular, []⟩]⟩ [2] .directory = .ok fs ∧
      fs.rename [1] [2] = .ok fs' ∧ ¬ (fs'.entries.map Prod.fst).Nodup ∧
      ∃ fs'', fs'.unlink [2] = .ok fs'' ∧ fs''.openPath [2] = some 1 :=
  ⟨⟨[([1], 0), ([2], 1)], [⟨.regular, []⟩, ⟨.directory, []⟩]⟩,
    ⟨[([2], 0), ([2], 1)], [⟨.regular, []⟩, ⟨.directory, []⟩]⟩, by decide, by decide, by decide, by decide,
    ⟨[([2], 1)], [⟨.regular, []⟩, ⟨.directory, []⟩]⟩, by decide, by decide⟩

end Ramfs
end Ferrum
