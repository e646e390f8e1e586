import Ferrum.Fs.Tree
import Ferrum.Kernel.Lookups
import Ferrum.Kernel.Sizes
import Ferrum.System.FileStream

/-!
# Names and open files

The entries of the root file system and the open files share their nodes: an entry and a descriptor that
was opened through it stand for the same contents, and each of them can outlive the other. Here the calls
that work on names and those that work on descriptors run in one system.

What `/proc/self/maps` and `/proc/self/status` contain is a parameter. The copies of a path and the
working directory come in as arguments.
-/
namespace Ferrum

def EEXIST : Nat := 17
def O_APPEND : Nat := 0o2000

/-- The root file system over the nodes of the store. -/
structure Files (ρ : Type) where
  entries : List (Path × Nat)
  fileType : Nat → FileType
  sys : System ρ

namespace Files

open Ramfs (O_ACCMODE O_WRONLY O_RDWR O_CREAT O_TRUNC O_DIRECTORY)

variable {ρ : Type}

def nodes (d : Files ρ) : List Node := d.sys.store.nodes

def setNodes (d : Files ρ) (nodes : List Node) : Files ρ :=
  { d with sys := { d.sys with store := { d.sys.store with nodes } } }

/-! ## The methods of `Ramfs` -/

def openPath (d : Files ρ) (path : Path) : Option Nat := Keyed.get d.entries path

def push (d : Files ρ) (path : Path) (fileType : FileType) (data : List UInt8) : Files ρ :=
  { d.setNodes (d.nodes ++ [⟨data, false⟩]) with
    entries := d.entries ++ [(path, d.nodes.length)]
    fileType := Function.update d.fileType d.nodes.length fileType }

/-- The data of an existing node change in place, under every open file. -/
def writeFile (d : Files ρ) (path : Path) (data : List UInt8) : Files ρ :=
  match d.openPath path with
  | some n => d.setNodes (d.nodes.modify n fun node => { node with data })
  | none => d.push path .regular data

/-- The names of the entries directly below, which do not depend on the nodes. -/
def listDir (d : Files ρ) (dir : Path) : List Path := Ramfs.listDir ⟨d.entries, []⟩ dir

/-! ## The calls -/

/-- The devices that `open` knows by their paths. -/
def specialKind (path : Path) : Option FdKind :=
  if path = ascii "/dev/null" then some .devNull
  else if path = ascii "/dev/zero" then some .devZero
  else if path = ascii "/dev/tty" then some .serial
  else none

def writable (flags : Nat) : Bool :=
  decide (flags &&& O_ACCMODE = O_WRONLY) || decide (flags &&& O_ACCMODE = O_RDWR)

/-- A regular file for `open`: created if it is not there and may be, emptied if it is there and shall
be. -/
def prepare (d : Files ρ) (path : Path) (flags : Nat) : Files ρ :=
  match d.openPath path with
  | none => if flags &&& O_CREAT ≠ 0 then d.writeFile path [] else d
  | some _ => if flags &&& O_TRUNC ≠ 0 ∧ writable flags then d.writeFile path [] else d

section Open

variable (proc : System ρ → Path → List UInt8)

/-- The open file for a path, or an error number. -/
def locate (d : Files ρ) (path : Path) (flags : Nat) : Except Nat OpenFile × Files ρ :=
  if flags &&& O_DIRECTORY ≠ 0 ∨ path = ascii "/" then (.ok .directory, d)
  else match specialKind path with
  | some kind => (.ok (.device kind), d)
  | none =>
    if path = ascii "/proc/self/maps" ∨ path = ascii "/proc/self/status" then
      (.ok (.file d.nodes.length true false false), d.setNodes (d.nodes ++ [⟨proc d.sys path, true⟩]))
    else
      let d := d.prepare path flags
      match d.openPath path with
      | none => (.error ENOENT, d)
      | some n => (.ok (.file n (flags &&& O_ACCMODE ≠ O_WRONLY) (writable flags)
          (flags &&& O_APPEND ≠ 0)), d)

def «open» (d : Files ρ) (path : Path) (flags : Nat) : Answer ρ × Files ρ :=
  match d.locate proc path flags with
  | (.error errno, d) => (.err errno, d)
  | (.ok file, d) =>
    let (answer, sys) := d.sys.open file
    (answer, { d with sys })

def mkdir (d : Files ρ) (path : Path) : Answer ρ × Files ρ :=
  if path = ascii "/" ∨ d.listDir path ≠ [] ∨ (d.openPath path).isSome then (.err EEXIST, d)
  else (.ret 0, d.push path .directory [])

def unlink (d : Files ρ) (path : Path) : Answer ρ × Files ρ :=
  if (d.openPath path).isSome then (.ret 0, { d with entries := Keyed.remove d.entries path })
  else (.err ENOENT, d)

def rename (d : Files ρ) (old new : Path) : Answer ρ × Files ρ :=
  if (d.openPath old).isSome then (.ret 0, { d with entries := Keyed.rekey d.entries old new })
  else (.err ENOENT, d)

/-- What a process, or the timer, can do next. -/
inductive Action (ρ : Type) where
  | sys (action : System.Action ρ)
  | lseek (fd rsi rdx : Nat)
  | open (cwd path : Path) (flags : Nat)
  | mkdir (cwd path : Path)
  | unlink (cwd path : Path)
  | rename (cwd old new : Path)

def perform (p : Profile) (d : Files ρ) : Action ρ → Except Stop (Answer ρ × Files ρ)
  | .sys action => do
    let (answer, sys) ← d.sys.perform p action
    return (answer, { d with sys })
  | .lseek fd rsi rdx => do
    let (answer, sys) ← d.sys.lseek p fd rsi rdx
    return (answer, { d with sys })
  | .open cwd path flags => .ok (d.open proc (resolvePath cwd path) flags)
  | .mkdir cwd path => .ok (d.mkdir (resolvePath cwd path))
  | .unlink cwd path => .ok (d.unlink (resolvePath cwd path))
  | .rename cwd old new => .ok (d.rename (resolvePath cwd old) (resolvePath cwd new))

/-- An open file comes from a path here, and from nowhere else. -/
def allows (d : Files ρ) : Action ρ → Prop
  | .sys (.open _) => False
  | .sys action => d.sys.allows action
  | _ => d.sys.allows (.close 0)

def Step (p : Profile) (d : Files ρ) (action : Action ρ) (answer : Answer ρ) (d' : Files ρ) : Prop :=
  d.allows action ∧ d.perform proc p action = .ok (answer, d')

end Open

/-- One transition as an observer sees it. -/
structure Event (ρ : Type) where
  before : Files ρ
  action : Action ρ
  answer : Answer ρ

def Occurs (proc : System ρ → Path → List UInt8) (p : Profile) (d : Files ρ) (e : Event ρ)
    (d' : Files ρ) : Prop := e.before = d ∧ Step proc p d e.action e.answer d'

/-- The bytes that a `read` took through an open file. -/
def Event.taken (e : Event ρ) (f : Nat) : List UInt8 :=
  match e.action with
  | .sys action => System.Event.taken ⟨e.before.sys, action, e.answer⟩ f
  | _ => []

/-- A call that changes a node or moves the offset of an open file, other than by a `read`. -/
def Disturbs (d : Files ρ) (f n : Nat) : Action ρ → Prop
  | .sys action => d.sys.WritesNode n action
  | .lseek fd _ _ => d.sys.entry fd = some (some f)
  | .open cwd path flags => d.openPath (resolvePath cwd path) = some n ∧ flags &&& O_TRUNC ≠ 0 ∧
      writable flags = true
  | _ => False

/-! ## What a call does to the names and the nodes -/

variable {proc : System ρ → Path → List UInt8} {p : Profile} {d d₁ d' : Files ρ} {action : Action ρ}
  {answer : Answer ρ} {f n offset : Nat} {node : Node} {path : Path}

/-- The file system after a call, before a descriptor is given out. -/
inductive Change (d : Files ρ) : Action ρ → Files ρ → Prop
  | none (action : Action ρ) : Change d action d
  | special (cwd path : Path) (flags : Nat) (node : Node) :
      Change d (.open cwd path flags) (d.setNodes (d.nodes ++ [node]))
  | empty {cwd path : Path} {flags n : Nat} (found : d.openPath (resolvePath cwd path) = some n)
      (emptied : flags &&& O_TRUNC ≠ 0 ∧ writable flags = true) : Change d (.open cwd path flags)
        (d.setNodes (d.nodes.modify n fun node => { node with data := [] }))
  | push (action : Action ρ) (path : Path) (fileType : FileType) : Change d action (d.push path fileType [])
  | remove (cwd path : Path) : Change d (.unlink cwd path)
      { d with entries := Keyed.remove d.entries (resolvePath cwd path) }
  | rekey (cwd old new : Path) : Change d (.rename cwd old new)
      { d with entries := Keyed.rekey d.entries (resolvePath cwd old) (resolvePath cwd new) }

theorem change_prepare (d : Files ρ) (cwd path : Path) (flags : Nat) :
    Change d (.open cwd path flags) (d.prepare (resolvePath cwd path) flags) := by
  unfold prepare
  cases found : d.openPath (resolvePath cwd path) with
  | none =>
    simp only [writeFile, found]
    split
    · exact .push _ _ _
    · exact .none _
  | some n =>
    simp only [writeFile, found]
    split
    · rename_i emptied
      exact .empty found emptied
    · exact .none _

theorem change_locate (proc : System ρ → Path → List UInt8) (d : Files ρ) (cwd path : Path) (flags : Nat) :
    Change d (.open cwd path flags) (d.locate proc (resolvePath cwd path) flags).2 := by
  unfold locate
  split
  · exact .none _
  · split
    · exact .none _
    · split
      · exact .special _ _ _ _
      · have prepared := change_prepare d cwd path flags
        simp only
        split <;> exact prepared

/-- The calls that take paths. -/
def Action.Names : Action ρ → Prop
  | .sys _ => False
  | .lseek _ _ _ => False
  | _ => True

/-- All that a transition does to the names, and all that a call on names does. -/
theorem Step.change (step : Step proc p d action answer d') :
    ∃ d₁, Change d action d₁ ∧ d'.entries = d₁.entries ∧
      (action.Names → d'.sys = d₁.sys ∨ ∃ file, d'.sys = (d₁.sys.open file).2) := by
  obtain ⟨-, run⟩ := step
  cases action with
  | sys action =>
    obtain ⟨_, -, out⟩ := bind_eq_ok.mp run
    obtain ⟨-, rfl⟩ := Prod.mk.inj (Except.ok.inj out)
    exact ⟨d, .none _, rfl, False.elim⟩
  | lseek fd rsi rdx =>
    obtain ⟨_, -, out⟩ := bind_eq_ok.mp run
    obtain ⟨-, rfl⟩ := Prod.mk.inj (Except.ok.inj out)
    exact ⟨d, .none _, rfl, False.elim⟩
  | «open» cwd path flags =>
    have located := change_locate proc d cwd path flags
    replace run := Except.ok.inj run
    unfold Files.open at run
    generalize d.locate proc (resolvePath cwd path) flags = r at run located
    obtain ⟨r, d₁⟩ := r
    cases r with
    | error errno =>
      obtain ⟨-, rfl⟩ := Prod.mk.inj run
      exact ⟨_, located, rfl, fun _ => Or.inl rfl⟩
    | ok file =>
      obtain ⟨-, rfl⟩ := Prod.mk.inj run
      exact ⟨d₁, located, rfl, fun _ => Or.inr ⟨file, rfl⟩⟩
  | mkdir cwd path =>
    replace run := Except.ok.inj run
    unfold Files.mkdir at run
    split at run <;> obtain ⟨-, rfl⟩ := Prod.mk.inj run
    · exact ⟨_, .none _, rfl, fun _ => Or.inl rfl⟩
    · exact ⟨_, .push _ _ _, rfl, fun _ => Or.inl rfl⟩
  | unlink cwd path =>
    replace run := Except.ok.inj run
    unfold Files.unlink at run
    split at run <;> obtain ⟨-, rfl⟩ := Prod.mk.inj run
    · exact ⟨_, .remove _ _, rfl, fun _ => Or.inl rfl⟩
    · exact ⟨_, .none _, rfl, fun _ => Or.inl rfl⟩
  | rename cwd old new =>
    replace run := Except.ok.inj run
    unfold Files.rename at run
    split at run <;> obtain ⟨-, rfl⟩ := Prod.mk.inj run
    · exact ⟨_, .rekey _ _ _, rfl, fun _ => Or.inl rfl⟩
    · exact ⟨_, .none _, rfl, fun _ => Or.inl rfl⟩

/-! ## An open file and its node -/

theorem inside_of_reads {st : Store} (h : System.Reads st f n node offset) : n < st.nodes.length :=
  (List.getElem?_eq_some_iff.mp h.there).1

/-- A new file has a node of its own, and another file that is emptied has another one. -/
theorem Change.reads (change : Change d action d₁) (h : System.Reads d.sys.store f n node offset)
    (calm : ¬ d.Disturbs f n action) : System.Reads d₁.sys.store f n node offset := by
  have appended (more : Node) : (d.nodes ++ [more])[n]? = d.nodes[n]? :=
    List.getElem?_append_left (inside_of_reads h)
  cases change with
  | special cwd path flags more => exact h.of_file rfl (appended more)
  | push _ path fileType => exact h.of_file rfl (appended _)
  | @empty cwd path flags m found emptied =>
    have differs : m ≠ n := by
      rintro rfl
      exact calm ⟨found, emptied⟩
    exact h.of_file rfl (List.getElem?_modify_ne _ _ differs)
  | _ => exact h

theorem Change.sched (change : Change d action d₁) : d₁.sys.sched = d.sys.sched := by
  cases change <;> rfl

theorem reads_lseek {s s' : System ρ} {fd rsi rdx : Nat} (h : System.Reads s.store f n node offset)
    (run : s.lseek p fd rsi rdx = .ok (answer, s')) (other : s.entry fd ≠ some (some f)) :
    System.Reads s'.store f n node offset := by
  unfold System.lseek at run
  split at run
  · obtain ⟨-, rfl⟩ := Prod.mk.inj (Except.ok.inj run)
    exact h
  · obtain ⟨-, rfl⟩ := Prod.mk.inj (Except.ok.inj run)
    exact h
  · rename_i g entry
    have apart : g ≠ f := by
      rintro rfl
      exact other entry
    obtain ⟨target, -, run⟩ := bind_eq_ok.mp run
    split at run
    · obtain ⟨-, rfl⟩ := Prod.mk.inj (Except.ok.inj run)
      exact h
    · split at run
      · obtain ⟨-, rfl⟩ := Prod.mk.inj (Except.ok.inj run)
        exact h
      · obtain ⟨-, rfl⟩ := Prod.mk.inj (Except.ok.inj run)
        refine h.of_file ?_ rfl
        simp [Store.file, Store.seek, List.getElem?_set_ne apart]

/-- Whatever a transition takes through the open file comes next in it, and nothing else about the open
file and its node changes. -/
theorem Step.reads_on (step : Step proc p d action answer d') (h : System.Reads d.sys.store f n node offset)
    (calm : ¬ d.Disturbs f n action) :
    System.Reads d'.sys.store f n node (offset + (Event.taken ⟨d, action, answer⟩ f).length) ∧
      Event.taken ⟨d, action, answer⟩ f <+: node.data.drop offset := by
  obtain ⟨d₁, change, -, names⟩ := step.change
  obtain ⟨allowed, run⟩ := step
  -- a call on names changes the store as `Change` says, and may add a descriptor
  have idle (named : action.Names) (ready : d.sys.allows (.close 0)) :
      System.Reads d'.sys.store f n node offset := by
    have reads := change.reads h calm
    rcases names named with same | ⟨file, same⟩
    · rwa [same]
    · have opens : System.Step p d₁.sys (.open file) (d₁.sys.open file).1 (d₁.sys.open file).2 := by
        refine ⟨?_, rfl⟩
        simp only [System.allows] at ready ⊢
        rwa [change.sched]
      rw [same]
      exact reads.unmoved (opens.frame Store.unmoved_frames id)
  cases action with
  | sys action =>
    obtain ⟨⟨answer', sys⟩, done, out⟩ := bind_eq_ok.mp run
    obtain ⟨rfl, rfl⟩ := Prod.mk.inj (Except.ok.inj out)
    have moved : System.Step p d.sys action answer' sys := by
      refine ⟨?_, done⟩
      cases action <;> first | exact allowed | exact absurd allowed id
    exact ⟨(moved.reads_on h calm).1, moved.taken_prefix h calm⟩
  | lseek fd rsi rdx =>
    obtain ⟨⟨answer', sys⟩, done, out⟩ := bind_eq_ok.mp run
    obtain ⟨rfl, rfl⟩ := Prod.mk.inj (Except.ok.inj out)
    exact ⟨reads_lseek h done calm, List.nil_prefix⟩
  | _ => exact ⟨idle trivial allowed, List.nil_prefix⟩

/-- The file of the init process, under the name `/a`. -/
def underA (s : System Unit) : Files Unit := ⟨[(ascii "/a", 0)], fun _ => .regular, s⟩

/-- The name is removed, a new file is created under it, and the old one is read. -/
theorem replaced_run : ∃ (s₀ : System Unit) (d₁ d₂ d₃ : Files Unit),
    (System.bootedWith [1, 2, 0, 7]).run .dev [.timer, .open (.file 0 true false false)] = .ok s₀ ∧
    System.Reads s₀.store 3 0 ⟨[1, 2, 0, 7], false⟩ 0 ∧
    d₁.entries = [] ∧ System.Reads d₁.sys.store 3 0 ⟨[1, 2, 0, 7], false⟩ 0 ∧
    Occurs (fun _ _ => []) .dev (underA s₀) ⟨underA s₀, .unlink (ascii "/") (ascii "a"), .ret 0⟩ d₁ ∧
    Occurs (fun _ _ => []) .dev d₁ ⟨d₁, .open (ascii "/") (ascii "a") 0o1102, .ret 4⟩ d₂ ∧
    Occurs (fun _ _ => []) .dev d₂ ⟨d₂, .sys (.read 3 2 []), .data [1, 2]⟩ d₃ ∧
    d₂.sys.entry 3 = some (some 3) :=
  ⟨_, _, _, _, rfl, ⟨rfl, rfl, rfl, rfl, rfl⟩, by decide +kernel, ⟨rfl, rfl, rfl, rfl, rfl⟩,
    ⟨rfl, rfl, rfl⟩, ⟨rfl, rfl, rfl⟩, ⟨rfl, rfl, rfl⟩, by decide +kernel⟩

theorem reads_run {d₀ : Files ρ} {events : List (Event ρ)}
    (opened : System.Reads d₀.sys.store f n node offset) (trace : Trace (Occurs proc p) d₀ events d)
    (calm : ∀ e ∈ events, ¬ e.before.Disturbs f n e.action) :
    System.Reads d.sys.store f n node (offset + (events.flatMap (Event.taken · f)).length) ∧
      events.flatMap (Event.taken · f) <+: node.data.drop offset := by
  induction trace with
  | nil => exact ⟨opened, List.nil_prefix⟩
  | @snoc events event d d' run last ih =>
    obtain ⟨reads, front⟩ := ih fun e before => calm e (List.mem_append_left _ before)
    obtain ⟨rfl, step⟩ := last
    obtain ⟨reads', next⟩ := step.reads_on reads (calm event (List.mem_append_right _ List.mem_cons_self))
    rw [List.flatMap_append, List.flatMap_singleton, List.length_append, ← Nat.add_assoc]
    refine ⟨reads', ?_⟩
    -- what comes next in the node comes next in what is left of it
    obtain ⟨rest, whole⟩ := front
    rw [← List.drop_drop, ← whole, List.drop_left] at next
    rw [← whole]
    exact (List.prefix_append_right_inj _).mpr next

/-- An open file keeps its node while names come and go: until somebody changes the node or seeks, what
is read through the file is what comes next in it. -/
theorem open_file_keeps_node {d₀ : Files ρ} {events : List (Event ρ)}
    (opened : System.Reads d₀.sys.store f n node offset) (trace : Trace (Occurs proc p) d₀ events d)
    (calm : ∀ e ∈ events, ¬ e.before.Disturbs f n e.action) {fd count : Nat} (positive : count ≠ 0)
    (entry : d.sys.entry fd = some (some f)) (input : List UInt8) :
    ∃ sys bytes, d.sys.read fd count input = .ok (.data bytes, sys) ∧
      events.flatMap (Event.taken · f) ++ bytes =
        (node.data.drop offset).take ((events.flatMap (Event.taken · f)).length + count) := by
  obtain ⟨reads, front⟩ := reads_run opened trace calm
  refine ⟨_, _, reads.read entry positive, ?_⟩
  rw [List.take_add, ← List.prefix_iff_eq_take.mp front, Node.read, List.drop_drop]

theorem replaced_file_keeps_node : ∃ (d₀ d : Files Unit) (events : List (Event Unit)),
    Trace (Occurs (fun _ _ => []) .dev) d₀ events d ∧
    events.map Event.action = [.unlink (ascii "/") (ascii "a"), .open (ascii "/") (ascii "a") 0o1102] ∧
    ∃ sys bytes, d.sys.read 3 2 [] = .ok (.data bytes, sys) ∧
      events.flatMap (Event.taken · 3) ++ bytes =
        [1, 2, 0, 7].take ((events.flatMap (Event.taken · 3)).length + 2) := by
  obtain ⟨s₀, d₁, d₂, -, -, reads, empty, -, unlink, create, -, entry⟩ := replaced_run
  refine ⟨underA s₀, d₂, _, .snoc (.snoc .nil unlink) create, rfl, ?_⟩
  refine open_file_keeps_node reads (.snoc (.snoc .nil unlink) create) ?_ (show 2 ≠ 0 by decide) entry []
  simp only [List.nil_append, List.cons_append, List.forall_mem_cons]
  refine ⟨id, fun emptied => ?_, by simp⟩
  obtain ⟨found, -⟩ := emptied
  simp [Files.openPath, empty] at found

/-! ## Files without a name -/

/-- No entry leads to the node. -/
def Nameless (d : Files ρ) (n : Nat) : Prop := ∀ e ∈ d.entries, e.2 ≠ n

theorem Nameless.openPath (h : d.Nameless n) (path : Path) : d.openPath path ≠ some n := by
  intro found
  obtain ⟨e, here, same⟩ := Option.map_eq_some_iff.mp found
  exact h e (List.mem_of_find?_eq_some here) same

theorem Step.nameless (step : Step proc p d action answer d') (inside : n < d.nodes.length)
    (gone : d.Nameless n) : d'.Nameless n := by
  obtain ⟨d₁, change, entries, -⟩ := step.change
  rw [Nameless, entries]
  cases change with
  | push _ path fileType =>
    intro e mem
    rcases List.mem_append.mp mem with old | new
    · exact gone e old
    · obtain rfl := List.mem_singleton.mp new
      exact Nat.ne_of_gt inside
  | remove cwd path => exact fun e mem => gone e (List.mem_of_mem_eraseP mem)
  | rekey cwd old new =>
    intro e mem
    have value : e.2 ∈ (Keyed.rekey d.entries _ _).map Prod.snd := List.mem_map_of_mem mem
    rw [Keyed.map_snd_rekey] at value
    obtain ⟨e', mem', same⟩ := List.mem_map.mp value
    rw [← same]
    exact gone e' mem'
  | _ => exact gone

/-- A call through a descriptor that changes a node or seeks. -/
def Handles (d : Files ρ) (f n : Nat) : Action ρ → Prop
  | .sys action => d.sys.WritesNode n action
  | .lseek fd _ _ => d.sys.entry fd = some (some f)
  | _ => False

/-- A file whose name is gone belongs to its descriptors: whatever is created, emptied, renamed or
removed, a descriptor delivers the file in order. -/
theorem unlinked_file_delivered {d₀ : Files ρ} {events : List (Event ρ)}
    (opened : System.Reads d₀.sys.store f n node offset) (gone : d₀.Nameless n)
    (trace : Trace (Occurs proc p) d₀ events d)
    (calm : ∀ e ∈ events, ¬ e.before.Handles f n e.action) :
    d.Nameless n ∧ System.Reads d.sys.store f n node (offset + (events.flatMap (Event.taken · f)).length) ∧
      events.flatMap (Event.taken · f) <+: node.data.drop offset := by
  have quiet (d : Files ρ) (e : Event ρ) (nameless : e.before.Nameless n)
      (calm : ¬ e.before.Handles f n e.action) : ¬ e.before.Disturbs f n e.action := by
    intro disturbed
    cases action : e.action with
    | «open» cwd path flags =>
      rw [action] at disturbed
      exact nameless.openPath _ disturbed.1
    | _ =>
      rw [action] at disturbed calm
      exact calm disturbed
  have both : d.Nameless n ∧ ∀ e ∈ events, ¬ e.before.Disturbs f n e.action := by
    induction trace with
    | nil => exact ⟨gone, by simp⟩
    | @snoc events event d d' run last ih =>
      obtain ⟨nameless, before⟩ := ih fun e mem => calm e (List.mem_append_left _ mem)
      have reads := (reads_run opened run before).1
      obtain ⟨rfl, step⟩ := last
      refine ⟨step.nameless (inside_of_reads reads) nameless, fun e mem => ?_⟩
      rcases List.mem_append.mp mem with old | new
      · exact before e old
      · obtain rfl := List.mem_singleton.mp new
        exact quiet d e nameless (calm e (List.mem_append_right _ List.mem_cons_self))
  exact ⟨both.1, reads_run opened trace both.2⟩

theorem replaced_file_delivered : ∃ (d₁ d : Files Unit) (events : List (Event Unit)), d₁.Nameless 0 ∧
    Trace (Occurs (fun _ _ => []) .dev) d₁ events d ∧
    events.map Event.action = [.open (ascii "/") (ascii "a") 0o1102, .sys (.read 3 2 [])] ∧
    events.flatMap (Event.taken · 3) <+: [1, 2, 0, 7] := by
  obtain ⟨-, d₁, d₂, d₃, -, -, empty, reads, -, create, read, -⟩ := replaced_run
  have gone : d₁.Nameless 0 := by simp [Nameless, empty]
  refine ⟨d₁, d₃, _, gone, .snoc (.snoc .nil create) read, rfl, ?_⟩
  refine (unlinked_file_delivered reads gone (.snoc (.snoc .nil create) read) ?_).2.2
  simp only [List.nil_append, List.cons_append, List.forall_mem_cons]
  refine ⟨id, ?_, by simp⟩
  rintro ⟨fd, g, ⟨bytes, same⟩ | ⟨iov, same⟩, -⟩ <;> cases same

/-! ## Files with a name -/

/-- A call that takes a name away or gives it to something else. -/
def Renames (path : Path) : Action ρ → Prop
  | .unlink cwd raw => resolvePath cwd raw = path
  | .rename cwd old new => resolvePath cwd old = path ∨ resolvePath cwd new = path
  | _ => False

theorem Step.openPath (step : Step proc p d action answer d') (named : d.openPath path = some n)
    (steady : ¬ Renames path action) : d'.openPath path = some n := by
  obtain ⟨d₁, change, entries, -⟩ := step.change
  rw [Files.openPath, entries]
  cases change with
  | push _ other fileType =>
    show Keyed.get (d.entries ++ _) path = some n
    rw [Keyed.get_append, show Keyed.get d.entries path = some n from named]
    rfl
  | remove cwd raw => exact (Keyed.get_remove_of_ne fun same => steady same.symm).trans named
  | rekey cwd old new =>
    exact (Keyed.get_rekey_of_ne (fun same => steady (Or.inl same.symm))
      fun same => steady (Or.inr same.symm)).trans named
  | _ => exact named

/-- A path that `open` looks up in the root file system. -/
def Regular (path : Path) (flags : Nat) : Prop :=
  flags &&& O_DIRECTORY = 0 ∧ path ≠ ascii "/" ∧ specialKind path = none ∧
    path ≠ ascii "/proc/self/maps" ∧ path ≠ ascii "/proc/self/status"

theorem openPath_prepare (named : d.openPath path = some n) (flags : Nat) :
    (d.prepare path flags).openPath path = some n := by
  unfold prepare
  rw [named]
  simp only
  split
  · unfold writeFile
    rw [named]
    exact named
  · exact named

theorem locate_regular (proc : System ρ → Path → List UInt8) (named : d.openPath path = some n) {flags : Nat}
    (regular : Regular path flags) :
    d.locate proc path flags = (.ok (.file n (flags &&& O_ACCMODE ≠ O_WRONLY) (writable flags)
      (flags &&& O_APPEND ≠ 0)), d.prepare path flags) := by
  obtain ⟨plain, root, special, maps, status⟩ := regular
  unfold locate
  rw [if_neg (by simp [plain, root]), special]
  simp only [maps, status, or_self, if_false, openPath_prepare named]

theorem entry_open {s s' : System ρ} {file : OpenFile} {fd : Nat} (out : s.open file = (.ret fd, s')) :
    ∃ g, s'.entry fd = some (some g) ∧ s'.store.file g = { file with pipe := none } ∧
      s'.store.nodes = s.store.nodes := by
  unfold System.open System.onTable at out
  cases current : s.sched.current with
  | none => simp [current, System.answerFd] at out
  | some a =>
    rw [current, Option.map_some] at out
    rcases a.fdTable.alloc_cases s.store { file with pipe := none } with full | ⟨fd', inside, -, got⟩
    · simp [full, System.orFull, System.answerFd] at out
    · simp only [got, System.orFull, System.answerFd, Prod.mk.injEq, Answer.ret.injEq] at out
      obtain ⟨rfl, rfl⟩ := out
      refine ⟨s.store.files.length, ?_, ?_, rfl⟩
      · rw [System.entry, System.current_update, if_pos rfl, current, Option.map_some, Option.map_some]
        simp [FdTable.get_set, inside]
      · simp [Store.file, Store.newFile]

theorem open_located {d₁ : Files ρ} {file : OpenFile} {flags fd : Nat}
    (located : d.locate proc path flags = (.ok file, d₁))
    (out : d.open proc path flags = (.ret fd, d')) :
    ∃ g, d'.sys.entry fd = some (some g) ∧ d'.sys.store.file g = { file with pipe := none } ∧
      d'.nodes = d₁.nodes := by
  rw [Files.open, located] at out
  obtain ⟨answered, rfl⟩ := Prod.mk.inj out
  exact entry_open (Prod.ext answered rfl)

theorem openPath_run {d₀ : Files ρ} {events : List (Event ρ)} (named : d₀.openPath path = some n)
    (trace : Trace (Occurs proc p) d₀ events d) (steady : ∀ e ∈ events, ¬ Renames path e.action) :
    d.openPath path = some n := by
  induction trace with
  | nil => exact named
  | @snoc events event d d' run last ih =>
    obtain ⟨rfl, step⟩ := last
    exact step.openPath (ih fun e before => steady e (List.mem_append_left _ before))
      (steady event (List.mem_append_right _ List.mem_cons_self))

/-- As long as a path is neither removed nor renamed, and nothing else is renamed to it, every descriptor
of a file that is opened through it has the same node: each sees what the others write. -/
theorem opens_share_node {d₀ : Files ρ} {events : List (Event ρ)} (named : d₀.openPath path = some n)
    (trace : Trace (Occurs proc p) d₀ events d) (steady : ∀ e ∈ events, ¬ Renames path e.action)
    {cwd raw : Path} {flags fd : Nat} (here : resolvePath cwd raw = path) (regular : Regular path flags)
    (opens : Step proc p d (.open cwd raw flags) (.ret fd) d') :
    ∃ g, d'.sys.entry fd = some (some g) ∧ (d'.sys.store.file g).node = some n := by
  have located := locate_regular proc (openPath_run named trace steady) regular
  have out := Except.ok.inj opens.2
  rw [here] at out
  obtain ⟨g, entry, file, -⟩ := open_located located out
  exact ⟨g, entry, congrArg OpenFile.node file⟩

/-- Another file is created and gets another name before `/a` is opened. -/
theorem opens_of_a_share_node : ∃ (d₀ d d' : Files Unit) (events : List (Event Unit)) (g : Nat),
    d₀.openPath (ascii "/a") = some 0 ∧ Trace (Occurs (fun _ _ => []) .dev) d₀ events d ∧
    events.map Event.action =
      [.open (ascii "/") (ascii "b") 0o102, .rename (ascii "/") (ascii "b") (ascii "c")] ∧
    Step (fun _ _ => []) .dev d (.open (ascii "/") (ascii "./a") 0) (.ret 5) d' ∧
    d'.sys.entry 5 = some (some g) ∧ (d'.sys.store.file g).node = some 0 := by
  obtain ⟨s₀, d₁, d₂, d₃, -, create, rename, opens⟩ : ∃ (s₀ : System Unit) (d₁ d₂ d₃ : Files Unit),
      (System.bootedWith [1, 2, 0, 7]).run .dev [.timer, .open (.file 0 true false false)] = .ok s₀ ∧
      Occurs (fun _ _ => []) .dev (underA s₀) ⟨underA s₀, .open (ascii "/") (ascii "b") 0o102, .ret 4⟩ d₁ ∧
      Occurs (fun _ _ => []) .dev d₁ ⟨d₁, .rename (ascii "/") (ascii "b") (ascii "c"), .ret 0⟩ d₂ ∧
      Step (fun _ _ => []) .dev d₂ (.open (ascii "/") (ascii "./a") 0) (.ret 5) d₃ :=
    ⟨_, _, _, _, rfl, ⟨rfl, rfl, rfl⟩, ⟨rfl, rfl, rfl⟩, ⟨rfl, rfl⟩⟩
  have named : (underA s₀).openPath (ascii "/a") = some 0 := rfl
  have regular : Regular (ascii "/a") 0 := by
    refine ⟨rfl, ?_, ?_, ?_, ?_⟩ <;> decide +kernel
  have trace := Trace.nil.snoc create |>.snoc rename
  have steady : ∀ e ∈ [Event.mk (underA s₀) (.open (ascii "/") (ascii "b") 0o102) (.ret 4),
      ⟨d₁, .rename (ascii "/") (ascii "b") (ascii "c"), .ret 0⟩], ¬ Renames (ascii "/a") e.action := by
    simp only [List.forall_mem_cons, Renames]
    refine ⟨id, ?_, by simp⟩
    decide +kernel
  obtain ⟨g, entry, node⟩ := opens_share_node named trace steady (by decide +kernel) regular opens
  exact ⟨underA s₀, d₂, d₃, _, g, named, trace, rfl, opens, entry, node⟩

end Files
end Ferrum
