import Ferrum.Fs.Resolve
import Ferrum.Kernel.Model

/-!
# What the calls take for a file and for a directory

Each call that looks a path up asks its own questions of the root file system: is the path the root, is
there an entry, does anything lie directly below. `access` asks the second only, and `open` with
`O_DIRECTORY` asks nothing.
-/
namespace Ferrum

/-- The root file system. Every entry has a node. -/
structure Rootfs extends Ramfs where
  backed : ∀ e ∈ entries, e.2 < nodes.length

/-! ## Operations -/

namespace Ramfs

variable {fs : Ramfs} {path : Path}

def Backed (fs : Ramfs) : Prop := ∀ e ∈ fs.entries, e.2 < fs.nodes.length

theorem Backed.push (h : fs.Backed) (path : Path) (node : RamfsNode) : (fs.push path node).Backed := by
  intro e mem
  rw [Ramfs.push, List.length_append, List.length_singleton]
  rcases List.mem_append.mp mem with old | new
  · exact Nat.lt_succ_of_lt (h e old)
  · obtain rfl := List.mem_singleton.mp new
    exact Nat.lt_succ_self _

theorem Backed.of_nodes (h : fs.Backed) {entries : List (Path × Nat)}
    (old : ∀ e ∈ entries, ∃ e' ∈ fs.entries, e'.2 = e.2) : Backed { fs with entries } := by
  intro e mem
  obtain ⟨e', mem', same⟩ := old e mem
  exact same ▸ h e' mem'

theorem exists_of_mem_rekey {l : List (Path × Nat)} {old new : Path} {e : Path × Nat}
    (mem : e ∈ Keyed.rekey l old new) : ∃ e' ∈ l, e'.2 = e.2 := by
  induction l with
  | nil => cases mem
  | cons first rest ih =>
    rw [Keyed.rekey] at mem
    split at mem
    · rcases List.mem_cons.mp mem with rfl | later
      · exact ⟨first, List.mem_cons_self, rfl⟩
      · exact ⟨e, List.mem_cons_of_mem _ later, rfl⟩
    · rcases List.mem_cons.mp mem with rfl | later
      · exact ⟨e, List.mem_cons_self, rfl⟩
      · obtain ⟨e', mem', same⟩ := ih later
        exact ⟨e', List.mem_cons_of_mem _ mem', same⟩

theorem Backed.step (h : fs.Backed) (op : Op) : (fs.step op).2.Backed := by
  cases op with
  | create path fileType =>
    simp only [Ramfs.step, create]
    split
    · exact h
    · exact h.push path _
  | writeFile path data =>
    simp only [Ramfs.step, writeFile]
    split
    · intro e mem
      rw [change, List.length_modify]
      exact h e mem
    · exact h.push path _
  | mkdir path =>
    simp only [Ramfs.step, mkdir]
    split
    · exact h
    · exact h.push path _
  | unlink path =>
    simp only [Ramfs.step, unlink]
    split
    · exact h.of_nodes fun e mem => ⟨e, List.eraseP_sublist.subset mem, rfl⟩
    · exact h
  | rename old new =>
    simp only [Ramfs.step, rename]
    split
    · exact h.of_nodes fun e mem => exists_of_mem_rekey mem
    · exact h
  | openPath path => exact h

end Ramfs

def Rootfs.step (fs : Rootfs) (op : Ramfs.Op) : Rootfs :=
  ⟨(fs.toRamfs.step op).2, Ramfs.Backed.step fs.backed op⟩

/-! ## The calls -/

variable {ρ : Type}

def accessCall (fs : Ramfs) (cwd rawPath : Path) : Answer ρ :=
  if (fs.openPath (resolvePath cwd rawPath)).isSome then .ret 0 else .err ENOENT

/-- With `AT_FDCWD`; the source treats every directory descriptor like that. -/
def faccessatCall (fs : Ramfs) (cwd rawPath : Path) : Answer ρ :=
  let path := resolvePath cwd rawPath
  if path = ascii "/" ∨ (fs.openPath path).isSome ∨ fs.listDir path ≠ [] then .ret 0 else .err ENOENT

/-- The common body of `stat` and `newfstatat`: the answer, and the type and size that are stored. -/
def statBody (fs : Ramfs) (cwd rawPath : Path) : Answer ρ × Option (FileType × Nat) :=
  match fs.statCall (resolvePath cwd rawPath) with
  | some st => (.ret 0, some st)
  | none => (.err ENOENT, none)

def statAnswer (fs : Ramfs) (cwd rawPath : Path) : Answer ρ × Option (FileType × Nat) :=
  statBody fs cwd rawPath

/-- With `AT_FDCWD`; the source treats every directory descriptor like that. -/
def newfstatatAnswer (fs : Ramfs) (cwd rawPath : Path) : Answer ρ × Option (FileType × Nat) :=
  statBody fs cwd rawPath

/-- The answer and the working directory. -/
def chdirCall (fs : Ramfs) (cwd rawPath : Path) : Answer ρ × Path :=
  if fs.accepts (resolvePath cwd rawPath) then (.ret 0, fs.chdir cwd rawPath) else (.err ENOENT, cwd)

/-- A descriptor of a directory; the names that it was opened with are kept beside it. -/
def OpenFile.directory : OpenFile := ⟨.directory, true, false, false, none, none, 0⟩

/-- `open` with `O_DIRECTORY`: the answer, the names that the descriptor will give out, and the system. -/
def openDirectory (s : System ρ) (fs : Ramfs) (cwd rawPath : Path) :
    Answer ρ × List Path × System ρ :=
  let names := fs.listDir (resolvePath cwd rawPath)
  let (answer, s) := s.open .directory
  (answer, names, s)

/-! ## Existence -/

namespace Rootfs

variable (fs : Rootfs) (cwd rawPath : Path)

/-- `stat` finds an entry, or a directory that is seen through what lies below. -/
theorem statCall_eq_none (path : Path) : fs.statCall path = none ↔
    path ≠ ascii "/" ∧ fs.listDir path = [] ∧ fs.openPath path = none := by
  rw [Ramfs.statCall]
  split
  next seen =>
    simp only [reduceCtorEq, false_iff]
    rintro ⟨notRoot, empty, -⟩
    rcases seen with root | listed
    · exact notRoot root
    · exact listed empty
  next unseen =>
    obtain ⟨notRoot, empty⟩ := not_or.mp unseen
    cases found : fs.openPath path with
    | none => simpa [notRoot] using empty
    | some h =>
      obtain ⟨e, first, rfl⟩ := Option.map_eq_some_iff.mp found
      have mem : e ∈ fs.entries := List.mem_of_find?_eq_some first
      simp [List.getElem?_eq_getElem (fs.backed e mem)]

/-- The four calls all find the path, or all answer `ENOENT`. -/
def ExistenceAgrees (ρ : Type) : Prop :=
  (accessCall fs.toRamfs cwd rawPath = (.ret 0 : Answer ρ) ∧
    faccessatCall fs.toRamfs cwd rawPath = (.ret 0 : Answer ρ) ∧
    (statAnswer fs.toRamfs cwd rawPath : Answer ρ × _).1 = .ret 0 ∧
    (newfstatatAnswer fs.toRamfs cwd rawPath : Answer ρ × _).1 = .ret 0) ∨
  (accessCall fs.toRamfs cwd rawPath = (.err ENOENT : Answer ρ) ∧
    faccessatCall fs.toRamfs cwd rawPath = (.err ENOENT : Answer ρ) ∧
    (statAnswer fs.toRamfs cwd rawPath : Answer ρ × _).1 = .err ENOENT ∧
    (newfstatatAnswer fs.toRamfs cwd rawPath : Answer ρ × _).1 = .err ENOENT)

theorem faccessat_eq_stat :
    faccessatCall fs.toRamfs cwd rawPath = (statBody fs.toRamfs cwd rawPath : Answer ρ × _).1 := by
  have missing := fs.statCall_eq_none (resolvePath cwd rawPath)
  rw [faccessatCall, statBody]
  cases found : fs.statCall (resolvePath cwd rawPath) with
  | none =>
    obtain ⟨notRoot, empty, absent⟩ := missing.mp found
    simp [notRoot, empty, absent]
  | some st =>
    have there := missing.not.mp (by simp [found])
    refine if_pos ?_
    by_contra nowhere
    simp only [not_or, not_not, Bool.not_eq_true, Option.isSome_eq_false_iff, Option.isNone_iff_eq_none]
      at nowhere
    exact there ⟨nowhere.1, nowhere.2.2, nowhere.2.1⟩

/-- The calls agree if and only if the path has an entry of its own, or is neither the root nor seen
through an entry below it. -/
theorem existence_agrees_iff : fs.ExistenceAgrees cwd rawPath ρ ↔
    (fs.openPath (resolvePath cwd rawPath)).isSome ∨
      (resolvePath cwd rawPath ≠ ascii "/" ∧ fs.listDir (resolvePath cwd rawPath) = []) := by
  have missing := fs.statCall_eq_none (resolvePath cwd rawPath)
  rw [ExistenceAgrees, fs.faccessat_eq_stat cwd rawPath, accessCall, statAnswer, newfstatatAnswer, statBody]
  cases entry : fs.openPath (resolvePath cwd rawPath) with
  | some h =>
    cases found : fs.statCall (resolvePath cwd rawPath) with
    | none => simp [entry, found] at missing
    | some st => simp
  | none =>
    rw [entry] at missing
    cases found : fs.statCall (resolvePath cwd rawPath) with
    | none =>
      obtain ⟨notRoot, empty, -⟩ := missing.mp found
      simp [notRoot, empty]
    | some st =>
      have there := missing.not.mp (by simp [found])
      simpa using there

/-- The root directory: `access` does not find it. -/
theorem access_misses_root : ∃ fs : Rootfs, fs.toRamfs = Ramfs.populateRootfs none ∧
    accessCall fs.toRamfs (ascii "/") (ascii "/") = (.err ENOENT : Answer Unit) ∧
    faccessatCall fs.toRamfs (ascii "/") (ascii "/") = (.ret 0 : Answer Unit) ∧
    (statAnswer fs.toRamfs (ascii "/") (ascii "/") : Answer Unit × _) =
      (.ret 0, some (.directory, 0)) ∧
    ¬ fs.ExistenceAgrees (ascii "/") (ascii "/") Unit := by
  have backed : ∀ e ∈ (Ramfs.populateRootfs none).entries,
      e.2 < (Ramfs.populateRootfs none).nodes.length := by decide +kernel
  have refused : accessCall (Ramfs.populateRootfs none) (ascii "/") (ascii "/") =
      (.err ENOENT : Answer Unit) := by decide +kernel
  have found : faccessatCall (Ramfs.populateRootfs none) (ascii "/") (ascii "/") =
      (.ret 0 : Answer Unit) := by decide +kernel
  have stats : (statAnswer (Ramfs.populateRootfs none) (ascii "/") (ascii "/") : Answer Unit × _) =
      (.ret 0, some (.directory, 0)) := by decide +kernel
  refine ⟨⟨Ramfs.populateRootfs none, backed⟩, rfl, refused, found, stats, ?_⟩
  rintro (⟨all, -⟩ | ⟨-, all, -⟩)
  · rw [refused] at all
    cases all
  · rw [found] at all
    cases all

/-! ## Directories -/

/-- `stat` reports a directory. -/
def StatsDirectory : Prop := ∃ size, fs.statCall (resolvePath cwd rawPath) = some (.directory, size)

theorem chdirCall_eq_ret :
    (chdirCall fs.toRamfs cwd rawPath : Answer ρ × Path).1 = .ret 0 ↔
      fs.statCall (resolvePath cwd rawPath) ≠ none := by
  rw [ne_eq, fs.statCall_eq_none, chdirCall]
  split
  next accepted =>
    simp only [Ramfs.accepts, Bool.or_eq_true, decide_eq_true_eq, Bool.not_eq_true',
      List.isEmpty_eq_false_iff] at accepted
    simp only [true_iff]
    rintro ⟨notRoot, empty, absent⟩
    rcases accepted with (root | there) | listed
    · exact notRoot root
    · rw [absent] at there
      cases there
    · exact listed empty
  next refused =>
    simp only [Ramfs.accepts, Bool.or_eq_true, decide_eq_true_eq, Bool.not_eq_true',
      List.isEmpty_eq_false_iff, not_or, not_not, Bool.not_eq_true, Option.isSome_eq_false_iff,
      Option.isNone_iff_eq_none] at refused
    simp only [reduceCtorEq, false_iff, not_not]
    exact ⟨refused.1.1, refused.2, refused.1.2⟩

/-- With a free descriptor, `open` with `O_DIRECTORY` succeeds on every path. -/
theorem openDirectory_ok {s : System ρ} {a : Process ρ} (current : s.sched.current = some a)
    (free : Slots.firstFree a.fdTable.entries ≠ none) (fs : Ramfs) (cwd rawPath : Path) :
    ∃ fd, (openDirectory s fs cwd rawPath).1 = .ret fd := by
  obtain ⟨fd, slot⟩ := Option.ne_none_iff_exists'.mp free
  exact ⟨fd, by simp [openDirectory, System.open, System.onTable, current, FdTable.alloc, slot,
    System.answerFd, System.orFull]⟩

/-- The type of the entry of a path. -/
def entryType (path : Path) : Option FileType :=
  (fs.openPath path).bind fun h => fs.nodes[h]?.map RamfsNode.fileType

/-- The root and a path with entries below it are directories, whatever their own entry. -/
theorem statCall_type (path : Path) : (fs.statCall path).map Prod.fst =
    if path = ascii "/" ∨ fs.listDir path ≠ [] then some .directory else fs.entryType path := by
  rw [Ramfs.statCall, entryType]
  split
  · rfl
  · cases fs.openPath path with
    | none => rfl
    | some h => cases found : fs.nodes[h]? <;> simp [found]

theorem statsDirectory_iff : fs.StatsDirectory cwd rawPath ↔
    (fs.statCall (resolvePath cwd rawPath)).map Prod.fst = some .directory := by
  simp [StatsDirectory]

/-- `chdir` agrees with `stat` unless the path has the entry of a regular file, is not the root and has no
entries below it. `open` with `O_DIRECTORY`, given a free descriptor, agrees with `stat` if and only if the
path is the root, has entries below it or has the entry of a directory. -/
theorem directory_calls_agree_iff (s : System ρ) (a : Process ρ) (current : s.sched.current = some a)
    (free : Slots.firstFree a.fdTable.entries ≠ none) :
    (((chdirCall fs.toRamfs cwd rawPath : Answer ρ × Path).1 = .ret 0 ↔
        fs.StatsDirectory cwd rawPath) ↔
      resolvePath cwd rawPath = ascii "/" ∨ fs.listDir (resolvePath cwd rawPath) ≠ [] ∨
        fs.entryType (resolvePath cwd rawPath) ≠ some .regular) ∧
    (((∃ fd, (openDirectory s fs.toRamfs cwd rawPath).1 = .ret fd) ↔ fs.StatsDirectory cwd rawPath) ↔
      resolvePath cwd rawPath = ascii "/" ∨ fs.listDir (resolvePath cwd rawPath) ≠ [] ∨
        fs.entryType (resolvePath cwd rawPath) = some .directory) := by
  rw [iff_true_left (openDirectory_ok current free fs.toRamfs cwd rawPath), chdirCall_eq_ret,
    statsDirectory_iff, ← or_assoc, ← or_assoc]
  have found : fs.statCall (resolvePath cwd rawPath) ≠ none ↔
      (fs.statCall (resolvePath cwd rawPath)).map Prod.fst ≠ none := by simp
  rw [found, statCall_type]
  split
  next seen => simp [seen]
  next unseen =>
    simp only [unseen, false_or]
    rcases fs.entryType (resolvePath cwd rawPath) with _ | fileType
    · simp
    · cases fileType <;> simp

/-- A system with one process that has no descriptors. -/
def loneSystem : System Unit :=
  ⟨⟨[some ⟨1, 0, .running, 0, .user, .empty, (), 0, 0⟩], 0, true, false, 1⟩, ⟨[], [], []⟩⟩

/-- The directory `/tmp`. -/
theorem tmp_is_directory : ∃ fs : Rootfs, fs.toRamfs = Ramfs.populateRootfs none ∧
    ((∃ fd, (openDirectory loneSystem fs.toRamfs (ascii "/") (ascii "tmp")).1 = .ret fd) ↔
      fs.StatsDirectory (ascii "/") (ascii "tmp")) ∧
    ((chdirCall fs.toRamfs (ascii "/") (ascii "tmp") : Answer Unit × Path).1 = .ret 0 ↔
      fs.StatsDirectory (ascii "/") (ascii "tmp")) := by
  have backed : ∀ e ∈ (Ramfs.populateRootfs none).entries,
      e.2 < (Ramfs.populateRootfs none).nodes.length := by decide +kernel
  have entry : ((Ramfs.populateRootfs none).openPath (resolvePath (ascii "/") (ascii "tmp"))).bind
      (fun h => (Ramfs.populateRootfs none).nodes[h]?.map RamfsNode.fileType) = some .directory := by
    decide +kernel
  obtain ⟨chdir, opens⟩ := directory_calls_agree_iff ⟨Ramfs.populateRootfs none, backed⟩ (ascii "/")
    (ascii "tmp") loneSystem ⟨1, 0, .running, 0, .user, .empty, (), 0, 0⟩ rfl (by decide)
  exact ⟨⟨Ramfs.populateRootfs none, backed⟩, rfl, opens.mpr (.inr (.inr entry)),
    chdir.mpr (.inr (.inr fun regular => nomatch entry.symm.trans regular))⟩

/-- `chdir` goes into a regular file, and `open` with `O_DIRECTORY` opens a path that does not exist. -/
theorem chdir_enters_file : ∃ fs : Rootfs, fs.toRamfs = Ramfs.populateRootfs none ∧
    fs.statCall (ascii "/dev/null") = some (.regular, 0) ∧
    (chdirCall fs.toRamfs (ascii "/") (ascii "dev/null") : Answer Unit × Path) =
      (.ret 0, ascii "/dev/null") ∧
    fs.statCall (ascii "/none") = none ∧
    (openDirectory loneSystem fs.toRamfs (ascii "/") (ascii "none")).1 = .ret 0 := by
  have backed : ∀ e ∈ (Ramfs.populateRootfs none).entries,
      e.2 < (Ramfs.populateRootfs none).nodes.length := by decide +kernel
  have file : (Ramfs.populateRootfs none).statCall (ascii "/dev/null") = some (.regular, 0) := by
    decide +kernel
  have entered : (chdirCall (Ramfs.populateRootfs none) (ascii "/") (ascii "dev/null") :
      Answer Unit × Path) = (.ret 0, ascii "/dev/null") := by decide +kernel
  have missing : (Ramfs.populateRootfs none).statCall (ascii "/none") = none := by decide +kernel
  exact ⟨⟨Ramfs.populateRootfs none, backed⟩, rfl, file, entered, missing, rfl⟩

end Rootfs
end Ferrum
