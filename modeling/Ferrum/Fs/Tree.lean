import Ferrum.Fs.Newc
import Mathlib

/-!
# The tree of paths

Paths are resolved to absolute ones before they reach the file system, which knows entries only: a
directory is an entry of its own, or it is seen through an entry directly below it. Nothing makes the
directories above a new entry, and nothing keeps them.
-/
namespace Ferrum

def SLASH : UInt8 := 0x2f

def splitSlash : List UInt8 → List (List UInt8)
  | [] => [[]]
  | b :: bytes =>
    if b = SLASH then [] :: splitSlash bytes
    else match splitSlash bytes with
      | [] => [[b]]
      | comp :: rest => (b :: comp) :: rest

/-- An absolute path from its components. -/
def render (stack : List (List UInt8)) : Path := SLASH :: [SLASH].intercalate stack

def resolvePath (cwd rawPath : List UInt8) : Path :=
  let stack := if rawPath.head? = some SLASH then [] else (splitSlash cwd).filter (· ≠ [])
  render ((splitSlash rawPath).foldl (fun stack comp =>
    if comp = [] ∨ comp = ascii "." then stack
    else if comp = ascii ".." then stack.dropLast
    else stack ++ [comp]) stack)

namespace Ramfs

/-- The names of the entries directly below. -/
def listDir (fs : Ramfs) (dir : Path) : List Path :=
  let above := if dir = ascii "/" then ascii "/" else dir ++ ascii "/"
  fs.entries.filterMap fun entry =>
    if above <+: entry.1 ∧ entry.1.drop above.length ≠ [] ∧ SLASH ∉ entry.1.drop above.length then
      some (entry.1.drop above.length)
    else none

/-! ## System calls -/

/-- `syscall_stat` on a resolved path: the file type and the size. -/
def statCall (fs : Ramfs) (path : Path) : Option (FileType × Nat) :=
  if path = ascii "/" ∨ fs.listDir path ≠ [] then some (.directory, 0)
  else (fs.openPath path).bind fun h => fs.nodes[h]?.map fun node => (node.fileType, node.data.length)

def O_ACCMODE : Nat := 0x3
def O_WRONLY : Nat := 0x1
def O_RDWR : Nat := 0x2
def O_CREAT : Nat := 0o100
def O_TRUNC : Nat := 0o1000
def O_DIRECTORY : Nat := 0o200000

/-- The paths that `open` serves itself. -/
def specialPaths : List Path :=
  [ascii "/dev/null", ascii "/dev/zero", ascii "/dev/tty", ascii "/proc/self/maps",
    ascii "/proc/self/status"]

/-- What `syscall_open` does to the file system. -/
def openCall (fs : Ramfs) (path : Path) (flags : Nat) : Ramfs :=
  if flags &&& O_DIRECTORY ≠ 0 ∨ path = ascii "/" then fs
  else if path ∈ specialPaths then fs
  else
    let acc := flags &&& O_ACCMODE
    let writable := acc = O_WRONLY ∨ acc = O_RDWR
    if fs.openPath path = none then
      if flags &&& O_CREAT ≠ 0 then (fs.change (fs.writeFile path [])).2 else fs
    else if flags &&& O_TRUNC ≠ 0 ∧ writable then (fs.change (fs.writeFile path [])).2
    else fs

def mkdirCall (fs : Ramfs) (path : Path) : Ramfs :=
  if path = ascii "/" ∨ fs.listDir path ≠ [] ∨ fs.openPath path ≠ none then fs
  else (fs.change (fs.mkdir path)).2

inductive Call where
  | open_ (cwd path : List UInt8) (flags : Nat)
  | mkdir (cwd path : List UInt8)
  | rename (cwd old new : List UInt8)
  | unlink (cwd path : List UInt8)

def call (fs : Ramfs) : Call → Ramfs
  | .open_ cwd path flags => fs.openCall (resolvePath cwd path) flags
  | .mkdir cwd path => fs.mkdirCall (resolvePath cwd path)
  | .rename cwd old new => (fs.change (fs.rename (resolvePath cwd old) (resolvePath cwd new))).2
  | .unlink cwd path => (fs.change (fs.unlink (resolvePath cwd path))).2

/-- The archive, if there is one. -/
def extracted (initramfs : Option (List UInt8)) : Ramfs :=
  match initramfs with
  | some data => Newc.extract data new
  | none => new

/-- The root file system at the start: the archive, and what the kernel adds. -/
def populateRootfs (initramfs : Option (List UInt8)) : Ramfs :=
  let rootfs := [ascii "/dev", ascii "/proc", ascii "/tmp", ascii "/etc"].foldl
    (fun fs dir => (fs.change (fs.mkdir dir)).2) (extracted initramfs)
  [ascii "/dev/null", ascii "/dev/zero", ascii "/dev/tty"].foldl
    (fun fs dev => if fs.openPath dev = none then (fs.change (fs.writeFile dev [])).2 else fs) rootfs

end Ramfs

/-! ## Components -/

/-- Components as `resolve_path` makes them. -/
def Plain (stack : List (List UInt8)) : Prop := ∀ comp ∈ stack, comp ≠ [] ∧ SLASH ∉ comp

variable {stack : List (List UInt8)} {comp : List UInt8}

theorem splitSlash_plain (s : List UInt8) : ∀ comp ∈ splitSlash s, SLASH ∉ comp := by
  induction s with
  | nil => simp [splitSlash]
  | cons b s ih => grind [splitSlash]

theorem intercalate_concat (nonempty : stack ≠ []) :
    [SLASH].intercalate (stack ++ [comp]) = [SLASH].intercalate stack ++ SLASH :: comp := by
  induction stack with
  | nil => exact absurd rfl nonempty
  | cons c stack ih =>
    cases stack with
    | nil => simp [List.intercalate]
    | cons d stack =>
      have rest := ih (by simp)
      simp only [List.intercalate, List.cons_append, List.intersperse_cons_cons, List.flatten_cons] at rest ⊢
      rw [rest]
      simp

theorem render_ne_root (plain : Plain stack) (nonempty : stack ≠ []) : render stack ≠ ascii "/" := by
  cases stack with
  | nil => exact absurd rfl nonempty
  | cons c stack =>
    have := (plain c List.mem_cons_self).1
    intro same
    have empty : [SLASH].intercalate (c :: stack) = [] := (List.cons.inj same).2
    cases stack with
    | nil => simp [List.intercalate] at empty; exact this empty
    | cons d stack => simp [List.intercalate] at empty

theorem render_concat (plain : Plain stack) :
    render (stack ++ [comp]) =
      (if render stack = ascii "/" then ascii "/" else render stack ++ ascii "/") ++ comp := by
  by_cases nonempty : stack = []
  · subst nonempty
    rw [if_pos (by decide)]
    simp [render, List.intercalate, ascii, SLASH]
  · rw [if_neg (render_ne_root plain nonempty), render, intercalate_concat nonempty, render]
    simp [ascii, SLASH]

namespace Ramfs

variable {fs : Ramfs} {path : Path}

theorem Plain.concat (plain : Plain stack) (one : comp ≠ [] ∧ SLASH ∉ comp) : Plain (stack ++ [comp]) := by
  grind [Plain]

/-- The names below a directory are those of the entries one component longer. -/
theorem mem_listDir (plain : Plain stack) : comp ∈ fs.listDir (render stack) ↔
    (comp ≠ [] ∧ SLASH ∉ comp) ∧ render (stack ++ [comp]) ∈ fs.entries.map Prod.fst := by
  rw [render_concat plain]
  simp only [listDir]
  generalize (if render stack = ascii "/" then ascii "/" else render stack ++ ascii "/") = above
  simp only [List.mem_filterMap, Option.ite_none_right_eq_some, Option.some.injEq, List.mem_map]
  constructor
  · rintro ⟨entry, mem, ⟨⟨rest, split⟩, nonempty, clean⟩, rfl⟩
    exact ⟨⟨nonempty, clean⟩, entry, mem, by simp [← split]⟩
  · rintro ⟨⟨nonempty, clean⟩, entry, mem, same⟩
    refine ⟨entry, mem, ?_⟩
    rw [same]
    simp [nonempty, clean]

/-! ## Closure -/

/-- The text before the last slash. -/
def parent (path : Path) : Path := ((path.reverse.dropWhile (· ≠ SLASH)).drop 1).reverse

theorem parent_append (before : Path) (clean : SLASH ∉ comp) : parent (before ++ SLASH :: comp) = before := by
  have keep : ∀ b ∈ comp.reverse, decide (b ≠ SLASH) = true := by grind
  simp only [parent, List.reverse_append, List.reverse_cons, List.append_assoc]
  rw [List.dropWhile_append_of_pos keep]
  simp

theorem parent_render (plain : Plain (stack ++ [comp])) :
    parent (render (stack ++ [comp])) = if stack = [] then [] else render stack := by
  have clean : SLASH ∉ comp := (plain comp (by simp)).2
  split
  · rename_i root
    subst root
    have whole : render ([] ++ [comp]) = [] ++ SLASH :: comp := by simp [render, List.intercalate]
    rw [whole, parent_append _ clean]
  · rename_i nonempty
    have whole : render (stack ++ [comp]) = render stack ++ SLASH :: comp := by
      rw [render, intercalate_concat nonempty, render, List.cons_append]
    rw [whole, parent_append _ clean]

def paths (fs : Ramfs) : List Path := fs.entries.map Prod.fst

/-- The entry above is there, or it is the root. -/
def HasParent (fs : Ramfs) (path : Path) : Prop := parent path = [] ∨ parent path ∈ fs.paths

/-- Every entry lies in an entry or in the root. -/
def Rooted (fs : Ramfs) : Prop := ∀ path ∈ fs.paths, fs.HasParent path

/-- `stat` finds a directory above every path that it finds. -/
def TreeClosed (fs : Ramfs) : Prop :=
  ∀ stack, Plain stack → (fs.statCall (render stack)).isSome → ∀ above below, stack = above ++ below →
    below ≠ [] → ∃ size, fs.statCall (render above) = some (.directory, size)

variable {above below : List (List UInt8)}

theorem Rooted.chain (h : fs.Rooted) (plain : Plain (above ++ comp :: below))
    (mem : render (above ++ comp :: below) ∈ fs.paths) : render (above ++ [comp]) ∈ fs.paths := by
  induction below using List.reverseRecOn with
  | nil => exact mem
  | append_singleton below c ih =>
    have longer : above ++ comp :: (below ++ [c]) = (above ++ comp :: below) ++ [c] := by simp
    rw [longer] at plain mem
    apply ih
    · exact fun x hx => plain x (List.mem_append_left _ hx)
    · have up := h _ mem
      rw [HasParent, parent_render plain, if_neg (by simp)] at up
      rcases up with empty | there
      · cases empty
      · exact there

theorem statCall_above (plain : Plain (above ++ [comp])) (mem : render (above ++ [comp]) ∈ fs.paths) :
    fs.statCall (render above) = some (.directory, 0) := by
  have below : comp ∈ fs.listDir (render above) :=
    (mem_listDir fun x hx => plain x (List.mem_append_left _ hx)).mpr ⟨plain comp (by simp), mem⟩
  rw [statCall, if_pos (.inr (List.ne_nil_of_mem below))]

theorem Rooted.closed (h : fs.Rooted) : fs.TreeClosed := by
  rintro stack plain found above below rfl nonempty
  obtain ⟨comp, below, rfl⟩ := List.exists_cons_of_ne_nil nonempty
  -- the path is an entry, or an entry lies directly below it
  have entry : ∃ rest, Plain (above ++ comp :: rest) ∧ render (above ++ comp :: rest) ∈ fs.paths := by
    by_cases listed : fs.listDir (render (above ++ comp :: below)) = []
    · refine ⟨below, plain, ?_⟩
      have other : render (above ++ comp :: below) ≠ ascii "/" := render_ne_root plain (by simp)
      rw [statCall, if_neg (by simp [listed, other]), Option.isSome_bind] at found
      refine Keyed.get_isSome.mp ?_
      cases at_ : fs.openPath (render (above ++ comp :: below)) with
      | none => simp [at_] at found
      | some h => simpa [openPath] using congrArg Option.isSome at_
    · obtain ⟨c, hc⟩ := List.exists_mem_of_ne_nil _ listed
      obtain ⟨one, mem⟩ := (mem_listDir plain).mp hc
      have longer : above ++ comp :: (below ++ [c]) = (above ++ comp :: below) ++ [c] := by simp
      exact ⟨below ++ [c], longer ▸ Plain.concat plain one, longer ▸ mem⟩
  obtain ⟨rest, plain', mem⟩ := entry
  exact ⟨0, statCall_above (fun x hx => plain' x (by simp at hx ⊢; tauto)) (h.chain plain' mem)⟩

/-! ## Steps -/

variable {node : RamfsNode} {old new : Path}

theorem paths_push : (fs.push path node).paths = fs.paths ++ [path] := by simp [paths, push]

theorem HasParent.mono {fs' : Ramfs} (h : fs.HasParent path) (more : fs.paths ⊆ fs'.paths) :
    fs'.HasParent path :=
  h.imp_right fun mem => more mem

theorem Rooted.push (h : fs.Rooted) (up : fs.HasParent path) : (fs.push path node).Rooted := by
  have more : fs.paths ⊆ (fs.push path node).paths := by simp [paths_push]
  intro p hp
  rw [paths_push, List.mem_append, List.mem_singleton] at hp
  rcases hp with there | rfl
  · exact (h p there).mono more
  · exact up.mono more

theorem rooted_congr {fs' : Ramfs} (same : fs'.entries = fs.entries) (h : fs.Rooted) : fs'.Rooted := by
  simpa only [Rooted, HasParent, paths, same] using h

theorem mkdir_cases (fs : Ramfs) (path : Path) :
    (path ∈ fs.paths ∧ (fs.change (fs.mkdir path)).2 = fs) ∨
      (fs.change (fs.mkdir path)).2 = fs.push path ⟨.directory, []⟩ := by
  rw [mkdir, any_entries, openPath]
  cases found : Keyed.get fs.entries path with
  | none => exact .inr rfl
  | some h => exact .inl ⟨Keyed.get_isSome.mp (by simp [found]), rfl⟩

theorem writeFile_cases (fs : Ramfs) (path : Path) (data : List UInt8) :
    (fs.change (fs.writeFile path data)).2.entries = fs.entries ∨
      (fs.openPath path = none ∧ (fs.change (fs.writeFile path data)).2 = fs.push path ⟨.regular, data⟩) := by
  unfold writeFile
  cases found : fs.entries.find? (·.1 = path) with
  | none => exact .inr ⟨by simp [openPath, Keyed.get, found], rfl⟩
  | some entry => exact .inl rfl

theorem Rooted.mkdir (h : fs.Rooted) (path : Path) (up : fs.openPath path = none → fs.HasParent path) :
    (fs.change (fs.mkdir path)).2.Rooted := by
  rw [Ramfs.mkdir, any_entries]
  cases found : fs.openPath path with
  | none => exact h.push (up found)
  | some _ => exact h

theorem Rooted.writeFile (h : fs.Rooted) {data : List UInt8}
    (up : fs.openPath path = none → fs.HasParent path) :
    (fs.change (fs.writeFile path data)).2.Rooted := by
  rcases writeFile_cases fs path data with same | ⟨absent, pushed⟩
  · exact rooted_congr same h
  · rw [pushed]
    exact h.push (up absent)

theorem Rooted.unlink (h : fs.Rooted) (leaf : ∀ p ∈ fs.paths, parent p ≠ path) :
    (fs.change (fs.unlink path)).2.Rooted := by
  unfold Ramfs.unlink
  split
  · intro p hp
    have there : p ∈ fs.paths := (List.Sublist.map Prod.fst List.eraseP_sublist).subset hp
    exact (h p there).imp_right (Keyed.mem_keys_remove (leaf p there))
  · exact h

theorem Rooted.rename (h : fs.Rooted) (leaf : ∀ p ∈ fs.paths, parent p ≠ old)
    (up : parent new = [] ∨ (parent new ∈ fs.paths ∧ parent new ≠ old)) :
    (fs.change (fs.rename old new)).2.Rooted := by
  unfold Ramfs.rename
  split
  · intro p hp
    obtain ⟨entry, mem, rfl⟩ := List.mem_map.mp hp
    rcases Keyed.mem_rekey mem with there | renamed
    · have there : entry.1 ∈ fs.paths := List.mem_map_of_mem there
      exact (h _ there).imp_right (Keyed.mem_keys_rekey (leaf _ there))
    · rw [renamed]
      exact up.imp_right fun ⟨there, other⟩ => Keyed.mem_keys_rekey other there
  · exact h

/-- New entries lie in an entry or in the root, and nothing lies below what is removed. -/
def CallFits (fs : Ramfs) : Call → Prop
  | .open_ cwd path flags => flags &&& O_CREAT ≠ 0 → fs.openPath (resolvePath cwd path) = none →
      fs.HasParent (resolvePath cwd path)
  | .mkdir cwd path => fs.openPath (resolvePath cwd path) = none → fs.HasParent (resolvePath cwd path)
  | .rename cwd old new => resolvePath cwd old = resolvePath cwd new ∨
      (∀ p ∈ fs.paths, parent p ≠ resolvePath cwd old) ∧ (parent (resolvePath cwd new) = [] ∨
        (parent (resolvePath cwd new) ∈ fs.paths ∧ parent (resolvePath cwd new) ≠ resolvePath cwd old))
  | .unlink cwd path => ∀ p ∈ fs.paths, parent p ≠ resolvePath cwd path

theorem Rooted.call (h : fs.Rooted) {c : Call} (fits : fs.CallFits c) : (fs.call c).Rooted := by
  cases c with
  | open_ cwd path flags =>
    simp only [Ramfs.call, openCall]
    split
    · exact h
    split
    · exact h
    split
    · split
      · exact h.writeFile (fits ‹_›)
      · exact h
    · rename_i there
      split
      · exact h.writeFile fun absent => absurd absent there
      · exact h
  | mkdir cwd path =>
    simp only [Ramfs.call, mkdirCall]
    split
    · exact h
    · exact h.mkdir _ fits
  | rename cwd old new =>
    rcases fits with same | ⟨leaf, up⟩
    · simp only [Ramfs.call, same, Ramfs.rename, Keyed.rekey_self]
      split <;> exact h
    · exact h.rename leaf up
  | unlink cwd path => exact h.unlink fits

/-! ## Runs -/

theorem Rooted.addDirs (h : fs.Rooted) (dirs : List Path) (top : ∀ dir ∈ dirs, parent dir = []) :
    (dirs.foldl (fun fs dir => (fs.change (fs.mkdir dir)).2) fs).Rooted ∧
      fs.paths ++ dirs ⊆ (dirs.foldl (fun fs dir => (fs.change (fs.mkdir dir)).2) fs).paths := by
  induction dirs generalizing fs with
  | nil => simpa using h
  | cons dir dirs ih =>
    rw [List.foldl_cons]
    obtain ⟨rooted, more⟩ := ih (h.mkdir dir fun _ => .inl (top dir List.mem_cons_self))
      fun d hd => top d (List.mem_cons_of_mem _ hd)
    refine ⟨rooted, ?_⟩
    have step : fs.paths ++ [dir] ⊆ (fs.change (fs.mkdir dir)).2.paths := by
      rcases mkdir_cases fs dir with ⟨there, same⟩ | pushed
      · rw [same]
        grind
      · rw [pushed, paths_push]
        grind
    grind

theorem Rooted.addFiles (h : fs.Rooted) {files : List Path} (up : ∀ file ∈ files, parent file ∈ fs.paths) :
    (files.foldl (fun fs file =>
      if fs.openPath file = none then (fs.change (fs.writeFile file [])).2 else fs) fs).Rooted := by
  induction files generalizing fs with
  | nil => exact h
  | cons file files ih =>
    rw [List.foldl_cons]
    have first := up file List.mem_cons_self
    have rest := fun f hf => up f (List.mem_cons_of_mem _ hf)
    by_cases absent : fs.openPath file = none
    · rw [if_pos absent]
      apply ih (h.writeFile fun _ => .inr first)
      intro f hf
      rcases writeFile_cases fs file [] with same | ⟨-, pushed⟩
      · simpa only [paths, same] using rest f hf
      · rw [pushed, paths_push]
        exact List.mem_append_left _ (rest f hf)
    · rw [if_neg absent]
      exact ih h rest

theorem rooted_populateRootfs {initramfs : Option (List UInt8)} (h : (extracted initramfs).Rooted) :
    (populateRootfs initramfs).Rooted := by
  obtain ⟨rooted, more⟩ := h.addDirs [ascii "/dev", ascii "/proc", ascii "/tmp", ascii "/etc"] (by decide)
  have dev : ascii "/dev" ∈ _ := more (List.mem_append_right _ List.mem_cons_self)
  refine rooted.addFiles fun file hf => ?_
  have parents : ∀ file ∈ [ascii "/dev/null", ascii "/dev/zero", ascii "/dev/tty"],
      parent file = ascii "/dev" := by decide
  rw [parents file hf]
  exact dev

/-- The root file system at the start, from an archive that lists the directories of its entries. -/
def Start (fs : Ramfs) : Prop := ∃ initramfs, (extracted initramfs).Rooted ∧ fs = populateRootfs initramfs

def FitCall (fs fs' : Ramfs) : Prop := ∃ c, fs.CallFits c ∧ fs' = fs.call c

/-- If the archive lists the directories of its entries, new entries lie in an entry or in the root,
and only what has nothing below it is removed or renamed, the tree stays closed. -/
theorem tree_stays_closed (run : Reachable Start FitCall fs) : fs.TreeClosed := by
  have rooted : fs.Rooted := by
    refine run.invariant (P := Rooted) ?_ ?_
    · rintro fs ⟨initramfs, h, rfl⟩
      exact rooted_populateRootfs h
    · rintro fs fs' h ⟨c, fits, rfl⟩
      exact h.call fits
  exact rooted.closed

/-- A directory and a file in it, without an archive. -/
theorem tree_stays_closed_mkdir :
    TreeClosed (((populateRootfs none).call (.mkdir (ascii "/") (ascii "a"))).call
      (.open_ (ascii "/a") (ascii "b") O_CREAT)) := by
  have run₀ : Reachable Start FitCall (populateRootfs none) := .start ⟨none, nofun, rfl⟩
  have run₁ : Reachable Start FitCall ((populateRootfs none).call (.mkdir (ascii "/") (ascii "a"))) :=
    run₀.next ⟨.mkdir (ascii "/") (ascii "a"), fun _ => .inl (by decide), rfl⟩
  exact tree_stays_closed
    (run₁.next ⟨.open_ (ascii "/a") (ascii "b") O_CREAT, fun _ _ => .inr (by decide +kernel), rfl⟩)

/-- A file can be made without the directories above it. -/
theorem open_creates_orphan :
    let fs := (populateRootfs none).call (.open_ (ascii "/") (ascii "a/b/c") O_CREAT)
    ¬ fs.TreeClosed ∧ fs.statCall (ascii "/a/b/c") = some (.regular, 0) ∧ fs.statCall (ascii "/a") = none := by
  intro fs
  have file : fs.statCall (ascii "/a/b/c") = some (.regular, 0) := by decide +kernel
  have missing : fs.statCall (ascii "/a") = none := by decide +kernel
  refine ⟨fun closed => ?_, file, missing⟩
  have plain : Plain [ascii "a", ascii "b", ascii "c"] := by
    unfold Plain
    decide
  have whole : render [ascii "a", ascii "b", ascii "c"] = ascii "/a/b/c" := by decide
  obtain ⟨size, found⟩ := closed _ plain (by rw [whole, file]; rfl) [ascii "a"] [ascii "b", ascii "c"]
    rfl (by simp)
  have first : render [ascii "a"] = ascii "/a" := by decide
  rw [first, missing] at found
  cases found

end Ramfs
end Ferrum
