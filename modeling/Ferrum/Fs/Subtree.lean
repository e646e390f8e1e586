import Ferrum.Fs.Tree

/-!
# Renaming a directory

The entries below a directory are those whose path begins with the path of the directory and a slash.
`rename` gives a new path to one entry only, so a directory moves if nothing lies below it, and leaves
its contents behind otherwise.
-/
namespace Ferrum.Ramfs

variable {fs fs' : Ramfs} {dir path old new name : Path}

/-- What the paths below a directory begin with. -/
def under (dir : Path) : Path := if dir = ascii "/" then ascii "/" else dir ++ ascii "/"

/-- The path is `dir/q`, for some relative path `q`. -/
def Below (dir path : Path) : Prop := ∃ q, q ≠ [] ∧ path = under dir ++ q

theorem Below.longer (below : Below dir path) : dir.length < path.length := by
  obtain ⟨q, some, rfl⟩ := below
  have pos : 0 < q.length := List.length_pos_iff.mpr some
  rw [List.length_append, under]
  split
  next root =>
    rw [root]
    omega
  next =>
    rw [List.length_append]
    omega

theorem Below.ne (below : Below dir path) : path ≠ dir := by
  rintro rfl
  exact Nat.lt_irrefl _ below.longer

theorem openPath_eq_none : fs.openPath path = none ↔ path ∉ fs.paths := by
  rw [openPath, Keyed.get_eq_none, paths, List.mem_map]
  constructor
  · rintro absent ⟨e, mem, rfl⟩
    exact absent e mem rfl
  · rintro absent e mem rfl
    exact absent ⟨e, mem, rfl⟩

theorem mem_listDir_under : name ∈ fs.listDir dir ↔
    (name ≠ [] ∧ SLASH ∉ name) ∧ under dir ++ name ∈ fs.paths := by
  simp only [listDir, ← under.eq_def]
  generalize under dir = above
  simp only [List.mem_filterMap, Option.ite_none_right_eq_some, Option.some.injEq, paths, List.mem_map]
  constructor
  · rintro ⟨entry, mem, ⟨⟨rest, split⟩, some, clean⟩, rfl⟩
    exact ⟨⟨some, clean⟩, entry, mem, by simp [← split]⟩
  · rintro ⟨⟨some, clean⟩, entry, mem, same⟩
    refine ⟨entry, mem, ?_⟩
    rw [same]
    simp [some, clean]

/-- The directory is at the new path with everything below it, and nothing else has changed. -/
structure Moved (fs fs' : Ramfs) (old new : Path) : Prop where
  directory : fs'.openPath new = fs.openPath old
  below : ∀ q, q ≠ [] → fs'.openPath (under new ++ q) = fs.openPath (under old ++ q)
  gone : ∀ path, path = old ∨ Below old path → fs'.openPath path = none
  names : ∀ name, name ∈ fs'.listDir new ↔ name ∈ fs.listDir old
  others : ∀ path, path ≠ old → path ≠ new → ¬ Below old path → ¬ Below new path →
    fs'.openPath path = fs.openPath path

theorem notMem_listDir (empty : ∀ path, Below dir path → fs.openPath path = none) (name : Path) :
    name ∉ fs.listDir dir := by
  intro listed
  obtain ⟨⟨some, -⟩, mem⟩ := mem_listDir_under.mp listed
  exact openPath_eq_none.mp (empty _ ⟨name, some, rfl⟩) mem

/-- A successful rename to a path that is free moves the directory if and only if nothing lies below
it. -/
theorem rename_moves_iff (distinct : (fs.entries.map Prod.fst).Nodup)
    (free : ∀ path, path = new ∨ Below new path → fs.openPath path = none) (outside : ¬ Below old new)
    (ok : fs.rename old new = .ok fs') :
    Moved fs fs' old new ↔ ∀ path, Below old path → fs.openPath path = none := by
  have refines : Refines fs ⟨fs.openPath, fs.nodes⟩ := ⟨distinct, fun _ => rfl, rfl⟩
  have other : old ≠ new := by
    rintro rfl
    rw [rename, any_entries, free old (.inl rfl)] at ok
    cases ok
  obtain ⟨there, moved, gone, rest, -⟩ := refines.after_rename other (free new (.inl rfl)) ok
  -- below the old path and below the new one nothing changes
  have belowOld {path} (below : Below old path) : fs'.openPath path = fs.openPath path := by
    refine rest path below.ne ?_
    rintro rfl
    exact outside below
  have belowNew {path} (below : Below new path) : fs'.openPath path = none := by
    refine (rest path ?_ below.ne).trans (free path (.inr below))
    rintro rfl
    rw [free path (.inr below)] at there
    cases there
  constructor
  · intro move path below
    rw [← belowOld below, move.gone path (.inr below)]
  · intro empty
    refine ⟨moved, fun q some => ?_, ?_, fun name => ?_, fun path notOld notNew _ _ =>
      rest path notOld notNew⟩
    · rw [belowNew ⟨q, some, rfl⟩, empty _ ⟨q, some, rfl⟩]
    · rintro path (rfl | below)
      · exact gone
      · rw [belowOld below, empty path below]
    · exact iff_of_false (notMem_listDir (fun path below => belowNew below) name)
        (notMem_listDir empty name)

/-- An empty directory moves. -/
theorem rename_empty_moves :
    Moved ⟨[(ascii "/a", 0), (ascii "/b", 1)], [⟨.directory, []⟩, ⟨.regular, []⟩]⟩
      ⟨[(ascii "/c", 0), (ascii "/b", 1)], [⟨.directory, []⟩, ⟨.regular, []⟩]⟩ (ascii "/a") (ascii "/c") := by
  have entries {path : Path} (absent : path ≠ ascii "/a" ∧ path ≠ ascii "/b") :
      openPath ⟨[(ascii "/a", 0), (ascii "/b", 1)], [⟨.directory, []⟩, ⟨.regular, []⟩]⟩ path = none := by
    simp [openPath, Ne.symm absent.1, Ne.symm absent.2]
  have short {dir path : Path} (two : dir.length = 2) (below : Below dir path) :
      path ≠ ascii "/a" ∧ path ≠ ascii "/b" := by
    constructor
    · rintro rfl
      exact absurd below.longer (by rw [two]; decide)
    · rintro rfl
      exact absurd below.longer (by rw [two]; decide)
  have outside : ¬ Below (ascii "/a") (ascii "/c") := fun below => absurd below.longer (by decide)
  refine (rename_moves_iff (by decide) ?_ outside (by decide)).mpr
    fun path below => entries (short (by decide) below)
  rintro path (rfl | below)
  · decide
  · exact entries (short (by decide) below)

/-- A directory with a file: the directory entry moves and the file stays where it was. -/
theorem rename_leaves_contents : ∃ fs fs' : Ramfs,
    ((populateRootfs none).call (.mkdir (ascii "/") (ascii "a"))).call
      (.open_ (ascii "/") (ascii "a/f") O_CREAT) = fs ∧
    fs.rename (ascii "/a") (ascii "/b") = .ok fs' ∧ (fs'.openPath (ascii "/a/f")).isSome ∧
    fs'.openPath (ascii "/b/f") = none ∧ fs.listDir (ascii "/a") = [ascii "f"] ∧
    fs'.listDir (ascii "/b") = [] ∧ ¬ Moved fs fs' (ascii "/a") (ascii "/b") := by
  refine ⟨_, (((populateRootfs none).call (.mkdir (ascii "/") (ascii "a"))).call
      (.open_ (ascii "/") (ascii "a/f") O_CREAT)).call (.rename (ascii "/") (ascii "a") (ascii "b")), rfl,
    by decide +kernel, by decide +kernel, by decide +kernel, by decide +kernel, by decide +kernel, ?_⟩
  intro moved
  have stays : Ramfs.openPath ((((populateRootfs none).call (.mkdir (ascii "/") (ascii "a"))).call
      (.open_ (ascii "/") (ascii "a/f") O_CREAT)).call (.rename (ascii "/") (ascii "a") (ascii "b")))
        (ascii "/a/f") ≠ none := by decide +kernel
  exact stays (moved.gone _ (.inr ⟨ascii "f", by decide, by decide⟩))

end Ferrum.Ramfs
