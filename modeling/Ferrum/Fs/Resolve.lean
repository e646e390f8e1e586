import Ferrum.Fs.Tree

/-!
# Paths and working directories

`resolve_path` runs a stack machine over the components of a path. On a working directory that it made
itself it is idempotent, and resolving in two steps is resolving the joined path, so that `chdir` followed
by `open` reaches the file of the full path.
-/
namespace Ferrum

variable {stack base : List (List UInt8)} {comp cwd raw a b c : Path}

/-- What one component does to the stack. -/
def visit (stack : List (List UInt8)) (comp : List UInt8) : List (List UInt8) :=
  if comp = [] ∨ comp = ascii "." then stack
  else if comp = ascii ".." then stack.dropLast
  else stack ++ [comp]

/-- The stack that `resolve_path` starts with. -/
def baseOf (cwd rawPath : Path) : List (List UInt8) :=
  if rawPath.head? = some SLASH then [] else (splitSlash cwd).filter (· ≠ [])

theorem resolvePath_eq (cwd rawPath : Path) :
    resolvePath cwd rawPath = render ((splitSlash rawPath).foldl visit (baseOf cwd rawPath)) := rfl

/-- A component that stands for itself. -/
structure Ordinary (comp : List UInt8) : Prop where
  noSlash : SLASH ∉ comp
  nonempty : comp ≠ []
  notDot : comp ≠ ascii "."
  notDots : comp ≠ ascii ".."

/-! ## Splitting -/

theorem splitSlash_ne_nil (a : Path) : splitSlash a ≠ [] := by
  cases a with
  | nil => exact List.cons_ne_nil _ _
  | cons b a =>
    rw [splitSlash]
    split
    · exact List.cons_ne_nil _ _
    · split
      · exact List.cons_ne_nil _ _
      · exact List.cons_ne_nil _ _

theorem splitSlash_append (a b : Path) :
    splitSlash (a ++ SLASH :: b) = splitSlash a ++ splitSlash b := by
  induction a with
  | nil => simp [splitSlash]
  | cons x a ih =>
    rw [List.cons_append, splitSlash, splitSlash, ih]
    split
    · rfl
    · cases split : splitSlash a with
      | nil => exact absurd split (splitSlash_ne_nil a)
      | cons comp rest => rfl

theorem splitSlash_of_notMem (plain : SLASH ∉ comp) : splitSlash comp = [comp] := by
  induction comp with
  | nil => rfl
  | cons x comp ih =>
    simp only [List.mem_cons, not_or] at plain
    rw [splitSlash, if_neg (Ne.symm plain.1), ih plain.2]

theorem splitSlash_intercalate (nonempty : stack ≠ []) (plain : ∀ comp ∈ stack, SLASH ∉ comp) :
    splitSlash ([SLASH].intercalate stack) = stack := by
  induction stack with
  | nil => exact absurd rfl nonempty
  | cons comp stack ih =>
    cases stack with
    | nil => simpa [List.intercalate] using splitSlash_of_notMem (plain comp List.mem_cons_self)
    | cons next stack =>
      have joined : [SLASH].intercalate (comp :: next :: stack) =
          comp ++ SLASH :: [SLASH].intercalate (next :: stack) := by simp [List.intercalate]
      rw [joined, splitSlash_append, splitSlash_of_notMem (plain comp List.mem_cons_self),
        ih (List.cons_ne_nil _ _) fun comp' mem => plain comp' (List.mem_cons_of_mem _ mem)]
      rfl

theorem splitSlash_render (ordinary : ∀ comp ∈ stack, Ordinary comp) :
    splitSlash (render stack) = [] :: if stack = [] then [[]] else stack := by
  rw [render, splitSlash, if_pos rfl]
  split
  next empty =>
    subst empty
    rfl
  next nonempty => rw [splitSlash_intercalate nonempty fun comp mem => (ordinary comp mem).noSlash]

/-! ## The stack machine -/

theorem Ordinary.visit (h : Ordinary comp) : visit stack comp = stack ++ [comp] := by
  rw [Ferrum.visit, if_neg (not_or.mpr ⟨h.nonempty, h.notDot⟩), if_neg h.notDots]

theorem foldl_visit_ordinary {comps : List (List UInt8)} (ordinary : ∀ comp ∈ comps, Ordinary comp) :
    comps.foldl visit stack = stack ++ comps := by
  induction comps generalizing stack with
  | nil => rw [List.foldl_nil, List.append_nil]
  | cons comp comps ih =>
    rw [List.foldl_cons, (ordinary comp List.mem_cons_self).visit,
      ih fun comp' mem => ordinary comp' (List.mem_cons_of_mem _ mem), List.append_assoc]
    rfl

theorem visit_ordinary (ordinary : ∀ comp ∈ stack, Ordinary comp) (plain : SLASH ∉ comp) :
    ∀ comp' ∈ visit stack comp, Ordinary comp' := by
  unfold visit
  split
  · exact ordinary
  next named =>
    split
    · exact fun comp' mem => ordinary comp' ((List.dropLast_sublist stack).subset mem)
    next notDots =>
      intro comp' mem
      rcases List.mem_append.mp mem with old | new
      · exact ordinary comp' old
      · obtain rfl := List.mem_singleton.mp new
        obtain ⟨nonempty, notDot⟩ := not_or.mp named
        exact ⟨plain, nonempty, notDot, notDots⟩

theorem foldl_visit {comps : List (List UInt8)} (ordinary : ∀ comp ∈ stack, Ordinary comp)
    (plain : ∀ comp ∈ comps, SLASH ∉ comp) :
    ∀ comp ∈ comps.foldl visit stack, Ordinary comp := by
  induction comps generalizing stack with
  | nil => exact ordinary
  | cons comp comps ih =>
    exact ih (visit_ordinary ordinary (plain comp List.mem_cons_self))
      fun comp' mem => plain comp' (List.mem_cons_of_mem _ mem)

/-- The components of a rendered path are all that the machine finds in it. -/
theorem foldl_visit_render (ordinary : ∀ comp ∈ stack, Ordinary comp) :
    (splitSlash (render stack)).foldl visit [] = stack := by
  have skipped (s : List (List UInt8)) : visit s [] = s := if_pos (.inl rfl)
  rw [splitSlash_render ordinary, List.foldl_cons, skipped]
  split
  next empty =>
    subst empty
    exact skipped []
  next => exact foldl_visit_ordinary ordinary

theorem baseOf_absolute (cwd : Path) (stack : List (List UInt8)) : baseOf cwd (render stack) = [] :=
  if_pos rfl

theorem baseOf_render (ordinary : ∀ comp ∈ stack, Ordinary comp) (relative : raw.head? ≠ some SLASH) :
    baseOf (render stack) raw = stack := by
  rw [baseOf, if_neg relative, splitSlash_render ordinary, List.filter_cons_of_neg (by simp)]
  split
  next empty =>
    subst empty
    rfl
  next =>
    refine List.filter_eq_self.mpr fun comp mem => ?_
    simpa using (ordinary comp mem).nonempty

/-! ## Working directories -/

/-- The test of `chdir`. -/
def Ramfs.accepts (fs : Ramfs) (path : Path) : Bool :=
  path = ascii "/" || (fs.openPath path).isSome || !(fs.listDir path).isEmpty

/-- The working directory after a `chdir`; a refused one leaves it as it was. -/
def Ramfs.chdir (fs : Ramfs) (cwd rawPath : Path) : Path :=
  if fs.accepts (resolvePath cwd rawPath) then resolvePath cwd rawPath else cwd

/-- The paths that `resolve_path` makes, starting in the root. -/
inductive Cwd : Path → Prop
  | root : Cwd (ascii "/")
  | resolved {cwd : Path} (h : Cwd cwd) (raw : Path) : Cwd (resolvePath cwd raw)

/-- In a rendered directory the machine ends with ordinary components. -/
theorem ordinary_stack (ordinary : ∀ comp ∈ stack, Ordinary comp) (raw : Path) :
    ∀ comp ∈ (splitSlash raw).foldl visit (baseOf (render stack) raw), Ordinary comp := by
  refine foldl_visit ?_ (splitSlash_plain raw)
  by_cases relative : raw.head? = some SLASH
  · rw [baseOf, if_pos relative]
    exact nofun
  · rw [baseOf_render ordinary relative]
    exact ordinary

theorem Cwd.rendered (h : Cwd cwd) : ∃ stack, (∀ comp ∈ stack, Ordinary comp) ∧ cwd = render stack := by
  induction h with
  | root => exact ⟨[], nofun, rfl⟩
  | resolved h raw ih =>
    obtain ⟨stack, ordinary, rfl⟩ := ih
    exact ⟨_, ordinary_stack ordinary raw, resolvePath_eq _ _⟩

/-- An absolute path without a trailing slash and without empty, `.` or `..` components. -/
structure NormalForm (path : Path) : Prop where
  absolute : path.head? = some SLASH
  noTrailing : path.getLast? = some SLASH → path = ascii "/"
  components : path ≠ ascii "/" →
    ∀ comp ∈ (splitSlash path).tail, comp ≠ [] ∧ comp ≠ ascii "." ∧ comp ≠ ascii ".."

theorem plain_of_ordinary (ordinary : ∀ comp ∈ stack, Ordinary comp) : Plain stack := fun comp mem =>
  ⟨(ordinary comp mem).nonempty, (ordinary comp mem).noSlash⟩

theorem normalForm_render (ordinary : ∀ comp ∈ stack, Ordinary comp) : NormalForm (render stack) := by
  refine ⟨rfl, fun trailing => ?_, fun notRoot comp mem => ?_⟩
  · rcases List.eq_nil_or_concat' stack with rfl | ⟨front, last, rfl⟩
    · rfl
    · -- the last byte of the path is a byte of the last component
      have ends := ordinary last (by simp)
      rw [render_concat (plain_of_ordinary fun comp mem => ordinary comp (by simp [mem])),
        List.getLast?_append_of_ne_nil _ ends.nonempty] at trailing
      exact absurd (List.mem_of_getLast? trailing) ends.noSlash
  · rw [splitSlash_render ordinary, List.tail_cons] at mem
    split at mem
    next empty => exact absurd (congrArg render empty) notRoot
    next => exact ⟨(ordinary comp mem).nonempty, (ordinary comp mem).notDot, (ordinary comp mem).notDots⟩

/-- On the working directories that the kernel makes, a resolved path is in normal form, resolving it
again changes nothing, and resolving `b` in the directory `a` is resolving `a/b`. -/
theorem resolve_path_laws (h : Cwd cwd) (raw : Path) :
    NormalForm (resolvePath cwd raw) ∧
      (∀ c, resolvePath c (resolvePath cwd raw) = resolvePath cwd raw) ∧
      ∀ b, raw ≠ [] → b.head? ≠ some SLASH →
        resolvePath (resolvePath cwd raw) b = resolvePath cwd (raw ++ SLASH :: b) := by
  obtain ⟨directory, ordinary, rfl⟩ := h.rendered
  have stack := ordinary_stack ordinary raw
  rw [resolvePath_eq _ raw]
  refine ⟨normalForm_render stack, fun c => ?_, fun b some relative => ?_⟩
  · rw [resolvePath_eq c, baseOf_absolute, foldl_visit_render stack]
  · have below : baseOf (render directory) (raw ++ SLASH :: b) = baseOf (render directory) raw := by
      rw [baseOf, baseOf, List.head?_append_of_ne_nil _ some]
    rw [resolvePath_eq _ b, baseOf_render stack relative, resolvePath_eq, below, splitSlash_append,
      List.foldl_append]

/-- After `chdir` to `a/../b` from `/etc`, the path `c` is `/etc/b/c`. -/
theorem resolve_in_chdir : NormalForm (ascii "/etc/b") ∧
    resolvePath (ascii "/etc/b") (ascii "c") = resolvePath (ascii "/etc") (ascii "a/../b/c") := by
  have laws := resolve_path_laws (Cwd.root.resolved (ascii "etc")) (ascii "a/../b")
  exact ⟨laws.1, laws.2.2 (ascii "c") (by decide) (by decide)⟩

end Ferrum
