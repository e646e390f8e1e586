import Ferrum.Fd.Model
import Mathlib

/-!
# Descriptor slots and the end counts of pipes

Each operation on a descriptor table changes the end counts of every pipe by as much as it changes the
number of slots of the table that hold an end of it. `alloc_from` is the one that does not.
-/
namespace Ferrum

inductive PipeEnd where
  | read
  | write
  deriving DecidableEq, Repr

def PipeInner.ends (inner : PipeInner) : PipeEnd → Nat
  | .read => inner.readEnds
  | .write => inner.writeEnds

namespace OpenFile

def allows (file : OpenFile) : PipeEnd → Bool
  | .read => file.readable
  | .write => file.writable

/-- `1` for an open file of the pipe `q`. -/
def refers (q : Nat) (file : OpenFile) : Nat := if file.pipe = some q then 1 else 0

/-- `1` for an open file that is this end of the pipe `q`. -/
def holds (side : PipeEnd) (q : Nat) (file : OpenFile) : Nat :=
  if file.pipe = some q ∧ file.allows side then 1 else 0

theorem holds_le_refers (side : PipeEnd) (q : Nat) (file : OpenFile) :
    file.holds side q ≤ file.refers q := by
  unfold holds refers
  split <;> simp_all

end OpenFile

namespace Store

open OpenFile

variable {st st' : Store} {f q : Nat} {side : PipeEnd}

theorem pipe_setPipe (inside : q < st.pipes.length) (r : Nat) (inner : PipeInner) :
    (st.setPipe r inner).pipe q = if q = r then inner else st.pipe q := by
  simp only [pipe, setPipe, List.getD_eq_getElem?_getD, List.getElem?_set]
  by_cases same : q = r
  · subst same
    simp [inside]
  · simp [same, Ne.symm same]

@[simp] theorem file_setPipe (r : Nat) (inner : PipeInner) :
    (st.setPipe r inner).file f = st.file f := rfl

@[simp] theorem length_setPipe (r : Nat) (inner : PipeInner) :
    (st.setPipe r inner).pipes.length = st.pipes.length := by simp [setPipe]

@[simp] theorem files_countEnds (change : Nat → Nat) : (st.countEnds change f).files = st.files := by
  unfold countEnds
  simp only
  split <;> rfl

@[simp] theorem file_countEnds (change : Nat → Nat) (g : Nat) :
    (st.countEnds change f).file g = st.file g := by simp [file]

@[simp] theorem length_countEnds (change : Nat → Nat) :
    (st.countEnds change f).pipes.length = st.pipes.length := by
  unfold countEnds
  simp only
  split <;> simp

theorem ends_countEnds (change : Nat → Nat) (inside : q < st.pipes.length) :
    ((st.countEnds change f).pipe q).ends side =
      if (st.file f).pipe = some q ∧ (st.file f).allows side then change ((st.pipe q).ends side)
      else (st.pipe q).ends side := by
  unfold countEnds
  simp only
  split
  · rename_i none
    simp [none]
  · rename_i r some
    rw [pipe_setPipe inside]
    by_cases same : q = r
    · subst same
      cases side <;> simp [some, PipeInner.ends, allows]
    · have other : r ≠ q := Ne.symm same
      simp [some, same, other]

theorem buf_countEnds (change : Nat → Nat) (inside : q < st.pipes.length) :
    ((st.countEnds change f).pipe q).buf = (st.pipe q).buf := by
  unfold countEnds
  simp only
  split
  · rfl
  · rw [pipe_setPipe inside]
    split
    · rename_i same
      rw [same]
    · rfl

/-- Every pipe that an open file names is there. -/
def Closed (st : Store) : Prop :=
  ∀ f q, f < st.files.length → (st.file f).pipe = some q → q < st.pipes.length

theorem file_newFile_lt (file : OpenFile) (h : f < st.files.length) :
    (st.newFile file).file f = st.file f := by
  simp [Store.file, newFile, List.getElem?_append_left h]

theorem file_newFile (file : OpenFile) : (st.newFile file).file st.files.length = file := by
  simp [Store.file, newFile]

@[simp] theorem length_newFile (file : OpenFile) :
    (st.newFile file).files.length = st.files.length + 1 := by simp [newFile]

@[simp] theorem pipes_newFile (file : OpenFile) : (st.newFile file).pipes = st.pipes := rfl

theorem closed_newFile (h : st.Closed) (file : OpenFile)
    (named : ∀ q, file.pipe = some q → q < st.pipes.length) : (st.newFile file).Closed := by
  intro f q hf hq
  rw [length_newFile] at hf
  rcases Nat.lt_succ_iff_lt_or_eq.mp hf with old | rfl
  · rw [file_newFile_lt file old] at hq
    exact h f q old hq
  · rw [file_newFile] at hq
    exact named q hq

theorem pipe_newPipe_lt (h : q < st.pipes.length) : st.newPipe.2.pipe q = st.pipe q := by
  simp [Store.pipe, newPipe, List.getElem?_append_left h]

theorem pipe_newPipe : st.newPipe.2.pipe st.pipes.length = .new := by simp [Store.pipe, newPipe]

theorem closed_newPipe (h : st.Closed) : st.newPipe.2.Closed := by
  intro f q hf hq
  have : st.newPipe.2.pipes.length = st.pipes.length + 1 := by simp [newPipe]
  rw [this]
  exact (h f q hf hq).trans (Nat.lt_succ_self _)

theorem closed_countEnds (h : st.Closed) (change : Nat → Nat) : (st.countEnds change f).Closed := by
  intro g q hg hq
  rw [files_countEnds] at hg
  rw [file_countEnds] at hq
  rw [length_countEnds]
  exact h g q hg hq

theorem ends_addEnds (inside : q < st.pipes.length) :
    ((st.addEnds f).pipe q).ends side = (st.pipe q).ends side + (st.file f).holds side q := by
  rw [addEnds, ends_countEnds _ inside, holds]
  split <;> rfl

theorem ends_dropEnds (inside : q < st.pipes.length) :
    ((st.dropEnds f).pipe q).ends side = (st.pipe q).ends side - (st.file f).holds side q := by
  rw [dropEnds, ends_countEnds _ inside, holds]
  split <;> rfl

end Store

namespace FdTable

open OpenFile (refers holds)

variable {t t' t'' : FdTable} {st st' st'' : Store} {fd f q : Nat} {side : PipeEnd}

theorem get_set (inside : fd < FD_MAX) (o : Option Nat) (i : Nat) :
    (t.set fd o).get i = if i = fd then o else t.get i := by
  simp only [get, set]
  exact Slots.get_set (t.size ▸ inside)

theorem lt_of_get (h : t.get fd = some f) : fd < FD_MAX := t.size ▸ Slots.lt_of_get h

/-- The total of a weight over the open files in the slots of a table. -/
def load (w : OpenFile → Nat) (t : FdTable) (st : Store) : Nat :=
  Slots.tally (fun f => w (st.file f)) t.entries

theorem load_set (t : FdTable) (st : Store) (w : OpenFile → Nat) (inside : fd < FD_MAX) (o : Option Nat) :
    (t.set fd o).load w st + (t.get fd).elim 0 (fun f => w (st.file f)) =
      t.load w st + o.elim 0 (fun f => w (st.file f)) :=
  Slots.tally_set _ (t.size ▸ inside)

/-- Every slot names an open file. -/
def InRange (t : FdTable) (st : Store) : Prop := ∀ fd f, t.get fd = some f → f < st.files.length

theorem load_congr {w : OpenFile → Nat} (range : t.InRange st)
    (same : ∀ f, f < st.files.length → st'.file f = st.file f) : t.load w st' = t.load w st :=
  Slots.tally_congr _ fun i f h => congrArg w (same f (range i f h))

theorem load_eq_zero {w : OpenFile → Nat} : t.load w st = 0 ↔
    ∀ fd f, t.get fd = some f → w (st.file f) = 0 := Slots.tally_eq_zero_iff _

/-- A table operation under which end counts and slots keep step. -/
structure Balanced (t : FdTable) (st : Store) (t' : FdTable) (st' : Store) : Prop where
  files : ∀ f, f < st.files.length → st'.file f = st.file f
  grows : st.files.length ≤ st'.files.length
  pipes : st.pipes.length ≤ st'.pipes.length
  inRange : t.InRange st → t'.InRange st'
  closed : st.Closed → st'.Closed
  /-- No pipe comes into a table that had no end of it. -/
  refs : ∀ q, q < st.pipes.length → t.load (refers q) st = 0 → t'.load (refers q) st' = 0
  ends : ∀ side q, q < st.pipes.length → t.load (holds side q) st ≤ (st.pipe q).ends side →
    (st'.pipe q).ends side + t.load (holds side q) st =
      (st.pipe q).ends side + t'.load (holds side q) st'
  /-- A new pipe is either dropped at once or has the ends that the table holds. -/
  fresh : ∀ q, st.pipes.length ≤ q → q < st'.pipes.length →
    t'.load (refers q) st' = 0 ∨ ∀ side, (st'.pipe q).ends side = t'.load (holds side q) st'

theorem Balanced.refl (t : FdTable) (st : Store) : Balanced t st t st where
  files _ _ := rfl
  grows := Nat.le_refl _
  pipes := Nat.le_refl _
  inRange h := h
  closed h := h
  refs _ _ h := h
  ends _ _ _ _ := rfl
  fresh _ lo hi := absurd hi (Nat.not_lt.mpr lo)

theorem Balanced.trans (h : Balanced t st t' st') (g : Balanced t' st' t'' st'') :
    Balanced t st t'' st'' where
  files f hf := (g.files f (hf.trans_le h.grows)).trans (h.files f hf)
  grows := h.grows.trans g.grows
  pipes := h.pipes.trans g.pipes
  inRange range := g.inRange (h.inRange range)
  closed closed := g.closed (h.closed closed)
  refs q inside none := g.refs q (inside.trans_le h.pipes) (h.refs q inside none)
  ends side q inside enough := by
    have first := h.ends side q inside enough
    have second := g.ends side q (inside.trans_le h.pipes) (by omega)
    omega
  fresh q lo hi := by
    by_cases early : q < st'.pipes.length
    · rcases h.fresh q lo early with none | counted
      · exact .inl (g.refs q early none)
      · refine .inr fun side => ?_
        have now := counted side
        have := g.ends side q early (by omega)
        omega
    · exact g.fresh q (Nat.le_of_not_lt early) hi

/-- The effect of an operation that counts one open file more or less, and changes no file. -/
theorem balanced_of_ends (files : st'.files = st.files)
    (pipes : st'.pipes.length = st.pipes.length)
    (inRange : t.InRange st → t'.InRange st)
    (refs : ∀ q, t.load (refers q) st = 0 → t'.load (refers q) st = 0)
    (ends : ∀ side q, q < st.pipes.length → t.load (holds side q) st ≤ (st.pipe q).ends side →
      (st'.pipe q).ends side + t.load (holds side q) st =
        (st.pipe q).ends side + t'.load (holds side q) st) : Balanced t st t' st' where
  files f _ := by simp [Store.file, files]
  grows := by rw [files]
  pipes := pipes.ge
  inRange range := by
    have := inRange range
    unfold InRange at this ⊢
    rwa [files]
  closed closed g q hg hq := by
    rw [pipes]
    exact closed g q (files ▸ hg) (by simpa [Store.file, files] using hq)
  refs q inside none := by
    have := refs q none
    simpa [load, Store.file, files] using this
  ends side q inside enough := by
    have := ends side q inside enough
    simpa [load, Store.file, files] using this
  fresh q lo hi := absurd hi (Nat.not_lt.mpr (pipes ▸ lo))

theorem balanced_close (held : t.get fd = some f) :
    Balanced t st (t.set fd none) (st.dropEnds f) := by
  have inside := lt_of_get held
  have less (w : OpenFile → Nat) : (t.set fd none).load w st + w (st.file f) = t.load w st := by
    simpa [held] using load_set t st w inside none
  refine balanced_of_ends (st.files_countEnds _) (st.length_countEnds _) ?_ ?_ ?_
  · intro range i g hg
    rw [get_set inside] at hg
    split at hg
    · cases hg
    · exact range i g hg
  · intro q none
    have := less (refers q)
    omega
  · intro side q lt enough
    have := less (holds side q)
    rw [Store.ends_dropEnds lt]
    omega

theorem balanced_add {old : Nat} (held : t.get old = some f) (inside : fd < FD_MAX)
    (empty : t.get fd = none) : Balanced t st (t.set fd (some f)) (st.addEnds f) := by
  have more (w : OpenFile → Nat) : (t.set fd (some f)).load w st = t.load w st + w (st.file f) := by
    simpa [empty] using load_set t st w inside (some f)
  refine balanced_of_ends (st.files_countEnds _) (st.length_countEnds _) ?_ ?_ ?_
  · intro range i g hg
    rw [get_set inside] at hg
    split at hg
    · cases hg
      exact range old f held
    · exact range i g hg
  · intro q none
    have zero := load_eq_zero.mp none old f held
    rw [more, none, zero]
  · intro side q lt enough
    rw [Store.ends_addEnds lt, more]
    omega

/-- A second slot for an open file that is not a pipe needs no counting. -/
theorem balanced_copy {old : Nat} (held : t.get old = some f) (inside : fd < FD_MAX)
    (empty : t.get fd = none) (plain : (st.file f).pipe = none) :
    Balanced t st (t.set fd (some f)) st := by
  have same : Balanced t st (t.set fd (some f)) (st.addEnds f) := balanced_add held inside empty
  rwa [show st.addEnds f = st by simp [Store.addEnds, Store.countEnds, plain]] at same

theorem load_newFile (w : OpenFile → Nat) (file : OpenFile) (inside : fd < FD_MAX)
    (empty : t.get fd = none) (range : t.InRange st) :
    (t.set fd (some st.files.length)).load w (st.newFile file) = t.load w st + w file := by
  have swap := load_set t (st.newFile file) w inside (some st.files.length)
  rw [empty, load_congr range fun f hf => st.file_newFile_lt file hf] at swap
  simpa [Store.file_newFile] using swap

theorem inRange_newFile (file : OpenFile) (inside : fd < FD_MAX) (range : t.InRange st) :
    (t.set fd (some st.files.length)).InRange (st.newFile file) := by
  intro i g hg
  rw [get_set inside] at hg
  rw [Store.length_newFile]
  split at hg
  · cases hg
    exact Nat.lt_succ_self _
  · exact (range i g hg).trans (Nat.lt_succ_self _)

theorem balanced_alloc (file : OpenFile) (plain : file.pipe = none) (inside : fd < FD_MAX)
    (empty : t.get fd = none) (range : t.InRange st) :
    Balanced t st (t.set fd (some st.files.length)) (st.newFile file) where
  files f hf := st.file_newFile_lt file hf
  grows := by simp
  pipes := Nat.le_refl _
  inRange range := inRange_newFile file inside range
  closed closed := st.closed_newFile closed file (by simp [plain])
  refs q _ none := by
    rw [load_newFile _ file inside empty range, none]
    simp [refers, plain]
  ends side q _ _ := by
    rw [load_newFile _ file inside empty range]
    simp only [holds, plain]
    rfl
  fresh q lo hi := absurd hi (Nat.not_lt.mpr lo)

theorem load_absent (range : t.InRange st) (closed : st.Closed) (absent : st.pipes.length ≤ q) :
    t.load (refers q) st = 0 := by
  refine load_eq_zero.mpr fun i f h => ?_
  unfold refers
  split
  · rename_i named
    exact absurd (closed f q (range i f h) named) (Nat.not_lt.mpr absent)
  · rfl

theorem load_holds_absent (range : t.InRange st) (closed : st.Closed)
    (absent : st.pipes.length ≤ q) : t.load (holds side q) st = 0 := by
  refine load_eq_zero.mpr fun i f h => ?_
  have := load_eq_zero.mp (load_absent range closed absent) i f h
  have := OpenFile.holds_le_refers side q (st.file f)
  omega

theorem alloc_cases (t : FdTable) (st : Store) (file : OpenFile) :
    t.alloc st file = (none, t, st) ∨ ∃ fd, fd < FD_MAX ∧ t.get fd = none ∧
      t.alloc st file = (some fd, t.set fd (some st.files.length), st.newFile file) := by
  unfold alloc
  split
  · rename_i fd free
    obtain ⟨inside, empty⟩ := Slots.firstFree_spec free
    exact .inr ⟨fd, t.size ▸ inside, empty, rfl⟩
  · exact .inl rfl

theorem refers_other {r : Nat} (other : r ≠ q) :
    (OpenFile.pipeRead r).refers q = 0 ∧ (OpenFile.pipeWrite r).refers q = 0 := by
  simp [refers, OpenFile.pipeRead, OpenFile.pipeWrite, other]

theorem holds_other {r : Nat} (other : r ≠ q) :
    (OpenFile.pipeRead r).holds side q = 0 ∧ (OpenFile.pipeWrite r).holds side q = 0 := by
  simp [holds, OpenFile.pipeRead, OpenFile.pipeWrite, other]

/-- What `pipe` has to do: one pipe is new, the table holds both ends of it or none, and nothing else
about the table or the other pipes changes. -/
theorem balanced_newPipe (files : ∀ f, f < st.files.length → st'.file f = st.file f)
    (grows : st.files.length ≤ st'.files.length)
    (pipes : st'.pipes.length = st.pipes.length + 1) (inRange : t'.InRange st') (closed : st'.Closed)
    (same : ∀ side q, q < st.pipes.length → (st'.pipe q).ends side = (st.pipe q).ends side)
    (loads : ∀ w : OpenFile → Nat, w (.pipeRead st.pipes.length) = 0 →
      w (.pipeWrite st.pipes.length) = 0 → t'.load w st' = t.load w st)
    (new : t'.load (refers st.pipes.length) st' = 0 ∨ ∀ side,
      (st'.pipe st.pipes.length).ends side = t'.load (holds side st.pipes.length) st') :
    Balanced t st t' st' where
  files := files
  grows := grows
  pipes := by omega
  inRange _ := inRange
  closed _ := closed
  refs q lt none := by
    have other := refers_other (Nat.ne_of_gt lt)
    rw [loads _ other.1 other.2, none]
  ends side q lt _ := by
    obtain ⟨noRead, noWrite⟩ : (OpenFile.pipeRead st.pipes.length).holds side q = 0 ∧
      (OpenFile.pipeWrite st.pipes.length).holds side q = 0 := holds_other (Nat.ne_of_gt lt)
    rw [loads _ noRead noWrite, same side q lt]
  fresh q lo hi := by
    obtain rfl : q = st.pipes.length := by omega
    exact new

theorem balanced_openPipe (range : t.InRange st) (closed : st.Closed) :
    Balanced t st (t.openPipe st).2.1 (t.openPipe st).2.2 := by
  have closed₁ := st.closed_newPipe closed
  have length₁ : st.newPipe.2.pipes.length = st.pipes.length + 1 := by simp [Store.newPipe]
  have absent := load_absent range closed (Nat.le_refl st.pipes.length)
  have same₁ (side : PipeEnd) (q : Nat) (lt : q < st.pipes.length) :
      (st.newPipe.2.pipe q).ends side = (st.pipe q).ends side := by rw [st.pipe_newPipe_lt lt]
  unfold openPipe
  simp only
  rcases alloc_cases t st.newPipe.2 (.pipeRead st.newPipe.1) with full | ⟨rfd, hr, er, run⟩
  · -- no slot at all
    rw [full]
    exact balanced_newPipe (fun _ _ => rfl) (Nat.le_refl _) length₁ range closed₁ same₁
      (fun _ _ _ => rfl) (.inl absent)
  rw [run]
  simp only
  -- the read end is in place
  obtain ⟨st₂, hst₂⟩ : ∃ st₂, st₂ = st.newPipe.2.newFile (.pipeRead st.newPipe.1) := ⟨_, rfl⟩
  obtain ⟨t₂, ht₂⟩ : ∃ t₂, t₂ = t.set rfd (some st.newPipe.2.files.length) := ⟨_, rfl⟩
  have loads₂ (w : OpenFile → Nat) :
      t₂.load w st₂ = t.load w st + w (.pipeRead st.pipes.length) := by
    rw [hst₂, ht₂]
    have range : t.InRange st.newPipe.2 := range
    exact load_newFile w (.pipeRead st.newPipe.1) hr er range
  have range₂ : t₂.InRange st₂ := by
    rw [hst₂, ht₂]
    have range : t.InRange st.newPipe.2 := range
    exact inRange_newFile (.pipeRead st.newPipe.1) hr range
  have closed₂ : st₂.Closed := by
    rw [hst₂]
    exact st.newPipe.2.closed_newFile closed₁ _ (by simp [OpenFile.pipeRead, Store.newPipe])
  have files₂ (f : Nat) (hf : f < st.files.length) : st₂.file f = st.file f := by
    rw [hst₂]
    exact st.newPipe.2.file_newFile_lt _ hf
  have pipes₂ : st₂.pipes = st.newPipe.2.pipes := by rw [hst₂, Store.pipes_newFile]
  have length₂ : st₂.files.length = st.files.length + 1 := by rw [hst₂, Store.length_newFile]; rfl
  have pipe₂ (q : Nat) : st₂.pipe q = st.newPipe.2.pipe q := by rw [Store.pipe, pipes₂]; rfl
  rw [← hst₂, ← ht₂]
  rcases alloc_cases t₂ st₂ (.pipeWrite st.newPipe.1) with full | ⟨wfd, hw, ew, run⟩
  · -- the write end does not fit: the read end is closed again
    have held : t₂.get rfd = some st.files.length := by
      rw [ht₂, get_set hr, if_pos rfl]
      rfl
    have readEnd : st₂.file st.files.length = .pipeRead st.pipes.length := by
      rw [hst₂]
      exact st.newPipe.2.file_newFile _
    have loads₃ (w : OpenFile → Nat) : (t₂.set rfd none).load w st₂ = t.load w st := by
      have := load_set t₂ st₂ w hr none
      rw [held, loads₂] at this
      simp only [Option.elim_some, Option.elim_none, readEnd] at this
      omega
    have balanced : Balanced t₂ st₂ (t₂.set rfd none) (st₂.dropEnds st.files.length) :=
      balanced_close held
    rw [full]
    simp only [close, held]
    refine balanced_newPipe (fun f hf => (balanced.files f (by omega)).trans (files₂ f hf)) ?_ ?_
      (balanced.inRange range₂) (balanced.closed closed₂) (fun side q lt => ?_) (fun w _ _ => ?_) ?_
    · simp [Store.dropEnds, length₂]
    · simp [Store.dropEnds, pipes₂, length₁]
    · rw [Store.ends_dropEnds (by rw [pipes₂, length₁]; omega), readEnd,
        (holds_other (Nat.ne_of_gt lt)).1, pipe₂, same₁ side q lt, Nat.sub_zero]
    · rw [← loads₃ w]
      simp [load, Store.dropEnds]
    · left
      rw [← absent, ← loads₃ (refers st.pipes.length)]
      simp [load, Store.dropEnds]
  · -- both ends are in place
    have loads₃ (w : OpenFile → Nat) := load_newFile w (.pipeWrite st.newPipe.1) hw ew range₂
    rw [run]
    refine balanced_newPipe
      (fun f hf => (Store.file_newFile_lt _ (by omega)).trans (files₂ f hf)) ?_ ?_
      (inRange_newFile _ hw range₂) (st₂.closed_newFile closed₂ _ ?_) (fun side q lt => ?_)
      (fun w hr hw => ?_) (.inr fun side => ?_)
    · simp [length₂]
      omega
    · simp [pipes₂, length₁]
    · simp [OpenFile.pipeWrite, pipes₂, Store.newPipe]
    · show (st₂.pipe q).ends side = _
      rw [pipe₂, same₁ side q lt]
    · rw [loads₃, loads₂, hr, show w (.pipeWrite st.newPipe.1) = 0 from hw]
      rfl
    · have zero : t.load (holds side st.pipes.length) st = 0 :=
        load_holds_absent range closed (Nat.le_refl st.pipes.length)
      rw [loads₃, loads₂, zero]
      show (st₂.pipe st.pipes.length).ends side = _
      rw [pipe₂, Store.pipe_newPipe]
      cases side <;> simp [PipeInner.ends, PipeInner.new, holds, OpenFile.pipeRead,
        OpenFile.pipeWrite, OpenFile.allows, Store.newPipe]

theorem balanced_close_any (t : FdTable) (st : Store) (fd : Nat) :
    Balanced t st (t.close st fd).2.1 (t.close st fd).2.2 := by
  unfold close
  split
  · rename_i f held
    exact balanced_close held
  · exact .refl t st

theorem get_close (t : FdTable) (st : Store) (fd i : Nat) :
    (t.close st fd).2.1.get i = if i = fd then none else t.get i := by
  unfold close
  split
  · rename_i f held
    exact get_set (lt_of_get held) none i
  · split
    · rename_i empty same
      rw [same, empty]
    · rfl

theorem closeAll_spec (t : FdTable) (st : Store) :
    Balanced t st (t.closeAll st).1 (t.closeAll st).2 ∧ ∀ fd, (t.closeAll st).1.get fd = none := by
  -- over any list of descriptors: counts keep step, and what is listed or was empty is empty
  have loop : ∀ (fds : List Nat) (t : FdTable) (st : Store),
      let r := fds.foldl (fun s fd => (FdTable.close s.1 s.2 fd).2) (t, st)
      Balanced t st r.1 r.2 ∧ ∀ fd, fd ∈ fds ∨ t.get fd = none → r.1.get fd = none := by
    intro fds
    induction fds with
    | nil => exact fun t st => ⟨.refl t st, fun fd h => h.resolve_left List.not_mem_nil⟩
    | cons first rest ih =>
      intro t st
      obtain ⟨balanced, empty⟩ := ih (t.close st first).2.1 (t.close st first).2.2
      refine ⟨(balanced_close_any t st first).trans balanced, fun fd h => empty fd ?_⟩
      rw [get_close]
      rcases h with mem | none
      · rcases List.mem_cons.mp mem with rfl | mem
        · exact .inr (if_pos rfl)
        · exact .inl mem
      · exact .inr (by rw [none]; exact ite_self _)
  obtain ⟨balanced, empty⟩ := loop (List.range FD_MAX) t st
  refine ⟨balanced, fun fd => ?_⟩
  by_cases inside : fd < FD_MAX
  · exact empty fd (.inl (List.mem_range.mpr inside))
  · by_contra held
    obtain ⟨f, held⟩ := Option.ne_none_iff_exists'.mp held
    exact inside (lt_of_get held)

theorem ends_forkClone (t : FdTable) (st : Store) (inside : q < st.pipes.length) :
    ((t.forkClone st).2.pipe q).ends side = (st.pipe q).ends side + t.load (holds side q) st := by
  have loop : ∀ (entries : List (Option Nat)) (st : Store), q < st.pipes.length →
      ((entries.reduceOption.foldl Store.addEnds st).pipe q).ends side =
        (st.pipe q).ends side + Slots.tally (fun f => holds side q (st.file f)) entries := by
    intro entries
    induction entries with
    | nil => simp
    | cons entry rest ih =>
      intro st inside
      cases entry with
      | none => simpa using ih st inside
      | some f =>
        have := ih (st.addEnds f) (by simpa [Store.addEnds] using inside)
        rw [List.reduceOption_cons_of_some, List.foldl_cons, this, Store.ends_addEnds inside]
        simp only [Slots.tally_cons, Option.elim_some, Store.addEnds, Store.file_countEnds]
        omega
  exact loop t.entries st inside

theorem files_forkClone (t : FdTable) (st : Store) : (t.forkClone st).2.files = st.files := by
  unfold forkClone
  generalize t.entries.reduceOption = entries
  induction entries generalizing st with
  | nil => rfl
  | cons f rest ih =>
    rw [List.foldl_cons]
    exact (ih (st.addEnds f)).trans (st.files_countEnds _)

theorem pipes_forkClone (t : FdTable) (st : Store) :
    (t.forkClone st).2.pipes.length = st.pipes.length := by
  unfold forkClone
  generalize t.entries.reduceOption = entries
  induction entries generalizing st with
  | nil => rfl
  | cons f rest ih =>
    rw [List.foldl_cons]
    exact (ih (st.addEnds f)).trans (st.length_countEnds _)

end FdTable
end Ferrum
