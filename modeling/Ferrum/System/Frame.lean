import Ferrum.System.Ends

/-!
# What the calls do to the store

Apart from the calls that move bytes, every call changes the store of open files and pipes in three ways
only: it counts ends, adds an open file, or adds a pipe. So a relation that holds across each of these,
and along a sequence of them, holds across every such transition.
-/
namespace Ferrum

variable {ρ : Type} {R : Store → Store → Prop}

/-- A relation that the elementary changes of a store keep. -/
structure Store.Frames (R : Store → Store → Prop) : Prop where
  refl : ∀ st, R st st
  trans : ∀ {st st' st''}, R st st' → R st' st'' → R st st''
  countEnds : ∀ st change f, R st (Store.countEnds st change f)
  newFile : ∀ st file, (∀ q, file.pipe = some q → q < st.pipes.length) → R st (Store.newFile st file)
  newPipe : ∀ st, R st (Store.newPipe st).2

namespace FdTable

variable (frames : Store.Frames R) (t : FdTable) (st : Store)

include frames

theorem frame_close (fd : Nat) : R st (t.close st fd).2.2 := by
  unfold close
  split
  · exact frames.countEnds st (· - 1) _
  · exact frames.refl st

theorem frame_closeAll : R st (t.closeAll st).2 := by
  have loop : ∀ (fds : List Nat) (t : FdTable) (st : Store),
      R st (fds.foldl (fun s fd => (FdTable.close s.1 s.2 fd).2) (t, st)).2 := by
    intro fds
    induction fds with
    | nil => exact fun t st => frames.refl st
    | cons fd fds ih => exact fun t st => frames.trans (frame_close frames t st fd) (ih _ _)
  exact loop _ t st

theorem frame_forkClone : R st (t.forkClone st).2 := by
  unfold forkClone
  generalize t.entries.reduceOption = held
  induction held generalizing st with
  | nil => exact frames.refl st
  | cons f held ih => exact frames.trans (frames.countEnds st (· + 1) f) (ih _)

theorem frame_alloc {file : OpenFile} (named : ∀ q, file.pipe = some q → q < st.pipes.length) :
    R st (t.alloc st file).2.2 := by
  rcases t.alloc_cases st file with full | ⟨fd, -, -, run⟩
  · rw [full]
    exact frames.refl st
  · rw [run]
    exact frames.newFile st file named

theorem frame_openPipe : R st (t.openPipe st).2.2 := by
  have made : R st st.newPipe.2 := frames.newPipe st
  have there : st.pipes.length < st.newPipe.2.pipes.length := by simp [Store.newPipe]
  unfold openPipe
  simp only
  rcases t.alloc_cases st.newPipe.2 (.pipeRead st.newPipe.1) with full | ⟨rfd, -, -, first⟩
  · rw [full]
    exact made
  · have reader : R st (st.newPipe.2.newFile (.pipeRead st.newPipe.1)) := by
      refine frames.trans made (frames.newFile _ _ fun q named => ?_)
      cases named
      exact there
    rw [first]
    simp only
    rcases alloc_cases (t.set rfd (some st.newPipe.2.files.length))
      (st.newPipe.2.newFile (.pipeRead st.newPipe.1)) (.pipeWrite st.newPipe.1) with
      full | ⟨wfd, -, -, second⟩
    · rw [full]
      exact frames.trans reader (frame_close frames _ _ _)
    · rw [second]
      refine frames.trans reader (frames.newFile _ _ fun q named => ?_)
      cases named
      exact there

theorem frame_allocEntry (f : Nat) : R st (t.allocEntry st f).2.2 := by
  unfold allocEntry
  split
  · exact frames.countEnds st (· + 1) f
  · exact frames.refl st

theorem frame_put (fd f : Nat) : R st (t.put st fd f).2 := by
  unfold put
  split
  · exact frames.countEnds st (· + 1) f
  · exact frames.refl st

end FdTable

namespace System

open Scheduler Process

variable {p : Profile} {s s' : System ρ} {action : Action ρ} {answer : Answer ρ}

theorem store_wait4 {target : Int} {statusPtr options : Nat}
    (out : s.wait4 target statusPtr options = (answer, s')) : s'.store = s.store := by
  unfold wait4 at out
  split at out
  · obtain ⟨-, rfl⟩ := Prod.mk.inj out
    rfl
  · obtain ⟨-, rfl⟩ := Prod.mk.inj out
    rfl

theorem frame_onTable {α : Type} {g : FdTable → Store → α × FdTable × Store} {x : α}
    (run : s.onTable g = some (x, s')) (kept : ∀ t, R s.store (g t s.store).2.2) :
    R s.store s'.store := by
  obtain ⟨process, -, out⟩ := Option.map_eq_some_iff.mp run
  obtain rfl := (Prod.mk.inj out).2
  exact kept process.fdTable

section Calls

variable (frames : Store.Frames R)

include frames

theorem frame_answerFd {g : FdTable → Store → Except Nat Nat × FdTable × Store}
    (out : answerFd (s.onTable g) s = (answer, s'))
    (kept : ∀ t, R s.store (g t s.store).2.2) : R s.store s'.store := by
  cases run : s.onTable g with
  | none =>
    obtain ⟨-, rfl⟩ := Prod.mk.inj ((congrArg (answerFd · s) run).symm.trans out)
    exact frames.refl _
  | some made =>
    obtain ⟨r, made⟩ := made
    have out := (congrArg (answerFd · s) run).symm.trans out
    cases r with
    | ok fd =>
      obtain ⟨-, rfl⟩ := Prod.mk.inj out
      exact frame_onTable run kept
    | error errno =>
      obtain ⟨-, rfl⟩ := Prod.mk.inj out
      exact frame_onTable run kept

theorem frame_pipe : R s.store s.pipe.2.2.store := by
  unfold pipe
  split
  · exact frames.refl _
  · rename_i run
    exact frame_onTable run fun t => t.frame_openPipe frames s.store
  · rename_i run
    exact frame_onTable run fun t => t.frame_openPipe frames s.store

theorem frame_dup2 {oldfd newfd : Nat} (out : s.dup2 oldfd newfd = (answer, s')) :
    R s.store s'.store := by
  unfold dup2 at out
  split at out
  · obtain ⟨-, rfl⟩ := Prod.mk.inj out
    exact frames.refl _
  · refine frame_answerFd frames out fun t => ?_
    split
    · exact frames.refl _
    · split
      · exact frames.refl _
      · exact frames.trans (t.frame_close frames s.store newfd) (FdTable.frame_put frames _ _ _ _)

theorem frame_fcntl {fd cmd arg : Nat} (out : s.fcntl fd cmd arg = (answer, s')) :
    R s.store s'.store := by
  unfold fcntl at out
  split at out
  · refine frame_answerFd frames out fun t => ?_
    split <;> exact frames.refl _
  · obtain ⟨-, rfl⟩ := Prod.mk.inj out
    exact frames.refl _

theorem frame_kill (s : System ρ) (i : Nat) (code : Option Int) :
    R s.store (s.kill i code).store := by
  unfold kill
  split
  · exact frames.refl _
  · rename_i z held
    have kept := z.fdTable.frame_closeAll frames s.store
    generalize z.fdTable.closeAll s.store = closed at kept ⊢
    exact kept

theorem frame_exit {code : Int} (out : s.exit code = (answer, s')) : R s.store s'.store := by
  unfold exit at out
  split at out
  · obtain ⟨-, rfl⟩ := Prod.mk.inj out
    exact frames.refl _
  · obtain ⟨-, rfl⟩ := Prod.mk.inj out
    exact frame_kill frames s _ _

theorem frame_tgkill {tgid : Nat} (out : s.tgkill tgid = (answer, s')) :
    R s.store s'.store := by
  unfold tgkill at out
  cases found : s.sched.find (·.pid = tgid) with
  | none =>
    simp only [found] at out
    split at out <;>
    · obtain ⟨-, rfl⟩ := Prod.mk.inj out
      exact frames.refl _
  | some i =>
    simp only [found] at out
    split at out <;>
    · obtain ⟨-, rfl⟩ := Prod.mk.inj out
      exact frame_kill frames s i none

theorem frame_adopt {pid : Nat} {child : Option ρ} (out : s.adopt pid child = (answer, s')) :
    R s.store s'.store := by
  unfold adopt at out
  split at out
  · rename_i parent image current
    obtain ⟨-, rfl⟩ := Prod.mk.inj out
    exact parent.fdTable.frame_forkClone frames s.store
  · obtain ⟨-, rfl⟩ := Prod.mk.inj out
    exact frames.refl _

end Calls

/-- The transitions that move bytes: the calls that read and write, and a pipe read that goes on. -/
def MovesBytes (s : System ρ) : Action ρ → Prop
  | .read _ _ _ | .write _ _ | .writev _ _ => True
  | .resume => ∃ q count, s.sched.current.map Process.context = some (.pipeRead q count)
  | _ => False

theorem Step.frame (frames : Store.Frames R) (step : Step p s action answer s')
    (quiet : ¬ s.MovesBytes action) : R s.store s'.store := by
  obtain ⟨-, run⟩ := step
  cases action with
  | timer | yield | memory =>
    obtain ⟨-, rfl⟩ := Prod.mk.inj (Except.ok.inj run)
    exact frames.refl _
  | resume =>
    have out := Except.ok.inj run
    unfold resume at out
    split at out
    · rw [store_wait4 out]
      exact frames.refl _
    · rename_i context
      exact absurd ⟨_, _, context⟩ quiet
    · obtain ⟨-, rfl⟩ := Prod.mk.inj out
      exact frames.refl _
  | fork child =>
    obtain ⟨pid, -, out⟩ := bind_eq_ok.mp run
    exact frame_adopt frames (Except.ok.inj out)
  | exit code => exact frame_exit frames (Except.ok.inj run)
  | tgkill tgid => exact frame_tgkill frames (Except.ok.inj run)
  | segfault =>
    obtain ⟨-, rfl⟩ := Prod.mk.inj (Except.ok.inj run)
    exact frame_kill frames s _ none
  | wait4 target statusPtr options =>
    rw [store_wait4 (Except.ok.inj run)]
    exact frames.refl _
  | pipe =>
    obtain ⟨-, rfl⟩ := Prod.mk.inj (Except.ok.inj run)
    exact frame_pipe frames
  | «open» file =>
    exact frame_answerFd frames (Except.ok.inj run) fun t => t.frame_alloc frames _ (by simp)
  | close fd => exact frame_answerFd frames (Except.ok.inj run) fun t => t.frame_close frames _ fd
  | dup oldfd =>
    refine frame_answerFd frames (Except.ok.inj run) fun t => ?_
    split
    · exact frames.refl _
    · exact t.frame_allocEntry frames _ _
  | dup2 oldfd newfd => exact frame_dup2 frames (Except.ok.inj run)
  | fcntl fd cmd arg => exact frame_fcntl frames (Except.ok.inj run)
  | read | write | writev => exact absurd trivial quiet

end System
end Ferrum
