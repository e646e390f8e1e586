import Ferrum.Fd.Ends
import Ferrum.Process.Roster
import Ferrum.System.Model

/-!
# What a transition does to the process table

Each transition of the system changes the process table in one of a few ways, whatever it does to
descriptors and pipes. Invariants of the table are proved against this list.
-/
namespace Ferrum

variable {ρ : Type}

namespace Process

/-- The process becomes a zombie with these possessions. -/
def die (fdTable : FdTable) (exitCode : Option Int) (process : Process ρ) : Process ρ :=
  { process with state := .dead, fdTable, exitCode := exitCode.getD process.exitCode }

/-- A change of possessions, or of the place where the process goes on, but not into `wait4` or into
a `read` of nothing. -/
structure Tended (a b : Process ρ) : Prop where
  kin : Kin a b
  state : b.state = a.state
  context : ∀ target statusPtr options, b.context = .wait4 target statusPtr options →
    a.context = .wait4 target statusPtr options
  reading : ∀ q, b.context = .pipeRead q 0 → a.context = .pipeRead q 0

theorem Tended.refl (a : Process ρ) : Tended a a := ⟨.refl a, rfl, fun _ _ _ h => h, fun _ h => h⟩

end Process

namespace System

open Scheduler Process

variable {p : Profile} {s s' : System ρ} {action : Action ρ} {answer : Answer ρ}

def park (target : Int) (statusPtr options : Nat) (process : Process ρ) : Process ρ :=
  { process with state := .waiting, context := .wait4 target statusPtr options }

def toUser (process : Process ρ) : Process ρ := { process with context := .user }

def toHalt (process : Process ρ) : Process ρ := { process with context := .halted }

/-- The ways in which a transition can change the process table. A process that dies has no open
descriptors left, and only `memory` changes an image. -/
inductive Effect (p : Profile) (s : Scheduler ρ) : Action ρ → Answer ρ → Scheduler ρ → Prop
  | tend {action : Action ρ} {answer : Answer ρ} (f : Process ρ → Process ρ)
      (tended : ∀ a, Tended a (f a)) (kept : ∀ z, answer ≠ .reaped z)
      (image : (∀ image, action ≠ .memory image) → ∀ a, (f a).image = a.image) :
      Effect p s action answer (s.update s.currentIdx f)
  | turn {action : Action ρ} {answer : Answer ρ} (f : Process ρ → Process ρ)
      (tended : ∀ a, Tended a (f a)) (kept : ∀ z, answer ≠ .reaped z)
      (image : (∀ image, action ≠ .memory image) → ∀ a, (f a).image = a.image) :
      Effect p s action answer (s.update s.currentIdx f).schedule
  | adopt {child : Option ρ} (parent : Process ρ) (pid : Nat) (t : FdTable) (image : ρ)
      (current : s.current = some parent) (chosen : s.allocPid p = .ok pid) :
      Effect p s (.fork child) (.ret pid) (s.adopt parent pid t image)
  | exit (code : Int) (process : Process ρ) (t : FdTable) (current : s.current = some process)
      (closed : ∀ fd, t.get fd = none) :
      Effect p s (.exit code) .ended
        (((s.update s.currentIdx (die t (some code))).wake process.parentPid).update
          s.currentIdx toHalt).schedule
  | kill (i : Nat) (z : Process ρ) (t : FdTable) (held : s.slot i = some z)
      (other : i ≠ s.currentIdx) (closed : ∀ fd, t.get fd = none) :
      Effect p s (.tgkill z.pid) (.ret 0) (s.update i (die t none))
  | fall {action : Action ρ} (i : Nat) (z : Process ρ) (t : FdTable) (held : s.slot i = some z)
      (closed : ∀ fd, t.get fd = none)
      (named : action = .tgkill z.pid ∨ action = .segfault ∧ i = s.currentIdx) :
      Effect p s action .ended ((s.update i (die t none)).update s.currentIdx toHalt).schedule
  | reap {action : Action ρ} (caller : Process ρ) (target : Int) (i : Nat) (z : Process ρ)
      (current : s.current = some caller) (held : s.slot i = some z) (dead : z.state = .dead)
      (child : awaited caller.pid target z) :
      Effect p s action (.reaped z)
        (({ s with processes := s.processes.set i none } : Scheduler ρ).update s.currentIdx toUser)
  | park {action : Action ρ} (caller : Process ρ) (target : Int) (statusPtr options : Nat)
      (current : s.current = some caller)
      (noZombie : ∀ {j z}, s.slot j = some z → awaited caller.pid target z → z.state ≠ .dead) :
      Effect p s action .pending (s.update s.currentIdx (park target statusPtr options)).schedule

theorem update_same {s : Scheduler ρ} {i : Nat} {f : Process ρ → Process ρ}
    (same : ∀ a, s.slot i = some a → f a = a) : s.update i f = s := by
  have unchanged : Slots.update s.processes i f = s.processes := by
    cases held : Slots.get s.processes i with
    | none => exact Slots.update_of_none held f
    | some a =>
      rw [Slots.update_eq_set held, same a held]
      obtain ⟨inside, here⟩ := List.getElem?_eq_some_iff.mp (Slots.get_eq_some_iff.mp held)
      rw [← here, List.set_getElem_self]
  rw [Scheduler.update, unchanged]

theorem update_id (s : Scheduler ρ) (i : Nat) : s.update i (fun a => a) = s :=
  update_same fun _ _ => rfl

theorem Effect.same (s : Scheduler ρ) (kept : ∀ z, answer ≠ .reaped z) :
    Effect p s action answer s := by
  have tended : Effect p s action answer (s.update s.currentIdx fun a => a) :=
    .tend (fun a => a) .refl kept fun _ _ => rfl
  rwa [update_id] at tended

theorem Effect.yield (s : Scheduler ρ) (kept : ∀ z, answer ≠ .reaped z) :
    Effect p s action answer s.schedule := by
  have turned : Effect p s action answer (s.update s.currentIdx fun a => a).schedule :=
    .turn (fun a => a) .refl kept fun _ _ => rfl
  rwa [update_id] at turned

theorem tended_table (t : FdTable) (a : Process ρ) : Tended a { a with fdTable := t } :=
  ⟨⟨rfl, rfl, rfl, rfl⟩, rfl, fun _ _ _ h => h, fun _ h => h⟩

theorem tended_toUser (a : Process ρ) : Tended a (toUser a) :=
  ⟨⟨rfl, rfl, rfl, rfl⟩, rfl, fun _ _ _ h => (nomatch h), fun _ h => nomatch h⟩

theorem tended_toHalt (a : Process ρ) : Tended a (toHalt a) :=
  ⟨⟨rfl, rfl, rfl, rfl⟩, rfl, fun _ _ _ h => (nomatch h), fun _ h => nomatch h⟩

theorem halt_sched : s.halt.sched = (s.sched.update s.sched.currentIdx toHalt).schedule := rfl

/-- The calls that work on a descriptor table leave the rest of the process table alone. -/
theorem effect_onTable {α : Type} {f : FdTable → Store → α × FdTable × Store} {x : α}
    (run : s.onTable f = some (x, s')) (kept : ∀ z, answer ≠ .reaped z) :
    Effect p s.sched action answer s'.sched := by
  obtain ⟨process, -, out⟩ := Option.map_eq_some_iff.mp run
  obtain rfl := (Prod.mk.inj out).2
  exact .tend _ (tended_table _) kept fun _ _ => rfl

theorem effect_answerFd (f : FdTable → Store → Except Nat Nat × FdTable × Store)
    (out : answerFd (s.onTable f) s = (answer, s')) : Effect p s.sched action answer s'.sched := by
  cases run : s.onTable f with
  | none =>
    obtain ⟨rfl, rfl⟩ := Prod.mk.inj ((congrArg (answerFd · s) run).symm.trans out)
    exact .same _ (by simp)
  | some made =>
    obtain ⟨r, made⟩ := made
    have out := (congrArg (answerFd · s) run).symm.trans out
    cases r with
    | ok fd =>
      obtain ⟨rfl, rfl⟩ := Prod.mk.inj out
      exact effect_onTable run (by simp)
    | error errno =>
      obtain ⟨rfl, rfl⟩ := Prod.mk.inj out
      exact effect_onTable run (by simp)

theorem effect_pipe (out : (s.pipe.1, s.pipe.2.2) = (answer, s')) :
    Effect p s.sched action answer s'.sched := by
  obtain ⟨rfl, rfl⟩ := Prod.mk.inj out
  unfold pipe
  split
  · exact .same _ (by simp)
  · rename_i run
    exact effect_onTable run (by simp)
  · rename_i run
    exact effect_onTable run (by simp)

/-- A round of a pipe `read`, on entry or when the reader goes on with it. -/
theorem effect_readRound {q count : Nat} (out : s.readRound q count = (answer, s'))
    (known : count ≠ 0 ∨ s.sched.current.map Process.context = some (.pipeRead q count)) :
    Effect p s.sched action answer s'.sched := by
  unfold readRound at out
  simp only at out
  split at out
  · obtain ⟨rfl, rfl⟩ := Prod.mk.inj out
    exact .tend _ tended_toUser (by simp) fun _ _ => rfl
  · split at out
    · obtain ⟨rfl, rfl⟩ := Prod.mk.inj out
      exact .tend _ tended_toUser (by simp) fun _ _ => rfl
    · obtain ⟨rfl, rfl⟩ := Prod.mk.inj out
      rcases known with some | again
      · refine .turn _ (fun a => ⟨⟨rfl, rfl, rfl, rfl⟩, rfl, fun _ _ _ h => (nomatch h), ?_⟩) (by simp)
          fun _ _ => rfl
        intro r zero
        cases zero
        exact absurd rfl some
      · -- the reader is there already
        obtain ⟨reader, current, context⟩ := Option.map_eq_some_iff.mp again
        simp only
        rw [update_same]
        · exact .yield _ (by simp)
        · intro a ha
          rw [(current_eq_some current).2] at ha
          cases ha
          rw [← context]

theorem effect_wait4 {target : Int} {statusPtr options : Nat}
    (out : s.wait4 target statusPtr options = (answer, s')) :
    Effect p s.sched action answer s'.sched := by
  unfold wait4 at out
  cases current : s.sched.current with
  | none =>
    simp only [current] at out
    obtain ⟨rfl, rfl⟩ := Prod.mk.inj out
    exact .same _ (by simp)
  | some caller =>
    simp only [current, waitRound] at out
    split at out
    · rename_i i found
      obtain ⟨z, held, ok⟩ := slot_of_find found
      simp only [Bool.and_eq_true, decide_eq_true_eq] at ok
      simp only [held] at out
      obtain ⟨rfl, rfl⟩ := Prod.mk.inj out
      exact .reap caller target i z current held ok.2 ok.1
    · rename_i found
      split at out
      · obtain ⟨rfl, rfl⟩ := Prod.mk.inj out
        exact .tend _ tended_toUser (by simp [answerWait]) fun _ _ => rfl
      · split at out
        · obtain ⟨rfl, rfl⟩ := Prod.mk.inj out
          exact .tend _ tended_toUser (by simp [answerWait]) fun _ _ => rfl
        · obtain ⟨rfl, rfl⟩ := Prod.mk.inj out
          refine .park caller target statusPtr options current fun held child dead => ?_
          have := find_eq_none found held
          simp [child, dead] at this

theorem kill_sched {i : Nat} {z : Process ρ} (held : s.sched.slot i = some z) (code : Option Int) :
    ∃ t : FdTable, (∀ fd, t.get fd = none) ∧
      (s.kill i code).sched = s.sched.update i (die t code) := by
  unfold kill
  simp only [held]
  exact ⟨_, (FdTable.closeAll_spec _ _).2, rfl⟩

theorem effect_exit {code : Int} (out : s.exit code = (answer, s')) :
    Effect p s.sched (.exit code) answer s'.sched := by
  unfold exit at out
  cases current : s.sched.current with
  | none =>
    simp only [current] at out
    obtain ⟨rfl, rfl⟩ := Prod.mk.inj out
    exact .turn _ tended_toHalt (by simp) fun _ _ => rfl
  | some process =>
    simp only [current] at out
    obtain ⟨rfl, rfl⟩ := Prod.mk.inj out
    obtain ⟨t, closed, killed⟩ := kill_sched (current_eq_some current).2 (some code)
    rw [halt_sched]
    simp only [killed, wake_currentIdx, update_currentIdx]
    exact .exit code process t current closed

/-- Somebody dies without a word to the parent, and the caller gives up the processor for good. -/
theorem effect_fall {i : Nat} {z : Process ρ} (held : s.sched.slot i = some z)
    (named : action = .tgkill z.pid ∨ action = .segfault ∧ i = s.sched.currentIdx) :
    Effect p s.sched action .ended (s.kill i none).halt.sched := by
  obtain ⟨t, closed, killed⟩ := kill_sched held none
  rw [halt_sched, killed, update_currentIdx]
  exact .fall i z t held closed named

theorem current_update {s : Scheduler ρ} {i : Nat} {f : Process ρ → Process ρ} :
    (s.update i f).current = if s.currentIdx = i then s.current.map f else s.current := by
  unfold current
  simp only [update_initialized, update_currentIdx, slot_update]
  split <;> split <;> rfl

theorem effect_tgkill {me : Process ρ} {tgid : Nat} (current : s.sched.current = some me)
    (out : s.tgkill tgid = (answer, s')) : Effect p s.sched (.tgkill tgid) answer s'.sched := by
  unfold tgkill at out
  cases found : s.sched.find (·.pid = tgid) with
  | none =>
    -- then the caller is not meant either
    have other := find_eq_none found (current_eq_some current).2
    simp only [decide_eq_false_iff_not] at other
    simp only [found, current, Option.elim_some, if_neg other] at out
    obtain ⟨rfl, rfl⟩ := Prod.mk.inj out
    exact .same _ (by simp)
  | some i =>
    obtain ⟨z, held, named⟩ := slot_of_find found
    simp only [decide_eq_true_eq] at named
    obtain ⟨t, closed, killed⟩ := kill_sched held none
    simp only [found] at out
    split at out
    · obtain ⟨rfl, rfl⟩ := Prod.mk.inj out
      exact effect_fall held (.inl (by rw [named]))
    · rename_i other
      obtain ⟨rfl, rfl⟩ := Prod.mk.inj out
      have away : i ≠ s.sched.currentIdx := by
        rintro rfl
        obtain rfl : me = z := Option.some.inj ((current_eq_some current).2.symm.trans held)
        rw [killed, current_update, if_pos rfl, current] at other
        exact other named
      rw [killed, ← named]
      exact .kill i z t held away closed

theorem effect_adopt {pid : Nat} {child : Option ρ} (chosen : s.sched.allocPid p = .ok pid)
    (out : s.adopt pid child = (answer, s')) :
    Effect p s.sched (.fork child) answer s'.sched := by
  unfold adopt at out
  split at out
  · rename_i parent image current
    obtain ⟨rfl, rfl⟩ := Prod.mk.inj out
    exact .adopt parent pid _ image current chosen
  · obtain ⟨rfl, rfl⟩ := Prod.mk.inj out
    exact .same _ (by simp)

theorem effect_readFrom {f count : Nat} {input : List UInt8} (some : count ≠ 0)
    (run : s.readFrom f count input = .ok (answer, s')) :
    Effect p s.sched action answer s'.sched := by
  unfold readFrom at run
  repeat' split at run
  all_goals first
    | cases run; done
    | (obtain ⟨rfl, rfl⟩ := Prod.mk.inj (Except.ok.inj run); exact .same _ (by simp))
    | exact effect_readRound (Except.ok.inj run) (.inl some)

theorem effect_read {fd count : Nat} {input : List UInt8}
    (run : s.read fd count input = .ok (answer, s')) : Effect p s.sched action answer s'.sched := by
  unfold read at run
  repeat' split at run
  all_goals try (obtain ⟨rfl, rfl⟩ := Prod.mk.inj (Except.ok.inj run); exact .same _ (by simp))
  exact effect_readFrom (by assumption) run

theorem effect_write {fd : Nat} {bytes : List UInt8}
    (run : s.write p fd bytes = .ok (answer, s')) : Effect p s.sched action answer s'.sched := by
  unfold write at run
  repeat' split at run
  all_goals try (obtain ⟨rfl, rfl⟩ := Prod.mk.inj (Except.ok.inj run); exact .same _ (by simp))
  obtain ⟨⟨r, store⟩, -, out⟩ := bind_eq_ok.mp run
  obtain ⟨rfl, rfl⟩ := Prod.mk.inj (Except.ok.inj out)
  exact .same _ (by cases r <;> simp)

theorem effect_writev {fd : Nat} {iov : List (List UInt8)}
    (run : s.writev p fd iov = .ok (answer, s')) : Effect p s.sched action answer s'.sched := by
  unfold writev at run
  repeat' split at run
  all_goals try (obtain ⟨rfl, rfl⟩ := Prod.mk.inj (Except.ok.inj run); exact .same _ (by simp))
  obtain ⟨⟨r, store⟩, -, out⟩ := bind_eq_ok.mp run
  obtain ⟨rfl, rfl⟩ := Prod.mk.inj (Except.ok.inj out)
  exact .same _ (by cases r <;> simp)

/-- Every transition is one of the listed changes of the process table. -/
theorem Step.effect (step : Step p s action answer s') :
    Effect p s.sched action answer s'.sched := by
  obtain ⟨allowed, run⟩ := step
  cases action with
  | timer =>
    obtain ⟨rfl, rfl⟩ := Prod.mk.inj (Except.ok.inj run)
    exact .yield _ (by simp)
  | yield =>
    obtain ⟨rfl, rfl⟩ := Prod.mk.inj (Except.ok.inj run)
    exact .yield _ (by simp)
  | memory image =>
    obtain ⟨rfl, rfl⟩ := Prod.mk.inj (Except.ok.inj run)
    exact .tend _ (fun a => ⟨⟨rfl, rfl, rfl, rfl⟩, rfl, fun _ _ _ h => h, fun _ h => h⟩) (by simp)
      fun other => absurd rfl (other image)
  | resume =>
    have out := Except.ok.inj run
    unfold resume at out
    split at out
    · exact effect_wait4 out
    · exact effect_readRound out (.inr (by assumption))
    · obtain ⟨rfl, rfl⟩ := Prod.mk.inj out
      exact .same _ (by simp)
  | fork child =>
    obtain ⟨pid, chosen, out⟩ := bind_eq_ok.mp run
    exact effect_adopt chosen (Except.ok.inj out)
  | exit code => exact effect_exit (Except.ok.inj run)
  | tgkill tgid =>
    simp only [allows, Bool.and_eq_true] at allowed
    obtain ⟨me, current, -⟩ := (Option.any_eq_true _ _).mp allowed.2
    exact effect_tgkill current (Except.ok.inj run)
  | segfault =>
    simp only [allows, Bool.and_eq_true] at allowed
    obtain ⟨me, current, -⟩ := (Option.any_eq_true _ _).mp allowed.2
    obtain ⟨rfl, rfl⟩ := Prod.mk.inj (Except.ok.inj run)
    exact effect_fall (current_eq_some current).2 (.inr ⟨rfl, rfl⟩)
  | wait4 target statusPtr options => exact effect_wait4 (Except.ok.inj run)
  | pipe => exact effect_pipe (Except.ok.inj run)
  | «open» file => exact effect_answerFd _ (Except.ok.inj run)
  | close fd => exact effect_answerFd _ (Except.ok.inj run)
  | dup oldfd => exact effect_answerFd _ (Except.ok.inj run)
  | dup2 oldfd newfd =>
    have out := Except.ok.inj run
    unfold dup2 at out
    split at out
    · obtain ⟨rfl, rfl⟩ := Prod.mk.inj out
      exact .same _ (by simp)
    · exact effect_answerFd _ out
  | fcntl fd cmd arg =>
    have out := Except.ok.inj run
    unfold fcntl at out
    split at out
    · exact effect_answerFd _ out
    · obtain ⟨rfl, rfl⟩ := Prod.mk.inj out
      exact .same _ (by simp)
  | read fd count input => exact effect_read run
  | write fd bytes => exact effect_write run
  | writev fd iov => exact effect_writev run

/-! ## Images -/

section Images

variable {s s' s'' : Scheduler ρ}

/-- Who is in the second table was in the same slot of the first, with the same image. -/
def SameImages (s s' : Scheduler ρ) : Prop :=
  ∀ i b, s'.slot i = some b → ∃ a, s.slot i = some a ∧ b.image = a.image

theorem SameImages.refl (s : Scheduler ρ) : SameImages s s := fun _ b hb => ⟨b, hb, rfl⟩

theorem SameImages.trans (h : SameImages s s') (g : SameImages s' s'') : SameImages s s'' := by
  intro i c hc
  obtain ⟨b, hb, same⟩ := g i c hc
  obtain ⟨a, ha, same'⟩ := h i b hb
  exact ⟨a, ha, same.trans same'⟩

theorem sameImages_update {i : Nat} {f : Process ρ → Process ρ}
    (image : ∀ a, (f a).image = a.image) : SameImages s (s.update i f) := by
  intro j b hb
  obtain ⟨a, ha, rfl⟩ := slot_update_eq_some hb
  refine ⟨a, ha, ?_⟩
  split
  · exact image a
  · rfl

theorem sameImages_schedule (s : Scheduler ρ) : SameImages s s.schedule := by
  have put : SameImages s s.putBack := by
    rcases putBack_eq s with same | ⟨-, same⟩
    · rw [same]
      exact .refl s
    · rw [same]
      refine sameImages_update fun a => ?_
      unfold preempt
      split <;> rfl
  rcases schedule_cases s with ⟨same, -⟩ | ⟨same, -⟩ | ⟨k, a, -, -, same⟩
  · rw [same]
    exact put
  · rw [same]
    exact put
  · rw [same]
    have run : SameImages s.putBack (s.putBack.update k fun process =>
        { process with state := .running }) := sameImages_update fun _ => rfl
    exact put.trans run

theorem sameImages_wake (s : Scheduler ρ) (pid : Nat) : SameImages s (s.wake pid) := by
  rcases wake_cases s pid with ⟨same, -⟩ | ⟨i, w, -, -, -, same⟩
  · rw [same]
    exact .refl s
  · rw [same]
    exact sameImages_update fun _ => rfl

theorem Effect.sameImages (effect : Effect p s action answer s')
    (noMemory : ∀ image, action ≠ .memory image) (noFork : ∀ child, action ≠ .fork child) :
    SameImages s s' := by
  cases effect with
  | tend f tended kept image => exact sameImages_update (image noMemory)
  | turn f tended kept image =>
    exact (sameImages_update (image noMemory)).trans (sameImages_schedule _)
  | adopt => exact absurd rfl (noFork _)
  | exit code process t current closed =>
    have dead : SameImages s (s.update s.currentIdx (die t (some code))) :=
      sameImages_update fun _ => rfl
    have halted : SameImages _ (((s.update s.currentIdx (die t (some code))).wake
        process.parentPid).update s.currentIdx toHalt) := sameImages_update fun _ => rfl
    exact ((dead.trans (sameImages_wake _ _)).trans halted).trans (sameImages_schedule _)
  | kill i z t => exact sameImages_update fun _ => rfl
  | fall i z t =>
    have dead : SameImages s (s.update i (die t none)) := sameImages_update fun _ => rfl
    have halted : SameImages _ ((s.update i (die t none)).update s.currentIdx toHalt) :=
      sameImages_update fun _ => rfl
    exact (dead.trans halted).trans (sameImages_schedule _)
  | reap caller target i z current held =>
    have removed : SameImages s { s with processes := s.processes.set i none } := by
      intro j b hb
      rw [slot_remove (Slots.lt_of_get held)] at hb
      split at hb
      · cases hb
      · exact ⟨b, hb, rfl⟩
    exact removed.trans (sameImages_update fun _ => rfl)
  | park caller target statusPtr options =>
    have parked : SameImages s (s.update s.currentIdx (System.park target statusPtr options)) :=
      sameImages_update fun _ => rfl
    exact parked.trans (sameImages_schedule _)

end Images

end System
end Ferrum
