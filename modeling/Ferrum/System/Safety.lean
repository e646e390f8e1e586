import Ferrum.System.Effect

/-!
# Safety of the process table

At most one process runs and it is the current one, the dead stay dead until they are reaped, and
pids and parentage are never confused although pids are used again. The last rests on an order: a
child has a greater pid than its parent, so the next pid is above every pid that a present process
has or remembers.
-/
namespace Ferrum

variable {ρ : Type}

namespace Scheduler

open Process

variable {s s' s'' : Scheduler ρ} {i : Nat} {f : Process ρ → Process ρ} {pid : Nat}

/-- Only the current process is running. -/
def Exclusive (s : Scheduler ρ) : Prop :=
  ∀ i a, s.slot i = some a → a.state = .running → s.initialized ∧ i = s.currentIdx

/-- There is a current process once the scheduler has started. -/
def Present (s : Scheduler ρ) : Prop := s.initialized → ∃ a, s.slot s.currentIdx = some a

/-- The current process is alive unless the system has gone idle. -/
def Alive (s : Scheduler ρ) : Prop :=
  s.idle = false → s.initialized → ∃ a, s.slot s.currentIdx = some a ∧ a.state ≠ .dead

/-- The dead of the first table are dead in the second. -/
def Buries (s s' : Scheduler ρ) : Prop :=
  ∀ i z, s.slot i = some z → z.state = .dead →
    ∃ z', s'.slot i = some z' ∧ z'.state = .dead ∧ Kin z z'

theorem Buries.refl (s : Scheduler ρ) : Buries s s := fun _ _ hz dead => ⟨_, hz, dead, .refl _⟩

theorem Buries.trans (h : Buries s s') (g : Buries s' s'') : Buries s s'' := by
  intro i z hz dead
  obtain ⟨y, hy, dead, kin⟩ := h i z hz dead
  obtain ⟨x, hx, dead, kin'⟩ := g i y hy dead
  exact ⟨x, hx, dead, kin.trans kin'⟩

theorem buries_update (keeps : ∀ a, Kin a (f a))
    (dead : ∀ a, s.slot i = some a → a.state = .dead → (f a).state = .dead) :
    Buries s (s.update i f) := by
  intro j z hz isDead
  by_cases same : j = i
  · subst same
    exact ⟨f z, by rw [slot_update, if_pos rfl, hz, Option.map_some], dead z hz isDead, keeps z⟩
  · exact ⟨z, by rw [slot_update, if_neg same, hz], isDead, .refl z⟩

theorem exclusive_update (h : Exclusive s)
    (notRun : ∀ a, s.slot i = some a → (f a).state = .running → a.state = .running) :
    Exclusive (s.update i f) := by
  intro j b hb running
  obtain ⟨a, ha, rfl⟩ := slot_update_eq_some hb
  split at running
  · rename_i same
    exact h j a ha (notRun a (same ▸ ha) running)
  · exact h j a ha running

theorem present_update (h : Present s) : Present (s.update i f) := by
  intro init
  obtain ⟨a, ha⟩ := h init
  rw [update_currentIdx, slot_update, ha]
  split
  · exact ⟨f a, rfl⟩
  · exact ⟨a, rfl⟩

theorem alive_update (h : Alive s)
    (lives : ∀ a, s.slot i = some a → i = s.currentIdx → a.state ≠ .dead → (f a).state ≠ .dead) :
    Alive (s.update i f) := by
  intro idle init
  obtain ⟨a, ha, alive⟩ := h idle init
  rw [update_currentIdx, slot_update, ha]
  split
  · rename_i same
    exact ⟨f a, rfl, lives a (same ▸ ha) same.symm alive⟩
  · exact ⟨a, rfl, alive⟩

theorem Alive.present (h : Alive s) (idle : s.idle = false) : Present s := fun init =>
  let ⟨a, ha, _⟩ := h idle init
  ⟨a, ha⟩

/-! ## The scheduler -/

theorem preempt_state (a : Process ρ) : (preempt a).state ≠ .running := by
  unfold preempt
  split
  · simp
  · assumption

theorem idle_putBack (h : Exclusive s) {a : Process ρ} (ha : s.putBack.slot i = some a) :
    a.state ≠ .running := by
  intro running
  rcases putBack_eq s with same | ⟨init, same⟩
  · -- then nobody was current
    obtain ⟨init, rfl⟩ := h i a (same ▸ ha) running
    have put : s.putBack = s.update s.currentIdx preempt := by simp [putBack, init]
    rw [put] at ha
    obtain ⟨b, -, rfl⟩ := slot_update_eq_some ha
    simp only [if_true] at running
    exact preempt_state b running
  · rw [same] at ha
    obtain ⟨b, hb, rfl⟩ := slot_update_eq_some ha
    split at running
    · exact preempt_state b running
    · rename_i other
      exact other (h i b hb running).2

theorem exclusive_schedule (h : Exclusive s) : Exclusive s.schedule := by
  intro j b hb running
  rcases schedule_cases s with ⟨same, -⟩ | ⟨same, -⟩ | ⟨i, a, -, -, same⟩
  · exact absurd running (idle_putBack h (same ▸ hb))
  · rw [same] at hb
    exact absurd running (idle_putBack h (i := j) hb)
  · rw [same] at hb ⊢
    have hb : (s.putBack.update i fun process => { process with state := .running }).slot j
        = some b := hb
    obtain ⟨c, hc, rfl⟩ := slot_update_eq_some hb
    split at running
    · exact ⟨rfl, by assumption⟩
    · exact absurd running (idle_putBack h hc)

theorem alive_schedule (h : Present s) : Alive s.schedule := by
  intro idle init
  rcases schedule_cases s with ⟨same, lives⟩ | ⟨same, -⟩ | ⟨i, a, ha, ready, same⟩
  · rw [same, putBack_initialized] at init
    have put : s.putBack = s.update s.currentIdx preempt := by simp [putBack, init]
    obtain ⟨a, ha⟩ := present_update (i := s.currentIdx) (f := preempt) h init
    rw [same, put]
    refine ⟨a, ha, lives ?_⟩
    rw [put, current, update_initialized, if_pos init]
    exact ha
  · rw [same] at idle
    cases idle
  · rw [same]
    refine ⟨{ a with state := .running }, ?_, by simp⟩
    have slots := slot_update (s := s.putBack) (i := i) (j := i)
      (f := fun process => { process with state := .running })
    rw [if_pos rfl, ha] at slots
    exact slots

theorem buries_schedule (s : Scheduler ρ) : Buries s s.schedule := by
  have put : Buries s s.putBack := by
    intro i z hz dead
    exact ⟨z, slot_putBack hz (by simp [dead]), dead, .refl z⟩
  rcases schedule_cases s with ⟨same, -⟩ | ⟨same, -⟩ | ⟨i, a, ha, ready, same⟩
  · rw [same]
    exact put
  · rw [same]
    exact put
  · rw [same]
    have switched : Buries s.putBack (s.putBack.update i fun process =>
        { process with state := .running }) := by
      refine buries_update (fun _ => ⟨rfl, rfl, rfl, rfl⟩) fun b hb dead => ?_
      rw [ha] at hb
      cases hb
      simp [ready] at dead
    exact put.trans switched

theorem exclusive_wake (h : Exclusive s) : Exclusive (s.wake pid) := by
  rcases wake_cases s pid with ⟨same, -⟩ | ⟨i, w, -, -, -, same⟩
  · rw [same]
    exact h
  · rw [same]
    exact exclusive_update h (by simp)

theorem present_wake (h : Present s) : Present (s.wake pid) := by
  rcases wake_cases s pid with ⟨same, -⟩ | ⟨i, w, -, -, -, same⟩
  · rwa [same]
  · rw [same]
    exact present_update h

theorem buries_wake (s : Scheduler ρ) (pid : Nat) : Buries s (s.wake pid) := by
  rcases wake_cases s pid with ⟨same, -⟩ | ⟨i, w, hw, -, waits, same⟩
  · rw [same]
    exact .refl s
  · rw [same]
    refine buries_update (fun _ => ⟨rfl, rfl, rfl, rfl⟩) fun a ha dead => ?_
    rw [hw] at ha
    cases ha
    simp [waits] at dead

/-- What holds of the process table in every state. -/
structure Orderly (s : Scheduler ρ) : Prop where
  ids : Identities s
  exclusive : Exclusive s
  alive : Alive s

theorem Alive.ne_of_dead (h : Alive s) (idle : s.idle = false) (init : s.initialized)
    {z : Process ρ} (hz : s.slot i = some z) (dead : z.state = .dead) : s.currentIdx ≠ i := by
  rintro rfl
  obtain ⟨a, ha, lives⟩ := h idle init
  rw [hz] at ha
  cases ha
  exact lives dead

end Scheduler

namespace System

open Scheduler Process

variable {p : Profile} {s s' : System ρ} {action : Action ρ} {answer : Answer ρ}

theorem Step.awake (step : Step p s action answer s') : s.sched.idle = false := by
  have := step.1
  simp only [allows, Bool.and_eq_true, Bool.not_eq_true'] at this
  exact this.1

section Keep

variable {s s' : Scheduler ρ}

theorem die_kin (t : FdTable) (code : Option Int) (a : Process ρ) : Kin a (die t code a) :=
  ⟨rfl, rfl, rfl, rfl⟩

theorem descends_die (s : Scheduler ρ) (i : Nat) (t : FdTable) (code : Option Int) :
    Descends s (s.update i (die t code)) := descends_update (die_kin t code)

theorem descends_tend {i : Nat} {f : Process ρ → Process ρ} (tended : ∀ a, Tended a (f a)) :
    Descends s (s.update i f) := descends_update fun a => (tended a).kin

theorem park_kin (target : Int) (statusPtr options : Nat) (a : Process ρ) :
    Kin a (System.park target statusPtr options a) := ⟨rfl, rfl, rfl, rfl⟩

theorem Effect.ids (h : Identities s)
    (fits : (∃ child, action = .fork child) → p = .release → s.maxPid + 1 < 2 ^ 64)
    (effect : Effect p s action answer s') : Identities s' := by
  cases effect with
  | tend f tended => exact h.descend (descends_tend tended)
  | turn f tended => exact h.descend ((descends_tend tended).trans (descends_schedule _))
  | adopt parent pid t image current chosen =>
    exact h.adopt (current_eq_some current).2 fun ha => h.fresh (fits ⟨_, rfl⟩) chosen ha
  | exit code process t current closed =>
    have told := (descends_die s s.currentIdx t (some code)).trans
      (descends_wake _ process.parentPid)
    exact h.descend (told.trans ((descends_tend tended_toHalt).trans (descends_schedule _)))
  | kill i z t => exact h.descend (descends_die s i t none)
  | fall i z t held closed =>
    exact h.descend ((descends_die s i t none).trans
      ((descends_tend tended_toHalt).trans (descends_schedule _)))
  | reap caller target i z current held =>
    exact h.descend ((descends_remove held).trans (descends_tend tended_toUser))
  | park caller target statusPtr options =>
    exact h.descend ((descends_update (park_kin target statusPtr options)).trans
      (descends_schedule _))

theorem exclusive_die (h : Exclusive s) (i : Nat) (t : FdTable) (code : Option Int) :
    Exclusive (s.update i (die t code)) := exclusive_update h (by simp [die])

theorem exclusive_tend {i : Nat} {f : Process ρ → Process ρ} (h : Exclusive s)
    (tended : ∀ a, Tended a (f a)) : Exclusive (s.update i f) :=
  exclusive_update h fun a _ running => (tended a).state ▸ running

theorem Effect.exclusive (h : Exclusive s) (effect : Effect p s action answer s') :
    Exclusive s' := by
  cases effect with
  | tend f tended => exact exclusive_tend h tended
  | turn f tended => exact exclusive_schedule (exclusive_tend h tended)
  | adopt parent pid t image current chosen =>
    obtain ⟨k, -, slots⟩ := adopt_spec s parent pid t image
    intro j b hb running
    rw [slots] at hb
    split at hb
    · cases hb
      cases running
    · exact h j b hb running
  | exit code process t current closed =>
    exact exclusive_schedule (exclusive_tend (exclusive_wake (exclusive_die h _ t _)) tended_toHalt)
  | kill i z t => exact exclusive_die h i t none
  | fall i z t held closed =>
    exact exclusive_schedule (exclusive_tend (exclusive_die h i t none) tended_toHalt)
  | reap caller target i z current held =>
    refine exclusive_tend ?_ tended_toUser
    intro j b hb running
    rw [slot_remove (Slots.lt_of_get held)] at hb
    split at hb
    · cases hb
    · exact h j b hb running
  | park => exact exclusive_schedule (exclusive_update h (by simp [System.park]))

theorem Effect.alive (h : Alive s) (awake : s.idle = false)
    (effect : Effect p s action answer s') : Alive s' := by
  have present := h.present awake
  cases effect with
  | tend f tended => exact alive_update h fun a _ _ lives => (tended a).state ▸ lives
  | turn => exact alive_schedule (present_update present)
  | adopt parent pid t image current chosen =>
    obtain ⟨k, empty, slots⟩ := adopt_spec s parent pid t image
    intro idle init
    obtain ⟨a, ha, lives⟩ := h idle init
    refine ⟨a, ?_, lives⟩
    have : s.currentIdx ≠ k := by
      rintro rfl
      rw [empty] at ha
      cases ha
    rw [slots]
    exact (if_neg this).trans ha
  | exit => exact alive_schedule (present_update (present_wake (present_update present)))
  | kill i z t held other => exact alive_update h fun _ _ same => absurd same other
  | fall => exact alive_schedule (present_update (present_update present))
  | reap caller target i z current held dead =>
    refine alive_update ?_ fun _ _ _ lives => lives
    intro idle init
    obtain ⟨a, ha, lives⟩ := h idle init
    refine ⟨a, ?_, lives⟩
    rw [slot_remove (Slots.lt_of_get held)]
    exact (if_neg (h.ne_of_dead awake init held dead)).trans ha
  | park => exact alive_schedule (present_update present)

theorem buries_tend {i : Nat} {f : Process ρ → Process ρ} (tended : ∀ a, Tended a (f a)) :
    Buries s (s.update i f) :=
  buries_update (fun a => (tended a).kin) fun a _ dead => (tended a).state ▸ dead

theorem buries_die (s : Scheduler ρ) (i : Nat) (t : FdTable) (code : Option Int) :
    Buries s (s.update i (die t code)) := buries_update (die_kin t code) fun _ _ _ => rfl

/-- The dead stay dead, and the only way out of the table is to be reaped. -/
theorem Effect.buries (h : Alive s) (awake : s.idle = false)
    (effect : Effect p s action answer s') {i : Nat} {z : Process ρ} (hz : s.slot i = some z)
    (dead : z.state = .dead) :
    (∃ z', s'.slot i = some z' ∧ z'.state = .dead ∧ Kin z z') ∨
      (answer = .reaped z ∧ s'.slot i = none) := by
  cases effect with
  | tend f tended => exact .inl (buries_tend tended i z hz dead)
  | turn f tended => exact .inl (((buries_tend tended).trans (buries_schedule _)) i z hz dead)
  | adopt parent pid t image current chosen =>
    obtain ⟨k, empty, slots⟩ := adopt_spec s parent pid t image
    refine .inl ⟨z, ?_, dead, .refl z⟩
    rw [slots, if_neg, hz]
    rintro rfl
    rw [empty] at hz
    cases hz
  | exit code process t current closed =>
    have told := (buries_die s s.currentIdx t (some code)).trans (buries_wake _ process.parentPid)
    exact .inl ((told.trans ((buries_tend tended_toHalt).trans (buries_schedule _))) i z hz dead)
  | kill k y t => exact .inl (buries_die s k t none i z hz dead)
  | fall k y t held closed =>
    exact .inl (((buries_die s k t none).trans ((buries_tend tended_toHalt).trans (buries_schedule _)))
      i z hz dead)
  | reap caller target k y current held dead' =>
    have init := (current_eq_some current).1
    by_cases same : i = k
    · subst same
      rw [held] at hz
      cases hz
      refine .inr ⟨rfl, ?_⟩
      rw [slot_update, slot_remove (Slots.lt_of_get held), if_pos rfl]
      exact (if_neg (h.ne_of_dead awake init held dead).symm)
    · refine .inl ⟨z, ?_, dead, .refl z⟩
      rw [slot_update, slot_remove (Slots.lt_of_get held), if_neg same, hz]
      exact (if_neg (h.ne_of_dead awake init hz dead).symm)
  | park caller target statusPtr options current =>
    have parked := buries_update (s := s) (park_kin target statusPtr options) fun a ha d =>
      absurd rfl (h.ne_of_dead awake (current_eq_some current).1 ha d)
    exact .inl ((parked.trans (buries_schedule _)) i z hz dead)

theorem Effect.reaps (h : Orderly s) {z : Process ρ}
    (effect : Effect p s action (.reaped z) s') :
    ∃ caller i, s.current = some caller ∧ s.slot i = some z ∧ z.state = .dead ∧
      z.forkedBy = caller.serial := by
  cases effect with
  | tend f tended kept => exact absurd rfl (kept z)
  | turn f tended kept => exact absurd rfl (kept z)
  | reap caller target i z current held dead child =>
    simp only [awaited, Bool.and_eq_true, decide_eq_true_eq] at child
    exact ⟨caller, i, current, held, dead, h.ids.origin (current_eq_some current).2 held child.1⟩

end Keep

/-- A transition in which no pid wraps around. The dev profile would stop instead. -/
def Numbered (p : Profile) (s s' : System ρ) : Prop :=
  ∃ action answer, Step p s action answer s' ∧
    ((∃ child, action = .fork child) → p = .release → s.sched.maxPid + 1 < 2 ^ 64)

theorem Initial.orderly (h : Initial s) : Orderly s.sched := by
  obtain ⟨init, table, pid, parent, state, -, serial, -⟩ := h.table
  have only : ∀ {i a}, s.sched.slot i = some a → i = 0 ∧ a = init := by
    intro i a ha
    rw [slot, table] at ha
    cases i with
    | zero => exact ⟨rfl, by simpa using ha.symm⟩
    | succ i => simp at ha
  refine ⟨⟨?_, ?_, ?_, ?_, ?_⟩, ?_, ?_⟩
  · intro i j a b ha hb _
    rw [(only ha).1, (only hb).1]
  · intro i a ha
    rw [(only ha).2, pid, parent]
    exact Nat.one_pos
  · intro i a ha
    rw [(only ha).2]
    exact serial
  · intro i j a b ha hb _
    rw [(only ha).1, (only hb).1]
  · intro i j a b ha hb same
    rw [(only ha).2, (only hb).2, pid, parent] at same
    cases same
  · intro i a ha running
    rw [(only ha).2, state] at running
    cases running
  · intro _ init
    rw [h.initialized] at init
    cases init

theorem Step.orderly (step : Step p s action answer s') (h : Orderly s.sched)
    (fits : (∃ child, action = .fork child) → p = .release → s.sched.maxPid + 1 < 2 ^ 64) :
    Orderly s'.sched :=
  have effect := step.effect
  ⟨effect.ids h.ids fits, effect.exclusive h.exclusive, effect.alive h.alive step.awake⟩

theorem orderly_of_reachable (h : Reachable Initial (Numbered p) s) : Orderly s.sched := by
  refine h.invariant (P := fun s => Orderly s.sched) (fun _ init => init.orderly) ?_
  rintro s s' orderly ⟨action, answer, step, fits⟩
  exact step.orderly orderly fits

/-- Scheduler and pid safety, in a state and over the next transition. -/
structure SafeTable (p : Profile) (s : System ρ) : Prop where
  oneRunning : ∀ i a, s.sched.slot i = some a → a.state = .running → i = s.sched.currentIdx
  distinct : ∀ i j a b, s.sched.slot i = some a → s.sched.slot j = some b → a.pid = b.pid → i = j
  parent : ∀ i a, s.sched.slot i = some a → a.parentPid < a.pid
  serial : ∀ i j a b, s.sched.slot i = some a → s.sched.slot j = some b →
    a.serial = b.serial → i = j
  /-- The pid of the next child is nobody's pid and nobody's parent's. -/
  fresh : ∀ pid, s.sched.allocPid p = .ok pid → (p = .release → s.sched.maxPid + 1 < 2 ^ 64) →
    ∀ i a, s.sched.slot i = some a → a.pid ≠ pid ∧ a.parentPid ≠ pid
  /-- Nobody dead is switched to. -/
  alive : s.sched.idle = false → ∀ a, s.sched.current = some a → a.state ≠ .dead
  deadStay : ∀ action answer s', Step p s action answer s' → ∀ i z, s.sched.slot i = some z →
    z.state = .dead → (∃ z', s'.sched.slot i = some z' ∧ z'.state = .dead ∧ Kin z z') ∨
      (answer = .reaped z ∧ s'.sched.slot i = none)
  /-- Who is reaped was forked by the caller itself. -/
  reaps : ∀ action z s', Step p s action (.reaped z) s' → ∃ caller i, s.sched.current = some caller ∧
    s.sched.slot i = some z ∧ z.state = .dead ∧ z.forkedBy = caller.serial

/-- In every state that the system reaches without a wrapped pid, the process table is safe. -/
theorem safeTable_of_reachable (h : Reachable Initial (Numbered p) s) : SafeTable p s := by
  have orderly := orderly_of_reachable h
  refine ⟨fun i a ha running => (orderly.exclusive i a ha running).2,
    fun _ _ _ _ => orderly.ids.distinct, fun _ _ => orderly.ids.parent,
    fun _ _ _ _ => orderly.ids.serial, ?_, ?_, ?_, ?_⟩
  · intro pid chosen fits i a ha
    have := orderly.ids.fresh fits chosen ha
    omega
  · intro awake a ha
    obtain ⟨init, here⟩ := current_eq_some ha
    obtain ⟨b, hb, lives⟩ := orderly.alive awake init
    rw [here] at hb
    cases hb
    exact lives
  · intro action answer s' step i z hz dead
    exact step.effect.buries orderly.alive step.awake hz dead
  · intro action z s' step
    exact step.effect.reaps orderly

/-! ## A run in which a pid wraps -/

section Wrap

def stdio : FdTable := (FdTable.newStdio ⟨[], [], []⟩).1
def stdioStore : Store := (FdTable.newStdio ⟨[], [], []⟩).2

def initProcess (state : ProcessState) : Process Unit := ⟨1, 0, state, 0, .user, stdio, (), 0, 0⟩
def forked (pid serial : Nat) : Process Unit := ⟨pid, 1, .ready, 0, .user, stdio, (), serial, 0⟩
def killed (pid serial : Nat) : Process Unit := ⟨pid, 1, .dead, 0, .user, .empty, (), serial, 0⟩

/-- The init process runs, with these children. -/
def withChildren (children : List (Option (Process Unit))) (births : Nat) : System Unit :=
  ⟨⟨some (initProcess .running) :: children, 0, true, false, births⟩, stdioStore⟩

def booted : System Unit := ⟨⟨[some (initProcess .ready)], 0, false, false, 1⟩, stdioStore⟩

/-- Reached in the release build, whatever the pids do. -/
def Reached (s : System Unit) : Prop :=
  Reachable Initial (fun s s' => ∃ action answer, Step .release s action answer s') s

variable {l : List (Option (Process Unit))} {n b c : Nat}

theorem closeAll_stdio : stdio.closeAll stdioStore = (.empty, stdioStore) := by decide

theorem booted_initial : Initial booted :=
  ⟨⟨initProcess .ready, rfl, rfl, rfl, rfl, rfl, by decide, rfl⟩, rfl, rfl⟩

theorem Reached.call {s' : System Unit} {action : Action Unit} {answer : Answer Unit}
    (h : Reached (withChildren l b))
    (run : (withChildren l b).perform .release action = .ok (answer, s'))
    (allowed : (withChildren l b).allows action := by rfl) : Reached s' :=
  h.next ⟨action, answer, allowed, run⟩

theorem perform_fork (top : (withChildren l b).sched.maxPid = n) :
    (withChildren l b).perform .release (.fork (some ())) = .ok (.ret ((n + 1) % 2 ^ 64),
      withChildren (Slots.insert l (forked ((n + 1) % 2 ^ 64) b)) (b + 1)) := by
  have chosen : (withChildren l b).sched.allocPid .release = .ok ((n + 1) % 2 ^ 64) := by
    rw [allocPid, top]
    rfl
  rw [perform, fork, chosen]
  simp only [ok_bind, pure_eq_ok]
  have added (a : Process Unit) : Slots.insert (some (initProcess .running) :: l) a =
      some (initProcess .running) :: Slots.insert l a := by
    unfold Slots.insert Slots.firstFree
    rw [List.findIdx?_cons]
    simp only [Option.isNone_some]
    cases l.findIdx? Option.isNone <;> simp
  simp only [adopt, withChildren, current, slot, Slots.get_cons_zero, if_true, Scheduler.adopt, addProcess, added]
  rfl

theorem perform_tgkill {i : Nat} (other : 1 ≠ n)
    (found : l.findIdx? (fun o => o.any fun q => q.pid = n) = some i)
    (held : Slots.get l i = some (forked n c)) :
    (withChildren l b).perform .release (.tgkill n) =
      .ok (.ret 0, withChildren (l.set i (some (killed n c))) b) := by
  have there : (withChildren l b).sched.find (·.pid = n) = some (i + 1) := by
    simp [find, withChildren, List.findIdx?_cons, initProcess, other, found]
  have dead : (withChildren l b).kill (i + 1) none =
      withChildren (l.set i (some (killed n c))) b := by
    have held' : (withChildren l b).sched.slot (i + 1) = some (forked n c) := by
      simpa [withChildren, slot] using held
    simp only [kill, held', show (forked n c).fdTable = stdio from rfl,
      show (withChildren l b).store = stdioStore from rfl, closeAll_stdio]
    simp only [Scheduler.update, Slots.update_eq_set held']
    rfl
  simp only [perform, tgkill, there, dead]
  rw [if_neg]
  exact other

theorem perform_wait4 {i : Nat}
    (found : l.findIdx? (fun o => o.any fun q => awaited 1 0 q && q.state = .dead) = some i)
    (held : Slots.get l i = some (killed n c)) :
    (withChildren l b).perform .release (.wait4 0 0 0) =
      .ok (.reaped (killed n c), withChildren (l.set i none) b) := by
  have there : (withChildren l b).sched.find (fun q => awaited 1 0 q && q.state = .dead) =
      some (i + 1) := by
    have mine : awaited 1 0 (initProcess .running) = false := rfl
    simp [find, withChildren, List.findIdx?_cons, mine, found]
  have held' : (withChildren l b).sched.slot (i + 1) = some (killed n c) := by
    simpa [withChildren, slot] using held
  have current : (withChildren l b).sched.current = some (initProcess .running) := rfl
  simp only [perform, wait4, current, waitRound, show (initProcess .running).pid = 1 from rfl,
    there, held']
  rfl

/-- The init process forks a child, kills the elder one and reaps it: the pids grow by one. -/
theorem reached_right (h : Reached (withChildren l b)) (lo : 2 ≤ n) (hi : n + 1 < 2 ^ 64)
    (top : (withChildren l b).sched.maxPid = n)
    (added : ∀ a, Slots.insert l a = [some (forked n c), some a]) :
    Reached (withChildren [none, some (forked (n + 1) b)] (b + 1)) := by
  have fork := h.call (perform_fork top)
  rw [Nat.mod_eq_of_lt hi, added] at fork
  have kill := fork.call (perform_tgkill (i := 0) (n := n) (c := c) (by omega)
    (by simp [List.findIdx?_cons, forked]) (by simp))
  exact kill.call (perform_wait4 (i := 0) (n := n) (c := c)
    (by simp [List.findIdx?_cons, killed, awaited]) (by simp))

theorem reached_left (h : Reached (withChildren [none, some (forked n c)] b)) (lo : 2 ≤ n)
    (hi : n + 1 < 2 ^ 64) :
    Reached (withChildren [some (forked (n + 1) b), none] (b + 1)) := by
  have fork := h.call (perform_fork (n := n) (by
    simp [maxPid, withChildren, forked, initProcess]; omega))
  rw [Nat.mod_eq_of_lt hi, Slots.insert] at fork
  have kill := fork.call (perform_tgkill (i := 1) (n := n) (c := c) (by omega)
    (by simp [Slots.firstFree, List.findIdx?_cons, forked])
    (by simp [Slots.firstFree, List.findIdx?_cons]))
  exact kill.call (perform_wait4 (i := 1) (n := n) (c := c)
    (by simp [Slots.firstFree, List.findIdx?_cons, killed, forked, awaited])
    (by simp [Slots.firstFree, List.findIdx?_cons]))

theorem reached_odd (k : Nat) (hi : 2 * k + 3 < 2 ^ 64) :
    ∃ b c, Reached (withChildren [none, some (forked (2 * k + 3) c)] b) := by
  induction k with
  | zero =>
    have timer : Reached (withChildren [] 1) :=
      Reachable.next (.start booted_initial) ⟨.timer, .ret 0, rfl, rfl⟩
    have fork := timer.call (perform_fork (n := 1) rfl)
    exact ⟨3, 2, reached_right fork (by omega) (by omega) rfl fun _ => rfl⟩
  | succ k ih =>
    obtain ⟨b, c, h⟩ := ih (by omega)
    have left := reached_left h (by omega) (by omega)
    refine ⟨b + 1 + 1, b + 1, reached_right left (by omega) (by omega) ?_ fun _ => rfl⟩
    simp [maxPid, withChildren, forked, initProcess]
    omega

/-- After `2 ^ 64 - 2` forks the release build gives a child of the init process the pid `0`. -/
theorem wrapped_pid : ∃ s : System Unit,
    Reachable Initial (fun s s' => ∃ action answer, Step .release s action answer s') s ∧
    ∃ i a, s.sched.slot i = some a ∧ a.parentPid = 1 ∧ a.pid = 0 := by
  obtain ⟨b, c, last⟩ := reached_odd (2 ^ 63 - 2) (by omega)
  have top : (withChildren [none, some (forked (2 * (2 ^ 63 - 2) + 3) c)] b).sched.maxPid =
      2 ^ 64 - 1 := by simp [maxPid, withChildren, forked, initProcess]
  exact ⟨_, last.call (perform_fork top), 1, _, rfl, rfl, by simp [forked]⟩

theorem safeTable_after_fork : SafeTable .dev (withChildren [some (forked 2 1)] 2) := by
  have start : Reachable Initial (Numbered .dev) (withChildren [] 1) :=
    .next (.start booted_initial) ⟨.timer, .ret 0, ⟨rfl, rfl⟩, by simp⟩
  exact safeTable_of_reachable (start.next ⟨.fork (some ()), .ret 2, ⟨rfl, rfl⟩, by simp⟩)

end Wrap

end System
end Ferrum
