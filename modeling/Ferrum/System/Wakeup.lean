import Ferrum.System.Safety

/-!
# Waiting for children

A process parked in `wait4` must not miss the death of a child it waits for. `exit` tells the parent;
`tgkill` and the fatal page fault do not, so the property holds in runs where they only kill processes
whose parent is not waiting.
-/
namespace Ferrum

variable {ρ : Type}

/-- Parked in `wait4` with this target. -/
def Process.Waits (w : Process ρ) (target : Int) : Prop :=
  w.state = .waiting ∧ ∃ statusPtr options, w.context = .wait4 target statusPtr options

namespace Scheduler

open Process

variable {s s' s'' : Scheduler ρ} {i : Nat} {f : Process ρ → Process ρ}

/-- Nobody waits for a child that is already dead. -/
def NoLostWakeup (s : Scheduler ρ) : Prop :=
  ∀ j w target, s.slot j = some w → w.Waits target →
    ∀ i z, s.slot i = some z → z.state = .dead → awaited w.pid target z = false

/-- The second table has no new dead and nobody new who waits. -/
structure Quiet (s s' : Scheduler ρ) : Prop where
  waits : ∀ {j w' target}, s'.slot j = some w' → w'.Waits target →
    ∃ w, s.slot j = some w ∧ w.Waits target ∧ w.pid = w'.pid
  dead : ∀ {i z'}, s'.slot i = some z' → z'.state = .dead →
    ∃ z, s.slot i = some z ∧ z.state = .dead ∧ Kin z z'

theorem awaited_congr {a b : Process ρ} (kin : Kin a b) (caller : Nat) (target : Int) :
    awaited caller target a = awaited caller target b := by
  simp only [awaited, kin.pid, kin.parentPid]

theorem NoLostWakeup.quiet (h : NoLostWakeup s) (q : Quiet s s') : NoLostWakeup s' := by
  intro j w' target hw' waits i z' hz' dead
  obtain ⟨w, hw, waits, pid⟩ := q.waits hw' waits
  obtain ⟨z, hz, dead, kin⟩ := q.dead hz' dead
  rw [← pid, ← awaited_congr kin]
  exact h j w target hw waits i z hz dead

theorem Quiet.refl (s : Scheduler ρ) : Quiet s s :=
  ⟨fun hw waits => ⟨_, hw, waits, rfl⟩, fun hz dead => ⟨_, hz, dead, .refl _⟩⟩

theorem Quiet.trans (h : Quiet s s') (g : Quiet s' s'') : Quiet s s'' where
  waits hw waits := by
    obtain ⟨w', hw', waits, pid'⟩ := g.waits hw waits
    obtain ⟨w, hw, waits, pid⟩ := h.waits hw' waits
    exact ⟨w, hw, waits, pid.trans pid'⟩
  dead hz dead := by
    obtain ⟨z', hz', dead, kin'⟩ := g.dead hz dead
    obtain ⟨z, hz, dead, kin⟩ := h.dead hz' dead
    exact ⟨z, hz, dead, kin.trans kin'⟩

theorem quiet_update (keeps : ∀ a, Kin a (f a))
    (waits : ∀ a target, s.slot i = some a → (f a).Waits target → a.Waits target)
    (dead : ∀ a, s.slot i = some a → (f a).state = .dead → a.state = .dead) :
    Quiet s (s.update i f) := by
  constructor
  · intro j w' target hw' isWaiting
    obtain ⟨w, hw, rfl⟩ := slot_update_eq_some hw'
    split at isWaiting
    · rename_i same
      refine ⟨w, hw, waits w target (same ▸ hw) isWaiting, ?_⟩
      rw [if_pos same]
      exact (keeps w).pid
    · rename_i other
      exact ⟨w, hw, isWaiting, by rw [if_neg other]⟩
  · intro j z' hz' isDead
    obtain ⟨z, hz, rfl⟩ := slot_update_eq_some hz'
    split at isDead
    · rename_i same
      refine ⟨z, hz, dead z (same ▸ hz) isDead, ?_⟩
      rw [if_pos same]
      exact keeps z
    · rename_i other
      refine ⟨z, hz, isDead, ?_⟩
      rw [if_neg other]
      exact .refl z

theorem quiet_putBack (s : Scheduler ρ) : Quiet s s.putBack := by
  rcases putBack_eq s with same | ⟨-, same⟩
  · rw [same]
    exact .refl s
  · rw [same]
    refine quiet_update preempt_kin (fun a target _ waits => ?_) fun a _ dead => ?_
    all_goals
      unfold preempt at *
      split at *
    · cases waits.1
    · exact waits
    · cases dead
    · exact dead

theorem quiet_schedule (s : Scheduler ρ) : Quiet s s.schedule := by
  rcases schedule_cases s with ⟨same, -⟩ | ⟨same, -⟩ | ⟨i, a, -, -, same⟩
  · rw [same]
    exact quiet_putBack s
  · rw [same]
    exact ⟨(quiet_putBack s).waits, (quiet_putBack s).dead⟩
  · rw [same]
    have switched : Quiet s.putBack (s.putBack.update i fun process =>
        { process with state := .running }) :=
      quiet_update (fun _ => ⟨rfl, rfl, rfl, rfl⟩) (fun a target _ waits => nomatch waits.1)
        fun a _ dead => nomatch dead
    exact ⟨((quiet_putBack s).trans switched).waits, ((quiet_putBack s).trans switched).dead⟩

theorem ready_schedule {w : Process ρ} (hw : s.slot i = some w) (ready : w.state = .ready) :
    ∃ w', s.schedule.slot i = some w' ∧ Kin w w' ∧ (w'.state = .ready ∨ w'.state = .running) := by
  have put : s.putBack.slot i = some w := slot_putBack hw (by simp [ready])
  rcases schedule_cases s with ⟨same, -⟩ | ⟨same, -⟩ | ⟨k, a, ha, -, same⟩
  · exact ⟨w, by rw [same]; exact put, .refl w, .inl ready⟩
  · exact ⟨w, by rw [same]; exact put, .refl w, .inl ready⟩
  · have slots := slot_update (s := s.putBack) (i := k) (j := i)
      (f := fun process => { process with state := .running })
    rw [same]
    by_cases here : i = k
    · refine ⟨{ w with state := .running }, ?_, ⟨rfl, rfl, rfl, rfl⟩, .inr rfl⟩
      rw [if_pos here, put] at slots
      exact slots
    · refine ⟨w, ?_, .refl w, .inl ready⟩
      rw [if_neg here, put] at slots
      exact slots

theorem quiet_wake (s : Scheduler ρ) (pid : Nat) : Quiet s (s.wake pid) := by
  rcases wake_cases s pid with ⟨same, -⟩ | ⟨i, w, -, -, -, same⟩
  · rw [same]
    exact .refl s
  · rw [same]
    exact quiet_update (fun _ => ⟨rfl, rfl, rfl, rfl⟩) (fun _ _ _ waits => nomatch waits.1)
      fun _ _ dead => nomatch dead

theorem quiet_tend (tended : ∀ a, Tended a (f a)) : Quiet s (s.update i f) := by
  refine quiet_update (fun a => (tended a).kin) ?_ fun a _ dead => (tended a).state ▸ dead
  rintro a target - ⟨waiting, statusPtr, options, context⟩
  exact ⟨(tended a).state ▸ waiting, statusPtr, options, (tended a).context _ _ _ context⟩

theorem Identities.wake_spec (ids : Identities s) {pid : Nat} {w : Process ρ}
    (hw : (s.wake pid).slot i = some w) (named : w.pid = pid) : w.state ≠ .waiting := by
  rcases wake_cases s pid with ⟨same, none⟩ | ⟨k, v, hv, namedV, -, same⟩
  · rw [same] at hw
    exact none hw named
  · rw [same] at hw
    obtain ⟨a, ha, rfl⟩ := slot_update_eq_some hw
    by_cases here : i = k
    · simp [here]
    · rw [if_neg here] at named
      exact absurd (ids.distinct ha hv (named.trans namedV.symm)) here

theorem NoLostWakeup.die (h : NoLostWakeup s) {z : Process ρ} {t : FdTable} {code : Option Int}
    (hz : s.slot i = some z)
    (unawaited : ∀ j w, s.slot j = some w → w.pid = z.parentPid → w.state = .waiting →
      z.state = .dead) : NoLostWakeup (s.update i (die t code)) := by
  intro j w' target hw' waits k z' hz' dead
  obtain ⟨w, hw, rfl⟩ := slot_update_eq_some hw'
  split at waits
  · cases waits.1
  rename_i other
  rw [if_neg other]
  obtain ⟨y, hy, rfl⟩ := slot_update_eq_some hz'
  split at dead
  · rename_i same
    subst same
    obtain rfl : z = y := Option.some.inj (hz.symm.trans hy)
    have kin : awaited w.pid target z = awaited w.pid target (die t code z) :=
      awaited_congr ⟨rfl, rfl, rfl, rfl⟩ _ _
    rw [if_pos rfl, ← kin, Bool.eq_false_iff]
    intro child
    have parent := child
    simp only [awaited, Bool.and_eq_true, decide_eq_true_eq] at parent
    have gone := unawaited j w hw parent.1.symm waits.1
    exact absurd child (by simp [h j w target hw waits k z hz gone])
  · rename_i distinct
    rw [if_neg distinct]
    exact h j w target hw waits k y hy dead

end Scheduler

namespace System

open Scheduler Process

variable {p : Profile} {action : Action ρ} {answer : Answer ρ}

/-- The action kills a living process whose parent is waiting, and does not tell the parent. -/
def Silent (s : Scheduler ρ) (action : Action ρ) : Prop :=
  ∃ i z j w, s.slot i = some z ∧ z.state ≠ .dead ∧
    (action = .tgkill z.pid ∨ action = .segfault ∧ i = s.currentIdx) ∧
    s.slot j = some w ∧ w.pid = z.parentPid ∧ w.state = .waiting

section Keep

variable {s s' : Scheduler ρ}

theorem unawaited_of_heard (heard : ¬ Silent s action) {i : Nat} {z : Process ρ}
    (hz : s.slot i = some z)
    (named : action = .tgkill z.pid ∨ action = .segfault ∧ i = s.currentIdx) :
    ∀ j w, s.slot j = some w → w.pid = z.parentPid → w.state = .waiting → z.state = .dead := by
  intro j w hw parent waits
  by_contra alive
  exact heard ⟨i, z, j, w, hz, alive, named, hw, parent, waits⟩

/-- The transitions, by what they mean for those who wait: nothing, one more who waits, a death that
the parent does not hear of, or an exit. -/
inductive News (s : Scheduler ρ) (action : Action ρ) (s' : Scheduler ρ) : Prop
  | none (quiet : Quiet s s')
  | parked (caller : Process ρ) (target : Int) (statusPtr options : Nat)
      (current : s.current = some caller)
      (noZombie : ∀ {j z}, s.slot j = some z → awaited caller.pid target z → z.state ≠ .dead)
      (quiet : Quiet (s.update s.currentIdx (park target statusPtr options)) s')
  | killed (i : Nat) (z : Process ρ) (t : FdTable) (held : s.slot i = some z)
      (named : action = .tgkill z.pid ∨ action = .segfault ∧ i = s.currentIdx)
      (quiet : Quiet (s.update i (die t Option.none)) s')
  | exited (process : Process ρ) (t : FdTable) (code : Int) (f : Process ρ → Process ρ)
      (current : s.current = some process) (tended : ∀ a, Tended a (f a))
      (same : s' = (((s.update s.currentIdx (die t (some code))).wake process.parentPid).update
        s.currentIdx f).schedule)

theorem Effect.news (effect : Effect p s action answer s') : News s action s' := by
  cases effect with
  | tend f tended => exact .none (quiet_tend tended)
  | turn f tended => exact .none ((quiet_tend tended).trans (quiet_schedule _))
  | adopt parent pid t image current chosen =>
    obtain ⟨k, -, slots⟩ := adopt_spec s parent pid t image
    refine .none ⟨fun {j w target} hw waits => ?_, fun {j z} hz dead => ?_⟩
    · rw [slots] at hw
      split at hw
      · cases hw
        cases waits.1
      · exact ⟨w, hw, waits, rfl⟩
    · rw [slots] at hz
      split at hz
      · cases hz
        cases dead
      · exact ⟨z, hz, dead, .refl z⟩
  | exit code process t current closed =>
    exact .exited process t code toHalt current tended_toHalt rfl
  | kill i z t held => exact .killed i z t held (.inl rfl) (.refl _)
  | fall i z t held closed named =>
    exact .killed i z t held named ((quiet_tend tended_toHalt).trans (quiet_schedule _))
  | reap caller target i z current held =>
    have removed : Quiet s { s with processes := s.processes.set i Option.none } := by
      refine ⟨fun {j w target} hw waits => ?_, fun {j z} hz dead => ?_⟩
      · rw [slot_remove (Slots.lt_of_get held)] at hw
        split at hw
        · cases hw
        · exact ⟨w, hw, waits, rfl⟩
      · rw [slot_remove (Slots.lt_of_get held)] at hz
        split at hz
        · cases hz
        · exact ⟨z, hz, dead, .refl z⟩
    exact .none (removed.trans (quiet_tend tended_toUser))
  | park caller target statusPtr options current noZombie =>
    exact .parked caller target statusPtr options current noZombie (quiet_schedule _)

theorem noLostWakeup_park (h : NoLostWakeup s) {caller : Process ρ} {target : Int}
    {statusPtr options : Nat} (current : s.current = some caller)
    (noZombie : ∀ {j z}, s.slot j = some z → awaited caller.pid target z → z.state ≠ .dead) :
    NoLostWakeup (s.update s.currentIdx (park target statusPtr options)) := by
  intro j w' sought hw' waits k z' hz' dead
  obtain ⟨z, hz, rfl⟩ := slot_update_eq_some hz'
  split at dead
  · cases dead
  rename_i other
  rw [if_neg other]
  obtain ⟨w, hw, rfl⟩ := slot_update_eq_some hw'
  split at waits
  · rename_i same
    subst same
    obtain rfl : caller = w := Option.some.inj ((current_eq_some current).2.symm.trans hw)
    obtain ⟨-, _, _, context⟩ := waits
    cases context
    rw [if_pos rfl, Bool.eq_false_iff]
    exact fun child => noZombie hz child dead
  · rename_i away
    rw [if_neg away]
    exact h j w sought hw waits k z hz dead

theorem noLostWakeup_exit (ids : Identities s) (h : NoLostWakeup s) {process : Process ρ}
    (t : FdTable) (code : Int) (current : s.current = some process) :
    NoLostWakeup ((s.update s.currentIdx (die t (some code))).wake process.parentPid) := by
  have here := (current_eq_some current).2
  have ids' := ids.descend (descends_update (s := s) (i := s.currentIdx) (die_kin t (some code)))
  intro j w target hw waits k z hz dead
  rw [Bool.eq_false_iff]
  intro child
  obtain ⟨w₀, hw₀, waits₀, pid⟩ := (quiet_wake _ _).waits hw waits
  obtain ⟨z₀, hz₀, dead₀, kin⟩ := (quiet_wake _ _).dead hz dead
  rw [← pid, ← awaited_congr kin] at child
  obtain ⟨w₁, hw₁, rfl⟩ := slot_update_eq_some hw₀
  split at waits₀
  · cases waits₀.1
  rename_i away
  rw [if_neg away] at child pid
  obtain ⟨z₁, hz₁, rfl⟩ := slot_update_eq_some hz₀
  split at dead₀
  · -- the process that exits: its parent has been woken
    rename_i same
    subst same
    obtain rfl : process = z₁ := Option.some.inj (here.symm.trans hz₁)
    simp only [awaited, if_true, Bool.and_eq_true, decide_eq_true_eq] at child
    exact ids'.wake_spec hw (pid.symm.trans child.1.symm) waits.1
  · rename_i other
    rw [if_neg other] at child
    exact absurd child (by simp [h j w₁ target hw₁ waits₀ k z₁ hz₁ dead₀])

theorem Effect.noLostWakeup (ids : Identities s) (h : NoLostWakeup s) (heard : ¬ Silent s action)
    (effect : Effect p s action answer s') : NoLostWakeup s' := by
  cases effect.news with
  | none quiet => exact h.quiet quiet
  | parked caller target statusPtr options current noZombie quiet =>
    exact (noLostWakeup_park h current noZombie).quiet quiet
  | killed i z t held named quiet =>
    exact (h.die held (unawaited_of_heard heard held named)).quiet quiet
  | exited process t code f current tended same =>
    rw [same]
    exact (noLostWakeup_exit ids h t code current).quiet
      ((quiet_tend tended).trans (quiet_schedule _))

/-- A death that is announced, or that nobody waits for, leaves the parent ready or running. -/
theorem Effect.wakes (ids : Identities s) (heard : ¬ Silent s action)
    (effect : Effect p s action answer s') {i j : Nat} {z w : Process ρ} (hz : s'.slot i = some z)
    (dead : z.state = .dead) (fresh : ∀ a, s.slot i = some a → a.state ≠ .dead)
    (hw : s.slot j = some w) (parent : w.pid = z.parentPid) (waits : w.state = .waiting) :
    ∃ w', s'.slot j = some w' ∧ Kin w w' ∧ (w'.state = .ready ∨ w'.state = .running) := by
  cases effect.news with
  | none quiet =>
    obtain ⟨a, ha, dead, -⟩ := quiet.dead hz dead
    exact absurd dead (fresh a ha)
  | parked caller target statusPtr options current noZombie quiet =>
    obtain ⟨b, hb, dead, -⟩ := quiet.dead hz dead
    obtain ⟨a, ha, rfl⟩ := slot_update_eq_some hb
    split at dead
    · cases dead
    · exact absurd dead (fresh a ha)
  | killed k y t held named quiet =>
    obtain ⟨b, hb, dead, kin⟩ := quiet.dead hz dead
    obtain ⟨a, ha, rfl⟩ := slot_update_eq_some hb
    split at dead
    · rename_i same
      subst same
      obtain rfl : y = a := Option.some.inj (held.symm.trans ha)
      have named := unawaited_of_heard heard held named j w hw (parent.trans kin.parentPid.symm |>.trans
        (by rw [if_pos rfl]; rfl)) waits
      exact absurd named (fresh y ha)
    · exact absurd dead (fresh a ha)
  | exited process t code f current tended same =>
    have here := (current_eq_some current).2
    have ids' := ids.descend (descends_update (s := s) (i := s.currentIdx) (die_kin t (some code)))
    rw [same] at hz ⊢
    obtain ⟨b, hb, dead, kin⟩ := ((quiet_wake _ _).trans
      ((quiet_tend tended).trans (quiet_schedule _))).dead hz dead
    obtain ⟨a, ha, rfl⟩ := slot_update_eq_some hb
    split at dead
    · rename_i same
      subst same
      obtain rfl : process = a := Option.some.inj (here.symm.trans ha)
      have child : w.pid = process.parentPid :=
        parent.trans (kin.parentPid.symm.trans (by rw [if_pos rfl]; rfl))
      have other : j ≠ s.currentIdx := by
        rintro rfl
        obtain rfl : process = w := Option.some.inj (here.symm.trans hw)
        have := ids.parent hw
        omega
      have still : (s.update s.currentIdx (die t (some code))).slot j = some w := by
        rw [slot_update, if_neg other, hw]
      rcases wake_cases (s.update s.currentIdx (die t (some code))) process.parentPid with
        ⟨-, none⟩ | ⟨k, v, hv, named, -, woken⟩
      · exact absurd waits (none still child)
      · obtain rfl := ids'.distinct still hv (child.trans named.symm)
        rw [woken]
        have ready : ((s.update s.currentIdx (die t (some code))).update j fun process =>
            { process with state := .ready }).slot j = some { w with state := .ready } := by
          rw [slot_update, if_pos rfl, still, Option.map_some]
        have stays := slot_update (s := (s.update s.currentIdx (die t (some code))).update j
          fun process => { process with state := .ready }) (i := s.currentIdx) (f := f) (j := j)
        rw [if_neg other, ready] at stays
        obtain ⟨w', hw', kin, awake⟩ := ready_schedule stays rfl
        exact ⟨w', hw', ⟨kin.pid, kin.parentPid, kin.serial, kin.forkedBy⟩, awake⟩
    · exact absurd dead (fresh a ha)

end Keep

variable {s s' : System ρ}

/-- A transition without a wrapped pid and without a silent kill. -/
def Heard (p : Profile) (s s' : System ρ) : Prop :=
  ∃ action answer, Step p s action answer s' ∧ ¬ Silent s.sched action ∧
    ((∃ child, action = .fork child) → p = .release → s.sched.maxPid + 1 < 2 ^ 64)

theorem noLostWakeup_initial (h : Initial s) : NoLostWakeup s.sched := by
  obtain ⟨init, table, -, -, state, -⟩ := h.table
  rintro j w target hw ⟨waits, -⟩
  rw [slot, table] at hw
  cases j with
  | zero =>
    simp only [Slots.get_cons_zero, Option.some.injEq] at hw
    rw [← hw, state] at waits
    cases waits
  | succ j => simp at hw

/-- If the processes that `tgkill` and page faults kill have no waiting parent, nobody ever waits for
a child that is dead already, and every death moves a waiting parent on. -/
theorem noLostWakeup_of_heard (h : Reachable Initial (Heard p) s) :
    NoLostWakeup s.sched ∧
    ∀ action answer s', Step p s action answer s' → ¬ Silent s.sched action →
      ∀ i z, s'.sched.slot i = some z → z.state = .dead →
        (∀ a, s.sched.slot i = some a → a.state ≠ .dead) →
      ∀ j w, s.sched.slot j = some w → w.pid = z.parentPid → w.state = .waiting →
        ∃ w', s'.sched.slot j = some w' ∧ Kin w w' ∧
          (w'.state = .ready ∨ w'.state = .running) := by
  have both : Orderly s.sched ∧ NoLostWakeup s.sched := by
    refine h.invariant (P := fun s => Orderly s.sched ∧ NoLostWakeup s.sched)
      (fun s init => ⟨init.orderly, noLostWakeup_initial init⟩) ?_
    rintro s s' ⟨orderly, noLost⟩ ⟨action, answer, step, heard, fits⟩
    have effect := step.effect
    exact ⟨step.orderly orderly fits, effect.noLostWakeup orderly.ids noLost heard⟩
  refine ⟨both.2, ?_⟩
  intro action answer s' step heard i z hz dead fresh j w hw parent waits
  exact step.effect.wakes both.1.ids heard hz dead fresh hw parent waits

/-- A child that kills itself with `tgkill` while its parent waits for any child: the parent stays
parked, and the system goes idle. -/
theorem tgkill_loses_wakeup : ∃ s : System Unit,
    Reachable Initial (fun s s' => ∃ action answer, Step .dev s action answer s') s ∧
    s.sched.idle ∧ ∃ i j w z, s.sched.slot j = some w ∧ w.Waits (-1) ∧
      s.sched.slot i = some z ∧ z.state = .dead ∧ awaited w.pid (-1) z := by
  have evaluates : booted.run .dev [.timer, .fork (some ()), .wait4 (-1) 0 0, .tgkill 2] =
      .ok ⟨⟨[some { initProcess .waiting with context := .wait4 (-1) 0 0 },
        some { killed 2 1 with context := .halted }], 1, true, true, 2⟩, stdioStore⟩ := by decide +kernel
  refine ⟨_, reachable_run (fun _ _ _ _ _ step => ⟨_, _, step⟩) (.start booted_initial) evaluates, rfl,
    1, 0, _, _, rfl, ⟨rfl, 0, 0, rfl⟩, rfl, rfl, rfl⟩

/-- A parent that waits is woken by the exit of its child. -/
theorem noLostWakeup_after_exit : NoLostWakeup (⟨[some { initProcess .running with
    context := .wait4 (-1) 0 0 }, some { killed 2 1 with context := .halted }],
    0, true, false, 2⟩ : Scheduler Unit) := by
  have evaluates : booted.run .dev [.timer, .fork (some ()), .wait4 (-1) 0 0, .exit 0] =
      .ok ⟨⟨[some { initProcess .running with context := .wait4 (-1) 0 0 },
        some { killed 2 1 with context := .halted }], 0, true, false, 2⟩, stdioStore⟩ := by decide +kernel
  have loud : ∀ action ∈ [Action.timer, .fork (some ()), .wait4 (-1) 0 0, .exit 0],
      ∀ (s : System Unit) answer s', Step .dev s action answer s' → Heard .dev s s' := by
    intro action mem s answer s' step
    refine ⟨action, answer, step, ?_, by simp⟩
    rintro ⟨i, z, j, w, -, -, named, -⟩
    simp only [List.mem_cons, List.not_mem_nil, or_false] at mem
    rcases mem with rfl | rfl | rfl | rfl <;> simp at named
  exact (noLostWakeup_of_heard (reachable_run loud (.start booted_initial) evaluates)).1

end System
end Ferrum
