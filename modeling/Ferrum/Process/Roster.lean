import Ferrum.Library.Cyclic
import Ferrum.Process.Model

/-!
# What the scheduler's operations do to the process table

Every operation but the adoption of a child leaves processes in their slots with the numbers they
have, so the facts about pids and parentage only have to be looked at when a child is added.
-/
namespace Ferrum

variable {ρ : Type}

namespace Process

/-- The same process, up to its scheduling state and its possessions. -/
structure Kin (a b : Process ρ) : Prop where
  pid : a.pid = b.pid
  parentPid : a.parentPid = b.parentPid
  serial : a.serial = b.serial
  forkedBy : a.forkedBy = b.forkedBy

theorem Kin.refl (a : Process ρ) : Kin a a := ⟨rfl, rfl, rfl, rfl⟩

theorem Kin.trans {a b c : Process ρ} (h : Kin a b) (g : Kin b c) : Kin a c :=
  ⟨h.pid.trans g.pid, h.parentPid.trans g.parentPid, h.serial.trans g.serial,
    h.forkedBy.trans g.forkedBy⟩

end Process

namespace Scheduler

open Process (Kin)

variable {s s' s'' : Scheduler ρ} {i j : Nat} {a b : Process ρ} {f : Process ρ → Process ρ}

@[simp] theorem update_currentIdx : (s.update i f).currentIdx = s.currentIdx := rfl
@[simp] theorem update_initialized : (s.update i f).initialized = s.initialized := rfl
@[simp] theorem update_idle : (s.update i f).idle = s.idle := rfl
@[simp] theorem update_births : (s.update i f).births = s.births := rfl

theorem slot_update : (s.update i f).slot j = if j = i then (s.slot j).map f else s.slot j :=
  Slots.get_update f

theorem slot_update_eq_some (h : (s.update i f).slot j = some b) :
    ∃ a, s.slot j = some a ∧ b = if j = i then f a else a := by
  rw [slot_update] at h
  split at h
  · obtain ⟨a, ha, rfl⟩ := Option.map_eq_some_iff.mp h
    exact ⟨a, ha, (if_pos (by assumption)).symm⟩
  · exact ⟨b, h, (if_neg (by assumption)).symm⟩

theorem current_eq_some (h : s.current = some a) : s.initialized ∧ s.slot s.currentIdx = some a := by
  unfold current at h
  split at h
  · exact ⟨by assumption, h⟩
  · cases h

theorem slot_of_find {test : Process ρ → Bool} (h : s.find test = some i) :
    ∃ a, s.slot i = some a ∧ test a := by
  obtain ⟨inside, holds, -⟩ := List.findIdx?_eq_some_iff_getElem.mp h
  obtain ⟨a, ha, ok⟩ := (Option.any_eq_true _ _).mp holds
  refine ⟨a, ?_, ok⟩
  simp [slot, Slots.get, List.getElem?_eq_getElem inside, ha]

theorem find_eq_none {test : Process ρ → Bool} (h : s.find test = none) (ha : s.slot i = some a) :
    test a = false := by
  have held := Slots.get_eq_some_iff.mp ha
  have none := List.findIdx?_eq_none_iff.mp h _ (List.mem_of_getElem? held)
  simpa using none

/-! ## Processes keep their numbers -/

/-- Every process of the second table is in the same slot of the first, under the same numbers. -/
structure Descends (s s' : Scheduler ρ) : Prop where
  births : s.births = s'.births
  kin : ∀ {j b}, s'.slot j = some b → ∃ a, s.slot j = some a ∧ Kin a b

theorem Descends.refl (s : Scheduler ρ) : Descends s s := ⟨rfl, fun h => ⟨_, h, .refl _⟩⟩

theorem Descends.trans (h : Descends s s') (g : Descends s' s'') : Descends s s'' := by
  refine ⟨h.births.trans g.births, fun {j c} hc => ?_⟩
  obtain ⟨b, hb, kin⟩ := g.kin hc
  obtain ⟨a, ha, kin'⟩ := h.kin hb
  exact ⟨a, ha, kin'.trans kin⟩

theorem descends_update (keeps : ∀ a, Kin a (f a)) : Descends s (s.update i f) := by
  refine ⟨rfl, fun {j b} hb => ?_⟩
  obtain ⟨a, ha, rfl⟩ := slot_update_eq_some hb
  refine ⟨a, ha, ?_⟩
  split
  · exact keeps a
  · exact .refl a

/-- Pids, parents and serial numbers are in order. -/
structure Identities (s : Scheduler ρ) : Prop where
  distinct : ∀ {i j a b}, s.slot i = some a → s.slot j = some b → a.pid = b.pid → i = j
  parent : ∀ {i a}, s.slot i = some a → a.parentPid < a.pid
  born : ∀ {i a}, s.slot i = some a → a.serial < s.births
  serial : ∀ {i j a b}, s.slot i = some a → s.slot j = some b → a.serial = b.serial → i = j
  /-- A present process with the pid of the parent is the process that forked the child. -/
  origin : ∀ {i j a b}, s.slot i = some a → s.slot j = some b → b.parentPid = a.pid →
    b.forkedBy = a.serial

theorem Identities.descend (h : Identities s) (g : Descends s s') : Identities s' where
  distinct ha hb same := by
    obtain ⟨a, ha, ka⟩ := g.kin ha
    obtain ⟨b, hb, kb⟩ := g.kin hb
    exact h.distinct ha hb (by rw [ka.pid, kb.pid, same])
  parent ha := by
    obtain ⟨a, ha, ka⟩ := g.kin ha
    rw [← ka.pid, ← ka.parentPid]
    exact h.parent ha
  born ha := by
    obtain ⟨a, ha, ka⟩ := g.kin ha
    rw [← ka.serial, ← g.births]
    exact h.born ha
  serial ha hb same := by
    obtain ⟨a, ha, ka⟩ := g.kin ha
    obtain ⟨b, hb, kb⟩ := g.kin hb
    exact h.serial ha hb (by rw [ka.serial, kb.serial, same])
  origin ha hb same := by
    obtain ⟨a, ha, ka⟩ := g.kin ha
    obtain ⟨b, hb, kb⟩ := g.kin hb
    rw [← kb.forkedBy, ← ka.serial]
    exact h.origin ha hb (by rw [kb.parentPid, ka.pid, same])

/-! ## The operations -/

theorem le_maxPid (h : s.slot i = some a) : a.pid ≤ s.maxPid := by
  have held := Slots.get_eq_some_iff.mp h
  have mem : a.pid ∈ s.processes.map fun slot => slot.elim 0 Process.pid :=
    List.mem_map.mpr ⟨some a, List.mem_of_getElem? held, rfl⟩
  unfold maxPid
  generalize s.processes.map (fun slot => slot.elim 0 Process.pid) = pids at mem
  induction pids with
  | nil => cases mem
  | cons pid pids ih =>
    rw [List.foldr_cons]
    rcases List.mem_cons.mp mem with rfl | mem
    · exact Nat.le_max_left _ _
    · exact (ih mem).trans (Nat.le_max_right _ _)

/-- A pid that did not wrap is above every pid and every parent's pid in the table. -/
theorem Identities.fresh (h : Identities s) {p : Profile} {pid : Nat}
    (fits : p = .release → s.maxPid + 1 < 2 ^ 64) (run : s.allocPid p = .ok pid)
    (ha : s.slot i = some a) : a.pid < pid ∧ a.parentPid < pid := by
  have bound : s.maxPid + 1 < 2 ^ 64 := by
    cases p with
    | release => exact fits rfl
    | dev => exact Profile.lt_of_dev_add_ok run
  rw [allocPid, p.add_ok bound] at run
  have := Except.ok.inj run
  have := le_maxPid ha
  have := h.parent ha
  omega

theorem adopt_spec (s : Scheduler ρ) (parent : Process ρ) (pid : Nat) (t : FdTable) (image : ρ) :
    ∃ k, s.slot k = none ∧ ∀ j, (s.adopt parent pid t image).slot j =
      if j = k then some ⟨pid, parent.pid, .ready, 0, .user, t, image, s.births, parent.serial⟩
      else s.slot j :=
  Slots.insert_spec _ _

theorem Identities.adopt (h : Identities s) {parent : Process ρ} {pid : Nat} {t : FdTable} {image : ρ}
    (hp : s.slot i = some parent)
    (fresh : ∀ {j a}, s.slot j = some a → a.pid < pid ∧ a.parentPid < pid) :
    Identities (s.adopt parent pid t image) := by
  obtain ⟨k, -, slots⟩ := adopt_spec s parent pid t image
  -- every present process is the child or was present before
  have old : ∀ {j b}, (s.adopt parent pid t image).slot j = some b →
      (j = k ∧ b = ⟨pid, parent.pid, .ready, 0, .user, t, image, s.births, parent.serial⟩) ∨
      (j ≠ k ∧ s.slot j = some b) := by
    intro j b hb
    rw [slots] at hb
    split at hb
    · exact .inl ⟨by assumption, (Option.some.inj hb).symm⟩
    · exact .inr ⟨by assumption, hb⟩
  have births : (s.adopt parent pid t image).births = s.births + 1 := rfl
  refine ⟨?_, ?_, ?_, ?_, ?_⟩
  · intro i j a b ha hb same
    rcases old ha with ⟨rfl, rfl⟩ | ⟨-, ha⟩ <;> rcases old hb with ⟨rfl, rfl⟩ | ⟨-, hb⟩
    · rfl
    · have := (fresh hb).1
      simp only at same
      omega
    · have := (fresh ha).1
      simp only at same
      omega
    · exact h.distinct ha hb same
  · intro i a ha
    rcases old ha with ⟨rfl, rfl⟩ | ⟨-, ha⟩
    · exact (fresh hp).1
    · exact h.parent ha
  · intro i a ha
    rw [births]
    rcases old ha with ⟨rfl, rfl⟩ | ⟨-, ha⟩
    · exact Nat.lt_succ_self _
    · exact (h.born ha).trans (Nat.lt_succ_self _)
  · intro i j a b ha hb same
    rcases old ha with ⟨rfl, rfl⟩ | ⟨-, ha⟩ <;> rcases old hb with ⟨rfl, rfl⟩ | ⟨-, hb⟩
    · rfl
    · have := h.born hb
      simp only at same
      omega
    · have := h.born ha
      simp only at same
      omega
    · exact h.serial ha hb same
  · intro i j a b ha hb same
    rcases old ha with ⟨rfl, rfl⟩ | ⟨-, ha⟩ <;> rcases old hb with ⟨rfl, rfl⟩ | ⟨-, hb⟩
    · have := (fresh hp).1
      simp only at same
      omega
    · have := (fresh hb).2
      simp only at same
      omega
    · obtain rfl := h.distinct hp ha same
      exact congrArg Process.serial (Option.some.inj (hp.symm.trans ha))
    · exact h.origin ha hb same

theorem slot_remove (inside : i < s.processes.length) :
    ({ s with processes := s.processes.set i none } : Scheduler ρ).slot j =
      if j = i then none else s.slot j := Slots.get_set inside

theorem descends_remove (ha : s.slot i = some a) :
    Descends s { s with processes := s.processes.set i none } := by
  refine ⟨rfl, fun {j b} hb => ⟨b, ?_, .refl b⟩⟩
  rw [slot_remove (Slots.lt_of_get ha)] at hb
  split at hb
  · cases hb
  · exact hb

theorem wake_cases (s : Scheduler ρ) (pid : Nat) :
    (s.wake pid = s ∧ ∀ {j w}, s.slot j = some w → w.pid = pid → w.state ≠ .waiting) ∨
    ∃ i w, s.slot i = some w ∧ w.pid = pid ∧ w.state = .waiting ∧
      s.wake pid = s.update i fun process => { process with state := .ready } := by
  unfold wake
  cases found : s.find fun process => process.pid = pid && process.state = .waiting with
  | none =>
    refine .inl ⟨rfl, fun hw same waits => ?_⟩
    have := find_eq_none found hw
    simp [same, waits] at this
  | some i =>
    obtain ⟨w, hw, ok⟩ := slot_of_find found
    simp only [Bool.and_eq_true, decide_eq_true_eq] at ok
    exact .inr ⟨i, w, hw, ok.1, ok.2, rfl⟩

@[simp] theorem wake_currentIdx (pid : Nat) : (s.wake pid).currentIdx = s.currentIdx := by
  unfold wake
  split <;> rfl

theorem descends_wake (s : Scheduler ρ) (pid : Nat) : Descends s (s.wake pid) := by
  rcases wake_cases s pid with ⟨same, -⟩ | ⟨i, w, -, -, -, same⟩
  · rw [same]
    exact .refl s
  · rw [same]
    exact descends_update fun a => ⟨rfl, rfl, rfl, rfl⟩

/-! ## The choice of the next process -/

theorem mem_rotation (inside : i < s.processes.length) : i ∈ s.rotation := Cyclic.mem_order inside

theorem isReady_iff {o : Option (Process ρ)} :
    isReady o ↔ ∃ a, o = some a ∧ a.state = .ready := by
  cases o <;> simp [isReady]

theorem nextProcess_some (h : s.nextProcess = some i) :
    ∃ a, s.slot i = some a ∧ a.state = .ready := by
  have ready : isReady (s.slot i) := List.find?_some (p := fun i => isReady (s.slot i)) h
  exact isReady_iff.mp ready

theorem nextProcess_isSome (ha : s.slot i = some a) (ready : a.state = .ready) :
    ∃ k, s.nextProcess = some k := by
  refine Option.isSome_iff_exists.mp ?_
  rw [nextProcess, List.find?_isSome]
  exact ⟨i, mem_rotation (Slots.lt_of_get ha), isReady_iff.mpr ⟨a, ha, ready⟩⟩

theorem putBack_eq (s : Scheduler ρ) :
    s.putBack = s ∨ (s.initialized ∧ s.putBack = s.update s.currentIdx preempt) := by
  unfold putBack
  split
  · exact .inr ⟨by assumption, rfl⟩
  · exact .inl rfl

@[simp] theorem putBack_currentIdx : s.putBack.currentIdx = s.currentIdx := by
  unfold putBack; split <;> rfl
@[simp] theorem putBack_initialized : s.putBack.initialized = s.initialized := by
  unfold putBack; split <;> rfl
@[simp] theorem putBack_idle : s.putBack.idle = s.idle := by unfold putBack; split <;> rfl
@[simp] theorem putBack_births : s.putBack.births = s.births := by unfold putBack; split <;> rfl

theorem preempt_kin (a : Process ρ) : Kin a (preempt a) := by
  unfold preempt
  split
  · exact ⟨rfl, rfl, rfl, rfl⟩
  · exact .refl a

/-- Putting back changes nothing about a process that is not running. -/
theorem slot_putBack (ha : s.slot i = some a) (idle : a.state ≠ .running) :
    s.putBack.slot i = some a := by
  rcases putBack_eq s with same | ⟨-, same⟩
  · rwa [same]
  · rw [same, slot_update, ha]
    simp [preempt, idle]

/-- The three ways in which `schedule` can end: it returns to a living caller, it goes back to the
boot context for good, or it switches to a ready process. -/
theorem schedule_cases (s : Scheduler ρ) :
    (s.schedule = s.putBack ∧ ∀ {a}, s.putBack.current = some a → a.state ≠ .dead) ∨
    (s.schedule = { s.putBack with idle := true } ∧
      (∃ a, s.current = some a ∧ a.state = .dead) ∧ ∀ {j a}, s.slot j = some a → a.state ≠ .ready) ∨
    ∃ i a, s.putBack.slot i = some a ∧ a.state = .ready ∧ s.schedule = s.putBack.switchTo i := by
  unfold schedule
  by_cases hasReady : s.processes.any isReady
  · -- the ready process is still ready once the current one is put back, so one is found
    obtain ⟨slot, mem, isReady⟩ := List.any_eq_true.mp hasReady
    obtain ⟨a, rfl, ready⟩ := isReady_iff.mp isReady
    obtain ⟨j, held⟩ := List.getElem?_of_mem mem
    have here : s.putBack.slot j = some a :=
      slot_putBack (Slots.get_eq_some_iff.mpr held) (by simp [ready])
    obtain ⟨k, found⟩ := nextProcess_isSome here ready
    obtain ⟨b, hb, ready⟩ := nextProcess_some found
    exact .inr (.inr ⟨k, b, hb, ready, by simp [hasReady, found]⟩)
  · have none : ∀ {j a}, s.slot j = some a → a.state ≠ .ready := by
      intro j a ha ready
      refine hasReady (List.any_eq_true.mpr ⟨some a, ?_, isReady_iff.mpr ⟨a, rfl, ready⟩⟩)
      exact List.mem_of_getElem? (Slots.get_eq_some_iff.mp ha)
    by_cases dead : s.putBack.current.any (·.state = .dead)
    · refine .inr (.inl ⟨by simp [hasReady, dead], ?_, none⟩)
      obtain ⟨a, ha, dead⟩ := (Option.any_eq_true _ _).mp dead
      simp only [decide_eq_true_eq] at dead
      obtain ⟨init, here⟩ := current_eq_some ha
      rcases putBack_eq s with same | ⟨-, same⟩
      · exact ⟨a, same ▸ ha, dead⟩
      · rw [same] at here
        obtain ⟨b, hb, rfl⟩ := slot_update_eq_some here
        simp only [update_currentIdx, if_true] at dead hb
        have still : b.state = .dead := by
          unfold preempt at dead
          split at dead
          · cases dead
          · exact dead
        exact ⟨b, by simpa [current, putBack_initialized ▸ init] using hb, still⟩
    · refine .inl ⟨by simp [hasReady, dead], fun {a} ha isDead => dead ?_⟩
      simp [ha, isDead]

theorem descends_putBack (s : Scheduler ρ) : Descends s s.putBack := by
  rcases putBack_eq s with same | ⟨-, same⟩
  · rw [same]
    exact .refl s
  · rw [same]
    exact descends_update preempt_kin

theorem descends_switchTo (s : Scheduler ρ) (i : Nat) : Descends s (s.switchTo i) :=
  have := descends_update (s := s) (i := i) (f := fun process => { process with state := .running })
    fun _ => ⟨rfl, rfl, rfl, rfl⟩
  ⟨this.births, this.kin⟩

theorem descends_schedule (s : Scheduler ρ) : Descends s s.schedule := by
  rcases schedule_cases s with ⟨same, -⟩ | ⟨same, -⟩ | ⟨i, a, -, -, same⟩
  · rw [same]
    exact descends_putBack s
  · rw [same]
    have := descends_putBack s
    exact ⟨this.births, this.kin⟩
  · rw [same]
    exact (descends_putBack s).trans (descends_switchTo _ i)

/-! ## What holds of each process -/

/-- Every process in the table satisfies a predicate. -/
def Each (P : Process ρ → Prop) (s : Scheduler ρ) : Prop := ∀ i a, s.slot i = some a → P a

section Each

variable {P : Process ρ → Prop}

theorem each_update (h : s.Each P) {f : Process ρ → Process ρ}
    (keeps : ∀ a, s.slot i = some a → P a → P (f a)) : (s.update i f).Each P := by
  intro j b hb
  obtain ⟨a, ha, rfl⟩ := slot_update_eq_some hb
  split
  · rename_i same
    exact keeps a (same ▸ ha) (h j a ha)
  · exact h j a ha

theorem each_schedule (h : s.Each P) (ready : ∀ a, P a → P { a with state := .ready })
    (running : ∀ a, P a → P { a with state := .running }) : s.schedule.Each P := by
  have put : s.putBack.Each P := by
    rcases putBack_eq s with same | ⟨-, same⟩
    · rwa [same]
    · rw [same]
      refine each_update h fun a _ ha => ?_
      unfold preempt
      split
      · exact ready a ha
      · exact ha
  rcases schedule_cases s with ⟨same, -⟩ | ⟨same, -⟩ | ⟨k, a, -, -, same⟩
  · rwa [same]
  · rw [same]
    exact put
  · rw [same]
    exact each_update put fun a _ => running a

theorem each_wake (h : s.Each P) (ready : ∀ a, P a → P { a with state := .ready }) (pid : Nat) :
    (s.wake pid).Each P := by
  rcases wake_cases s pid with ⟨same, -⟩ | ⟨k, w, -, -, -, same⟩
  · rwa [same]
  · rw [same]
    exact each_update h fun a _ => ready a

theorem each_adopt (h : s.Each P) {parent : Process ρ} {pid : Nat} {t : FdTable} {image : ρ}
    (child : P ⟨pid, parent.pid, .ready, 0, .user, t, image, s.births, parent.serial⟩) :
    (s.adopt parent pid t image).Each P := by
  obtain ⟨k, -, slots⟩ := adopt_spec s parent pid t image
  intro j b hb
  rw [slots] at hb
  split at hb
  · cases hb
    exact child
  · exact h j b hb

theorem each_remove (h : s.Each P) (held : s.slot i = some a) :
    ({ s with processes := s.processes.set i none } : Scheduler ρ).Each P := by
  intro j b hb
  rw [slot_remove (Slots.lt_of_get held)] at hb
  split at hb
  · cases hb
  · exact h j b hb

end Each

end Scheduler
end Ferrum
