import Ferrum.Library.Run

/-!
# The two mutexes of the kernel

`IrqMutex` switches interrupts off before it waits for the lock, and its guard restores the flag that
it found. `SpinMutex` only waits. The threads of the kernel share one processor and the timer takes it
away from a thread whenever interrupts are on, between any two of the small steps of `lock` and `drop`.

The guards of a thread are dropped in the order that Rust drops local variables in, the latest first.
A thread does not enable interrupts and does not give up the processor while it has the guard of an
`IrqMutex`. Then no other thread ever sees an `IrqMutex` locked.
-/
namespace Ferrum

inductive MutexKind where
  | irq
  | spin
  deriving DecidableEq, Repr

/-- `IrqMutexGuard`. The guard of a `SpinMutex` restores nothing, as if the flag had been off. -/
structure Guard (κ : Type) where
  mutex : κ
  irqWasEnabled : Bool
  deriving DecidableEq, Repr

/-- How far a thread is in `lock` or `drop`. -/
inductive Place (κ : Type) where
  | code
  /-- `IrqMutex::lock` has read the interrupt flag. -/
  | asked (mutex : κ) (irqWasEnabled : Bool)
  /-- At the `compare_exchange_weak`. -/
  | waiting (mutex : κ) (irqWasEnabled : Bool)
  /-- `drop` has stored `false` and has not restored the flag yet. -/
  | dropped (irqWasEnabled : Bool)
  deriving DecidableEq, Repr

/-- The flag that a thread will put into its guard, or restore. -/
def Place.flag {κ : Type} : Place κ → Bool
  | .code => false
  | .asked _ irqWasEnabled => irqWasEnabled
  | .waiting _ irqWasEnabled => irqWasEnabled
  | .dropped irqWasEnabled => irqWasEnabled

/-- The processor, the mutexes and the threads. `resume` is the interrupt flag with which a thread goes
on that does not run. -/
structure Locks (ι κ : Type) where
  enabled : Bool
  running : ι
  resume : ι → Bool
  locked : κ → Bool
  place : ι → Place κ
  guards : ι → List (Guard κ)

namespace Locks

variable {ι κ : Type} [DecidableEq ι] [DecidableEq κ] {kind : κ → MutexKind}

/-- The running thread gets to another place in the code. -/
def goto (s : Locks ι κ) (place : Place κ) : Locks ι κ :=
  { s with place := Function.update s.place s.running place }

/-- The other guards and places stay; the running thread has these guards now. -/
def hold (s : Locks ι κ) (guards : List (Guard κ)) : Locks ι κ :=
  { s with guards := Function.update s.guards s.running guards }

def setLocked (s : Locks ι κ) (mutex : κ) (value : Bool) : Locks ι κ :=
  { s with locked := Function.update s.locked mutex value }

def setEnabled (s : Locks ι κ) (enabled : Bool) : Locks ι κ := { s with enabled }

/-- The processor goes to another thread; the flag of the old one is kept for it. -/
def pass (s : Locks ι κ) (next : ι) (flag : Bool) : Locks ι κ :=
  { s with
    running := next
    resume := Function.update s.resume s.running flag
    enabled := Function.update s.resume s.running flag next }

/-- A thread has the guard of an `IrqMutex`. -/
def HasIrq (kind : κ → MutexKind) (s : Locks ι κ) (i : ι) : Prop :=
  ∃ g ∈ s.guards i, kind g.mutex = .irq

/-- One step of the running thread, or the timer. -/
inductive Step (kind : κ → MutexKind) (s : Locks ι κ) : Locks ι κ → Prop
  | ask (k : κ) (irq : kind k = .irq) (here : s.place s.running = .code) :
      Step kind s (s.goto (.asked k s.enabled))
  | disable (k : κ) (was : Bool) (here : s.place s.running = .asked k was) :
      Step kind s ((s.goto (.waiting k was)).setEnabled false)
  | lockSpin (k : κ) (spin : kind k = .spin) (here : s.place s.running = .code) :
      Step kind s (s.goto (.waiting k false))
  | take (k : κ) (was : Bool) (here : s.place s.running = .waiting k was) (free : s.locked k = false) :
      Step kind s (((s.setLocked k true).hold (⟨k, was⟩ :: s.guards s.running)).goto .code)
  | spinLoop (k : κ) (was : Bool) (here : s.place s.running = .waiting k was) : Step kind s s
  | drop (g : Guard κ) (rest : List (Guard κ)) (here : s.place s.running = .code)
      (latest : s.guards s.running = g :: rest) :
      Step kind s (((s.setLocked g.mutex false).hold rest).goto (.dropped g.irqWasEnabled))
  | restore (was : Bool) (here : s.place s.running = .dropped was) :
      Step kind s ((s.goto .code).setEnabled (s.enabled || was))
  | cli (here : s.place s.running = .code) : Step kind s (s.setEnabled false)
  | sti (here : s.place s.running = .code) (none : ¬ HasIrq kind s s.running) :
      Step kind s (s.setEnabled true)
  | preempt (next : ι) (on : s.enabled = true) : Step kind s (s.pass next true)
  | yield (next : ι) (here : s.place s.running = .code) (none : ¬ HasIrq kind s s.running) :
      Step kind s (s.pass next false)

/-- No mutex is locked and no thread is in `lock` or `drop`. -/
def Initial (s : Locks ι κ) : Prop :=
  (∀ k, s.locked k = false) ∧ (∀ i, s.place i = .code) ∧ ∀ i, s.guards i = []

/-! ## Exclusion -/

/-- A mutex is locked as long as there is a guard of it, and there is one at most. -/
structure Exclusive (s : Locks ι κ) : Prop where
  locked : ∀ k, s.locked k = true ↔ ∃ i, ∃ g ∈ s.guards i, g.mutex = k
  thread : ∀ {i j g h}, g ∈ s.guards i → h ∈ s.guards j → g.mutex = h.mutex → i = j
  distinct : ∀ i, ((s.guards i).map Guard.mutex).Nodup

variable {s s' : Locks ι κ}

omit [DecidableEq ι] [DecidableEq κ] in
theorem Exclusive.unlocked (h : Exclusive s) {k : κ} (free : s.locked k = false) {i : ι} {g : Guard κ}
    (mem : g ∈ s.guards i) : g.mutex ≠ k := by
  intro same
  have := (h.locked k).mpr ⟨i, g, mem, same⟩
  rw [free] at this
  cases this

theorem Exclusive.take (h : Exclusive s) {k : κ} (was : Bool) (free : s.locked k = false) :
    Exclusive ((s.setLocked k true).hold (⟨k, was⟩ :: s.guards s.running)) := by
  have guards (i : ι) (g : Guard κ) :
      g ∈ Function.update s.guards s.running (⟨k, was⟩ :: s.guards s.running) i ↔
        (i = s.running ∧ g = ⟨k, was⟩) ∨ g ∈ s.guards i := by
    rw [Function.update_apply]
    split
    · rename_i same
      subst same
      simp
    · simp [*]
  refine ⟨fun k' => ?_, fun {i j g g'} mem mem' same => ?_, fun i => ?_⟩
  · simp only [hold, setLocked, guards]
    rw [Function.update_apply]
    split
    · rename_i same
      subst same
      simpa using ⟨s.running, ⟨k', was⟩, Or.inl ⟨rfl, rfl⟩, rfl⟩
    · rename_i other
      rw [h.locked]
      refine exists_congr fun i => exists_congr fun g => and_congr_left fun same => ?_
      refine ⟨Or.inr, fun either => either.resolve_left fun new => other ?_⟩
      rw [← same, new.2]
  · simp only [hold, setLocked, guards] at mem mem'
    rcases mem with ⟨rfl, rfl⟩ | mem <;> rcases mem' with ⟨rfl, rfl⟩ | mem'
    · rfl
    · exact absurd same.symm (h.unlocked free mem')
    · exact absurd same (h.unlocked free mem)
    · exact h.thread mem mem' same
  · simp only [hold, setLocked, Function.update_apply]
    split
    · refine List.nodup_cons.mpr ⟨fun mem => ?_, h.distinct _⟩
      obtain ⟨g, mem, same⟩ := List.mem_map.mp mem
      exact h.unlocked free mem same
    · exact h.distinct i

theorem Exclusive.drop (h : Exclusive s) {g : Guard κ} {rest : List (Guard κ)}
    (latest : s.guards s.running = g :: rest) : Exclusive ((s.setLocked g.mutex false).hold rest) := by
  have distinct := h.distinct s.running
  rw [latest, List.map_cons, List.nodup_cons] at distinct
  have first : g ∈ s.guards s.running := by simp [latest]
  -- the guards that are left are the other ones
  have guards (i : ι) (g' : Guard κ) : g' ∈ Function.update s.guards s.running rest i ↔
      g' ∈ s.guards i ∧ g'.mutex ≠ g.mutex := by
    rw [Function.update_apply]
    split
    · rename_i same
      subst same
      rw [latest, List.mem_cons]
      constructor
      · intro mem
        exact ⟨Or.inr mem, fun same => distinct.1 (same ▸ List.mem_map_of_mem mem)⟩
      · rintro ⟨rfl | mem, other⟩
        · exact absurd rfl other
        · exact mem
    · rename_i other
      exact ⟨fun mem => ⟨mem, fun same => other (h.thread mem first same)⟩, And.left⟩
  refine ⟨fun k => ?_, fun {i j a b} mem mem' same => ?_, fun i => ?_⟩
  · simp only [hold, setLocked, guards]
    rw [Function.update_apply]
    split
    · rename_i same
      subst same
      simp only [Bool.false_eq_true, false_iff, not_exists, not_and]
      exact fun i a mem same => mem.2 same
    · rename_i other
      rw [h.locked]
      refine exists_congr fun i => exists_congr fun a => and_congr_left fun same => ?_
      exact ⟨fun mem => ⟨mem, by rwa [same]⟩, And.left⟩
  · simp only [hold, setLocked, guards] at mem mem'
    exact h.thread mem.1 mem'.1 same
  · simp only [hold, setLocked, Function.update_apply]
    split
    · exact distinct.2
    · exact h.distinct i

theorem exclusive_step (step : Step kind s s') (h : Exclusive s) : Exclusive s' := by
  cases step with
  | take k was here free =>
    have taken := h.take was free
    exact ⟨taken.locked, taken.thread, taken.distinct⟩
  | drop g rest here latest =>
    have dropped := h.drop latest
    exact ⟨dropped.locked, dropped.thread, dropped.distinct⟩
  | _ => exact ⟨h.locked, h.thread, h.distinct⟩

/-! ## Interrupts are off in a critical section -/

/-- A thread that has an `IrqMutex`, or waits for one. -/
def Critical (kind : κ → MutexKind) (s : Locks ι κ) (i : ι) : Prop :=
  HasIrq kind s i ∨ ∃ k was, kind k = .irq ∧ s.place i = .waiting k was

/-- What keeps the flag off: below a guard that switches it on there is no guard of an `IrqMutex`, and
a thread on its way to such a guard will not switch it on either. -/
structure Masked (kind : κ → MutexKind) (s : Locks ι κ) : Prop where
  off : ∀ i, Critical kind s i → i = s.running ∧ s.enabled = false
  nested : ∀ i, (s.guards i).Pairwise fun g below => kind below.mutex = .irq → g.irqWasEnabled = false
  pending : ∀ i, HasIrq kind s i → (s.place i).flag = false
  asked : ∀ i k was, s.place i = .asked k was → kind k = .irq

variable {i : ι}

omit [DecidableEq κ] in
theorem place_goto (s : Locks ι κ) (p : Place κ) : (s.goto p).place s.running = p := Function.update_self ..

omit [DecidableEq κ] in
theorem guards_hold (s : Locks ι κ) (gs : List (Guard κ)) : (s.hold gs).guards s.running = gs :=
  Function.update_self ..

omit [DecidableEq ι] [DecidableEq κ] in
theorem Critical.hasIrq (critical : Critical kind s i)
    (elsewhere : ∀ k was, kind k = .irq → s.place i ≠ .waiting k was) : HasIrq kind s i := by
  rcases critical with has | ⟨k, was, irq, here⟩
  · exact has
  · exact absurd here (elsewhere k was irq)

omit [DecidableEq ι] [DecidableEq κ] in
/-- A step of the running thread: no other thread is critical, so only its own part is to be checked. -/
theorem Masked.move (h : Masked kind s) (running : s'.running = s.running)
    (others : ∀ i, i ≠ s.running → s'.guards i = s.guards i ∧ s'.place i = s.place i)
    (off : Critical kind s' s.running → s'.enabled = false)
    (nested : (s'.guards s.running).Pairwise fun g below =>
      kind below.mutex = .irq → g.irqWasEnabled = false)
    (pending : HasIrq kind s' s.running → (s'.place s.running).flag = false)
    (asked : ∀ k was, s'.place s.running = .asked k was → kind k = .irq) : Masked kind s' := by
  have own {i : ι} (critical : Critical kind s' i) : i = s.running := by
    by_contra other
    obtain ⟨guards, place⟩ := others i other
    rw [Critical, HasIrq, guards, place] at critical
    exact other (h.off i critical).1
  refine ⟨fun i critical => ?_, fun i => ?_, fun i irq => ?_, fun i k was here => ?_⟩
  · obtain rfl := own critical
    exact ⟨running.symm, off critical⟩
  · by_cases same : i = s.running
    · rw [same]
      exact nested
    · rw [(others i same).1]
      exact h.nested i
  · obtain rfl := own (Or.inl irq)
    exact pending irq
  · by_cases same : i = s.running
    · subst same
      exact asked k was here
    · rw [(others i same).2] at here
      exact h.asked i k was here

omit [DecidableEq ι] [DecidableEq κ] in
theorem Masked.quiet (h : Masked kind s) (none : ¬ Critical kind s s.running) : ∀ i, ¬ Critical kind s i := by
  intro i critical
  obtain ⟨rfl, -⟩ := h.off i critical
  exact none critical

omit [DecidableEq ι] [DecidableEq κ] in
theorem not_critical_of_code (here : s.place s.running = .code) (none : ¬ HasIrq kind s s.running) :
    ¬ Critical kind s s.running := by
  rintro (irq | ⟨k, was, -, waiting⟩)
  · exact none irq
  · rw [here] at waiting
    cases waiting

omit [DecidableEq κ] in
theorem Masked.goto (h : Masked kind s) (p : Place κ) (enabled : Bool)
    (off : HasIrq kind s s.running → enabled = false)
    (waiting : ∀ k was, kind k = .irq → p = .waiting k was → enabled = false)
    (pending : HasIrq kind s s.running → p.flag = false)
    (asked : ∀ k was, p = .asked k was → kind k = .irq) : Masked kind ((s.goto p).setEnabled enabled) := by
  have place : ((s.goto p).setEnabled enabled).place s.running = p := place_goto s p
  refine h.move rfl (fun i other => ⟨rfl, Function.update_of_ne other ..⟩) ?_ (h.nested _) ?_ ?_
  · rintro (has | ⟨k, was, irq, here⟩)
    · exact off has
    · exact waiting k was irq (place.symm.trans here)
  · rw [place]
    exact pending
  · rw [place]
    exact asked

/-- The running thread leaves `lock` or gets into `drop`, with other guards than before. -/
theorem Masked.change (h : Masked kind s) (k : κ) (value : Bool) {gs : List (Guard κ)} {p : Place κ}
    (has : (∃ g ∈ gs, kind g.mutex = .irq) → Critical kind s s.running)
    (nested : gs.Pairwise fun g below => kind below.mutex = .irq → g.irqWasEnabled = false)
    (pending : (∃ g ∈ gs, kind g.mutex = .irq) → p.flag = false) (waiting : ∀ k was, p ≠ .waiting k was)
    (asked : ∀ k was, p ≠ .asked k was) : Masked kind (((s.setLocked k value).hold gs).goto p) := by
  have place : (((s.setLocked k value).hold gs).goto p).place s.running = p := place_goto ..
  have guards : (((s.setLocked k value).hold gs).goto p).guards s.running = gs := guards_hold ..
  refine h.move rfl (fun i other => ⟨Function.update_of_ne other .., Function.update_of_ne other ..⟩)
    (fun critical => ?_) (by rwa [guards]) ?_ fun k was here => absurd (place.symm.trans here) (asked k was)
  · have irq := critical.hasIrq fun k was _ => by rw [place]; exact waiting k was
    rw [HasIrq, guards] at irq
    exact (h.off _ (has irq)).2
  · rw [HasIrq, guards, place]
    exact pending

theorem Masked.take (h : Masked kind s) {k : κ} {was : Bool} (here : s.place s.running = .waiting k was) :
    Masked kind (((s.setLocked k true).hold (⟨k, was⟩ :: s.guards s.running)).goto .code) := by
  refine h.change k true ?_ (List.pairwise_cons.mpr ⟨fun below mem irq => ?_, h.nested _⟩) (fun _ => rfl)
    (by simp) (by simp)
  · rintro ⟨g, mem, irq⟩
    rcases List.mem_cons.mp mem with rfl | mem
    · exact Or.inr ⟨k, was, irq, here⟩
    · exact Or.inl ⟨g, mem, irq⟩
  · have flag := h.pending _ ⟨below, mem, irq⟩
    rwa [here] at flag

theorem Masked.drop (h : Masked kind s) {g : Guard κ} {rest : List (Guard κ)}
    (latest : s.guards s.running = g :: rest) :
    Masked kind (((s.setLocked g.mutex false).hold rest).goto (.dropped g.irqWasEnabled)) := by
  have nested := h.nested s.running
  rw [latest, List.pairwise_cons] at nested
  refine h.change g.mutex false ?_ nested.2 ?_ (by simp) (by simp)
  · rintro ⟨below, mem, irq⟩
    exact Or.inl ⟨below, by rw [latest]; exact List.mem_cons_of_mem g mem, irq⟩
  · rintro ⟨below, mem, irq⟩
    exact nested.1 below mem irq

theorem masked_step (step : Step kind s s') (h : Masked kind s) : Masked kind s' := by
  have off (has : HasIrq kind s s.running) : s.enabled = false := (h.off _ (Or.inl has)).2
  cases step with
  | ask k irq here =>
    refine h.goto (.asked k s.enabled) s.enabled off (by simp) off fun k' was same => ?_
    cases same
    exact irq
  | disable k was here =>
    refine h.goto (.waiting k was) false (fun _ => rfl) (fun _ _ _ _ => rfl) (fun has => ?_) (by simp)
    have flag := h.pending _ has
    rwa [here] at flag
  | lockSpin k spin here =>
    refine h.goto (.waiting k false) s.enabled off (fun k' was irq same => ?_) (fun _ => rfl) (by simp)
    cases same
    rw [spin] at irq
    cases irq
  | take k was here free => exact h.take here
  | spinLoop k was here => exact h
  | drop g rest here latest => exact h.drop latest
  | restore was here =>
    refine h.goto .code (s.enabled || was) (fun has => ?_) (by simp) (fun _ => rfl) (by simp)
    have flag := h.pending _ has
    rw [here] at flag
    exact Bool.or_eq_false_iff.mpr ⟨off has, flag⟩
  | cli here =>
    exact ⟨fun i critical => ⟨(h.off i critical).1, rfl⟩, h.nested, h.pending, h.asked⟩
  | sti here none =>
    exact ⟨fun i critical => absurd critical (h.quiet (not_critical_of_code here none) i), h.nested,
      h.pending, h.asked⟩
  | preempt next on =>
    refine ⟨fun i critical => ?_, h.nested, h.pending, h.asked⟩
    rw [(h.off i critical).2] at on
    cases on
  | yield next here none =>
    exact ⟨fun i critical => absurd critical (h.quiet (not_critical_of_code here none) i), h.nested,
      h.pending, h.asked⟩

/-! ## What the mutexes guarantee -/

/-- Two threads and one mutex. The second thread has given up the processor in a system call. -/
def pair : Locks Bool Unit := ⟨true, false, fun _ => false, fun _ => false, fun _ => .code, fun _ => []⟩

theorem pair_initial : Initial pair := ⟨fun _ => rfl, fun _ => rfl, fun _ => rfl⟩

theorem pair_irq : ∃ s : Locks Bool Unit, Reachable Initial (Step fun _ => .irq) s ∧
    s.guards false = [⟨(), true⟩] :=
  ⟨_, ⟨pair, pair_initial, .tail (.tail (.single (.ask () rfl rfl)) (.disable () true rfl))
    (.take () true rfl rfl)⟩, rfl⟩

theorem pair_waiting : ∃ s : Locks Bool Unit, Reachable Initial (Step fun _ => .irq) s ∧
    s.place false = .waiting () true :=
  ⟨_, ⟨pair, pair_initial, .tail (.single (.ask () rfl rfl)) (.disable () true rfl)⟩, rfl⟩

theorem safe_of_reachable (reach : Reachable Initial (Step kind) s) : Exclusive s ∧ Masked kind s := by
  refine Reachable.invariant (P := fun s => Exclusive s ∧ Masked kind s) ?_ ?_ reach
  · rintro s ⟨locked, place, guards⟩
    refine ⟨⟨by simp [locked, guards], by simp [guards], by simp [guards]⟩,
      ⟨?_, by simp [guards], by simp [HasIrq, guards], by simp [place]⟩⟩
    simp [Critical, HasIrq, guards, place]
  · rintro s s' ⟨exclusive, masked⟩ step
    exact ⟨exclusive_step step exclusive, masked_step step masked⟩

/-- Whatever the threads do, there is one guard of a mutex at most. -/
theorem guards_exclusive (reach : Reachable Initial (Step kind) s) {i j : ι} {g h : Guard κ}
    (mem : g ∈ s.guards i) (mem' : h ∈ s.guards j) (same : g.mutex = h.mutex) :
    i = j ∧ g = h ∧ ((s.guards i).map Guard.mutex).Nodup := by
  obtain ⟨exclusive, -⟩ := safe_of_reachable reach
  obtain rfl := exclusive.thread mem mem' same
  have distinct := exclusive.distinct i
  exact ⟨rfl, List.inj_on_of_nodup_map distinct mem mem' same, distinct⟩

theorem pair_guards_exclusive : ∃ (s : Locks Bool Unit) (g : Guard Unit),
    Reachable Initial (Step fun _ => .irq) s ∧ g ∈ s.guards false ∧
      ∀ j h, h ∈ s.guards j → false = j ∧ g = h ∧ ((s.guards false).map Guard.mutex).Nodup := by
  obtain ⟨s, reach, guards⟩ := pair_irq
  have mem : ⟨(), true⟩ ∈ s.guards false := by simp [guards]
  exact ⟨s, _, reach, mem, fun j h mem' => guards_exclusive reach mem mem' rfl⟩

/-- Who has the guard of an `IrqMutex` runs, with interrupts off, and nothing takes the processor away. -/
theorem irq_guard_keeps_running (reach : Reachable Initial (Step kind) s) (has : HasIrq kind s i) :
    s.running = i ∧ s.enabled = false ∧ ∀ s', Step kind s s' → s'.running = i := by
  obtain ⟨rfl, off⟩ := (safe_of_reachable reach).2.off i (Or.inl has)
  refine ⟨rfl, off, fun s' step => ?_⟩
  cases step with
  | preempt next on =>
    rw [off] at on
    cases on
  | yield next here none => exact absurd has none
  | _ => rfl

theorem pair_irq_guard_keeps_running : ∃ s : Locks Bool Unit,
    Reachable Initial (Step fun _ => .irq) s ∧ HasIrq (fun _ => .irq) s false ∧ s.enabled = false := by
  obtain ⟨s, reach, guards⟩ := pair_irq
  have has : HasIrq (fun _ => .irq) s false := ⟨⟨(), true⟩, by simp [guards], rfl⟩
  exact ⟨s, reach, has, (irq_guard_keeps_running reach has).2.1⟩

/-- With interrupts off nobody else runs, so a mutex that is locked stays locked. -/
theorem waits_forever {k : κ} {was : Bool} (off : s.enabled = false)
    (here : s.place s.running = .waiting k was) (locked : s.locked k = true)
    (run : Relation.ReflTransGen (Step kind) s s') : s' = s := by
  induction run with
  | refl => rfl
  | tail _ step ih =>
    subst ih
    cases step with
    | spinLoop k' was' _ => rfl
    | take k' was' there free =>
      rw [here] at there
      cases there
      rw [locked] at free
      cases free
    | preempt next on =>
      rw [off] at on
      cases on
    | ask k' _ there => simp [here] at there
    | disable k' was' there => simp [here] at there
    | lockSpin k' _ there => simp [here] at there
    | drop g rest there => simp [here] at there
    | restore was' there => simp [here] at there
    | cli there => simp [here] at there
    | sti there => simp [here] at there
    | yield next there => simp [here] at there

/-- `IrqMutex::lock` does not wait for other threads: at the compare-exchange the mutex is free, unless
the thread has locked it itself and will wait forever. -/
theorem irq_lock_waits_only_for_itself (reach : Reachable Initial (Step kind) s) {k : κ} {was : Bool}
    (irq : kind k = .irq) (here : s.place i = .waiting k was) :
    (s.locked k = false ∧ ∃ s', Step kind s s' ∧ ⟨k, was⟩ ∈ s'.guards i) ∨
      ((∃ g ∈ s.guards i, g.mutex = k) ∧ ∀ s', Relation.ReflTransGen (Step kind) s s' → s' = s) := by
  obtain ⟨exclusive, masked⟩ := safe_of_reachable reach
  obtain ⟨rfl, off⟩ := masked.off i (Or.inr ⟨k, was, irq, here⟩)
  cases locked : s.locked k with
  | false =>
    refine Or.inl ⟨rfl, _, .take k was here locked, ?_⟩
    have held := guards_hold (s.setLocked k true) (⟨k, was⟩ :: s.guards s.running)
    show _ ∈ (hold _ _).guards (s.setLocked k true).running
    rw [held]
    exact List.mem_cons_self
  | true =>
    obtain ⟨j, g, mem, same⟩ := (exclusive.locked k).mp locked
    refine Or.inr ⟨⟨g, ?_, same⟩, fun s' run => waits_forever off here locked run⟩
    obtain ⟨rfl, -⟩ := masked.off j (Or.inl ⟨g, mem, by rw [same, irq]⟩)
    exact mem

theorem pair_irq_lock_waits_only_for_itself : ∃ s : Locks Bool Unit,
    Reachable Initial (Step fun _ => .irq) s ∧ s.place false = .waiting () true ∧
      (s.locked () = false ∨ ∃ g ∈ s.guards false, g.mutex = ()) := by
  obtain ⟨s, reach, here⟩ := pair_waiting
  exact ⟨s, reach, here, (irq_lock_waits_only_for_itself reach rfl here).imp And.left And.left⟩

/-- A mutex of either kind that is asked for again inside of the critical section of an `IrqMutex` stops
the kernel. -/
theorem relock_hangs (reach : Reachable Initial (Step kind) s) (has : HasIrq kind s i) {g : Guard κ}
    (mem : g ∈ s.guards i) {was : Bool} (here : s.place i = .waiting g.mutex was) :
    ∀ s', Relation.ReflTransGen (Step kind) s s' → s' = s := by
  obtain ⟨exclusive, masked⟩ := safe_of_reachable reach
  obtain ⟨rfl, off⟩ := masked.off i (Or.inl has)
  have locked := (exclusive.locked g.mutex).mpr ⟨_, g, mem, rfl⟩
  exact fun s' run => waits_forever off here locked run

/-- A mutex of each kind. -/
def bothKinds : Bool → MutexKind
  | false => .spin
  | true => .irq

theorem nested_relock_hangs : ∃ s : Locks Unit Bool, Reachable Initial (Step bothKinds) s ∧
    s.guards () = [⟨true, false⟩, ⟨false, false⟩] ∧
      ∀ s', Relation.ReflTransGen (Step bothKinds) s s' → s' = s := by
  have nested : ∃ s : Locks Unit Bool, Reachable Initial (Step bothKinds) s ∧
      s.guards () = [⟨true, false⟩, ⟨false, false⟩] ∧ s.place () = .waiting false false :=
    ⟨_, ⟨⟨false, (), fun _ => false, fun _ => false, fun _ => .code, fun _ => []⟩,
      ⟨fun _ => rfl, fun _ => rfl, fun _ => rfl⟩,
      .tail (.tail (.tail (.tail (.tail (.single (.lockSpin false rfl rfl)) (.take false false rfl rfl))
        (.ask true rfl rfl)) (.disable true false rfl)) (.take true false rfl rfl))
        (.lockSpin false rfl rfl)⟩, rfl, rfl⟩
  obtain ⟨s, reach, guards, here⟩ := nested
  have has : HasIrq bothKinds s () := ⟨⟨true, false⟩, by simp [guards], rfl⟩
  exact ⟨s, reach, guards, relock_hangs (g := ⟨false, false⟩) reach has (by simp [guards]) here⟩

/-! ## The interrupt flag comes back -/

/-- The interrupt flag of a thread, also while it does not run. -/
def flag (s : Locks ι κ) (i : ι) : Bool := if i = s.running then s.enabled else s.resume i

/-- The flag that a thread will have when it has dropped its guards. -/
def unwound (s : Locks ι κ) (i : ι) : Bool :=
  s.flag i || (s.place i).flag || (s.guards i).any Guard.irqWasEnabled

/-- Outside of `lock` and `drop` the thread leaves its flag alone. -/
abbrev Untouched (i : ι) (s s' : Locks ι κ) : Prop :=
  s.place i = .code → s'.place i = .code → s'.flag i = s.flag i

theorem Step.elsewhere (step : Step kind s s') (away : i ≠ s.running) :
    s'.flag i = s.flag i ∧ s'.place i = s.place i ∧ s'.guards i = s.guards i := by
  have passed (next : ι) (f : Bool) : (s.pass next f).flag i = s.flag i := by
    by_cases same : i = next
    · subst same
      simp [flag, pass, away]
    · simp [flag, pass, away, same]
  cases step with
  | preempt next on => exact ⟨passed next true, rfl, rfl⟩
  | yield next here none => exact ⟨passed next false, rfl, rfl⟩
  | _ => simp [flag, goto, hold, setLocked, setEnabled, away]

/-- What a thread has read with `are_enabled` is still its flag at `disable`. -/
def Fresh (s : Locks ι κ) (i : ι) : Prop := ∀ k was, s.place i = .asked k was → was = s.flag i

theorem unwound_step (step : Step kind s s') (calm : Untouched i s s') (fresh : Fresh s i) :
    s'.unwound i = s.unwound i ∧ Fresh s' i := by
  have idle (flag : s'.flag i = s.flag i) (place : s'.place i = s.place i)
      (guards : s'.guards i = s.guards i) : s'.unwound i = s.unwound i ∧ Fresh s' i := by
    simpa only [unwound, Fresh, flag, place, guards, true_and] using fresh
  by_cases own : i = s.running
  · subst own
    cases step with
    | disable k was here =>
      have same := fresh k was here
      simp only [flag, if_true] at same
      simp [unwound, Fresh, flag, goto, setEnabled, here, Place.flag, same]
    | preempt next on =>
      refine idle ?_ rfl rfl
      simp only [flag, pass, if_true, on, Function.update_self]
      split
      · rename_i same
        rw [← same, Function.update_self]
      · rfl
    | cli here => exact idle (calm here here) rfl rfl
    | sti here none => exact idle (calm here here) rfl rfl
    | yield next here none => exact idle (calm here here) rfl rfl
    | spinLoop k was here => exact idle rfl rfl rfl
    | _ => simp [unwound, Fresh, flag, goto, hold, setLocked, setEnabled, Place.flag, Bool.or_assoc, *]
  · obtain ⟨flag, place, guards⟩ := step.elsewhere own
    exact idle flag place guards

/-- Critical sections, nested or not, restore the interrupt flag that a thread had before, whatever the
other threads do in between. -/
theorem interrupt_flag_restored
    (run : Relation.ReflTransGen (fun s s' => Step kind s s' ∧ Untouched i s s') s s')
    (before : s.place i = .code ∧ s.guards i = []) (after : s'.place i = .code ∧ s'.guards i = []) :
    s'.flag i = s.flag i := by
  have kept : s'.unwound i = s.unwound i ∧ Fresh s' i := by
    clear after
    induction run with
    | refl => exact ⟨rfl, by simp [Fresh, before.1]⟩
    | tail _ last ih =>
      obtain ⟨same, fresh⟩ := unwound_step last.1 last.2 ih.2
      exact ⟨same.trans ih.1, fresh⟩
  simpa [unwound, before, after, Place.flag] using kept.1

/-- A thread takes an `IrqMutex` and drops its guard. -/
theorem pair_interrupt_flag_restored : ∃ s : Locks Bool Unit,
    Relation.ReflTransGen (Step fun _ => .irq) pair s ∧ s.flag false = true := by
  have run : Relation.ReflTransGen (fun s s' => Step (fun _ => .irq) s s' ∧ Untouched false s s') pair _ :=
    .tail (.tail (.tail (.tail (.single ⟨.ask () rfl rfl, by decide⟩) ⟨.disable () true rfl, by decide⟩)
      ⟨.take () true rfl rfl, by decide⟩) ⟨.drop ⟨(), true⟩ [] rfl rfl, by decide⟩)
      ⟨.restore true rfl, by decide⟩
  exact ⟨_, Relation.ReflTransGen.mono (fun _ _ => And.left) _ _ run,
    interrupt_flag_restored run ⟨rfl, rfl⟩ ⟨rfl, rfl⟩⟩

end Locks
end Ferrum
