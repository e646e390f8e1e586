import Ferrum.System.Pipe
import Ferrum.System.Safety

/-!
# Pipe ends and descriptor slots of all processes

The end counts of a pipe that is still in use equal the numbers of slots, over all processes, that
hold these ends. Every transition keeps this but the duplication of a pipe descriptor by `F_DUPFD`.
-/
namespace Ferrum

open OpenFile (refers holds)

variable {ρ : Type}

/-- The total of a weight over the open files in all slots of all tables. -/
def slotTotal (w : OpenFile → Nat) (tables : List (Option FdTable)) (st : Store) : Nat :=
  Slots.tally (fun t => t.load w st) tables

/-- The end counts agree with the slots, for every pipe that some slot still refers to. -/
structure Counted (tables : List (Option FdTable)) (st : Store) : Prop where
  inRange : ∀ i t, Slots.get tables i = some t → t.InRange st
  closed : st.Closed
  counts : ∀ q, q < st.pipes.length → slotTotal (refers q) tables st = 0 ∨
    ∀ side, (st.pipe q).ends side = slotTotal (holds side q) tables st

namespace Counted

variable {T : List (Option FdTable)} {st st' : Store} {t t' : FdTable} {i : Nat}

theorem total_congr (h : Counted T st) (w : OpenFile → Nat)
    (files : ∀ f, f < st.files.length → st'.file f = st.file f) :
    slotTotal w T st' = slotTotal w T st :=
  Slots.tally_congr _ fun i t ht => FdTable.load_congr (h.inRange i t ht) files

theorem total_absent (h : Counted T st) {q : Nat} (absent : st.pipes.length ≤ q) :
    slotTotal (refers q) T st = 0 :=
  (Slots.tally_eq_zero_iff _).mpr fun i t ht => FdTable.load_absent (h.inRange i t ht) h.closed absent

theorem total_holds_absent (h : Counted T st) {q : Nat} {side : PipeEnd}
    (absent : st.pipes.length ≤ q) : slotTotal (holds side q) T st = 0 :=
  (Slots.tally_eq_zero_iff _).mpr fun i t ht =>
    FdTable.load_holds_absent (h.inRange i t ht) h.closed absent

theorem set (h : Counted T st) (ht : Slots.get T i = some t) (b : FdTable.Balanced t st t' st') :
    Counted (T.set i (some t')) st' := by
  have inside := Slots.lt_of_get ht
  have exchange (w : OpenFile → Nat) :
      slotTotal w (T.set i (some t')) st' + t.load w st = slotTotal w T st + t'.load w st' := by
    have swap := Slots.tally_set (fun t => FdTable.load w t st') (o := some t') inside
    rw [ht] at swap
    simp only [Option.elim_some] at swap
    rw [FdTable.load_congr (h.inRange i t ht) b.files] at swap
    rw [← h.total_congr w b.files]
    exact swap
  refine ⟨?_, b.closed h.closed, ?_⟩
  · intro j u hu
    rw [Slots.get_set inside] at hu
    split at hu
    · cases hu
      exact b.inRange (h.inRange i t ht)
    · exact fun fd f held => (h.inRange j u hu fd f held).trans_le b.grows
  · intro q hq
    have refs := exchange (refers q)
    have ends (side) := exchange (holds side q)
    by_cases old : q < st.pipes.length
    · have mine := Slots.le_tally (fun t => FdTable.load (refers q) t st) ht
      rcases h.counts q old with none | counted
      · left
        have := b.refs q old (by simp only [slotTotal] at none; omega)
        omega
      · right
        intro side
        have share := Slots.le_tally (fun t => FdTable.load (holds side q) t st) ht
        have now := counted side
        have keep := b.ends side q old (by simp only [slotTotal] at now; omega)
        have := ends side
        omega
    · have absent := Nat.le_of_not_lt old
      have zero := h.total_absent absent
      have mine := FdTable.load_absent (h.inRange i t ht) h.closed absent
      rcases b.fresh q absent hq with none | counted
      · left
        omega
      · right
        intro side
        have zero : slotTotal (holds side q) T st = 0 := h.total_holds_absent absent
        have mine : t.load (holds side q) st = 0 :=
          FdTable.load_holds_absent (h.inRange i t ht) h.closed absent
        have := ends side
        have := counted side
        omega

theorem fork (h : Counted T st) (ht : Slots.get T i = some t) :
    Counted (Slots.insert T t) (t.forkClone st).2 := by
  have files : (t.forkClone st).2.files = st.files := t.files_forkClone st
  have file (f : Nat) : (t.forkClone st).2.file f = st.file f := by rw [Store.file, files]; rfl
  have total (w : OpenFile → Nat) : slotTotal w (Slots.insert T t) (t.forkClone st).2 =
      slotTotal w T st + t.load w st := by
    rw [slotTotal, Slots.tally_insert]
    simp only [slotTotal, FdTable.load, file]
  refine ⟨?_, ?_, ?_⟩
  · intro j u hu fd f held
    rw [files]
    obtain ⟨k, -, slots⟩ := Slots.insert_spec T t
    rw [slots] at hu
    split at hu
    · cases hu
      exact h.inRange i t ht fd f held
    · exact h.inRange j u hu fd f held
  · intro f q hf hq
    rw [t.pipes_forkClone]
    exact h.closed f q (files ▸ hf) (file f ▸ hq)
  · intro q hq
    rw [t.pipes_forkClone] at hq
    have mine := Slots.le_tally (fun t => FdTable.load (refers q) t st) ht
    rcases h.counts q hq with none | counted
    · left
      rw [total]
      simp only [slotTotal] at none ⊢
      omega
    · right
      intro side
      rw [total, FdTable.ends_forkClone t st hq, counted side]

theorem remove (h : Counted T st) (ht : Slots.get T i = some t) (empty : ∀ fd, t.get fd = none) :
    Counted (T.set i none) st := by
  have inside := Slots.lt_of_get ht
  have total (w : OpenFile → Nat) : slotTotal w (T.set i none) st = slotTotal w T st := by
    have swap := Slots.tally_set (fun t => FdTable.load w t st) (o := none) inside
    have none : t.load w st = 0 := FdTable.load_eq_zero.mpr fun fd f held => by
      rw [empty] at held
      cases held
    rw [ht] at swap
    simpa [none, slotTotal] using swap
  refine ⟨?_, h.closed, fun q hq => ?_⟩
  · intro j u hu
    rw [Slots.get_set inside] at hu
    split at hu
    · cases hu
    · exact h.inRange j u hu
  · simp only [total]
    exact h.counts q hq

end Counted

/-- A store that differs in the contents of pipes and files and in offsets only. -/
structure Store.SameEnds (st st' : Store) : Prop where
  files : st'.files.length = st.files.length
  pipe : ∀ f, (st'.file f).pipe = (st.file f).pipe
  allows : ∀ f side, (st'.file f).allows side = (st.file f).allows side
  pipes : st'.pipes.length = st.pipes.length
  ends : ∀ q side, q < st.pipes.length → (st'.pipe q).ends side = (st.pipe q).ends side

theorem Store.SameEnds.refl (st : Store) : st.SameEnds st :=
  ⟨rfl, fun _ => rfl, fun _ _ => rfl, rfl, fun _ _ _ => rfl⟩

theorem Store.SameEnds.trans {st st' st'' : Store} (h : st.SameEnds st') (g : st'.SameEnds st'') :
    st.SameEnds st'' where
  files := g.files.trans h.files
  pipe f := (g.pipe f).trans (h.pipe f)
  allows f side := (g.allows f side).trans (h.allows f side)
  pipes := g.pipes.trans h.pipes
  ends q side hq := (g.ends q side (h.pipes.symm ▸ hq)).trans (h.ends q side hq)

theorem Store.sameEnds_buf (st : Store) (q : Nat) (buf : List UInt8) :
    st.SameEnds (st.setPipe q { st.pipe q with buf }) := by
  refine ⟨rfl, fun _ => rfl, fun _ _ => rfl, by simp, fun r side hr => ?_⟩
  rw [pipe_setPipe hr]
  split
  · rename_i same
    subst same
    cases side <;> rfl
  · rfl

theorem Store.sameEnds_advance (st : Store) (f n : Nat) : st.SameEnds (st.advance f n) := by
  have file (g : Nat) : (st.advance f n).file g = st.file g ∨
      (st.advance f n).file g = { st.file g with offset := (st.file g).offset + n } := by
    simp only [Store.file, advance, List.getD_eq_getElem?_getD, List.getElem?_set]
    by_cases same : f = g
    · subst same
      by_cases inside : f < st.files.length
      · right
        simp [inside]
      · left
        simp [inside]
    · left
      simp [same]
  refine ⟨by simp [advance], fun g => ?_, fun g side => ?_, rfl, fun _ _ _ => rfl⟩
  · rcases file g with same | same <;> rw [same]
  · rcases file g with same | same <;> rw [same]
    cases side <;> rfl

theorem Counted.same {T : List (Option FdTable)} {st st' : Store} (h : Counted T st)
    (s : st.SameEnds st') : Counted T st' := by
  refine ⟨fun i t ht fd f held => s.files ▸ h.inRange i t ht fd f held, fun f q hf hq => ?_, ?_⟩
  · rw [s.pipes]
    exact h.closed f q (s.files ▸ hf) (s.pipe f ▸ hq)
  · intro q hq
    rw [s.pipes] at hq
    have old := h.counts q hq
    simp only [slotTotal, FdTable.load, refers, holds, s.pipe, s.allows] at old ⊢
    refine old.imp_right fun counted side => ?_
    rw [s.ends q side hq]
    exact counted side

namespace Scheduler

variable {s : Scheduler ρ} {i : Nat} {a : Process ρ} {f : Process ρ → Process ρ}

/-- The descriptor tables, by slot of the process table. -/
def tables (s : Scheduler ρ) : List (Option FdTable) := s.processes.map (Option.map Process.fdTable)

theorem get_tables (s : Scheduler ρ) (i : Nat) :
    Slots.get s.tables i = (s.slot i).map Process.fdTable := by
  simp only [Slots.get, tables, slot, List.getElem?_map]
  cases s.processes[i]? with
  | none => rfl
  | some o => cases o <;> rfl

theorem get_tables_of_slot (ha : s.slot i = some a) : Slots.get s.tables i = some a.fdTable := by
  rw [get_tables, ha, Option.map_some]

theorem tables_set (ha : s.slot i = some a) :
    (s.update i f).tables = s.tables.set i (some (f a).fdTable) := by
  have held : Slots.get s.processes i = some a := ha
  rw [tables, update, Slots.update_eq_set held]
  simp [tables, List.map_set]

theorem tables_keep (keeps : ∀ a, (f a).fdTable = a.fdTable) : (s.update i f).tables = s.tables := by
  cases ha : s.slot i with
  | none =>
    have empty : Slots.get s.processes i = none := ha
    rw [tables, update, Slots.update_of_none empty]
    rfl
  | some a =>
    have held := Slots.get_eq_some_iff.mp (get_tables_of_slot ha)
    rw [tables_set ha, keeps]
    obtain ⟨inside, same⟩ := List.getElem?_eq_some_iff.mp held
    rw [← same, List.set_getElem_self]

theorem tables_schedule (s : Scheduler ρ) : s.schedule.tables = s.tables := by
  have put : s.putBack.tables = s.tables := by
    rcases putBack_eq s with same | ⟨-, same⟩
    · rw [same]
    · rw [same]
      refine tables_keep fun a => ?_
      unfold preempt
      split <;> rfl
  rcases schedule_cases s with ⟨same, -⟩ | ⟨same, -⟩ | ⟨k, a, -, -, same⟩
  · rw [same, put]
  · rw [same]
    exact put
  · rw [same]
    have run : (s.putBack.update k fun process => { process with state := .running }).tables =
        s.putBack.tables := tables_keep fun _ => rfl
    exact run.trans put

theorem tables_wake (s : Scheduler ρ) (pid : Nat) : (s.wake pid).tables = s.tables := by
  rcases wake_cases s pid with ⟨same, -⟩ | ⟨i, w, -, -, -, same⟩
  · rw [same]
  · rw [same]
    exact tables_keep fun _ => rfl

theorem tables_adopt (parent : Process ρ) (pid : Nat) (t : FdTable) (image : ρ) :
    (s.adopt parent pid t image).tables = Slots.insert s.tables t := by
  have free : Slots.firstFree s.tables = Slots.firstFree s.processes := by
    simp only [Slots.firstFree, tables, List.findIdx?_map]
    congr 1
    funext o
    cases o <;> rfl
  simp only [adopt, addProcess, tables, Slots.insert] at free ⊢
  rw [free]
  cases Slots.firstFree s.processes <;> simp

end Scheduler

/-- A process that is dead has no open descriptors. -/
def Process.DeadClosed (z : Process ρ) : Prop := z.state = .dead → ∀ fd, z.fdTable.get fd = none

namespace System

open Scheduler Process

variable {p : Profile} {s s' : System ρ} {action : Action ρ} {answer : Answer ρ}

/-- The ways in which a transition can change the descriptor tables and the end counts. -/
inductive Turnover (s s' : System ρ) : Prop
  | same (tables : s'.sched.tables = s.sched.tables) (store : s.store.SameEnds s'.store)
  | set (i : Nat) (t t' : FdTable) (held : Slots.get s.sched.tables i = some t)
      (balanced : FdTable.Balanced t s.store t' s'.store)
      (tables : s'.sched.tables = s.sched.tables.set i (some t'))
  | fork (i : Nat) (t : FdTable) (held : Slots.get s.sched.tables i = some t)
      (tables : s'.sched.tables = Slots.insert s.sched.tables t)
      (store : s'.store = (t.forkClone s.store).2)
  | reap (i : Nat) (t : FdTable) (held : Slots.get s.sched.tables i = some t)
      (empty : ∀ fd, t.get fd = none) (tables : s'.sched.tables = s.sched.tables.set i none)
      (store : s'.store = s.store)

theorem Turnover.counted (h : Counted s.sched.tables s.store) (turnover : Turnover s s') :
    Counted s'.sched.tables s'.store := by
  cases turnover with
  | same tables store =>
    rw [tables]
    exact h.same store
  | set i t t' held balanced tables =>
    rw [tables]
    exact h.set held balanced
  | fork i t held tables store =>
    rw [tables, store]
    exact h.fork held
  | reap i t held empty tables store =>
    rw [tables, store]
    exact h.remove held empty

theorem Turnover.refl (s : System ρ) : Turnover s s := .same rfl (.refl _)

/-- A transition of the scheduler that leaves the descriptor tables alone. -/
theorem Turnover.of_sched {sched : Scheduler ρ} (tables : sched.tables = s.sched.tables) :
    Turnover s { s with sched } := .same tables (.refl _)

theorem turnover_onTable {α : Type} {g : FdTable → Store → α × FdTable × Store} {x : α}
    (run : s.onTable g = some (x, s'))
    (balanced : ∀ process, s.sched.current = some process → FdTable.Balanced process.fdTable s.store
      (g process.fdTable s.store).2.1 (g process.fdTable s.store).2.2) : Turnover s s' := by
  obtain ⟨process, current, out⟩ := Option.map_eq_some_iff.mp run
  obtain rfl := (Prod.mk.inj out).2
  have here := (current_eq_some current).2
  exact .set _ process.fdTable _ (get_tables_of_slot here) (balanced process current) (tables_set here)

theorem turnover_answerFd {g : FdTable → Store → Except Nat Nat × FdTable × Store}
    (out : answerFd (s.onTable g) s = (answer, s'))
    (balanced : ∀ process, s.sched.current = some process → FdTable.Balanced process.fdTable s.store
      (g process.fdTable s.store).2.1 (g process.fdTable s.store).2.2) : Turnover s s' := by
  cases run : s.onTable g with
  | none =>
    obtain ⟨-, rfl⟩ := Prod.mk.inj ((congrArg (answerFd · s) run).symm.trans out)
    exact .refl s
  | some made =>
    obtain ⟨r, made⟩ := made
    have out := (congrArg (answerFd · s) run).symm.trans out
    cases r with
    | ok fd =>
      obtain ⟨-, rfl⟩ := Prod.mk.inj out
      exact turnover_onTable run balanced
    | error errno =>
      obtain ⟨-, rfl⟩ := Prod.mk.inj out
      exact turnover_onTable run balanced

theorem turnover_close {fd : Nat} (out : s.close fd = (answer, s')) : Turnover s s' :=
  turnover_answerFd out fun process _ => process.fdTable.balanced_close_any s.store fd

theorem balanced_allocEntry {t : FdTable} (st : Store) {old f : Nat} (held : t.get old = some f) :
    FdTable.Balanced t st (t.allocEntry st f).2.1 (t.allocEntry st f).2.2 := by
  unfold FdTable.allocEntry
  split
  · rename_i fd free
    obtain ⟨inside, empty⟩ := Slots.firstFree_spec free
    exact FdTable.balanced_add held (t.size ▸ inside) empty
  · exact .refl t st

theorem turnover_dup {oldfd : Nat} (out : s.dup oldfd = (answer, s')) : Turnover s s' := by
  refine turnover_answerFd out fun process _ => ?_
  split
  · exact .refl _ _
  · rename_i f held
    exact balanced_allocEntry s.store held

theorem turnover_dup2 {oldfd newfd : Nat} (out : s.dup2 oldfd newfd = (answer, s')) :
    Turnover s s' := by
  unfold dup2 at out
  split at out
  · obtain ⟨-, rfl⟩ := Prod.mk.inj out
    exact .refl s
  rename_i inside
  refine turnover_answerFd out fun process _ => ?_
  split
  · exact .refl _ _
  · rename_i f held
    split
    · exact .refl _ _
    · -- the target slot is closed first, so it is free when the file is put there
      rename_i other
      have inside : newfd < FD_MAX := Nat.lt_of_not_le inside
      have closed := process.fdTable.balanced_close_any s.store newfd
      have still : (process.fdTable.close s.store newfd).2.1.get oldfd = some f := by
        rw [FdTable.get_close, if_neg other, held]
      have free : (process.fdTable.close s.store newfd).2.1.get newfd = none := by
        rw [FdTable.get_close, if_pos rfl]
      simp only [FdTable.put, if_pos inside]
      exact closed.trans (FdTable.balanced_add still inside free)

/-- The action is a successful duplication of a pipe descriptor by `F_DUPFD`. -/
def Miscounts (s : System ρ) (action : Action ρ) : Prop :=
  ∃ fd cmd arg process f, action = .fcntl fd cmd arg ∧ (cmd = F_DUPFD ∨ cmd = F_DUPFD_CLOEXEC) ∧
    s.sched.current = some process ∧ process.fdTable.get fd = some f ∧
    (s.store.file f).pipe ≠ none ∧ (process.fdTable.allocFrom f arg).1 ≠ none

theorem turnover_fcntl {fd cmd arg : Nat} (out : s.fcntl fd cmd arg = (answer, s'))
    (plain : ¬ Miscounts s (.fcntl fd cmd arg)) : Turnover s s' := by
  unfold fcntl at out
  split at out
  · rename_i dupfd
    refine turnover_answerFd out fun process current => ?_
    split
    · exact .refl _ _
    · rename_i f held
      have counted : (s.store.file f).pipe = none ∨ (process.fdTable.allocFrom f arg).1 = none := by
        by_contra both
        obtain ⟨pipe, made⟩ := not_or.mp both
        exact plain ⟨fd, cmd, arg, process, f, rfl, dupfd, current, held, pipe, made⟩
      unfold FdTable.allocFrom at counted ⊢
      cases free : Slots.firstFree (process.fdTable.entries.drop arg) with
      | none => exact .refl _ _
      | some i =>
        have notPipe : (s.store.file f).pipe = none := by simpa [free] using counted
        obtain ⟨inside, empty⟩ := Slots.firstFree_spec free
        have lt : arg + i < FD_MAX := by
          rw [List.length_drop, process.fdTable.size] at inside
          omega
        refine FdTable.balanced_copy held lt ?_ notPipe
        simpa [Slots.get, FdTable.get, List.getElem?_drop] using empty
  · obtain ⟨-, rfl⟩ := Prod.mk.inj out
    exact .refl s

theorem turnover_open (counted : Counted s.sched.tables s.store) {file : OpenFile}
    (out : s.open file = (answer, s')) : Turnover s s' := by
  refine turnover_answerFd out fun process current => ?_
  have range := counted.inRange _ _ (get_tables_of_slot (current_eq_some current).2)
  rcases FdTable.alloc_cases process.fdTable s.store { file with pipe := none } with
    full | ⟨fd, inside, empty, run⟩
  · rw [full]
    exact .refl _ _
  · rw [run]
    exact FdTable.balanced_alloc _ rfl inside empty range

theorem turnover_pipe (counted : Counted s.sched.tables s.store)
    (out : (s.pipe.1, s.pipe.2.2) = (answer, s')) : Turnover s s' := by
  obtain ⟨-, rfl⟩ := Prod.mk.inj out
  have balanced : ∀ process, s.sched.current = some process → FdTable.Balanced process.fdTable
      s.store (process.fdTable.openPipe s.store).2.1 (process.fdTable.openPipe s.store).2.2 :=
    fun process current => FdTable.balanced_openPipe
      (counted.inRange _ _ (get_tables_of_slot (current_eq_some current).2)) counted.closed
  unfold pipe
  split
  · exact .refl s
  · rename_i run
    exact turnover_onTable run balanced
  · rename_i run
    exact turnover_onTable run balanced

/-- A turnover followed by something that concerns neither tables nor counts. -/
theorem Turnover.keep {s'' : System ρ} (turnover : Turnover s s')
    (tables : s''.sched.tables = s'.sched.tables) (store : s''.store = s'.store) :
    Turnover s s'' := by
  cases turnover with
  | same same sameEnds => exact .same (tables.trans same) (store ▸ sameEnds)
  | set i t t' held balanced changed =>
    exact .set i t t' held (store ▸ balanced) (tables.trans changed)
  | fork i t held added copied => exact .fork i t held (tables.trans added) (store.trans copied)
  | reap i t held empty gone same => exact .reap i t held empty (tables.trans gone) (store.trans same)

theorem turnover_kill (s : System ρ) (i : Nat) (code : Option Int) : Turnover s (s.kill i code) := by
  unfold kill
  split
  · exact .refl s
  · rename_i z held
    have balanced := (z.fdTable.closeAll_spec s.store).1
    generalize z.fdTable.closeAll s.store = closed at balanced ⊢
    obtain ⟨t, store⟩ := closed
    exact .set i z.fdTable t (get_tables_of_slot held) balanced (tables_set held)

theorem tables_halt (s : System ρ) : s.halt.sched.tables = s.sched.tables := by
  rw [halt_sched, tables_schedule]
  exact tables_keep fun _ => rfl

theorem turnover_exit {code : Int} (out : s.exit code = (answer, s')) : Turnover s s' := by
  unfold exit at out
  split at out
  · obtain ⟨-, rfl⟩ := Prod.mk.inj out
    exact (Turnover.refl s).keep (tables_halt s) rfl
  · rename_i process current
    obtain ⟨-, rfl⟩ := Prod.mk.inj out
    exact (turnover_kill s s.sched.currentIdx (some code)).keep
      ((tables_halt _).trans (tables_wake _ _)) rfl

theorem turnover_tgkill {tgid : Nat} (out : s.tgkill tgid = (answer, s')) : Turnover s s' := by
  unfold tgkill at out
  cases found : s.sched.find (·.pid = tgid) with
  | none =>
    simp only [found] at out
    split at out
    · obtain ⟨-, rfl⟩ := Prod.mk.inj out
      exact (Turnover.refl s).keep (tables_halt s) rfl
    · obtain ⟨-, rfl⟩ := Prod.mk.inj out
      exact .refl s
  | some i =>
    simp only [found] at out
    split at out
    · obtain ⟨-, rfl⟩ := Prod.mk.inj out
      exact (turnover_kill s i none).keep (tables_halt _) rfl
    · obtain ⟨-, rfl⟩ := Prod.mk.inj out
      exact turnover_kill s i none

theorem turnover_adopt {pid : Nat} {child : Option ρ} (out : s.adopt pid child = (answer, s')) :
    Turnover s s' := by
  unfold adopt at out
  split at out
  · rename_i parent image current
    obtain ⟨-, rfl⟩ := Prod.mk.inj out
    exact .fork _ parent.fdTable (get_tables_of_slot (current_eq_some current).2)
      (tables_adopt parent pid _ image) rfl
  · obtain ⟨-, rfl⟩ := Prod.mk.inj out
    exact .refl s

theorem turnover_wait4 (closed : s.sched.Each DeadClosed) {target : Int} {statusPtr options : Nat}
    (out : s.wait4 target statusPtr options = (answer, s')) : Turnover s s' := by
  have back (sched : Scheduler ρ) : (sched.update sched.currentIdx fun process =>
      { process with context := .user }).tables = sched.tables := tables_keep fun _ => rfl
  unfold wait4 at out
  cases current : s.sched.current with
  | none =>
    simp only [current] at out
    obtain ⟨-, rfl⟩ := Prod.mk.inj out
    exact .refl s
  | some caller =>
    simp only [current, waitRound] at out
    split at out
    · rename_i i found
      obtain ⟨z, held, ok⟩ := slot_of_find found
      simp only [Bool.and_eq_true, decide_eq_true_eq] at ok
      simp only [held] at out
      obtain ⟨-, rfl⟩ := Prod.mk.inj out
      refine .reap i z.fdTable (get_tables_of_slot held) (closed i z held ok.2) ?_ rfl
      refine (back { s.sched with processes := s.sched.processes.set i none }).trans ?_
      simp [tables, List.map_set]
    · split at out
      · obtain ⟨-, rfl⟩ := Prod.mk.inj out
        exact .of_sched (back s.sched)
      · split at out
        · obtain ⟨-, rfl⟩ := Prod.mk.inj out
          exact .of_sched (back s.sched)
        · obtain ⟨-, rfl⟩ := Prod.mk.inj out
          exact .of_sched ((tables_schedule _).trans (tables_keep fun _ => rfl))

theorem turnover_readRound {q count : Nat} (out : s.readRound q count = (answer, s')) :
    Turnover s s' := by
  have back : (s.sched.update s.sched.currentIdx fun process =>
      { process with context := .user }).tables = s.sched.tables := tables_keep fun _ => rfl
  unfold readRound at out
  simp only at out
  split at out
  · obtain ⟨-, rfl⟩ := Prod.mk.inj out
    exact .same back (s.store.sameEnds_buf q _)
  · split at out
    · obtain ⟨-, rfl⟩ := Prod.mk.inj out
      exact .of_sched back
    · obtain ⟨-, rfl⟩ := Prod.mk.inj out
      exact .of_sched ((tables_schedule _).trans (tables_keep fun _ => rfl))

theorem turnover_read {fd count : Nat} {input : List UInt8}
    (run : s.read fd count input = .ok (answer, s')) : Turnover s s' := by
  unfold read at run
  repeat' split at run
  all_goals try (obtain ⟨-, rfl⟩ := Prod.mk.inj (Except.ok.inj run); exact .refl s)
  unfold readFrom at run
  repeat' split at run
  all_goals first
    | cases run; done
    | (obtain ⟨-, rfl⟩ := Prod.mk.inj (Except.ok.inj run); exact .refl s)
    | (obtain ⟨-, rfl⟩ := Prod.mk.inj (Except.ok.inj run); exact .same rfl (s.store.sameEnds_advance _ _))
    | exact turnover_readRound (Except.ok.inj run)

theorem sameEnds_writeTo {st st' : Store} {f : Nat} {bytes : List UInt8} {moveAppend : Bool}
    {r : Except Nat Nat} (run : writeTo p st f bytes moveAppend = .ok (r, st')) :
    st.SameEnds st' := by
  unfold writeTo at run
  simp only at run
  split at run
  case h_2 =>
    split at run
    · cases run
    · rename_i n node found
      obtain ⟨written, -, run⟩ := bind_eq_ok.mp run
      split at run
      · obtain ⟨-, rfl⟩ := Prod.mk.inj (Except.ok.inj run)
        exact .refl st
      · obtain ⟨-, rfl⟩ := Prod.mk.inj (Except.ok.inj run)
        have moved : st.SameEnds (if (st.file f).append && !moveAppend then st
            else st.advance f bytes.length) := by
          split
          · exact .refl st
          · exact st.sameEnds_advance f _
        exact ⟨moved.files, moved.pipe, moved.allows, moved.pipes, moved.ends⟩
  case h_6 =>
    split at run
    · cases run
    · rename_i q found
      split at run
      · obtain ⟨-, rfl⟩ := Prod.mk.inj (Except.ok.inj run)
        exact .refl st
      · obtain ⟨-, rfl⟩ := Prod.mk.inj (Except.ok.inj run)
        exact st.sameEnds_buf q _
  all_goals
    obtain ⟨-, rfl⟩ := Prod.mk.inj (Except.ok.inj run)
    exact .refl st

theorem sameEnds_writeAll {f : Nat} {iov : List (List UInt8)} {total : Nat} {st st' : Store}
    {r : Except Nat Nat} (run : writeAll p f iov total st = .ok (r, st')) : st.SameEnds st' := by
  induction iov generalizing total st with
  | nil =>
    obtain ⟨-, rfl⟩ := Prod.mk.inj (Except.ok.inj run)
    exact .refl st
  | cons bytes iov ih =>
    rw [writeAll] at run
    split at run
    · exact ih run
    · obtain ⟨⟨r, next⟩, first, run⟩ := bind_eq_ok.mp run
      cases r with
      | error errno =>
        obtain ⟨-, rfl⟩ := Prod.mk.inj (Except.ok.inj run)
        exact sameEnds_writeTo first
      | ok n => exact (sameEnds_writeTo first).trans (ih run)

theorem turnover_write {fd : Nat} {bytes : List UInt8}
    (run : s.write p fd bytes = .ok (answer, s')) : Turnover s s' := by
  unfold write at run
  repeat' split at run
  all_goals try (obtain ⟨-, rfl⟩ := Prod.mk.inj (Except.ok.inj run); exact .refl s)
  obtain ⟨⟨r, store⟩, written, out⟩ := bind_eq_ok.mp run
  obtain ⟨-, rfl⟩ := Prod.mk.inj (Except.ok.inj out)
  exact .same rfl (sameEnds_writeTo written)

theorem turnover_writev {fd : Nat} {iov : List (List UInt8)}
    (run : s.writev p fd iov = .ok (answer, s')) : Turnover s s' := by
  unfold writev at run
  repeat' split at run
  all_goals try (obtain ⟨-, rfl⟩ := Prod.mk.inj (Except.ok.inj run); exact .refl s)
  obtain ⟨⟨r, store⟩, written, out⟩ := bind_eq_ok.mp run
  obtain ⟨-, rfl⟩ := Prod.mk.inj (Except.ok.inj out)
  exact .same rfl (sameEnds_writeAll written)

/-- Every transition but a miscounting one keeps counts and slots in step. -/
theorem Step.turnover (step : Step p s action answer s') (counted : Counted s.sched.tables s.store)
    (closed : s.sched.Each DeadClosed) (plain : ¬ Miscounts s action) : Turnover s s' := by
  obtain ⟨-, run⟩ := step
  cases action with
  | timer =>
    obtain ⟨-, rfl⟩ := Prod.mk.inj (Except.ok.inj run)
    exact .of_sched (tables_schedule _)
  | yield =>
    obtain ⟨-, rfl⟩ := Prod.mk.inj (Except.ok.inj run)
    exact .of_sched (tables_schedule _)
  | memory image =>
    obtain ⟨-, rfl⟩ := Prod.mk.inj (Except.ok.inj run)
    exact .of_sched (tables_keep fun _ => rfl)
  | resume =>
    have out := Except.ok.inj run
    unfold resume at out
    split at out
    · exact turnover_wait4 closed out
    · exact turnover_readRound out
    · obtain ⟨-, rfl⟩ := Prod.mk.inj out
      exact .refl s
  | fork child =>
    obtain ⟨pid, -, out⟩ := bind_eq_ok.mp run
    exact turnover_adopt (Except.ok.inj out)
  | exit code => exact turnover_exit (Except.ok.inj run)
  | tgkill tgid => exact turnover_tgkill (Except.ok.inj run)
  | segfault =>
    obtain ⟨-, rfl⟩ := Prod.mk.inj (Except.ok.inj run)
    exact (turnover_kill s _ none).keep (tables_halt _) rfl
  | wait4 target statusPtr options => exact turnover_wait4 closed (Except.ok.inj run)
  | pipe => exact turnover_pipe counted (Except.ok.inj run)
  | «open» file => exact turnover_open counted (Except.ok.inj run)
  | close fd => exact turnover_close (Except.ok.inj run)
  | dup oldfd => exact turnover_dup (Except.ok.inj run)
  | dup2 oldfd newfd => exact turnover_dup2 (Except.ok.inj run)
  | fcntl fd cmd arg => exact turnover_fcntl (Except.ok.inj run) plain
  | read fd count input => exact turnover_read run
  | write fd bytes => exact turnover_write run
  | writev fd iov => exact turnover_writev run

/-! ## What holds of each process besides -/

section Each

variable {s s' : Scheduler ρ}

theorem deadClosed_schedule (h : s.Each DeadClosed) : s.schedule.Each DeadClosed :=
  each_schedule h (fun _ _ dead => nomatch dead) fun _ _ dead => nomatch dead

theorem deadClosed_die {i : Nat} {t : FdTable} {code : Option Int} (h : s.Each DeadClosed)
    (closed : ∀ fd, t.get fd = none) : (s.update i (die t code)).Each DeadClosed :=
  each_update h fun _ _ _ _ => closed

/-- The current process is not dead, so what happens to it does not matter. -/
theorem deadClosed_tend {f : Process ρ → Process ρ} (h : s.Each DeadClosed) (alive : Alive s)
    (awake : s.idle = false) (init : s.initialized) (tended : ∀ a, Tended a (f a)) :
    (s.update s.currentIdx f).Each DeadClosed := by
  refine each_update h fun a ha _ dead => ?_
  exact absurd rfl (alive.ne_of_dead awake init ha ((tended a).state ▸ dead))

theorem Effect.deadClosed (h : s.Each DeadClosed) (alive : Alive s) (awake : s.idle = false)
    (init : s.initialized) (effect : Effect p s action answer s') : s'.Each DeadClosed := by
  cases effect with
  | tend f tended => exact deadClosed_tend h alive awake init tended
  | turn f tended => exact deadClosed_schedule (deadClosed_tend h alive awake init tended)
  | adopt => exact each_adopt h fun dead => nomatch dead
  | exit code process t current closed =>
    have told : ((s.update s.currentIdx (die t (some code))).wake process.parentPid).Each
        DeadClosed := each_wake (deadClosed_die h closed) (fun _ _ dead => nomatch dead) _
    exact deadClosed_schedule (each_update told fun _ _ keeps => keeps)
  | kill i z t held other closed => exact deadClosed_die h closed
  | fall i z t held closed =>
    exact deadClosed_schedule (each_update (deadClosed_die h closed) fun _ _ keeps => keeps)
  | reap caller target i z current held =>
    exact each_update (each_remove h held) fun _ _ keeps => keeps
  | park =>
    exact deadClosed_schedule (each_update h fun _ _ _ dead => nomatch dead)

theorem Effect.asks (h : s.Each Asks) (effect : Effect p s action answer s') : s'.Each Asks := by
  have schedule {s : Scheduler ρ} (h : s.Each Asks) : s.schedule.Each Asks :=
    each_schedule h (fun _ keeps => keeps) fun _ keeps => keeps
  have tend {f : Process ρ → Process ρ} (tended : ∀ a, Tended a (f a)) (a : Process ρ)
      (asks : Asks a) : Asks (f a) := fun q zero => asks q ((tended a).reading q zero)
  cases effect with
  | tend f tended => exact each_update h fun a _ => tend tended a
  | turn f tended => exact schedule (each_update h fun a _ => tend tended a)
  | adopt => exact each_adopt h fun q zero => nomatch zero
  | exit code process t current closed =>
    have dead : (s.update s.currentIdx (die t (some code))).Each Asks :=
      each_update h fun _ _ keeps => keeps
    exact schedule (each_update (each_wake dead (fun _ keeps => keeps) _) fun a _ => tend tended_toHalt a)
  | kill => exact each_update h fun _ _ keeps => keeps
  | fall i z t held closed =>
    have dead : (s.update i (die t none)).Each Asks := each_update h fun _ _ keeps => keeps
    exact schedule (each_update dead fun a _ => tend tended_toHalt a)
  | reap caller target i z current held =>
    exact each_update (each_remove h held) fun a _ => tend tended_toUser a
  | park => exact schedule (each_update h fun _ _ _ q zero => nomatch zero)

end Each

theorem Step.started (step : Step p s action answer s') : s.sched.initialized ∨ action = .timer := by
  obtain ⟨allowed, -⟩ := step
  simp only [allows, Bool.and_eq_true] at allowed
  by_cases timer : action = .timer
  · exact .inr timer
  · left
    obtain ⟨-, here⟩ := allowed
    split at here
    · exact absurd rfl timer
    · obtain ⟨a, current, -⟩ := (Option.any_eq_true _ _).mp here
      exact (current_eq_some current).1
    · obtain ⟨a, current, -⟩ := (Option.any_eq_true _ _).mp here
      exact (current_eq_some current).1

theorem Step.deadClosed (step : Step p s action answer s') (alive : Alive s.sched)
    (h : s.sched.Each DeadClosed) : s'.sched.Each DeadClosed := by
  rcases step.started with init | timer
  · exact step.effect.deadClosed h alive step.awake init
  · subst timer
    obtain ⟨-, rfl⟩ := Prod.mk.inj (Except.ok.inj step.2)
    exact deadClosed_schedule h

/-! ## Runs -/

theorem Initial.slot_eq (h : Initial s) {i : Nat} {a : Process ρ} (ha : s.sched.slot i = some a) :
    a.state = .ready ∧ a.context = .user ∧
      (a.fdTable, s.store) = FdTable.newStdio ⟨[], [], s.store.nodes⟩ := by
  obtain ⟨init, table, -, -, state, context, -, stdio⟩ := h.table
  rw [slot, table] at ha
  cases i with
  | zero =>
    cases ha
    exact ⟨state, context, stdio⟩
  | succ i => simp at ha

theorem Initial.counted (h : Initial s) : Counted s.sched.tables s.store := by
  obtain ⟨init, -, -, -, -, -, -, stdio⟩ := h.table
  have store : s.store = ⟨[.stdin, .stdout, .stdout], [], s.store.nodes⟩ := (Prod.mk.inj stdio).2
  refine ⟨fun i t ht fd f held => ?_, ?_, ?_⟩
  · rw [get_tables] at ht
    obtain ⟨a, ha, rfl⟩ := Option.map_eq_some_iff.mp ht
    have table := (Prod.mk.inj (h.slot_eq ha).2.2).1
    rw [table] at held
    rw [store]
    have inside : ∀ fd < FD_MAX, ∀ f, (FdTable.newStdio ⟨[], [], []⟩).1.get fd = some f → f < 3 := by
      decide
    exact inside fd (FdTable.lt_of_get held) f held
  · intro f q hf hq
    rw [store] at hf hq
    have none : ∀ f < 3, (Store.file ⟨[.stdin, .stdout, .stdout], [], []⟩ f).pipe = none := by decide
    exact absurd ((none f hf).symm.trans hq) (by simp)
  · intro q hq
    rw [store] at hq
    exact absurd hq (Nat.not_lt_zero q)

theorem Initial.alive (h : Initial s) : Alive s.sched := by
  intro _ init
  rw [h.initialized] at init
  cases init

theorem Initial.deadClosed (h : Initial s) : s.sched.Each DeadClosed := by
  intro i a ha dead
  rw [(h.slot_eq ha).1] at dead
  cases dead

theorem Initial.asks (h : Initial s) : s.sched.Each Asks := by
  intro i a ha q reads
  rw [(h.slot_eq ha).2.1] at reads
  cases reads

/-- A transition that is not the duplication of a pipe descriptor by `F_DUPFD`. -/
def Counting (p : Profile) (s s' : System ρ) : Prop :=
  ∃ action answer, Step p s action answer s' ∧ ¬ Miscounts s action

/-- The number of descriptor slots, over all processes, that hold this end of a pipe. -/
def slotsHolding (s : System ρ) (side : PipeEnd) (q : Nat) : Nat :=
  slotTotal (holds side q) s.sched.tables s.store

/-- The end counts are right, and with them the answers that depend on them. -/
structure EndsCounted (p : Profile) (s : System ρ) : Prop where
  counts : ∀ q i a fd f, s.sched.slot i = some a → a.fdTable.get fd = some f →
    (s.store.file f).pipe = some q →
    (s.store.pipe q).writeEnds = s.slotsHolding .write q ∧
      (s.store.pipe q).readEnds = s.slotsHolding .read q
  /-- The end of the stream is only reported when nobody can write any more. -/
  eof : ∀ action answer s' q, Step p s action answer s' → s.readsFrom action = some q →
    (∀ fd input, action ≠ .read fd 0 input) → answer.value = some 0 → s.slotsHolding .write q = 0
  epipe : ∀ action s' q bytes, Step p s action (.err EPIPE) s' →
    s.writesTo action = some (q, bytes) → s.slotsHolding .read q = 0

theorem Counted.slots_eq_zero (h : Counted s.sched.tables s.store) {q : Nat} {side : PipeEnd}
    (none : (s.store.pipe q).ends side = 0) : s.slotsHolding side q = 0 := by
  by_cases inside : q < s.store.pipes.length
  · rcases h.counts q inside with unused | counted
    · have below : s.slotsHolding side q ≤ slotTotal (refers q) s.sched.tables s.store :=
        Slots.tally_mono _ fun _ => Slots.tally_mono _ fun _ => OpenFile.holds_le_refers side q _
      omega
    · exact (counted side).symm.trans none
  · exact h.total_holds_absent (Nat.le_of_not_lt inside)

theorem counted_of_reachable (h : Reachable Initial (Counting p) s) :
    Counted s.sched.tables s.store ∧ s.sched.Each Asks := by
  have all : Counted s.sched.tables s.store ∧ Alive s.sched ∧ s.sched.Each DeadClosed ∧
      s.sched.Each Asks := by
    refine h.invariant (P := fun s => Counted s.sched.tables s.store ∧ Alive s.sched ∧
      s.sched.Each DeadClosed ∧ s.sched.Each Asks)
      (fun _ init => ⟨init.counted, init.alive, init.deadClosed, init.asks⟩) ?_
    rintro s s' ⟨counted, alive, closed, asks⟩ ⟨action, answer, step, plain⟩
    exact ⟨(step.turnover counted closed plain).counted counted, step.effect.alive alive step.awake,
      step.deadClosed alive closed, step.effect.asks asks⟩
  exact ⟨all.1, all.2.2.2⟩

/-- Unless `F_DUPFD` duplicates a pipe descriptor, the end counts are the numbers of slots in every
state, and neither end of file nor `EPIPE` is reported too early. -/
theorem endsCounted_of_counting (h : Reachable Initial (Counting p) s) : EndsCounted p s := by
  obtain ⟨counted, asks⟩ := counted_of_reachable h
  refine ⟨?_, ?_, ?_⟩
  · intro q i a fd f ha held pipe
    have inRange := counted.inRange i a.fdTable (get_tables_of_slot ha)
    have inside := counted.closed f q (inRange fd f held) pipe
    rcases counted.counts q inside with unused | equal
    · -- the slot itself refers to the pipe
      have here := (Slots.tally_eq_zero_iff _).mp unused i a.fdTable (get_tables_of_slot ha)
      have zero := FdTable.load_eq_zero.mp here fd f held
      simp [refers, pipe] at zero
    · exact ⟨equal .write, equal .read⟩
  · intro action answer s' q step source some value
    rcases step.reads asks source with ⟨rfl, -⟩ | ⟨-, -, fd, input, rfl⟩ | ⟨count, asked, out⟩
    · simp [Answer.value, EBADF] at value
    · exact absurd rfl (some fd input)
    · rcases readRound_cases out with ⟨-, full, rfl, -⟩ | ⟨-, -, rfl | ⟨rfl, noWriter⟩⟩
      · simp [Answer.value, full, asked] at value
      · cases value
      · exact Counted.slots_eq_zero counted noWriter
  · intro action s' q bytes step target
    by_cases inside : q < s.store.pipes.length
    · rcases step.writes target inside with ⟨errno, same, -, noReader⟩ | ⟨same, -⟩
      · cases same
        exact Counted.slots_eq_zero counted (noReader rfl)
      · cases same
    · exact counted.total_holds_absent (Nat.le_of_not_lt inside)

/-- A pipe whose write end `F_DUPFD` duplicates: when the first copy is closed, a reader is told that
the stream has ended although the second copy is still open. -/
theorem dupfd_loses_writer : ∃ s : System Unit,
    Reachable Initial (fun s s' => ∃ action answer, Step .dev s action answer s') s ∧
    s.sched.current.map (fun process => process.fdTable.get 5) = some (some 4) ∧
    s.store.file 4 = .pipeWrite 0 ∧ (s.store.pipe 0).writeEnds = 0 ∧ s.slotsHolding .write 0 = 1 ∧
    ∃ s', Step .dev s (.read 3 1 []) (.ret 0) s' := by
  have evaluates : ∃ s, booted.run .dev [.timer, .pipe, .fcntl 4 F_DUPFD 0, .close 4] = .ok s ∧
      s.sched.current.map (fun process => process.fdTable.get 5) = some (some 4) ∧
      s.store.file 4 = .pipeWrite 0 ∧ (s.store.pipe 0).writeEnds = 0 ∧
      s.slotsHolding .write 0 = 1 ∧ ∃ s', Step .dev s (.read 3 1 []) (.ret 0) s' :=
    ⟨_, rfl, by decide +kernel, by decide +kernel, by decide +kernel, by decide +kernel,
      _, by decide +kernel, rfl⟩
  obtain ⟨s, run, facts⟩ := evaluates
  exact ⟨s, reachable_run (fun _ _ _ _ _ step => ⟨_, _, step⟩) (.start booted_initial) run, facts⟩

/-- A pipe whose ends are shared with a child. -/
theorem endsCounted_after_fork : ∃ s : System Unit,
    EndsCounted .dev s ∧ (s.store.pipe 0).writeEnds = 2 ∧ s.slotsHolding .write 0 = 2 := by
  have evaluates : ∃ s, booted.run .dev [.timer, .pipe, .fork (some ())] = .ok s ∧
      (s.store.pipe 0).writeEnds = 2 ∧ s.slotsHolding .write 0 = 2 :=
    ⟨_, rfl, by decide +kernel, by decide +kernel⟩
  obtain ⟨s, run, facts⟩ := evaluates
  have counting : ∀ action ∈ [Action.timer, .pipe, .fork (some ())],
      ∀ (s : System Unit) answer s', Step .dev s action answer s' → Counting .dev s s' := by
    intro action mem s answer s' step
    refine ⟨action, answer, step, ?_⟩
    rintro ⟨fd, cmd, arg, -, -, rfl, -⟩
    simp at mem
  exact ⟨s, endsCounted_of_counting (reachable_run counting (.start booted_initial) run), facts⟩

end System
end Ferrum
