import Ferrum.System.Frame

/-!
# Pipes as streams

What the readers of a pipe have received, followed by what is in its buffer, is what the writers have
been told was written, in any run. Only `read`, `write` and `writev` on the pipe touch its buffer, and
each moves bytes from one part of this equation to the other or adds the same bytes to both sides.
-/
namespace Ferrum

variable {ρ : Type}

/-- No buffer changes, and open files still name pipes that are there. -/
structure Store.Still (st st' : Store) : Prop where
  buf : ∀ q, (st'.pipe q).buf = (st.pipe q).buf
  closed : st.Closed → st'.Closed

namespace Store

variable {st st' st'' : Store} {f q : Nat}

theorem Still.refl (st : Store) : st.Still st := ⟨fun _ => rfl, fun h => h⟩

theorem Still.trans (h : st.Still st') (g : st'.Still st'') : st.Still st'' :=
  ⟨fun q => (g.buf q).trans (h.buf q), fun closed => g.closed (h.closed closed)⟩

theorem pipe_absent (absent : st.pipes.length ≤ q) : st.pipe q = .new := by
  simp [Store.pipe, List.getElem?_eq_none absent]

theorem still_countEnds (change : Nat → Nat) : st.Still (st.countEnds change f) := by
  refine ⟨fun q => ?_, fun closed => closed_countEnds closed change⟩
  by_cases inside : q < st.pipes.length
  · exact buf_countEnds change inside
  · have absent := Nat.le_of_not_lt inside
    rw [pipe_absent absent, pipe_absent (by rwa [length_countEnds])]

theorem still_newFile (file : OpenFile) (named : ∀ q, file.pipe = some q → q < st.pipes.length) :
    st.Still (st.newFile file) :=
  ⟨fun _ => rfl, fun closed => closed_newFile closed file named⟩

/-- The buffer of a new pipe is as empty as that of one that is not there. -/
theorem still_newPipe : st.Still st.newPipe.2 := by
  refine ⟨fun q => ?_, closed_newPipe⟩
  by_cases inside : q < st.pipes.length
  · rw [pipe_newPipe_lt inside]
  · rw [pipe_absent (Nat.le_of_not_lt inside)]
    by_cases last : q = st.pipes.length
    · rw [last, pipe_newPipe]
    · rw [pipe_absent]
      simp only [newPipe, List.length_append, List.length_singleton]
      omega

theorem stream_advance (f n g : Nat) : ((st.advance f n).file g).stream = (st.file g).stream := by
  simp only [Store.file, advance, List.getD_eq_getElem?_getD, List.getElem?_set]
  split
  · rename_i same
    subst same
    split
    · simp [OpenFile.stream]
    · rename_i outside
      simp [List.getElem?_eq_none (Nat.le_of_not_lt outside)]
  · rfl

theorem still_advance (f n : Nat) : st.Still (st.advance f n) := by
  have same := st.sameEnds_advance f n
  refine ⟨fun _ => rfl, fun closed g q hg hq => ?_⟩
  exact closed g q (same.files ▸ hg) (same.pipe g ▸ hq)

end Store

theorem Store.still_frames : Store.Frames Store.Still where
  refl := Store.Still.refl
  trans := Store.Still.trans
  countEnds _ change _ := Store.still_countEnds change
  newFile _ := Store.still_newFile
  newPipe _ := Store.still_newPipe

namespace System

open Scheduler Process

variable {p : Profile} {s s' : System ρ} {action : Action ρ} {answer : Answer ρ} {q : Nat}

/-! ## Calls that leave the buffers alone -/

theorem still_readFrom {f count : Nat} {input : List UInt8}
    (run : s.readFrom f count input = .ok (answer, s')) (other : (s.store.file f).stream = none) :
    s.store.Still s'.store := by
  unfold readFrom at run
  split at run
  case h_6 kind =>
    rw [OpenFile.stream, if_pos kind] at other
    rw [other] at run
    cases run
  all_goals repeat' split at run
  all_goals first
    | cases run; done
    | (obtain ⟨-, rfl⟩ := Prod.mk.inj (Except.ok.inj run); exact .refl _)
    | (obtain ⟨-, rfl⟩ := Prod.mk.inj (Except.ok.inj run); exact Store.still_advance _ _)

theorem still_writeTo {st st' : Store} {f : Nat} {bytes : List UInt8} {moveAppend : Bool}
    {r : Except Nat Nat} (run : writeTo p st f bytes moveAppend = .ok (r, st'))
    (other : (st.file f).stream = none) : st.Still st' ∧ (st'.file f).stream = none := by
  unfold writeTo at run
  simp only at run
  split at run
  case h_2 =>
    split at run
    · cases run
    · obtain ⟨written, -, run⟩ := bind_eq_ok.mp run
      split at run
      · obtain ⟨-, rfl⟩ := Prod.mk.inj (Except.ok.inj run)
        exact ⟨.refl st, other⟩
      · obtain ⟨-, rfl⟩ := Prod.mk.inj (Except.ok.inj run)
        split
        · exact ⟨⟨fun _ => rfl, fun closed => closed⟩, other⟩
        · have moved : st.Still (st.advance f bytes.length) := Store.still_advance f bytes.length
          exact ⟨⟨moved.buf, moved.closed⟩, (Store.stream_advance f _ f).trans other⟩
  case h_6 kind =>
    rw [OpenFile.stream, if_pos kind] at other
    rw [other] at run
    cases run
  all_goals
    obtain ⟨-, rfl⟩ := Prod.mk.inj (Except.ok.inj run)
    exact ⟨.refl st, other⟩

theorem still_writeAll {f : Nat} {iov : List (List UInt8)} {total : Nat} {st st' : Store}
    {r : Except Nat Nat} (run : writeAll p f iov total st = .ok (r, st'))
    (other : (st.file f).stream = none) : st.Still st' := by
  induction iov generalizing total st with
  | nil =>
    obtain ⟨-, rfl⟩ := Prod.mk.inj (Except.ok.inj run)
    exact .refl st
  | cons bytes iov ih =>
    rw [writeAll] at run
    split at run
    · exact ih run other
    · obtain ⟨⟨r, next⟩, first, run⟩ := bind_eq_ok.mp run
      obtain ⟨still, same⟩ := still_writeTo first other
      cases r with
      | error errno =>
        obtain ⟨-, rfl⟩ := Prod.mk.inj (Except.ok.inj run)
        exact still
      | ok n => exact still.trans (ih run same)

theorem stream_of_pipeAt {fd f : Nat} (entry : s.entry fd = some (some f))
    (none : s.pipeAt fd = none) : (s.store.file f).stream = Option.none := by
  simpa [pipeAt, entry] using none

theorem Step.still (step : Step p s action answer s') (noRead : s.readsFrom action = none)
    (noWrite : s.writesTo action = none) : s.store.Still s'.store := by
  by_cases quiet : s.MovesBytes action
  case neg => exact step.frame Store.still_frames quiet
  obtain ⟨-, run⟩ := step
  cases action with
  | resume =>
    obtain ⟨r, count, context⟩ := quiet
    simp [readsFrom, context] at noRead
  | read fd count input =>
    have run : s.read fd count input = .ok (answer, s') := run
    unfold read at run
    repeat' split at run
    all_goals try (obtain ⟨-, rfl⟩ := Prod.mk.inj (Except.ok.inj run); exact .refl _)
    rename_i f entry _ _
    exact still_readFrom run (stream_of_pipeAt entry noRead)
  | write fd bytes =>
    have run : s.write p fd bytes = .ok (answer, s') := run
    unfold write at run
    repeat' split at run
    all_goals try (obtain ⟨-, rfl⟩ := Prod.mk.inj (Except.ok.inj run); exact .refl _)
    rename_i f entry _
    obtain ⟨⟨r, store⟩, written, out⟩ := bind_eq_ok.mp run
    obtain ⟨-, rfl⟩ := Prod.mk.inj (Except.ok.inj out)
    have none : s.pipeAt fd = none := Option.map_eq_none_iff.mp noWrite
    exact (still_writeTo written (stream_of_pipeAt entry none)).1
  | writev fd iov =>
    have run : s.writev p fd iov = .ok (answer, s') := run
    unfold writev at run
    repeat' split at run
    all_goals try (obtain ⟨-, rfl⟩ := Prod.mk.inj (Except.ok.inj run); exact .refl _)
    rename_i f entry _
    obtain ⟨⟨r, store⟩, written, out⟩ := bind_eq_ok.mp run
    obtain ⟨-, rfl⟩ := Prod.mk.inj (Except.ok.inj out)
    have none : s.pipeAt fd = none := Option.map_eq_none_iff.mp noWrite
    exact still_writeAll written (stream_of_pipeAt entry none)
  | _ => exact absurd quiet id

/-! ## The stream of a pipe -/

/-- One transition as an observer sees it. -/
structure Event (ρ : Type) where
  before : System ρ
  action : Action ρ
  answer : Answer ρ

/-- The bytes that a completed `read` took from a pipe. -/
def Event.delivered (e : Event ρ) (q : Nat) : List UInt8 :=
  match e.answer with
  | .data bytes => if e.before.readsFrom e.action = some q then bytes else []
  | _ => []

/-- The bytes that a successful `write` or `writev` put into a pipe. -/
def Event.accepted (e : Event ρ) (q : Nat) : List UInt8 :=
  match e.before.writesTo e.action, e.answer with
  | some (r, bytes), .ret _ => if r = q then bytes else []
  | _, _ => []

def Occurs (p : Profile) (s : System ρ) (e : Event ρ) (s' : System ρ) : Prop :=
  e.before = s ∧ Step p s e.action e.answer s'

theorem buf_setPipe {st : Store} {inner : PipeInner} (inside : q < st.pipes.length) (r : Nat) :
    ((st.setPipe q inner).pipe r).buf = if q = r then inner.buf else (st.pipe r).buf := by
  by_cases same : q = r
  · subst same
    rw [Store.pipe_setPipe inside, if_pos rfl, if_pos rfl]
  · rw [if_neg same]
    by_cases there : r < st.pipes.length
    · rw [Store.pipe_setPipe there, if_neg (Ne.symm same)]
    · have absent := Nat.le_of_not_lt there
      rw [Store.pipe_absent absent, Store.pipe_absent (by rwa [Store.length_setPipe])]

theorem closed_setPipe {st : Store} (closed : st.Closed) (r : Nat) (inner : PipeInner) :
    (st.setPipe r inner).Closed := by
  intro f q hf hq
  rw [Store.length_setPipe]
  exact closed f q hf hq

theorem lt_of_pipeAt (closed : s.store.Closed) {fd : Nat} (h : s.pipeAt fd = some q) :
    q < s.store.pipes.length := by
  obtain ⟨f, -, -, pipe⟩ := pipeAt_eq_some h
  by_cases inside : f < s.store.files.length
  · exact closed f q inside pipe
  · have absent := List.getElem?_eq_none (Nat.le_of_not_lt inside)
    simp [Store.file, absent, OpenFile.stdin] at pipe

theorem lt_of_writesTo (closed : s.store.Closed) {bytes : List UInt8}
    (h : s.writesTo action = some (q, bytes)) : q < s.store.pipes.length := by
  cases action
  case write fd bytes' =>
    obtain ⟨r, at_, same⟩ := Option.map_eq_some_iff.mp h
    cases same
    exact lt_of_pipeAt closed at_
  case writev fd iov =>
    obtain ⟨r, at_, same⟩ := Option.map_eq_some_iff.mp h
    cases same
    exact lt_of_pipeAt closed at_
  all_goals cases h

theorem writesTo_of_readsFrom (h : s.readsFrom action = some q) : s.writesTo action = none := by
  cases action <;> first | rfl | cases h

/-- What a transition delivers comes from the front of the buffer, what it accepts goes to the end. -/
theorem Step.flow (step : Step p s action answer s') (closed : s.store.Closed)
    (asks : s.sched.Each Asks) : s'.store.Closed ∧ ∀ r,
      Event.delivered ⟨s, action, answer⟩ r ++ (s'.store.pipe r).buf =
        (s.store.pipe r).buf ++ Event.accepted ⟨s, action, answer⟩ r := by
  cases source : s.readsFrom action with
  | some q =>
    have noWrite := writesTo_of_readsFrom source
    have quiet (same : s'.store = s.store) (noData : ∀ bytes, answer ≠ .data bytes) :
        s'.store.Closed ∧ ∀ r, Event.delivered ⟨s, action, answer⟩ r ++ (s'.store.pipe r).buf =
          (s.store.pipe r).buf ++ Event.accepted ⟨s, action, answer⟩ r := by
      refine ⟨same ▸ closed, fun r => ?_⟩
      have none : Event.delivered ⟨s, action, answer⟩ r = [] := by
        unfold Event.delivered
        split
        · rename_i bytes data
          exact absurd data (noData bytes)
        · rfl
      simp [none, Event.accepted, noWrite, same]
    rcases step.reads asks source with ⟨rfl, rfl⟩ | ⟨rfl, rfl, -⟩ | ⟨count, -, out⟩
    · exact quiet rfl (by simp)
    · exact quiet rfl (by simp)
    · rcases readRound_cases out with ⟨sched, full, rfl, rfl⟩ | ⟨-, same, rfl | ⟨rfl, -⟩⟩
      · have inside : q < s.store.pipes.length := by
          by_contra outside
          rw [Store.pipe_absent (Nat.le_of_not_lt outside)] at full
          exact full rfl
        refine ⟨closed_setPipe closed _ _, fun r => ?_⟩
        simp only [Event.delivered, Event.accepted, source, noWrite, buf_setPipe inside,
          Option.some.injEq, List.append_nil]
        split
        · rename_i same
          rw [← same, List.take_append_drop]
        · rfl
      · exact quiet same (by simp)
      · exact quiet same (by simp)
  | none =>
    have noData (r : Nat) : Event.delivered ⟨s, action, answer⟩ r = [] := by
      unfold Event.delivered
      split <;> simp [source]
    cases target : s.writesTo action with
    | none =>
      have still := step.still source target
      refine ⟨still.closed closed, fun r => ?_⟩
      simp [noData, Event.accepted, target, still.buf]
    | some written =>
      obtain ⟨q, bytes⟩ := written
      have inside := lt_of_writesTo closed target
      rcases step.writes target inside with ⟨errno, rfl, rfl, -⟩ | ⟨rfl, rfl⟩
      · exact ⟨closed, fun r => by simp [noData, Event.accepted, target]⟩
      · refine ⟨closed_setPipe closed _ _, fun r => ?_⟩
        simp only [noData, Event.accepted, target, append, buf_setPipe inside, List.nil_append]
        split
        · rename_i same
          rw [same]
        · rw [List.append_nil]

/-- The stream property of all pipes, after a run with these events. -/
structure Streams (p : Profile) (events : List (Event ρ)) (s : System ρ) : Prop where
  stream : ∀ q, events.flatMap (Event.delivered · q) ++ (s.store.pipe q).buf =
    events.flatMap (Event.accepted · q)
  /-- A refused write adds nothing. -/
  refused : ∀ action s' errno q bytes, Step p s action (.err errno) s' →
    s.writesTo action = some (q, bytes) → ∀ r, (s'.store.pipe r).buf = (s.store.pipe r).buf
  /-- A read of at least one byte does not come back empty while there are bytes. -/
  nonempty : ∀ action answer s' q, Step p s action answer s' → s.readsFrom action = some q →
    (∀ fd input, action ≠ .read fd 0 input) → answer.value = some 0 → (s.store.pipe q).buf = []

/-- In every run, every pipe delivers what was written to it, in order and without loss. -/
theorem streams_of_trace {s₀ : System ρ} {events : List (Event ρ)} (init : Initial s₀)
    (trace : Trace (Occurs p) s₀ events s) : Streams p events s := by
  have invariant : s.store.Closed ∧ s.sched.Each Asks ∧
      ∀ q, events.flatMap (Event.delivered · q) ++ (s.store.pipe q).buf =
        events.flatMap (Event.accepted · q) := by
    induction trace with
    | nil =>
      refine ⟨init.counted.closed, init.asks, fun q => ?_⟩
      obtain ⟨first, -, -, -, -, -, -, stdio⟩ := init.table
      have store : s₀.store.pipes = [] := congrArg Store.pipes (Prod.mk.inj stdio).2
      simp [Store.pipe, store, PipeInner.new]
    | @snoc events event s s' run last ih =>
      obtain ⟨closed, asks, stream⟩ := ih
      obtain ⟨rfl, step⟩ := last
      obtain ⟨closed', flow⟩ := step.flow closed asks
      refine ⟨closed', step.effect.asks asks, fun q => ?_⟩
      calc (events ++ [event]).flatMap (Event.delivered · q) ++ (s'.store.pipe q).buf
          = events.flatMap (Event.delivered · q) ++
              (event.delivered q ++ (s'.store.pipe q).buf) := by simp
        _ = events.flatMap (Event.delivered · q) ++
              ((event.before.store.pipe q).buf ++ event.accepted q) := by rw [flow q]
        _ = events.flatMap (Event.accepted · q) ++ event.accepted q := by
            rw [← List.append_assoc, stream q]
        _ = (events ++ [event]).flatMap (Event.accepted · q) := by simp
  obtain ⟨closed, asks, stream⟩ := invariant
  refine ⟨stream, ?_, ?_⟩
  · intro action s' errno q bytes step target r
    rcases step.writes target (lt_of_writesTo closed target) with ⟨-, -, rfl, -⟩ | ⟨same, -⟩
    · rfl
    · cases same
  · intro action answer s' q step source some value
    rcases step.reads asks source with ⟨rfl, -⟩ | ⟨-, -, fd, input, rfl⟩ | ⟨count, asked, out⟩
    · simp [Answer.value, EBADF] at value
    · exact absurd rfl (some fd input)
    · rcases readRound_cases out with ⟨-, full, rfl, -⟩ | ⟨empty, -⟩
      · simp [Answer.value, full, asked] at value
      · exact empty

/-- A read of no bytes returns `0` whatever is in the buffer. -/
theorem read_of_nothing : ∃ s : System Unit,
    Reachable Initial (fun s s' => ∃ action answer, Step .dev s action answer s') s ∧
    (s.store.pipe 0).buf = [1, 2, 3] ∧ s.readsFrom (.read 3 0 []) = some 0 ∧
    ∃ s', Step .dev s (.read 3 0 []) (.ret 0) s' := by
  have evaluates : ∃ s, booted.run .dev [.timer, .pipe, .write 4 [1, 2, 3]] = .ok s ∧
      (s.store.pipe 0).buf = [1, 2, 3] ∧ s.readsFrom (.read 3 0 []) = some 0 ∧
      ∃ s', Step .dev s (.read 3 0 []) (.ret 0) s' :=
    ⟨_, rfl, by decide +kernel, by decide +kernel, _, by decide +kernel, rfl⟩
  obtain ⟨s, run, facts⟩ := evaluates
  exact ⟨s, reachable_run (fun _ _ _ _ _ step => ⟨_, _, step⟩) (.start booted_initial) run, facts⟩

/-- Three bytes are written and two of them read. -/
theorem streams_after_read : ∃ (events : List (Event Unit)) (s : System Unit),
    Streams .dev events s ∧ events.flatMap (Event.delivered · 0) = [1, 2] ∧
      (s.store.pipe 0).buf = [3] := by
  have started : Occurs .dev booted ⟨booted, .timer, .ret 0⟩ (withChildren [] 1) :=
    ⟨rfl, rfl, rfl⟩
  have evaluates : ∃ s₂ s₃ s₄ : System Unit,
      Occurs .dev (withChildren [] 1) ⟨withChildren [] 1, .pipe, .ret 0⟩ s₂ ∧
      Occurs .dev s₂ ⟨s₂, .write 4 [1, 2, 3], .ret 3⟩ s₃ ∧
      Occurs .dev s₃ ⟨s₃, .read 3 2 [], .data [1, 2]⟩ s₄ ∧
      s₃.pipeAt 3 = some 0 ∧ (s₄.store.pipe 0).buf = [3] :=
    ⟨_, _, _, ⟨rfl, by decide +kernel, rfl⟩, ⟨rfl, by decide +kernel, rfl⟩,
      ⟨rfl, by decide +kernel, rfl⟩, by decide +kernel, by decide +kernel⟩
  obtain ⟨s₂, s₃, s₄, made, written, taken, pipe, left⟩ := evaluates
  refine ⟨_, s₄, streams_of_trace booted_initial
    (.snoc (.snoc (.snoc (.snoc .nil started) made) written) taken), ?_, left⟩
  simp [Event.delivered, readsFrom, pipe]

end System
end Ferrum
