import Ferrum.System.Effect

/-!
# Reading and writing a pipe

Which pipe a call reads from or writes to, and what the calls do when there is one: a `read` is one
round of its loop, and `write` and `writev` append all their bytes or are refused as a whole.
-/
namespace Ferrum

variable {ρ : Type}

/-- The pipe that reads and writes of an open file go to. -/
def OpenFile.stream (file : OpenFile) : Option Nat := if file.kind = .pipe then file.pipe else none

theorem Store.setPipe_pipe (st : Store) (q : Nat) : st.setPipe q (st.pipe q) = st := by
  have same : st.pipes.set q (st.pipe q) = st.pipes := by
    by_cases inside : q < st.pipes.length
    · rw [Store.pipe, List.getD_eq_getElem _ _ inside, List.set_getElem_self]
    · exact List.set_eq_of_length_le (Nat.le_of_not_lt inside)
  rw [setPipe, same]

theorem Store.setPipe_setPipe (st : Store) (q : Nat) (a b : PipeInner) :
    (st.setPipe q a).setPipe q b = st.setPipe q b := by
  simp [setPipe]

namespace System

variable {p : Profile} {s s' : System ρ} {action : Action ρ} {answer : Answer ρ} {q : Nat}

/-- The pipe behind a descriptor of the current process. -/
def pipeAt (s : System ρ) (fd : Nat) : Option Nat :=
  (s.entry fd).join.bind fun f => (s.store.file f).stream

/-- The pipe that a call reads from, on entry or when its caller is switched to again. -/
def readsFrom (s : System ρ) : Action ρ → Option Nat
  | .read fd _ _ => s.pipeAt fd
  | .resume => match s.sched.current.map Process.context with
    | some (.pipeRead q _) => some q
    | _ => none
  | _ => none

/-- The pipe that a call writes to, and its bytes. -/
def writesTo (s : System ρ) : Action ρ → Option (Nat × List UInt8)
  | .write fd bytes => (s.pipeAt fd).map (·, bytes)
  | .writev fd iov => (s.pipeAt fd).map (·, iov.flatten)
  | _ => none

theorem pipeAt_eq_some {fd : Nat} (h : s.pipeAt fd = some q) :
    ∃ f, s.entry fd = some (some f) ∧ (s.store.file f).kind = .pipe ∧
      (s.store.file f).pipe = some q := by
  obtain ⟨f, found, pipe⟩ := Option.bind_eq_some_iff.mp h
  obtain ⟨kind, pipe⟩ := Option.ite_none_right_eq_some.mp pipe
  exact ⟨f, Option.join_eq_some_iff.mp found, kind, pipe⟩

section Write

variable {st st' : Store} {f : Nat} {bytes : List UInt8} {r : Except Nat Nat}

/-- The store once the bytes are at the end of the buffer. -/
def append (st : Store) (q : Nat) (bytes : List UInt8) : Store :=
  st.setPipe q { st.pipe q with buf := (st.pipe q).buf ++ bytes }

theorem append_nil (st : Store) (q : Nat) : append st q [] = st := by
  rw [append, List.append_nil]
  exact st.setPipe_pipe q

theorem pipe_append (inside : q < st.pipes.length) :
    (append st q bytes).pipe q = { st.pipe q with buf := (st.pipe q).buf ++ bytes } := by
  rw [append, Store.pipe_setPipe inside, if_pos rfl]

theorem append_append (inside : q < st.pipes.length) (more : List UInt8) :
    append (append st q bytes) q more = append st q (bytes ++ more) := by
  rw [append, pipe_append inside, append, Store.setPipe_setPipe, append]
  simp only [List.append_assoc]

theorem writeTo_pipe (kind : (st.file f).kind = .pipe) (pipe : (st.file f).pipe = some q)
    (moveAppend : Bool) : writeTo p st f bytes moveAppend =
      .ok (if (st.pipe q).readEnds = 0 then (.error EPIPE, st)
        else (.ok bytes.length, append st q bytes)) := by
  simp only [writeTo, kind, pipe]
  split <;> rfl

/-- The read ends do not change under way, so either every buffer is taken or none. -/
theorem writeAll_pipe (kind : (st.file f).kind = .pipe) (pipe : (st.file f).pipe = some q)
    (inside : q < st.pipes.length) (iov : List (List UInt8)) (total : Nat) :
    writeAll p f iov total st =
      .ok (if (st.pipe q).readEnds = 0 ∧ iov.flatten ≠ [] then (.error EPIPE, st)
        else (.ok (total + iov.flatten.length), append st q iov.flatten)) := by
  induction iov generalizing total st with
  | nil => simp [writeAll, append_nil]
  | cons bytes iov ih =>
    rw [writeAll]
    by_cases empty : bytes = []
    · rw [if_pos empty, ih kind pipe inside, empty, List.flatten_cons, List.nil_append]
    · rw [if_neg empty, writeTo_pipe kind pipe]
      have some : (bytes :: iov).flatten ≠ [] := by simp [empty]
      by_cases noReader : (st.pipe q).readEnds = 0
      · rw [if_pos noReader, if_pos ⟨noReader, some⟩]
        rfl
      · rw [if_neg noReader, if_neg fun h => noReader h.1, ok_bind]
        have still : ((append st q bytes).pipe q).readEnds = (st.pipe q).readEnds := by
          rw [pipe_append inside]
        have grown : q < (append st q bytes).pipes.length := by simpa [append] using inside
        have rest (n : Nat) := @ih (append st q bytes) kind pipe grown n
        simp only
        rw [rest, still, if_neg fun h => noReader h.1, append_append inside,
          List.flatten_cons, List.length_append, Nat.add_assoc]

/-- A `write` or `writev` to a pipe appends all bytes or changes nothing. -/
theorem Step.writes (step : Step p s action answer s') (target : s.writesTo action = some (q, bytes))
    (inside : q < s.store.pipes.length) :
    (∃ errno, answer = .err errno ∧ s' = s ∧ (errno = EPIPE → (s.store.pipe q).readEnds = 0)) ∨
      (answer = .ret bytes.length ∧ s' = { s with store := append s.store q bytes }) := by
  obtain ⟨-, run⟩ := step
  cases action
  case write fd bytes' =>
    obtain ⟨q', at_, same⟩ := Option.map_eq_some_iff.mp target
    obtain ⟨rfl, rfl⟩ := Prod.mk.inj same
    obtain ⟨f, entry, kind, pipe⟩ := pipeAt_eq_some at_
    simp only [perform, write, entry] at run
    split at run
    · rename_i empty
      obtain ⟨rfl, rfl⟩ := Prod.mk.inj (Except.ok.inj run)
      subst empty
      exact .inr ⟨rfl, by rw [append_nil]⟩
    split at run
    · obtain ⟨rfl, rfl⟩ := Prod.mk.inj (Except.ok.inj run)
      exact .inl ⟨EBADF, rfl, rfl, fun same => nomatch same⟩
    rw [writeTo_pipe kind pipe] at run
    by_cases noReader : (s.store.pipe q').readEnds = 0
    · rw [if_pos noReader] at run
      obtain ⟨rfl, rfl⟩ := Prod.mk.inj (Except.ok.inj run)
      exact .inl ⟨EPIPE, rfl, rfl, fun _ => noReader⟩
    · rw [if_neg noReader] at run
      obtain ⟨rfl, rfl⟩ := Prod.mk.inj (Except.ok.inj run)
      exact .inr ⟨rfl, rfl⟩
  case writev fd iov =>
    obtain ⟨q', at_, same⟩ := Option.map_eq_some_iff.mp target
    obtain ⟨rfl, rfl⟩ := Prod.mk.inj same
    obtain ⟨f, entry, kind, pipe⟩ := pipeAt_eq_some at_
    simp only [perform, writev, entry] at run
    split at run
    · obtain ⟨rfl, rfl⟩ := Prod.mk.inj (Except.ok.inj run)
      exact .inl ⟨EBADF, rfl, rfl, fun same => nomatch same⟩
    rw [writeAll_pipe kind pipe inside, Nat.zero_add] at run
    by_cases refused : (s.store.pipe q').readEnds = 0 ∧ iov.flatten ≠ []
    · rw [if_pos refused] at run
      obtain ⟨rfl, rfl⟩ := Prod.mk.inj (Except.ok.inj run)
      exact .inl ⟨EPIPE, rfl, rfl, fun _ => refused.1⟩
    · rw [if_neg refused] at run
      obtain ⟨rfl, rfl⟩ := Prod.mk.inj (Except.ok.inj run)
      exact .inr ⟨rfl, rfl⟩
  all_goals cases target

end Write

/-! ## Reading -/

/-- A process inside a pipe `read` has asked for at least one byte. -/
def Asks (a : Process ρ) : Prop := ∀ q, a.context ≠ .pipeRead q 0

/-- A call that reads from a pipe is refused, asks for nothing, or is a round of the loop. -/
theorem Step.reads (step : Step p s action answer s') (asks : s.sched.Each Asks)
    (source : s.readsFrom action = some q) :
    (answer = .err EBADF ∧ s' = s) ∨
      (answer = .ret 0 ∧ s' = s ∧ ∃ fd input, action = .read fd 0 input) ∨
      ∃ count, count ≠ 0 ∧ s.readRound q count = (answer, s') := by
  obtain ⟨-, run⟩ := step
  cases action
  case read fd count input =>
    obtain ⟨f, entry, kind, pipe⟩ := pipeAt_eq_some source
    have notDirectory : (s.store.file f).kind ≠ .directory := by simp [kind]
    simp only [perform, read, entry, if_neg notDirectory] at run
    split at run
    · rename_i zero
      obtain ⟨rfl, rfl⟩ := Prod.mk.inj (Except.ok.inj run)
      exact .inr (.inl ⟨rfl, rfl, fd, input, by rw [zero]⟩)
    · rename_i some
      split at run
      · obtain ⟨rfl, rfl⟩ := Prod.mk.inj (Except.ok.inj run)
        exact .inl ⟨rfl, rfl⟩
      · simp only [readFrom, kind, pipe] at run
        exact .inr (.inr ⟨count, some, Except.ok.inj run⟩)
  case resume =>
    simp only [readsFrom] at source
    split at source
    · rename_i r count context
      cases source
      obtain ⟨reader, current, reads⟩ := Option.map_eq_some_iff.mp context
      have out := Except.ok.inj run
      simp only [resume, context] at out
      refine .inr (.inr ⟨count, ?_, out⟩)
      rintro rfl
      exact asks _ reader (Scheduler.current_eq_some current).2 q reads
    · cases source
  all_goals cases source

theorem readRound_cases {count : Nat} (out : s.readRound q count = (answer, s')) :
    (∃ sched, (s.store.pipe q).buf ≠ [] ∧ answer = .data ((s.store.pipe q).buf.take count) ∧
      s' = ⟨sched, s.store.setPipe q
        { s.store.pipe q with buf := (s.store.pipe q).buf.drop count }⟩) ∨
    (s.store.pipe q).buf = [] ∧ s'.store = s.store ∧
      (answer = .pending ∨ (answer = .ret 0 ∧ (s.store.pipe q).writeEnds = 0)) := by
  unfold readRound at out
  simp only at out
  split at out
  · obtain ⟨rfl, rfl⟩ := Prod.mk.inj out
    exact .inl ⟨_, by assumption, rfl, rfl⟩
  · rename_i empty
    refine .inr ⟨not_not.mp empty, ?_⟩
    split at out
    · obtain ⟨rfl, rfl⟩ := Prod.mk.inj out
      exact ⟨rfl, .inr ⟨rfl, by assumption⟩⟩
    · obtain ⟨rfl, rfl⟩ := Prod.mk.inj out
      exact ⟨rfl, .inl rfl⟩

end System
end Ferrum
