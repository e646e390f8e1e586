import Ferrum.System.Writev
import Mathlib

/-!
# Files as streams

The data of a node is the overlay of what was written to it. A descriptor opened on the node delivers
the data from its offset on, and the offset is in the open file, which `dup` and `fork` share: whoever
reads, the next reader goes on where the last one stopped.
-/
namespace Ferrum

namespace Node

/-- A write covers a position. -/
def Covers (i : Nat) (w : Nat × List UInt8) : Prop := w.1 ≤ i ∧ i < w.1 + w.2.length

instance (i : Nat) : DecidablePred (Covers i) := fun _ => inferInstanceAs (Decidable (_ ∧ _))

/-- The byte that the last write over a position left there, on a background of zeros. -/
def overlay (writes : List (Nat × List UInt8)) (i : Nat) : UInt8 :=
  match writes.reverse.find? (Covers i) with
  | some w => w.2.getD (i - w.1) 0
  | none => 0

/-- The furthest end of the writes. -/
def extent (writes : List (Nat × List UInt8)) : Nat :=
  writes.foldl (fun size w => max size (w.1 + w.2.length)) 0

/-- One write after the other, as long as they succeed. -/
def writeMany (p : Profile) : List (Nat × List UInt8) → Node → Except Stop (Except String Node)
  | [], node => .ok (.ok node)
  | (offset, bytes) :: writes, node => do
    match ← node.write p offset bytes with
    | .error e => return .error e
    | .ok node => writeMany p writes node

/-- The data after a sequence of writes. -/
def spliceMany (data : List UInt8) (writes : List (Nat × List UInt8)) : List UInt8 :=
  writes.foldl (fun data w => splice data w.1 w.2) data

variable {writes : List (Nat × List UInt8)}

theorem writeMany_ok (p : Profile) (fit : ∀ w ∈ writes, w.1 + w.2.length < 2 ^ 64) (data : List UInt8) :
    writeMany p writes ⟨data, false⟩ = .ok (.ok ⟨spliceMany data writes, false⟩) := by
  induction writes generalizing data with
  | nil => rfl
  | cons w writes ih =>
    have first : Node.write p ⟨data, false⟩ w.1 w.2 = .ok (.ok ⟨splice data w.1 w.2, false⟩) :=
      write_ok p rfl (fit w List.mem_cons_self)
    simp only [writeMany, first, ok_bind]
    exact ih (fun w' later => fit w' (List.mem_cons_of_mem _ later)) _

theorem overlay_concat (writes : List (Nat × List UInt8)) (w : Nat × List UInt8) (i : Nat) :
    overlay (writes ++ [w]) i = if Covers i w then w.2.getD (i - w.1) 0 else overlay writes i := by
  rw [overlay, List.reverse_append, List.reverse_singleton, List.singleton_append, List.find?_cons]
  by_cases covered : Covers i w
  · simp [covered]
  · simp [covered, overlay]

theorem length_spliceMany (writes : List (Nat × List UInt8)) :
    (spliceMany [] writes).length = extent writes := by
  induction writes using List.reverseRecOn with
  | nil => rfl
  | append_singleton writes w ih =>
    simp only [spliceMany, extent, List.foldl_append, List.foldl_cons, List.foldl_nil, length_splice]
    rw [spliceMany, extent] at ih
    rw [ih]

theorem getD_spliceMany (writes : List (Nat × List UInt8)) (i : Nat) :
    (spliceMany [] writes).getD i 0 = overlay writes i := by
  induction writes using List.reverseRecOn with
  | nil => simp [spliceMany, overlay]
  | append_singleton writes w ih =>
    have last : spliceMany [] (writes ++ [w]) = splice (spliceMany [] writes) w.1 w.2 := by
      simp [spliceMany]
    rw [last, getD_splice, ih, overlay_concat]
    rfl

/-- The contents of a file are the overlay of what was written to it. -/
theorem spliceMany_eq (writes : List (Nat × List UInt8)) :
    spliceMany [] writes = (List.range (extent writes)).map (overlay writes) := by
  refine ext_getD (by simp [length_spliceMany]) fun i => ?_
  rcases Nat.lt_or_ge i (extent writes) with inside | outside
  · rw [getD_spliceMany, List.getD_eq_getElem _ _ (by simpa using inside)]
    simp
  · rw [List.getD_eq_default _ _ (by simpa [length_spliceMany] using outside),
      List.getD_eq_default _ _ (by simpa using outside)]

end Node

/-- No open file and no node changes; there may be more open files. -/
structure Store.Unmoved (st st' : Store) : Prop where
  more : st.files.length ≤ st'.files.length
  file : ∀ f < st.files.length, st'.file f = st.file f
  nodes : st'.nodes = st.nodes

namespace Store

variable {st st' : Store} {f n : Nat}

theorem Unmoved.of_files (files : st'.files = st.files) (nodes : st'.nodes = st.nodes) :
    st.Unmoved st' :=
  ⟨by rw [files], fun f _ => by rw [Store.file, files, Store.file], nodes⟩

theorem unmoved_newFile (file : OpenFile) : st.Unmoved (st.newFile file) := by
  refine ⟨by simp [newFile], fun f inside => ?_, rfl⟩
  simp [Store.file, newFile, List.getElem?_append_left inside]

theorem unmoved_countEnds (change : Nat → Nat) (f : Nat) : st.Unmoved (st.countEnds change f) := by
  unfold countEnds
  simp only
  repeat' split
  all_goals exact Unmoved.of_files rfl rfl

theorem unmoved_frames : Store.Frames Store.Unmoved where
  refl _ := .of_files rfl rfl
  trans h g := ⟨h.more.trans g.more,
    fun f inside => (g.file f (Nat.lt_of_lt_of_le inside h.more)).trans (h.file f inside),
    g.nodes.trans h.nodes⟩
  countEnds _ change f := unmoved_countEnds change f
  newFile _ file _ := unmoved_newFile file
  newPipe _ := .of_files rfl rfl

theorem file_advance_ne (other : f ≠ n) (k : Nat) : (st.advance f k).file n = st.file n := by
  simp [file, advance, List.getElem?_set_ne other]

end Store

namespace System

variable {ρ : Type} {p : Profile} {s s' : System ρ} {action : Action ρ} {answer : Answer ρ}
  {f n : Nat} {node : Node}

/-- An open file that reads a node from some offset on. -/
structure Reads (st : Store) (f n : Nat) (node : Node) (offset : Nat) : Prop where
  kind : (st.file f).kind = .file
  readable : (st.file f).readable = true
  named : (st.file f).node = some n
  there : st.nodes[n]? = some node
  offset : (st.file f).offset = offset

/-- A call that reads at least one byte from an open file. -/
def readsThrough (s : System ρ) (f : Nat) : Action ρ → Option Nat
  | .read fd count _ => if count ≠ 0 ∧ s.entry fd = some (some f) then some count else none
  | _ => none

/-- A call that writes to a node. -/
def WritesNode (s : System ρ) (n : Nat) (action : Action ρ) : Prop :=
  ∃ fd f, ((∃ bytes, action = .write fd bytes) ∨ ∃ iov, action = .writev fd iov) ∧
    s.entry fd = some (some f) ∧ (s.store.file f).kind = .file ∧ (s.store.file f).node = some n

/-- The bytes that a `read` took through an open file. -/
def Event.taken (e : Event ρ) (f : Nat) : List UInt8 :=
  match e.answer with
  | .data bytes => if (e.before.readsThrough f e.action).isSome then bytes else []
  | _ => []

namespace Reads

variable {st st' : Store} {offset : Nat}

theorem inside (h : Reads st f n node offset) : f < st.files.length :=
  Store.lt_of_kind (by simp [h.kind])

theorem unmoved (h : Reads st f n node offset) (same : st.Unmoved st') :
    Reads st' f n node offset := by
  have file := same.file f h.inside
  exact ⟨file ▸ h.kind, file ▸ h.readable, file ▸ h.named, same.nodes ▸ h.there, file ▸ h.offset⟩

theorem of_file (h : Reads st f n node offset) (file : st'.file f = st.file f)
    (there : st'.nodes[n]? = st.nodes[n]?) : Reads st' f n node offset :=
  ⟨file ▸ h.kind, file ▸ h.readable, file ▸ h.named, there ▸ h.there, file ▸ h.offset⟩

theorem advance (h : Reads st f n node offset) (k : Nat) :
    Reads (st.advance f k) f n node (offset + k) := by
  have file := Store.file_advance (n := k) h.inside
  refine ⟨file ▸ h.kind, file ▸ h.readable, file ▸ h.named, h.there, ?_⟩
  rw [file, ← h.offset]

end Reads

theorem writeTo_cases {st st' : Store} {g : Nat} {bytes : List UInt8} {mv : Bool}
    {r : Except Nat Nat} (run : writeTo p st g bytes mv = .ok (r, st')) :
    st'.files = st.files ∧ st'.nodes = st.nodes ∨
      (st.file g).kind = .file ∧ ∃ m node' k, (st.file g).node = some m ∧
        st'.files = (st.advance g k).files ∧ st'.nodes = st.nodes.set m node' := by
  unfold writeTo at run
  simp only at run
  split at run
  case h_2 kind =>
    split at run
    · cases run
    · rename_i m node' found
      obtain ⟨m', named, same⟩ := Option.bind_eq_some_iff.mp found
      obtain ⟨_, -, pair⟩ := Option.map_eq_some_iff.mp same
      obtain rfl := (Prod.mk.inj pair).1
      obtain ⟨written, -, run⟩ := bind_eq_ok.mp run
      split at run
      · obtain ⟨-, rfl⟩ := Prod.mk.inj (Except.ok.inj run)
        exact .inl ⟨rfl, rfl⟩
      · obtain ⟨-, rfl⟩ := Prod.mk.inj (Except.ok.inj run)
        have inside : g < st.files.length := Store.lt_of_kind (by simp [kind])
        split
        · exact .inr ⟨kind, m', _, 0, named, by rw [Store.advance_zero inside], rfl⟩
        · exact .inr ⟨kind, m', _, _, named, rfl, rfl⟩
  case h_6 =>
    split at run
    · cases run
    · split at run <;>
      · obtain ⟨-, rfl⟩ := Prod.mk.inj (Except.ok.inj run)
        exact .inl ⟨rfl, rfl⟩
  all_goals
    obtain ⟨-, rfl⟩ := Prod.mk.inj (Except.ok.inj run)
    exact .inl ⟨rfl, rfl⟩

namespace Reads

variable {st st' : Store} {offset : Nat}

/-- A write to something else, which is still something else afterwards. -/
theorem writeTo {g : Nat} {bytes : List UInt8} {mv : Bool} {r : Except Nat Nat}
    (h : Reads st f n node offset) (run : writeTo p st g bytes mv = .ok (r, st'))
    (other : ¬ ((st.file g).kind = .file ∧ (st.file g).node = some n)) :
    Reads st' f n node offset ∧ ¬ ((st'.file g).kind = .file ∧ (st'.file g).node = some n) := by
  have apart : g ≠ f := by
    rintro rfl
    exact other ⟨h.kind, h.named⟩
  rcases writeTo_cases run with ⟨files, nodes⟩ | ⟨kind, m, node', k, named, files, nodes⟩
  · have same (i : Nat) : st'.file i = st.file i := by rw [Store.file, files, Store.file]
    exact ⟨h.of_file (same f) (by rw [nodes]), by rwa [same g]⟩
  · have same (i : Nat) : st'.file i = (st.advance g k).file i := by
      rw [Store.file, files, Store.file]
    have differs : m ≠ n := by
      rintro rfl
      exact other ⟨kind, named⟩
    refine ⟨h.of_file ?_ (by rw [nodes, List.getElem?_set_ne differs]), ?_⟩
    · rw [same f, Store.file_advance_ne apart]
    · rw [same g, Store.file_advance (Store.lt_of_kind (by simp [kind]))]
      exact other

theorem writeAll {g : Nat} {iov : List (List UInt8)} {total : Nat} {r : Except Nat Nat}
    (h : Reads st f n node offset) (run : writeAll p g iov total st = .ok (r, st'))
    (other : ¬ ((st.file g).kind = .file ∧ (st.file g).node = some n)) :
    Reads st' f n node offset := by
  induction iov generalizing total st with
  | nil =>
    obtain ⟨-, rfl⟩ := Prod.mk.inj (Except.ok.inj run)
    exact h
  | cons bytes iov ih =>
    rw [System.writeAll] at run
    split at run
    · exact ih h run other
    · obtain ⟨⟨r, next⟩, first, run⟩ := bind_eq_ok.mp run
      obtain ⟨h, other⟩ := h.writeTo first other
      cases r with
      | error errno =>
        obtain ⟨-, rfl⟩ := Prod.mk.inj (Except.ok.inj run)
        exact h
      | ok n => exact ih h run other

theorem readRound {q count : Nat} (h : Reads s.store f n node offset)
    (out : s.readRound q count = (answer, s')) : Reads s'.store f n node offset := by
  rcases readRound_cases out with ⟨sched, -, -, rfl⟩ | ⟨-, same, -⟩
  · exact h.of_file (Store.file_setPipe ..) rfl
  · rwa [same]

end Reads

/-- A read of at least one byte delivers what comes next in the file. -/
theorem Reads.read {fd count offset : Nat} {input : List UInt8} (h : Reads s.store f n node offset)
    (entry : s.entry fd = some (some f)) (positive : count ≠ 0) :
    s.read fd count input = .ok (.data (node.read offset count),
      { s with store := s.store.advance f (node.read offset count).length }) := by
  simp only [System.read, if_neg positive, entry, h.kind, h.readable, readFrom, h.named, Option.bind_some,
    h.there, h.offset]
  rfl

theorem Reads.read_ne {fd count offset : Nat} {input : List UInt8} (h : Reads s.store f n node offset)
    (run : s.read fd count input = .ok (answer, s'))
    (other : count = 0 ∨ s.entry fd ≠ some (some f)) : Reads s'.store f n node offset := by
  unfold System.read at run
  repeat' split at run
  all_goals try (obtain ⟨-, rfl⟩ := Prod.mk.inj (Except.ok.inj run); exact h)
  rename_i positive _ g entry _ _
  have apart : g ≠ f := by
    rintro rfl
    exact other.elim positive fun no => no entry
  unfold readFrom at run
  repeat' split at run
  all_goals try (obtain ⟨-, rfl⟩ := Prod.mk.inj (Except.ok.inj run); exact h)
  all_goals first
    | (cases run; done)
    | (obtain ⟨-, rfl⟩ := Prod.mk.inj (Except.ok.inj run)
       exact h.of_file (Store.file_advance_ne apart _) rfl)
    | exact h.readRound (Except.ok.inj run)

/-- What a transition takes through the open file is what comes next, and the offset moves past it. -/
theorem Step.reads_on {offset : Nat} (step : Step p s action answer s')
    (h : Reads s.store f n node offset) (unwritten : ¬ s.WritesNode n action) :
    Reads s'.store f n node (offset + (Event.taken ⟨s, action, answer⟩ f).length) ∧
      match s.readsThrough f action with
      | some count => answer = .data (node.read offset count)
      | none => Event.taken ⟨s, action, answer⟩ f = [] := by
  have idle (nothing : s.readsThrough f action = none) (same : Reads s'.store f n node offset) :
      Reads s'.store f n node (offset + (Event.taken ⟨s, action, answer⟩ f).length) ∧
        match s.readsThrough f action with
        | some count => answer = .data (node.read offset count)
        | none => Event.taken ⟨s, action, answer⟩ f = [] := by
    have none : Event.taken ⟨s, action, answer⟩ f = [] := by
      unfold Event.taken
      split <;> simp [nothing]
    rw [nothing, none]
    exact ⟨same, rfl⟩
  by_cases quiet : s.MovesBytes action
  case neg =>
    refine idle ?_ (h.unmoved (step.frame Store.unmoved_frames quiet))
    cases action <;> first | rfl | exact absurd trivial quiet
  obtain ⟨-, run⟩ := step
  cases action with
  | resume =>
    obtain ⟨q, count, context⟩ := quiet
    have out := Except.ok.inj run
    rw [resume, context] at out
    exact idle rfl (h.readRound out)
  | read fd count input =>
    by_cases mine : count ≠ 0 ∧ s.entry fd = some (some f)
    · have through : s.readsThrough f (.read fd count input) = some count := if_pos mine
      obtain ⟨rfl, rfl⟩ := Prod.mk.inj (Except.ok.inj ((h.read mine.2 mine.1).symm.trans run))
      rw [through]
      refine ⟨?_, rfl⟩
      simpa [Event.taken, through] using h.advance (node.read offset count).length
    · have elsewhere : count = 0 ∨ s.entry fd ≠ some (some f) := by tauto
      exact idle (if_neg mine) (h.read_ne run elsewhere)
  | write fd bytes =>
    refine idle rfl ?_
    have run : s.write p fd bytes = .ok (answer, s') := run
    unfold write at run
    repeat' split at run
    all_goals try (obtain ⟨-, rfl⟩ := Prod.mk.inj (Except.ok.inj run); exact h)
    rename_i g entry _
    obtain ⟨⟨r, store⟩, written, out⟩ := bind_eq_ok.mp run
    obtain ⟨-, rfl⟩ := Prod.mk.inj (Except.ok.inj out)
    exact (h.writeTo written fun same => unwritten ⟨fd, g, .inl ⟨_, rfl⟩, entry, same⟩).1
  | writev fd iov =>
    refine idle rfl ?_
    have run : s.writev p fd iov = .ok (answer, s') := run
    unfold writev at run
    repeat' split at run
    all_goals try (obtain ⟨-, rfl⟩ := Prod.mk.inj (Except.ok.inj run); exact h)
    rename_i g entry _
    obtain ⟨⟨r, store⟩, written, out⟩ := bind_eq_ok.mp run
    obtain ⟨-, rfl⟩ := Prod.mk.inj (Except.ok.inj out)
    exact h.writeAll written fun same => unwritten ⟨fd, g, .inr ⟨_, rfl⟩, entry, same⟩
  | _ => exact absurd quiet id

theorem Step.taken_prefix {offset : Nat} (step : Step p s action answer s')
    (h : Reads s.store f n node offset) (unwritten : ¬ s.WritesNode n action) :
    Event.taken ⟨s, action, answer⟩ f <+: node.data.drop offset := by
  obtain ⟨-, next⟩ := step.reads_on h unwritten
  cases through : s.readsThrough f action with
  | none =>
    rw [through] at next
    exact next ▸ List.nil_prefix
  | some count =>
    rw [through] at next
    obtain rfl : answer = .data (node.read offset count) := next
    simp only [Event.taken, through, Option.isSome_some, if_true]
    exact List.take_prefix ..

/-- Whoever reads in whatever pieces, the bytes delivered so far are the front of the file, and the
offset is their number. -/
theorem reads_of_trace {s₀ : System ρ} {events : List (Event ρ)}
    (opened : Reads s₀.store f n node 0) (trace : Trace (Occurs p) s₀ events s)
    (unwritten : ∀ e ∈ events, ¬ e.before.WritesNode n e.action) :
    ∃ offset ≤ node.data.length, Reads s.store f n node offset ∧
      events.flatMap (Event.taken · f) = node.data.take offset := by
  induction trace with
  | nil => exact ⟨0, Nat.zero_le _, opened, by simp⟩
  | @snoc events event s s' run last ih =>
    obtain ⟨offset, bounded, reads, front⟩ :=
      ih fun e before => unwritten e (List.mem_append_left _ before)
    obtain ⟨rfl, step⟩ := last
    have untouched := unwritten event (List.mem_append_right _ List.mem_cons_self)
    have reads' : Reads s'.store f n node (offset + (event.taken f).length) :=
      (step.reads_on reads untouched).1
    have taken : event.taken f <+: node.data.drop offset := step.taken_prefix reads untouched
    have length := taken.length_le
    rw [List.length_drop] at length
    refine ⟨_, by omega, reads', ?_⟩
    rw [List.flatMap_append, front, List.take_add, List.flatMap_singleton,
      ← List.prefix_iff_eq_take.mp taken]

theorem readsThrough_pos {count : Nat} (h : s.readsThrough f action = some count) : count ≠ 0 := by
  cases action with
  | read fd count' input =>
    rw [readsThrough] at h
    split at h
    · rename_i asked
      exact Option.some.inj h ▸ asked.1
    · cases h
  | _ => cases h

/-- A file holds the overlay of what was written to it. Read from the start in any pieces, by any
holders of the open file, it is delivered in order, and a read comes back empty just when all of it has
been. -/
theorem file_delivered (p : Profile) (writes : List (Nat × List UInt8))
    (fit : ∀ w ∈ writes, w.1 + w.2.length < 2 ^ 64) :
    ∃ node, Node.writeMany p writes ⟨[], false⟩ = .ok (.ok node) ∧
      node.data = (List.range (Node.extent writes)).map (Node.overlay writes) ∧
      ∀ (s₀ s : System ρ) (events : List (Event ρ)) (f n : Nat), Reads s₀.store f n node 0 →
        Trace (Occurs p) s₀ events s → (∀ e ∈ events, ¬ e.before.WritesNode n e.action) →
        events.flatMap (Event.taken · f) <+: node.data ∧
        ∀ action answer s' count, Step p s action answer s' → s.readsThrough f action = some count →
          ∃ bytes, answer = .data bytes ∧ bytes.length ≤ count ∧
            (bytes = [] ↔ events.flatMap (Event.taken · f) = node.data) := by
  refine ⟨_, Node.writeMany_ok p fit [], Node.spliceMany_eq writes, ?_⟩
  intro s₀ s events f n opened trace unwritten
  obtain ⟨offset, bounded, reads, front⟩ := reads_of_trace opened trace unwritten
  refine ⟨front ▸ List.take_prefix .., fun action answer s' count step through => ?_⟩
  have unwritten' : ¬ s.WritesNode n action := by
    rintro ⟨fd, g, ⟨bytes, rfl⟩ | ⟨iov, rfl⟩, -⟩ <;> cases through
  have next := (step.reads_on reads unwritten').2
  rw [through] at next
  have positive := readsThrough_pos through
  refine ⟨_, next, List.length_take_le .., ?_⟩
  have done : (Node.spliceMany [] writes).take offset = Node.spliceMany [] writes ↔
      (Node.spliceMany [] writes).length ≤ offset := List.take_eq_self_iff _
  rw [front, done, Node.read, List.take_eq_nil_iff, List.drop_eq_nil_iff]
  exact or_iff_right positive

/-- Two writes with a hole between them, read through a descriptor and its duplicate. -/
theorem file_delivered_to_two : ∃ (s₀ s : System Unit) (events : List (Event Unit)),
    Trace (Occurs .dev) s₀ events s ∧
    events.map Event.action = [.dup 3, .read 3 2 [], .read 4 1 [], .read 3 5 []] ∧
    events.flatMap (Event.taken · 3) = [1, 2, 0, 7] ∧
    ∀ answer s', Step .dev s (.read 4 9 []) answer s' → answer = .data [] := by
  have evaluates : ∃ s₀ s₁ s₂ s₃ s₄ : System Unit,
      (bootedWith [1, 2, 0, 7]).run .dev [.timer, .open (.file 0 true false false)] = .ok s₀ ∧
      Occurs .dev s₀ ⟨s₀, .dup 3, .ret 4⟩ s₁ ∧
      Occurs .dev s₁ ⟨s₁, .read 3 2 [], .data [1, 2]⟩ s₂ ∧
      Occurs .dev s₂ ⟨s₂, .read 4 1 [], .data [0]⟩ s₃ ∧
      Occurs .dev s₃ ⟨s₃, .read 3 5 [], .data [7]⟩ s₄ ∧
      s₀.store.file 3 = .file 0 true false false ∧ s₀.store.nodes = [⟨[1, 2, 0, 7], false⟩] ∧
      s₁.entry 3 = some (some 3) ∧ s₂.entry 4 = some (some 3) ∧ s₃.entry 3 = some (some 3) ∧
      s₄.entry 4 = some (some 3) :=
    ⟨_, _, _, _, _, rfl, ⟨rfl, by decide +kernel, rfl⟩, ⟨rfl, by decide +kernel, rfl⟩,
      ⟨rfl, by decide +kernel, rfl⟩, ⟨rfl, by decide +kernel, rfl⟩, by decide +kernel,
      by decide +kernel, by decide +kernel, by decide +kernel, by decide +kernel, by decide +kernel⟩
  obtain ⟨s₀, s₁, s₂, s₃, s₄, -, dup, first, second, third, file, nodes, e₁, e₂, e₃, e₄⟩ := evaluates
  have trace := Trace.snoc (.snoc (.snoc (.snoc .nil dup) first) second) third
  have taken : ([⟨s₀, .dup 3, .ret 4⟩, ⟨s₁, .read 3 2 [], .data [1, 2]⟩,
      ⟨s₂, .read 4 1 [], .data [0]⟩, ⟨s₃, .read 3 5 [], .data [7]⟩] : List (Event Unit)).flatMap
        (Event.taken · 3) = [1, 2, 0, 7] := by
    simp [Event.taken, readsThrough, e₁, e₂, e₃]
  refine ⟨s₀, s₄, _, trace, rfl, taken, fun answer s' step => ?_⟩
  obtain ⟨node, made, data, delivered⟩ :=
    file_delivered (ρ := Unit) .dev [(3, [7]), (0, [1, 2])] (by decide)
  obtain rfl : node = ⟨[1, 2, 0, 7], false⟩ := by
    have run : Node.writeMany .dev [(3, [7]), (0, [1, 2])] ⟨[], false⟩ =
        .ok (.ok ⟨[1, 2, 0, 7], false⟩) := by decide +kernel
    rw [run] at made
    cases made
    rfl
  have opened : Reads s₀.store 3 0 ⟨[1, 2, 0, 7], false⟩ 0 :=
    ⟨by rw [file]; rfl, by rw [file]; rfl, by rw [file]; rfl, by rw [nodes]; rfl, by rw [file]; rfl⟩
  obtain ⟨-, last⟩ := delivered s₀ s₄ _ 3 0 opened trace (by
    rintro e among ⟨fd, g, writes, -⟩
    simp only [List.nil_append, List.cons_append, List.mem_cons, List.not_mem_nil, or_false] at among
    rcases among with rfl | rfl | rfl | rfl <;>
      rcases writes with ⟨_, same⟩ | ⟨_, same⟩ <;> cases same)
  obtain ⟨bytes, rfl, -, empty⟩ := last _ answer s' 9 step (if_pos ⟨by decide, e₄⟩)
  rw [empty.mpr taken]

end System
end Ferrum
