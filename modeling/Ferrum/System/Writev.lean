import Ferrum.Fd.Contents
import Ferrum.System.Stream

/-!
# `writev` and `write`

`writev` repeats the logic of `write` for each buffer. The two agree on the concatenation of the buffers
for every kind of descriptor, with one exception: `write` moves the offset of a file that it appends to,
`writev` does not.
-/
namespace Ferrum

namespace Store

variable {st : Store} {f g n m : Nat}

theorem file_advance (inside : f < st.files.length) :
    (st.advance f n).file f = { st.file f with offset := (st.file f).offset + n } := by
  simp [file, advance, inside]

theorem advance_advance (inside : f < st.files.length) :
    (st.advance f n).advance f m = st.advance f (n + m) := by
  rw [advance, file_advance inside, advance, advance]
  simp only [List.set_set, Nat.add_assoc]

theorem advance_zero (inside : f < st.files.length) : st.advance f 0 = st := by
  have same : st.file f = st.files[f] := by simp [file, inside]
  rw [advance, same]
  exact congrArg (fun files => { st with files }) (List.set_getElem_self inside)

theorem lt_of_kind (kind : (st.file f).kind ≠ .serial) : f < st.files.length := by
  by_contra outside
  have absent := List.getElem?_eq_none (Nat.le_of_not_lt outside)
  exact kind (by simp [file, absent, OpenFile.stdin])

end Store

namespace System

variable {ρ : Type} {p : Profile} {st st' : Store} {f n : Nat} {node : Node} {bytes a b : List UInt8}
  {mv : Bool}

/-- Where the next write to a file begins. -/
def startOf (desc : OpenFile) (node : Node) : Nat :=
  if desc.append then node.data.length else desc.offset

/-- How far the offset of a file moves. -/
def moved (desc : OpenFile) (bytes : List UInt8) (mv : Bool) : Nat :=
  if desc.append && !mv then 0 else bytes.length

/-- The store after bytes have been written to a file. -/
def written (st : Store) (f n : Nat) (node : Node) (bytes : List UInt8) (mv : Bool) : Store :=
  { st.advance f (moved (st.file f) bytes mv) with
    nodes := st.nodes.set n { node with data := Node.splice node.data (startOf (st.file f) node) bytes } }

/-- An open file that leads to a node that can be written. -/
structure Backs (st : Store) (f n : Nat) (node : Node) : Prop where
  kind : (st.file f).kind = .file
  named : (st.file f).node = some n
  there : st.nodes[n]? = some node
  writable : node.readOnly = false

namespace Backs

theorem inside (h : Backs st f n node) : f < st.files.length := Store.lt_of_kind (by simp [h.kind])

theorem write_ok (h : Backs st f n node) (p : Profile) (mv : Bool)
    (fits : startOf (st.file f) node + bytes.length < 2 ^ 64) :
    writeTo p st f bytes mv = .ok (.ok bytes.length, written st f n node bytes mv) := by
  have run := Node.write_ok p h.writable fits
  rw [startOf] at run
  simp only [writeTo, h.kind, h.named, Option.bind_some, h.there, Option.map_some, run, ok_bind,
    pure_eq_ok, written, moved, startOf]
  split
  next => rw [Store.advance_zero h.inside]
  next => rfl

theorem write_past (h : Backs st f n node) (p : Profile) (mv : Bool)
    (start : startOf (st.file f) node < 2 ^ 64) (size : bytes.length < 2 ^ 64)
    (large : 2 ^ 64 ≤ startOf (st.file f) node + bytes.length) :
    writeTo p st f bytes mv = .error (Node.past p) := by
  have run := Node.write_past p h.writable start size large
  rw [startOf] at run
  simp only [writeTo, h.kind, h.named, Option.bind_some, h.there, Option.map_some, run, error_bind]

theorem file_written (h : Backs st f n node) (bytes : List UInt8) (mv : Bool) :
    (written st f n node bytes mv).file f =
      { st.file f with offset := (st.file f).offset + moved (st.file f) bytes mv } :=
  Store.file_advance h.inside

theorem after (h : Backs st f n node) (bytes : List UInt8) (mv : Bool) :
    Backs (written st f n node bytes mv) f n
      { node with data := Node.splice node.data (startOf (st.file f) node) bytes } := by
  have same := h.file_written bytes mv
  have inside : n < st.nodes.length := (List.getElem?_eq_some_iff.mp h.there).1
  exact ⟨same ▸ h.kind, same ▸ h.named, by simp [written, inside], h.writable⟩

theorem startOf_after (h : Backs st f n node) (bytes : List UInt8) :
    startOf ((written st f n node bytes false).file f)
        { node with data := Node.splice node.data (startOf (st.file f) node) bytes } =
      startOf (st.file f) node + bytes.length := by
  rw [h.file_written]
  cases append : (st.file f).append with
  | true => simp [startOf, append, Node.length_splice]
  | false => simp [startOf, moved, append]

/-- Two writes in a row leave the store that one write of both leaves. -/
theorem written_written (h : Backs st f n node) (a b : List UInt8) :
    written (written st f n node a false) f n
        { node with data := Node.splice node.data (startOf (st.file f) node) a } b false =
      written st f n node (a ++ b) false := by
  have starts := h.startOf_after a
  have far : moved (st.file f) a false + moved ((written st f n node a false).file f) b false =
      moved (st.file f) (a ++ b) false := by
    rw [h.file_written]
    cases append : (st.file f).append with
    | true => simp [moved, append]
    | false => simp [moved, append]
  have twice := Store.advance_advance (n := moved (st.file f) a false)
    (m := moved ((written st f n node a false).file f) b false) h.inside
  rw [far] at twice
  have files := congrArg Store.files twice
  rw [written, starts, Node.splice_append, written, Store.mk.injEq]
  exact ⟨files, rfl, List.set_set ..⟩

end Backs

/-- The sizes that a write works with are words of the machine. -/
structure Words (st : Store) (f size : Nat) : Prop where
  offset : (st.file f).offset < 2 ^ 64
  data : ∀ node ∈ st.nodes, node.data.length < 2 ^ 64
  size : size < 2 ^ 64

theorem Words.start (words : Words st f n) (there : node ∈ st.nodes) :
    startOf (st.file f) node < 2 ^ 64 := by
  rw [startOf]
  split
  · exact words.data node there
  · exact words.offset

theorem Words.after {size : Nat} (words : Words st f size) (h : Backs st f n node)
    (fits : startOf (st.file f) node + bytes.length < 2 ^ 64) {rest : Nat} (less : rest ≤ size) :
    Words (written st f n node bytes false) f rest := by
  refine ⟨?_, fun other there => ?_, by have := words.size; omega⟩
  · have offset := words.offset
    rw [h.file_written]
    cases append : (st.file f).append with
    | true => simpa [moved, append] using offset
    | false => simpa [moved, append, startOf] using fits
  · rcases List.mem_or_eq_of_mem_set there with old | new
    · exact words.data other old
    · have length := words.data node (List.mem_of_getElem? h.there)
      rw [new, Node.length_splice]
      omega

/-- The number of bytes that came before is added to the result of a write. -/
def plus (total : Nat) (r : Except Nat Nat × Store) : Except Nat Nat × Store :=
  (r.1.map (total + ·), r.2)

/-- One round of the loop of `writev`, and what follows it. -/
def thenDo (first : Except Stop (Except Nat Nat × Store))
    (next : Nat → Store → Except Stop (Except Nat Nat × Store)) :
    Except Stop (Except Nat Nat × Store) := do
  let (r, st) ← first
  match r with
  | .error errno => return (.error errno, st)
  | .ok n => next n st

theorem Backs.write_append {p : Profile} (h : Backs st f n node)
    (words : Words st f (a ++ b).length) :
    thenDo (writeTo p st f a false) (fun n st => plus n <$> writeTo p st f b false) =
      writeTo p st f (a ++ b) false := by
  have start := words.start (List.mem_of_getElem? h.there)
  have size := words.size
  have length : (a ++ b).length = a.length + b.length := List.length_append
  rcases Nat.lt_or_ge (startOf (st.file f) node + a.length) (2 ^ 64) with first | far
  · have later := h.startOf_after a
    rw [h.write_ok p false first, thenDo, ok_bind]
    rcases Nat.lt_or_ge (startOf (st.file f) node + (a ++ b).length) (2 ^ 64) with both | far
    · rw [h.write_ok p false both]
      simp only [(h.after a false).write_ok p false (show _ + b.length < _ by omega), map_ok, plus,
        Except.map, h.written_written, length]
    · rw [h.write_past p false start size far]
      simp only [(h.after a false).write_past p false (by omega) (by omega)
        (show _ ≤ _ + b.length by omega)]
      rfl
  · rw [h.write_past p false start (by omega) far, h.write_past p false start size (by omega)]
    rfl

/-- Either the open file is a file that can be written, or a write of any bytes ends the same way. -/
theorem backs_or (p : Profile) (kind : (st.file f).kind = .file) :
    (∃ n node, Backs st f n node) ∨
      (∀ bytes mv, writeTo p st f bytes mv = .error (.expect "File fd must have node")) ∨
      ∀ bytes mv, writeTo p st f bytes mv = .ok (.error EIO, st) := by
  cases found : (st.file f).node.bind fun n => st.nodes[n]?.map (n, ·) with
  | none =>
    refine Or.inr (Or.inl fun bytes mv => ?_)
    simp only [writeTo, kind, found]
  | some pair =>
    obtain ⟨n, named, there⟩ := Option.bind_eq_some_iff.mp found
    obtain ⟨node, there, same⟩ := Option.map_eq_some_iff.mp there
    cases refused : node.readOnly with
    | false => exact Or.inl ⟨n, node, kind, named, there, refused⟩
    | true =>
      refine Or.inr (Or.inr fun bytes mv => ?_)
      subst same
      simp only [writeTo, kind, found, Node.write_readOnly p refused, ok_bind, pure_eq_ok]

/-- Two buffers written one after the other are their concatenation written at once. -/
theorem writeTo_append (p : Profile) (words : Words st f (a ++ b).length) :
    thenDo (writeTo p st f a false) (fun n st => plus n <$> writeTo p st f b false) =
      writeTo p st f (a ++ b) false := by
  cases kind : (st.file f).kind with
  | serial => simp [thenDo, writeTo, kind, plus, Except.map]
  | directory => simp [thenDo, writeTo, kind]
  | devNull => simp [thenDo, writeTo, kind, plus, Except.map]
  | devZero => simp [thenDo, writeTo, kind, plus, Except.map]
  | file =>
    rcases backs_or p kind with ⟨n, node, backs⟩ | stops | refuses
    · exact backs.write_append words
    · rw [stops, stops]
      rfl
    · rw [refuses, refuses]
      rfl
  | pipe =>
    cases named : (st.file f).pipe with
    | none => simp [thenDo, writeTo, kind, named]
    | some q =>
      by_cases reader : (st.pipe q).readEnds = 0
      · simp [thenDo, writeTo, kind, named, reader]
      · by_cases inside : q < st.pipes.length
        · simp [thenDo, writeTo, kind, named, reader, Store.pipe_setPipe inside,
            Store.setPipe_setPipe, plus, Except.map]
        · have same (inner : PipeInner) : st.setPipe q inner = st := by
            simp [Store.setPipe, List.set_eq_of_length_le (Nat.le_of_not_lt inside)]
          simp [thenDo, writeTo, kind, named, reader, same, plus, Except.map]

theorem Words.next (words : Words st f (a ++ b).length)
    (first : writeTo p st f a false = .ok (.ok n, st')) : Words st' f b.length := by
  have less : b.length ≤ (a ++ b).length := by simp
  have same (files : st'.file f = st.file f) (nodes : st'.nodes = st.nodes) :
      Words st' f b.length :=
    ⟨files ▸ words.offset, nodes ▸ words.data, Nat.lt_of_le_of_lt less words.size⟩
  cases kind : (st.file f).kind with
  | file =>
    rcases backs_or p kind with ⟨k, node, backs⟩ | stops | refuses
    · have start := words.start (List.mem_of_getElem? backs.there)
      have size : a.length < 2 ^ 64 := by have := words.size; rw [List.length_append] at this; omega
      rcases Nat.lt_or_ge (startOf (st.file f) node + a.length) (2 ^ 64) with fits | far
      · rw [backs.write_ok p false fits] at first
        cases first
        exact words.after backs fits less
      · rw [backs.write_past p false start size far] at first
        cases first
    · rw [stops] at first
      cases first
    · rw [refuses] at first
      cases first
  | pipe =>
    cases named : (st.file f).pipe with
    | none => simp [writeTo, kind, named] at first
    | some q =>
      simp only [writeTo, kind, named] at first
      split at first
      · cases first
      · cases first
        exact same (Store.file_setPipe ..) rfl
  | serial | directory | devNull | devZero =>
    simp only [writeTo, kind, Except.ok.injEq, Prod.mk.injEq] at first
    all_goals exact same (by rw [← first.2]) (by rw [← first.2])

theorem writeTo_length {n : Nat} {mv : Bool} {st' : Store}
    (run : writeTo p st f bytes mv = .ok (.ok n, st')) : n = bytes.length := by
  unfold writeTo at run
  dsimp only at run
  split at run
  case h_2 =>
    split at run
    · cases run
    · obtain ⟨written, -, run⟩ := bind_eq_ok.mp run
      cases written <;> cases run
      rfl
  case h_6 =>
    split at run
    · cases run
    · split at run <;> cases run
      rfl
  all_goals
    cases run
  all_goals rfl

/-- The count, a `usize` in the source, is the number of bytes: no sum in the loop is larger. -/
theorem writeAll_total {iov : List (List UInt8)} {total n : Nat} {st' : Store}
    (run : writeAll p f iov total st = .ok (.ok n, st')) : n = total + iov.flatten.length := by
  induction iov generalizing total st with
  | nil =>
    cases run
    rfl
  | cons bytes iov ih =>
    rw [List.flatten_cons, List.length_append]
    rw [writeAll] at run
    split at run
    · rename_i nothing
      rw [nothing, ih run, List.length_nil, Nat.zero_add]
    · obtain ⟨⟨r, st₁⟩, first, run⟩ := bind_eq_ok.mp run
      cases r with
      | error e => cases run
      | ok k => rw [ih run, writeTo_length first, Nat.add_assoc]

theorem writeAll_cons (p : Profile) (f total : Nat) (iov : List (List UInt8)) (st : Store)
    (nonempty : bytes ≠ []) : writeAll p f (bytes :: iov) total st =
      thenDo (writeTo p st f bytes false) fun n st => writeAll p f iov (total + n) st := by
  rw [writeAll, if_neg nonempty]
  rfl

theorem writeAll_empty {iov : List (List UInt8)} (empty : iov.flatten = []) (p : Profile)
    (f total : Nat) (st : Store) : writeAll p f iov total st = .ok (.ok total, st) := by
  induction iov with
  | nil => rfl
  | cons bytes iov ih =>
    obtain ⟨nothing, rest⟩ : bytes = [] ∧ iov.flatten = [] := by simpa using empty
    rw [writeAll, if_pos nothing, ih rest]

theorem writeAll_eq {iov : List (List UInt8)} (nonempty : iov.flatten ≠ [])
    (words : Words st f iov.flatten.length) (p : Profile) (total : Nat) :
    writeAll p f iov total st = plus total <$> writeTo p st f iov.flatten false := by
  induction iov generalizing total st with
  | nil => exact absurd rfl nonempty
  | cons bytes iov ih =>
    rw [List.flatten_cons] at words nonempty ⊢
    by_cases nothing : bytes = []
    · subst nothing
      rw [writeAll, if_pos rfl]
      exact ih nonempty words total
    · rw [writeAll_cons p f total iov st nothing]
      by_cases last : iov.flatten = []
      · simp only [writeAll_empty last, last, List.append_nil]
        cases run : writeTo p st f bytes false with
        | error => rfl
        | ok out => obtain ⟨_ | _, _⟩ := out <;> rfl
      · rw [← writeTo_append p words]
        cases run : writeTo p st f bytes false with
        | error => rfl
        | ok out =>
          obtain ⟨r, next⟩ := out
          cases r with
          | error => rfl
          | ok n =>
            simp only [thenDo, ok_bind, ih last (words.next run)]
            cases writeTo p next f iov.flatten false with
            | error => rfl
            | ok out => obtain ⟨_ | _, _⟩ := out <;> simp [plus, Except.map, Nat.add_assoc]

/-- A write through this open file is an append that succeeds. -/
def Appends (st : Store) (f size : Nat) : Prop :=
  ∃ n node, Backs st f n node ∧ (st.file f).append = true ∧ node.data.length + size < 2 ^ 64

theorem writeTo_false_eq_true (p : Profile) (words : Words st f bytes.length)
    (never : ¬ Appends st f bytes.length) :
    writeTo p st f bytes false = writeTo p st f bytes true := by
  by_cases kind : (st.file f).kind = .file
  · rcases backs_or p kind with ⟨n, node, backs⟩ | stops | refuses
    · have start := words.start (List.mem_of_getElem? backs.there)
      rcases Nat.lt_or_ge (startOf (st.file f) node + bytes.length) (2 ^ 64) with fits | far
      · rw [backs.write_ok p false fits, backs.write_ok p true fits]
        cases append : (st.file f).append with
        | false => simp [written, moved, append]
        | true =>
          rw [startOf, if_pos append] at fits
          exact absurd ⟨n, node, backs, append, fits⟩ never
      · rw [backs.write_past p false start words.size far,
          backs.write_past p true start words.size far]
    · rw [stops, stops]
    · rw [refuses, refuses]
  · simp only [writeTo]
    split <;> first | rfl | contradiction

/-- An append shows whether the offset moves with it, and nothing else does. -/
theorem Appends.writeTo (p : Profile) (h : Appends st f bytes.length) :
    ∃ st₁ st₂, System.writeTo p st f bytes false = .ok (.ok bytes.length, st₁) ∧
      System.writeTo p st f bytes true = .ok (.ok bytes.length, st₂) ∧
      (st₁.file f).offset = (st.file f).offset ∧
      (st₂.file f).offset = (st.file f).offset + bytes.length ∧
      st₁.pipes = st₂.pipes ∧ st₁.nodes = st₂.nodes := by
  obtain ⟨n, node, backs, append, fits⟩ := h
  have fits : startOf (st.file f) node + bytes.length < 2 ^ 64 := by rwa [startOf, if_pos append]
  refine ⟨_, _, backs.write_ok p false fits, backs.write_ok p true fits, ?_, ?_, rfl, rfl⟩
  · rw [backs.file_written]
    simp [moved, append]
  · rw [backs.file_written]
    simp [moved]

/-! ## The two calls -/

/-- The answer of a call, the pipes and the contents of the files that it leaves. -/
def effect (out : Answer ρ × System ρ) : Answer ρ × List PipeInner × List Node :=
  (out.1, out.2.store.pipes, out.2.store.nodes)

/-- The offset behind a descriptor. -/
def offsetAt (s : System ρ) (fd : Nat) : Option Nat :=
  (s.entry fd).join.map fun f => (s.store.file f).offset

/-- The end of `write` and of `writev`. -/
def finish (s : System ρ) (r : Except Nat Nat × Store) : Answer ρ × System ρ :=
  (match r.1 with
    | .ok n => .ret n
    | .error errno => .err errno, { s with store := r.2 })

/-- A write through this descriptor is an append that succeeds. -/
def AppendsAt (s : System ρ) (fd size : Nat) : Prop :=
  ∃ f, s.entry fd = some (some f) ∧ (s.store.file f).writable = true ∧ Appends s.store f size

theorem write_eq {s : System ρ} {fd : Nat} (entry : s.entry fd = some (some f))
    (writable : (s.store.file f).writable = true) (p : Profile) (nonempty : bytes ≠ []) :
    s.write p fd bytes = finish s <$> writeTo p s.store f bytes true := by
  simp only [write, entry, if_neg nonempty, writable]
  cases writeTo p s.store f bytes true <;> rfl

theorem writev_eq {s : System ρ} {fd : Nat} (entry : s.entry fd = some (some f))
    (writable : (s.store.file f).writable = true) (p : Profile) {iov : List (List UInt8)}
    (nonempty : iov.flatten ≠ []) (words : Words s.store f iov.flatten.length) :
    s.writev p fd iov = finish s <$> writeTo p s.store f iov.flatten false := by
  simp only [writev, entry, writable, writeAll_eq nonempty words p 0]
  cases writeTo p s.store f iov.flatten false with
  | error => rfl
  | ok out => obtain ⟨_ | _, _⟩ := out <;> simp [plus, finish, Except.map]

/-- `writev` of some bytes is `write` of all of them, unless it appends them: then it returns the same
and leaves the same contents, but the offset stays behind. -/
theorem writev_eq_write_iff (p : Profile) (s : System ρ) (fd : Nat) (iov : List (List UInt8))
    (nonempty : iov.flatten ≠ [])
    (words : ∀ f, s.entry fd = some (some f) → Words s.store f iov.flatten.length) :
    (s.writev p fd iov = s.write p fd iov.flatten ↔ ¬ s.AppendsAt fd iov.flatten.length) ∧
    effect <$> s.writev p fd iov = effect <$> s.write p fd iov.flatten := by
  have agree (eq : s.writev p fd iov = s.write p fd iov.flatten)
      (never : ¬ s.AppendsAt fd iov.flatten.length) :
      (s.writev p fd iov = s.write p fd iov.flatten ↔ ¬ s.AppendsAt fd iov.flatten.length) ∧
        effect <$> s.writev p fd iov = effect <$> s.write p fd iov.flatten :=
    ⟨iff_of_true eq never, by rw [eq]⟩
  rcases entry : s.entry fd with _ | _ | f
  · refine agree ?_ fun ⟨_, here, _⟩ => by simp [entry] at here
    simp only [writev, write, entry, if_neg nonempty]
  · refine agree ?_ fun ⟨_, here, _⟩ => by simp [entry] at here
    simp only [writev, write, entry, if_neg nonempty]
  · have words := words f entry
    have only {g : Nat} (here : s.entry fd = some (some g)) : f = g := by
      rw [entry] at here
      cases here
      rfl
    cases writable : (s.store.file f).writable with
    | false =>
      refine agree ?_ ?_
      · simp only [writev, write, entry, if_neg nonempty, writable]
        rfl
      · rintro ⟨g, here, writable', -⟩
        rw [← only here, writable] at writable'
        cases writable'
    | true =>
      have wrote := write_eq entry writable p nonempty
      have wrotev := writev_eq entry writable p nonempty words
      by_cases appends : Appends s.store f iov.flatten.length
      · obtain ⟨st₁, st₂, run₁, run₂, stays, moves, pipes, nodes⟩ := appends.writeTo p
        rw [wrote, wrotev, run₁, run₂]
        refine ⟨iff_of_false ?_ ?_, ?_⟩
        · intro same
          injection same with same
          have stores : st₁ = st₂ := congrArg (fun out => out.2.store) same
          have length := List.length_pos_iff.mpr nonempty
          rw [stores] at stays
          omega
        · exact not_not_intro ⟨f, entry, writable, appends⟩
        · simp [finish, effect, pipes, nodes]
      · refine agree ?_ ?_
        · rw [wrote, wrotev, writeTo_false_eq_true p words appends]
        · rintro ⟨g, here, -, appends'⟩
          exact appends (only here ▸ appends')

/-- The init process before its first turn, and a file with these bytes. -/
def bootedWith (data : List UInt8) : System Unit :=
  { booted with store := { booted.store with nodes := [⟨data, false⟩] } }

theorem bootedWith_initial (data : List UInt8) : Initial (bootedWith data) :=
  ⟨⟨initProcess .ready, rfl, rfl, rfl, rfl, rfl, Nat.zero_lt_one, rfl⟩, rfl, rfl⟩

/-- An empty file is opened for appending: after `write` the offset is two, after `writev` it is still
zero. -/
theorem writev_leaves_offset : ∃ s : System Unit,
    Reachable Initial (fun s s' => ∃ action answer, Step .dev s action answer s') s ∧
    ∃ s₁ s₂, s.write .dev 3 [97, 98] = .ok (.ret 2, s₁) ∧
      s.writev .dev 3 [[97], [98]] = .ok (.ret 2, s₂) ∧
      s₁.offsetAt 3 = some 2 ∧ s₂.offsetAt 3 = some 0 := by
  have evaluates : ∃ s, (bootedWith []).run .dev [.timer, .open (.file 0 true true true)] = .ok s ∧
      ∃ s₁ s₂, s.write .dev 3 [97, 98] = .ok (.ret 2, s₁) ∧
        s.writev .dev 3 [[97], [98]] = .ok (.ret 2, s₂) ∧
        s₁.offsetAt 3 = some 2 ∧ s₂.offsetAt 3 = some 0 :=
    ⟨_, rfl, _, _, rfl, rfl, by decide +kernel, by decide +kernel⟩
  obtain ⟨s, run, facts⟩ := evaluates
  exact ⟨s, reachable_run (fun _ _ _ _ _ step => ⟨_, _, step⟩) (.start (bootedWith_initial [])) run,
    facts⟩

/-- Three buffers, one of them empty, written over a file. -/
theorem writev_over_file : ∃ s : System Unit,
    s.writev .dev 3 [[97], [], [98, 99]] = s.write .dev 3 [97, 98, 99] ∧
    ∃ s', s.write .dev 3 [97, 98, 99] = .ok (.ret 3, s') ∧ s'.store.nodes = [⟨[97, 98, 99, 4], false⟩] := by
  have evaluates : ∃ s, (bootedWith [1, 2, 3, 4]).run .dev
        [.timer, .open (.file 0 true true false)] = .ok s ∧
      s.entry 3 = some (some 3) ∧ s.store.nodes = [⟨[1, 2, 3, 4], false⟩] ∧
      s.store.file 3 = .file 0 true true false ∧
      ∃ s', s.write .dev 3 [97, 98, 99] = .ok (.ret 3, s') ∧
        s'.store.nodes = [⟨[97, 98, 99, 4], false⟩] :=
    ⟨_, rfl, by decide +kernel, by decide +kernel, by decide +kernel, _, rfl, by decide +kernel⟩
  obtain ⟨s, run, entry, nodes, file, wrote⟩ := evaluates
  refine ⟨s, ?_, wrote⟩
  have words (f : Nat) (here : s.entry 3 = some (some f)) : Words s.store f 3 := by
    rw [entry] at here
    cases here
    exact ⟨by rw [file]; decide, by rw [nodes]; decide, by decide⟩
  refine (writev_eq_write_iff .dev s 3 [[97], [], [98, 99]] (by decide) words).1.mpr ?_
  rintro ⟨f, here, -, n, node, -, append, -⟩
  rw [entry] at here
  cases here
  rw [file] at append
  cases append

end System
end Ferrum
