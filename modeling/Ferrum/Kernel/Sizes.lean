import Ferrum.Heap.Ceiling
import Ferrum.Kernel.Exec
import Ferrum.System.Writev

/-!
# Sizes and offsets from user programs

`lseek` stores any offset that is not negative, `write` extends the file up to it, pipes have no limit
and `getrandom` takes a length. Here these calls run with the capacities of the buffers behind them, so
that an addition that overflows and a request that the heap cannot serve are visible. A run of calls
goes through exactly if none of its calls needs either.
-/
namespace Ferrum

def EINVAL : Nat := 22

/-! ## Signed words -/

/-- `n as i64`. -/
def asI64 (n : Nat) : Int := Int.bmod n (2 ^ 64)

def InI64 (x : Int) : Prop := -2 ^ 63 ≤ x ∧ x < 2 ^ 63

instance (x : Int) : Decidable (InI64 x) := inferInstanceAs (Decidable (_ ∧ _))

def Profile.addI64 : Profile → Int → Int → Except Stop Int
  | .dev, a, b => if InI64 (a + b) then .ok (a + b) else .error .overflow
  | .release, a, b => .ok (Int.bmod (a + b) (2 ^ 64))

theorem inI64_bmod (x : Int) : InI64 (Int.bmod x (2 ^ 64)) := by
  have low := Int.le_bmod (x := x) (m := 2 ^ 64) (by decide)
  have high := Int.bmod_lt (x := x) (m := 2 ^ 64) (by decide)
  exact ⟨by omega, by omega⟩

theorem inI64_asI64 (n : Nat) : InI64 (asI64 n) := inI64_bmod n

theorem Profile.addI64_cases (p : Profile) (a b : Int) :
    (∃ c, p.addI64 a b = .ok c ∧ InI64 c ∧ (p = .dev → InI64 (a + b))) ∨
      (p.addI64 a b = .error .overflow ∧ p = .dev ∧ ¬ InI64 (a + b)) := by
  cases p with
  | dev =>
    by_cases fits : InI64 (a + b)
    · exact .inl ⟨_, if_pos fits, fits, fun _ => fits⟩
    · exact .inr ⟨if_neg fits, rfl, fits⟩
  | release => exact .inl ⟨_, rfl, inI64_bmod _, by simp⟩

/-! ## The calls -/

/-- `desc.offset = n`. -/
def Store.seek (st : Store) (f n : Nat) : Store :=
  { st with files := st.files.set f { st.file f with offset := n } }

namespace System

variable {ρ : Type}

/-- The size of the node behind an open file. -/
def sizeOf (st : Store) (f : Nat) : Nat :=
  ((st.file f).node.bind fun n => st.nodes[n]?).elim 0 fun node => node.data.length

/-- The `match` of `lseek` over `whence`. -/
def seekTarget (p : Profile) (st : Store) (f : Nat) (offset whence : Int) :
    Except Stop (Option Int) :=
  if whence = 0 then .ok (some offset)
  else if whence = 1 then some <$> p.addI64 (asI64 (st.file f).offset) offset
  else if whence = 2 then some <$> p.addI64 (asI64 (sizeOf st f)) offset
  else .ok none

/-- `syscall_lseek`, from the registers of the call. -/
def lseek (p : Profile) (s : System ρ) (fd rsi rdx : Nat) : Except Stop (Answer ρ × System ρ) :=
  match s.entry fd with
  | none => .ok (.err EPERM, s)
  | some none => .ok (.err EBADF, s)
  | some (some f) => do
    match ← seekTarget p s.store f (asI64 rsi) (Int.bmod rdx (2 ^ 32)) with
    | none => return (.err EINVAL, s)
    | some target =>
      if target < 0 then return (.err EINVAL, s)
      else return (.ret target.toNat, { s with store := s.store.seek f target.toNat })

/-- Byte `i` that `getrandom` makes from the time stamp counter. -/
def randomByte (tsc i : Nat) : UInt8 :=
  ((tsc >>> (8 * (i % 8))).toUInt8 + i.toUInt8) * 0x6d

/-- `syscall_getrandom`; `reachable` tells whether the buffer of the caller can be written. -/
def getrandom (tsc buf buflen : Nat) (reachable : Bool) : Except Stop (Answer ρ) :=
  if buf = 0 ∨ buflen = 0 then .ok (.ret 0)
  else do
    allocBytes buflen
    if reachable then return .data ((List.range buflen).map (randomByte tsc))
    else return .err EFAULT

end System

/-- The capacities of the vectors behind the nodes and of the deques behind the pipes. -/
structure Caps where
  node : Nat → Nat
  pipe : Nat → Nat

namespace Caps

/-- What a write asks of the heap, before it stores anything: `resize` up to the end of what is
written, or `push_back` for each byte. -/
def extend (p : Profile) (caps : Caps) (st : Store) (f : Nat) (bytes : List UInt8) :
    Except Stop Caps :=
  let desc := st.file f
  match desc.kind with
  | .file =>
    match desc.node.bind fun n => st.nodes[n]?.map (n, ·) with
    | none => .ok caps
    | some (n, node) =>
      if node.readOnly then .ok caps
      else do
        let stop ← p.add (System.startOf desc node) bytes.length
        if node.data.length < stop then do
          let cap ← reserve (caps.node n) stop
          return { caps with node := Function.update caps.node n cap }
        else return caps
  | .pipe =>
    match desc.pipe with
    | none => .ok caps
    | some q =>
      if (st.pipe q).readEnds = 0 then .ok caps
      else do
        let cap ← pushBack bytes.length (st.pipe q).buf.length (caps.pipe q)
        return { caps with pipe := Function.update caps.pipe q cap }
  | _ => .ok caps

end Caps

/-- The system, with the capacities of its buffers. -/
structure Sized (ρ : Type) where
  sys : System ρ
  caps : Caps

namespace Sized

variable {ρ : Type}

def writeTo (p : Profile) (st : Store) (caps : Caps) (f : Nat) (bytes : List UInt8) (mv : Bool) :
    Except Stop (Except Nat Nat × Store × Caps) := do
  let caps ← caps.extend p st f bytes
  let (r, st) ← System.writeTo p st f bytes mv
  return (r, st, caps)

def writeAll (p : Profile) (f : Nat) : List Slice → Nat → Store → Caps →
    Except Stop (Except Nat Nat × Store × Caps)
  | [], total, st, caps => .ok (.ok total, st, caps)
  | bytes :: iov, total, st, caps =>
    if bytes.1 = [] then writeAll p f iov total st caps
    else do
      let (r, st, caps) ← writeTo p st caps f bytes.1 false
      match r with
      | .error errno => return (.error errno, st, caps)
      | .ok n => writeAll p f iov (total + n) st caps

/-- The answer of a call that wrote. -/
def answer (s : Sized ρ) : Except Nat Nat × Store × Caps → Answer ρ × Sized ρ
  | (.ok n, store, caps) => (.ret n, ⟨{ s.sys with store }, caps⟩)
  | (.error errno, store, caps) => (.err errno, ⟨{ s.sys with store }, caps⟩)

def write (p : Profile) (s : Sized ρ) (fd : Nat) (bytes : Slice) :
    Except Stop (Answer ρ × Sized ρ) :=
  if bytes.1 = [] then .ok (.ret 0, s)
  else match s.sys.entry fd with
  | none => .ok (.err EPERM, s)
  | some none => .ok (.err EBADF, s)
  | some (some f) =>
    if !(s.sys.store.file f).writable then .ok (.err EBADF, s)
    else s.answer <$> writeTo p s.sys.store s.caps f bytes.1 true

def writev (p : Profile) (s : Sized ρ) (fd : Nat) (iov : List Slice) :
    Except Stop (Answer ρ × Sized ρ) :=
  match s.sys.entry fd with
  | none => .ok (.err EPERM, s)
  | some none => .ok (.err EBADF, s)
  | some (some f) =>
    if !(s.sys.store.file f).writable then .ok (.err EBADF, s)
    else s.answer <$> writeAll p f iov 0 s.sys.store s.caps

inductive Call where
  | lseek (fd rsi rdx : Nat)
  | write (fd : Nat) (bytes : Slice)
  | writev (fd : Nat) (iov : List Slice)
  | getrandom (tsc buf buflen : Nat) (reachable : Bool)

def step (p : Profile) (s : Sized ρ) : Call → Except Stop (Answer ρ × Sized ρ)
  | .lseek fd rsi rdx => (fun r => (r.1, { s with sys := r.2 })) <$> s.sys.lseek p fd rsi rdx
  | .write fd bytes => s.write p fd bytes
  | .writev fd iov => s.writev p fd iov
  | .getrandom tsc buf buflen reachable =>
    (fun a => (a, s)) <$> System.getrandom tsc buf buflen reachable

def run (p : Profile) : List Call → Sized ρ → Except Stop (List (Answer ρ) × Sized ρ)
  | [], s => .ok ([], s)
  | call :: calls, s => do
    let (a, s) ← s.step p call
    let (answers, s) ← run p calls s
    return (a :: answers, s)

/-! The capacities decide whether a write goes through, not what it does. -/

/-! ## What a call needs -/

/-- The open files lead somewhere, the buffers have room for what is in them, and no offset is further
behind the end of its file than `lseek` can bring it. -/
structure Sound (st : Store) (caps : Caps) : Prop where
  named : ∀ f, (st.file f).kind = .file →
    ∃ n node, (st.file f).node = some n ∧ st.nodes[n]? = some node
  piped : ∀ f, (st.file f).kind = .pipe → ∃ q, (st.file f).pipe = some q
  room : ∀ n node, st.nodes[n]? = some node →
    node.data.length ≤ caps.node n ∧ caps.node n ≤ MAX_BLOCK
  offset : ∀ f, (st.file f).offset < 2 ^ 63 + System.sizeOf st f
  deque : ∀ q, Doubled (caps.pipe q) ∧ (st.pipe q).buf.length ≤ caps.pipe q

/-- The heap can serve what a write needs: the vector of the file is large enough or can grow to where
the write ends, the deque of the pipe can hold what is in it and what is written. -/
structure Fits (st : Store) (caps : Caps) (f : Nat) (bytes : List UInt8) : Prop where
  file : ∀ n node, System.Backs st f n node →
    System.startOf (st.file f) node + bytes.length ≤ caps.node n ∨
      Servable (grown (caps.node n) (System.startOf (st.file f) node + bytes.length))
  pipe : ∀ q, (st.file f).kind = .pipe → (st.file f).pipe = some q → (st.pipe q).readEnds ≠ 0 →
    Servable ((st.pipe q).buf.length + bytes.length)

/-- Each buffer of a `writev` fits when its turn comes. -/
def FitsAll (p : Profile) (f : Nat) : List Slice → Store → Caps → Prop
  | [], _, _ => True
  | bytes :: iov, st, caps =>
    if bytes.1 = [] then FitsAll p f iov st caps
    else Fits st caps f bytes.1 ∧ ∀ n st' caps',
      writeTo p st caps f bytes.1 false = .ok (.ok n, st', caps') → FitsAll p f iov st' caps'

/-- The sum that `lseek` forms is an `i64`. -/
def SeekFits (st : Store) (f : Nat) (offset whence : Int) : Prop :=
  (whence = 1 → InI64 (asI64 (st.file f).offset + offset)) ∧
    (whence = 2 → InI64 (asI64 (System.sizeOf st f) + offset))

/-- No sum of the call overflows, and the heap can serve what it asks for. -/
def Fine (p : Profile) (s : Sized ρ) : Call → Prop
  | .lseek fd rsi rdx => p = .dev → ∀ f, s.sys.entry fd = some (some f) →
    SeekFits s.sys.store f (asI64 rsi) (Int.bmod rdx (2 ^ 32))
  | .write fd bytes => bytes.1 ≠ [] → ∀ f, s.sys.entry fd = some (some f) →
    (s.sys.store.file f).writable → Fits s.sys.store s.caps f bytes.1
  | .writev fd iov => ∀ f, s.sys.entry fd = some (some f) →
    (s.sys.store.file f).writable → FitsAll p f iov s.sys.store s.caps
  | .getrandom _ buf buflen _ => buf ≠ 0 → Servable buflen

/-- A computation goes through to a sound state exactly if a condition holds. -/
def Decides {α : Type} (fine : Prop) (good : α → Prop) (r : Except Stop α) : Prop :=
  (∃ a, r = .ok a ∧ good a ∧ fine) ∨ ((∃ e, r = .error e) ∧ ¬ fine)

/-! ## Writing -/

variable {p : Profile} {st : Store} {caps : Caps} {f n q cap : Nat} {node : Node}
  {bytes : List UInt8} {mv : Bool}

section Written

variable (backs : System.Backs st f n node) (bytes : List UInt8) (mv : Bool)

include backs

theorem nodes_written (m : Nat) : (System.written st f n node bytes mv).nodes[m]? =
    if m = n then some { node with
      data := Node.splice node.data (System.startOf (st.file f) node) bytes } else st.nodes[m]? := by
  have inside : n < st.nodes.length := (List.getElem?_eq_some_iff.mp backs.there).1
  by_cases same : m = n
  · rw [if_pos same, same]
    exact List.getElem?_set_self inside
  · rw [if_neg same]
    exact List.getElem?_set_ne (Ne.symm same)

/-- A write changes nothing about the open files but the offset of one of them. -/
theorem file_written (g : Nat) : (System.written st f n node bytes mv).file g =
    if g = f then { st.file f with
      offset := (st.file f).offset + System.moved (st.file f) bytes mv } else st.file g := by
  by_cases same : g = f
  · rw [if_pos same, same]
    exact backs.file_written bytes mv
  · rw [if_neg same]
    simp [System.written, Store.advance, Store.file, Ne.symm same]

theorem names_written (g : Nat) :
    ((System.written st f n node bytes mv).file g).node = (st.file g).node ∧
      ((System.written st f n node bytes mv).file g).kind = (st.file g).kind ∧
      ((System.written st f n node bytes mv).file g).pipe = (st.file g).pipe := by
  rw [file_written backs]
  split
  next same => exact ⟨by rw [same], by rw [same], by rw [same]⟩
  next => exact ⟨rfl, rfl, rfl⟩

theorem sizeOf_written (g : Nat) : System.sizeOf st g ≤
      System.sizeOf (System.written st f n node bytes mv) g ∧
    ((st.file g).node = some n → System.startOf (st.file f) node + bytes.length ≤
      System.sizeOf (System.written st f n node bytes mv) g) := by
  rw [System.sizeOf, System.sizeOf, (names_written backs bytes mv g).1]
  cases named : (st.file g).node with
  | none => exact ⟨Nat.le_refl _, by simp⟩
  | some m =>
    rw [Option.bind_some, Option.bind_some, nodes_written backs]
    by_cases same : m = n
    · subst same
      rw [if_pos rfl, backs.there]
      simp only [Option.elim_some, Node.length_splice]
      exact ⟨Nat.le_max_left _ _, fun _ => Nat.le_max_right _ _⟩
    · rw [if_neg same]
      exact ⟨Nat.le_refl _, fun named => absurd (Option.some.inj named) same⟩

end Written

theorem Sound.written (sound : Sound st caps) (backs : System.Backs st f n node)
    (enough : System.startOf (st.file f) node + bytes.length ≤ cap) (larger : caps.node n ≤ cap)
    (served : cap ≤ MAX_BLOCK) : Sound (System.written st f n node bytes mv)
      { caps with node := Function.update caps.node n cap } := by
  have names := names_written backs bytes mv
  have nodes := nodes_written backs bytes mv
  refine ⟨fun g kind => ?_, fun g kind => ?_, fun m node' there => ?_, fun g => ?_, sound.deque⟩
  · rw [(names g).2.1] at kind
    obtain ⟨m, node', named, there⟩ := sound.named g kind
    rw [(names g).1]
    by_cases same : m = n
    · exact ⟨m, _, named, by rw [nodes, if_pos same]⟩
    · exact ⟨m, node', named, by rw [nodes, if_neg same, there]⟩
  · rw [(names g).2.1] at kind
    rw [(names g).2.2]
    exact sound.piped g kind
  · rw [nodes] at there
    split at there
    next same =>
      cases there
      subst same
      simp only [Function.update_self, Node.length_splice]
      have := (sound.room m node backs.there).1
      exact ⟨by omega, served⟩
    next other =>
      simp only [Function.update_of_ne other]
      exact sound.room m node' there
  · have grows := sizeOf_written backs bytes mv g
    have before := sound.offset g
    rw [file_written backs]
    split
    next same =>
      subst same
      have ends := grows.2 backs.named
      have size : System.sizeOf st g = node.data.length := by
        simp [System.sizeOf, backs.named, backs.there]
      simp only [System.moved, System.startOf] at ends ⊢
      cases append : (st.file g).append with
      | true =>
        rw [append, if_pos rfl] at ends
        split <;> omega
      | false =>
        rw [append, if_neg Bool.false_ne_true] at ends
        simp only [Bool.false_and, Bool.false_eq_true, if_false]
        omega
    next => omega

theorem Sound.pushed (sound : Sound st caps) {bytes : List UInt8} (doubled : Doubled cap)
    (enough : (st.pipe q).buf.length + bytes.length ≤ cap) :
    Sound (st.setPipe q { st.pipe q with buf := (st.pipe q).buf ++ bytes })
      { caps with pipe := Function.update caps.pipe q cap } := by
  refine ⟨sound.named, sound.piped, sound.room, sound.offset, fun r => ?_⟩
  by_cases same : r = q
  · subst same
    simp only [Function.update_self]
    refine ⟨doubled, ?_⟩
    by_cases inside : r < st.pipes.length
    · simpa [Store.pipe, Store.setPipe, inside] using enough
    · simp [Store.pipe, Store.setPipe, inside, PipeInner.new]
  · simpa [Store.pipe, Store.setPipe, Ne.symm same, same] using sound.deque r

theorem Sound.startOf_lt (sound : Sound st caps) (backs : System.Backs st f n node) :
    System.startOf (st.file f) node < 2 ^ 63 + MAX_BLOCK := by
  have size : System.sizeOf st f = node.data.length := by
    simp [System.sizeOf, backs.named, backs.there]
  have offset := sound.offset f
  have room := sound.room n node backs.there
  rw [System.startOf]
  split <;> omega

/-- A write to a file goes through if its end fits the vector of the file, or the heap can serve a
larger one. -/
theorem writeTo_file (sound : Sound st caps) (backs : System.Backs st f n node)
    (short : bytes.length < 2 ^ 63) :
    Decides (System.startOf (st.file f) node + bytes.length ≤ caps.node n ∨
        Servable (grown (caps.node n) (System.startOf (st.file f) node + bytes.length)))
      (fun r => Sound r.2.1 r.2.2) (writeTo p st caps f bytes mv) := by
  have start := sound.startOf_lt backs
  have room := sound.room n node backs.there
  have ceiling : MAX_BLOCK < 2 ^ 23 := by decide
  have asks : caps.extend p st f bytes = (do
      let stop ← p.add (System.startOf (st.file f) node) bytes.length
      if node.data.length < stop then do
        let cap ← reserve (caps.node n) stop
        return { caps with node := Function.update caps.node n cap }
      else return caps) := by
    simp only [Caps.extend, backs.kind, backs.named, Option.bind_some, backs.there, Option.map_some,
      backs.writable, Bool.false_eq_true, if_false]
  rw [writeTo]
  by_cases word : System.startOf (st.file f) node + bytes.length < 2 ^ 64
  · rw [asks, p.add_ok word, ok_bind, backs.write_ok p mv word]
    have after {cap : Nat} (enough : System.startOf (st.file f) node + bytes.length ≤ cap)
        (larger : caps.node n ≤ cap) (served : cap ≤ MAX_BLOCK) :
        Sound (System.written st f n node bytes mv)
          { caps with node := Function.update caps.node n cap } :=
      sound.written backs enough larger served
    by_cases longer : node.data.length < System.startOf (st.file f) node + bytes.length
    · rw [if_pos longer]
      obtain ⟨runs, fits⟩ | ⟨runs, full, served⟩ | ⟨⟨e, stops⟩, full, refused⟩ :=
        reserve_cases (caps.node n) (System.startOf (st.file f) node + bytes.length)
      · rw [runs]
        exact .inl ⟨_, rfl, after fits (Nat.le_refl _) room.2, .inl fits⟩
      · rw [runs]
        have covers : System.startOf (st.file f) node + bytes.length ≤
            grown (caps.node n) (System.startOf (st.file f) node + bytes.length) := by
          simp only [grown]
          omega
        exact .inl ⟨_, rfl, after covers (by omega) (servable_iff.mp served), .inr served⟩
      · rw [stops]
        exact .inr ⟨⟨e, rfl⟩, fun fine => fine.elim (by omega) refused⟩
    · rw [if_neg longer]
      have fits : System.startOf (st.file f) node + bytes.length ≤ caps.node n := by omega
      have same := after fits (Nat.le_refl _) room.2
      rw [Function.update_eq_self] at same
      exact .inl ⟨_, rfl, same, .inl fits⟩
  · have large : ¬ Servable (grown (caps.node n) (System.startOf (st.file f) node + bytes.length)) := by
      rw [servable_iff, grown]
      omega
    refine .inr ⟨?_, fun fine => fine.elim (by omega) large⟩
    have stops := backs.write_past p mv (by omega) (by omega) (Nat.le_of_not_lt word)
    cases caps.extend p st f bytes with
    | error e => exact ⟨e, rfl⟩
    | ok caps' => exact ⟨_, by rw [ok_bind, stops, error_bind]⟩

/-- A write to a pipe that somebody can read goes through if the heap can serve a deque for it. -/
theorem writeTo_pipe (sound : Sound st caps) (kind : (st.file f).kind = .pipe)
    (pipe : (st.file f).pipe = some q) (readers : (st.pipe q).readEnds ≠ 0) :
    Decides (Servable ((st.pipe q).buf.length + bytes.length))
      (fun r => Sound r.2.1 r.2.2) (writeTo p st caps f bytes mv) := by
  have writes : System.writeTo p st f bytes mv = .ok (.ok bytes.length,
      st.setPipe q { st.pipe q with buf := (st.pipe q).buf ++ bytes }) := by
    simp only [System.writeTo, kind, pipe, if_neg readers]
  have asks : caps.extend p st f bytes = (do
      let cap ← pushBack bytes.length (st.pipe q).buf.length (caps.pipe q)
      return { caps with pipe := Function.update caps.pipe q cap }) := by
    simp only [Caps.extend, kind, pipe, if_neg readers]
  rw [writeTo, asks, writes]
  obtain ⟨doubled, room⟩ := sound.deque q
  obtain ⟨cap, runs, doubled', enough⟩ | ⟨⟨e, stops⟩, refused⟩ :=
    pushBack_cases bytes.length doubled room
  · rw [runs]
    exact .inl ⟨_, rfl, sound.pushed doubled' enough,
      servable_iff.mpr (Nat.le_trans enough doubled'.le)⟩
  · rw [stops]
    exact .inr ⟨⟨e, rfl⟩, refused⟩

theorem Decides.map {α β : Type} {fine : Prop} {good : α → Prop} {good' : β → Prop}
    {r : Except Stop α} {g : α → β} (h : Decides fine good r) (keeps : ∀ a, good a → good' (g a)) :
    Decides fine good' (g <$> r) := by
  obtain ⟨a, rfl, sound, holds⟩ | ⟨⟨e, rfl⟩, fails⟩ := h
  · exact .inl ⟨g a, rfl, keeps a sound, holds⟩
  · exact .inr ⟨⟨e, rfl⟩, fails⟩

theorem Decides.of_iff {α : Type} {fine fine' : Prop} {good : α → Prop} {r : Except Stop α}
    (h : Decides fine good r) (same : fine' ↔ fine) : Decides fine' good r := by
  obtain ⟨a, runs, sound, holds⟩ | ⟨stops, fails⟩ := h
  · exact .inl ⟨a, runs, sound, same.mpr holds⟩
  · exact .inr ⟨stops, fun holds => fails (same.mp holds)⟩

theorem writeTo_idle (p : Profile) (bytes : List UInt8) (mv : Bool) (sound : Sound st caps)
    (file : ¬ ∃ n node, System.Backs st f n node)
    (pipe : ¬ ∃ q, (st.file f).kind = .pipe ∧ (st.file f).pipe = some q ∧ (st.pipe q).readEnds ≠ 0) :
    ∃ r, writeTo p st caps f bytes mv = .ok (r, st, caps) := by
  rw [writeTo]
  cases kind : (st.file f).kind with
  | file =>
    obtain ⟨n, node, named, there⟩ := sound.named f kind
    have refused : node.readOnly = true := by
      by_contra writable
      exact file ⟨n, node, kind, named, there, by simpa using writable⟩
    refine ⟨.error EIO, ?_⟩
    simp only [Caps.extend, System.writeTo, kind, named, Option.bind_some, there, Option.map_some,
      refused, if_true, ok_bind, Node.write_readOnly p refused, pure_eq_ok]
  | pipe =>
    obtain ⟨q, named⟩ := sound.piped f kind
    have closed : (st.pipe q).readEnds = 0 := by
      by_contra readers
      exact pipe ⟨q, kind, named, readers⟩
    refine ⟨.error EPIPE, ?_⟩
    simp only [Caps.extend, System.writeTo, kind, named, closed, if_true, ok_bind, pure_eq_ok]
  | _ =>
    simp only [Caps.extend, System.writeTo, kind, ok_bind, pure_eq_ok]
    exact ⟨_, rfl⟩

theorem writeTo_decides (p : Profile) (f : Nat) (mv : Bool) (sound : Sound st caps) (short : bytes.length < 2 ^ 63) :
    Decides (Fits st caps f bytes) (fun r => Sound r.2.1 r.2.2) (writeTo p st caps f bytes mv) := by
  by_cases writes : (∃ n node, System.Backs st f n node) ∨
      ∃ q, (st.file f).kind = .pipe ∧ (st.file f).pipe = some q ∧ (st.pipe q).readEnds ≠ 0
  · obtain ⟨n, node, backs⟩ | ⟨q, kind, pipe, readers⟩ := writes
    · refine (writeTo_file sound backs short).of_iff ⟨fun fits => fits.file n node backs, fun fine =>
        ⟨fun n' node' backs' => ?_, fun q kind => ?_⟩⟩
      · obtain rfl : n = n' := Option.some.inj (backs.named.symm.trans backs'.named)
        obtain rfl : node = node' := Option.some.inj (backs.there.symm.trans backs'.there)
        exact fine
      · rw [backs.kind] at kind
        cases kind
    · refine (writeTo_pipe sound kind pipe readers).of_iff ⟨fun fits => fits.pipe q kind pipe readers,
        fun fine => ⟨fun n node backs => ?_, fun q' _ pipe' _ => ?_⟩⟩
      · rw [backs.kind] at kind
        cases kind
      · obtain rfl : q = q' := Option.some.inj (pipe.symm.trans pipe')
        exact fine
  -- nothing is stored: the kind of the descriptor, its node or its pipe refuses or ignores the bytes
  · obtain ⟨file, pipe⟩ := not_or.mp writes
    obtain ⟨r, runs⟩ := writeTo_idle p bytes mv sound file pipe
    exact .inl ⟨_, runs, sound, ⟨fun n node backs => (file ⟨n, node, backs⟩).elim,
      fun q kind pipe' readers => (pipe ⟨q, kind, pipe', readers⟩).elim⟩⟩

theorem writeAll_decides {iov : List Slice} {total : Nat} (sound : Sound st caps) :
    Decides (FitsAll p f iov st caps) (fun r => Sound r.2.1 r.2.2)
      (writeAll p f iov total st caps) := by
  induction iov generalizing total st caps with
  | nil => exact .inl ⟨_, rfl, sound, trivial⟩
  | cons bytes iov ih =>
    rw [writeAll, FitsAll]
    split
    next => exact ih sound
    next =>
      obtain ⟨⟨r, st', caps'⟩, runs, sound', fits⟩ | ⟨⟨e, stops⟩, refused⟩ :=
        writeTo_decides p f false sound bytes.2
      · rw [runs, ok_bind]
        cases r with
        | error errno => exact .inl ⟨_, rfl, sound', fits, by simp⟩
        | ok n =>
          refine (ih sound').of_iff ⟨fun all => all.2 n st' caps' rfl, fun rest => ⟨fits, ?_⟩⟩
          rintro _ _ _ ⟨⟩
          exact rest
      · rw [stops, error_bind]
        exact .inr ⟨⟨e, rfl⟩, fun all => refused all.1⟩

/-! ## Calls and runs -/

variable {s : Sized ρ}

theorem Sound.seek (sound : Sound st caps) {offset : Nat} (low : offset < 2 ^ 63) :
    Sound (st.seek f offset) caps := by
  have file (g : Nat) : (st.seek f offset).file g =
      if g = f ∧ f < st.files.length then { st.file f with offset } else st.file g := by
    simp only [Store.seek, Store.file, List.getD_eq_getElem?_getD, List.getElem?_set]
    by_cases same : f = g
    · subst same
      by_cases inside : f < st.files.length <;> simp [inside]
    · simp [same, Ne.symm same]
  have names (g : Nat) : ((st.seek f offset).file g).node = (st.file g).node ∧
      ((st.seek f offset).file g).kind = (st.file g).kind ∧
      ((st.seek f offset).file g).pipe = (st.file g).pipe := by
    rw [file]
    split
    next same => exact ⟨by rw [same.1], by rw [same.1], by rw [same.1]⟩
    next => exact ⟨rfl, rfl, rfl⟩
  refine ⟨fun g kind => ?_, fun g kind => ?_, sound.room, fun g => ?_, sound.deque⟩
  · rw [(names g).2.1] at kind
    rw [(names g).1]
    exact sound.named g kind
  · rw [(names g).2.1] at kind
    rw [(names g).2.2]
    exact sound.piped g kind
  · have size : System.sizeOf (st.seek f offset) g = System.sizeOf st g := by
      rw [System.sizeOf, System.sizeOf, (names g).1]
      rfl
    rw [size, file]
    split
    next => exact Nat.lt_of_lt_of_le low (Nat.le_add_right _ _)
    next => exact sound.offset g

theorem seekTarget_decides (p : Profile) (st : Store) (f : Nat) {offset whence : Int}
    (word : InI64 offset) :
    Decides (p = .dev → SeekFits st f offset whence)
      (fun target => ∀ t, target = some t → InI64 t) (System.seekTarget p st f offset whence) := by
  have sum (a : Int) (fine : (p = .dev → SeekFits st f offset whence) ↔
      (p = .dev → InI64 (a + offset))) :
      Decides (p = .dev → SeekFits st f offset whence) (fun target => ∀ t, target = some t → InI64 t)
        (some <$> p.addI64 a offset) := by
    obtain ⟨c, runs, small, fits⟩ | ⟨stops, dev, large⟩ := p.addI64_cases a offset
    · rw [runs]
      exact .inl ⟨_, rfl, by rintro t ⟨⟩; exact small, fine.mpr fits⟩
    · rw [stops]
      exact .inr ⟨⟨_, rfl⟩, fun holds => large (fine.mp holds dev)⟩
  rw [System.seekTarget]
  split
  next set =>
    exact .inl ⟨_, rfl, by rintro t ⟨⟩; exact word, fun _ => ⟨by omega, by omega⟩⟩
  next =>
    split
    next current => exact sum _ (by simp [SeekFits, current])
    next =>
      split
      next ends => exact sum _ (by simp [SeekFits, ends])
      next => exact .inl ⟨_, rfl, by simp, fun _ => ⟨by omega, by omega⟩⟩

theorem lseek_decides (p : Profile) (sound : Sound s.sys.store s.caps) (fd rsi rdx : Nat) :
    Decides (s.Fine p (.lseek fd rsi rdx)) (fun r => Sound r.2.store s.caps)
      (s.sys.lseek p fd rsi rdx) := by
  rw [System.lseek, Fine]
  rcases s.sys.entry fd with _ | _ | f
  · exact .inl ⟨_, rfl, sound, by simp⟩
  · exact .inl ⟨_, rfl, sound, by simp⟩
  · have fine : (p = .dev → ∀ g, some (some f) = some (some g) →
        SeekFits s.sys.store g (asI64 rsi) (Int.bmod rdx (2 ^ 32))) ↔
        (p = .dev → SeekFits s.sys.store f (asI64 rsi) (Int.bmod rdx (2 ^ 32))) := by simp
    obtain ⟨target, runs, small, fits⟩ | ⟨⟨e, stops⟩, fails⟩ :=
      (seekTarget_decides p s.sys.store f (inI64_asI64 rsi)).of_iff fine
    · simp only [runs, ok_bind]
      cases target with
      | none => exact .inl ⟨_, rfl, sound, fits⟩
      | some t =>
        by_cases negative : t < 0
        · simp only [if_pos negative]
          exact .inl ⟨_, rfl, sound, fits⟩
        · simp only [if_neg negative]
          have bound := (small t rfl).2
          exact .inl ⟨_, rfl, sound.seek (by omega), fits⟩
    · simp only [stops, error_bind]
      exact .inr ⟨⟨e, rfl⟩, fails⟩

theorem getrandom_decides (s : Sized ρ) (p : Profile) (tsc buf buflen : Nat) (reachable : Bool) :
    Decides (s.Fine p (.getrandom tsc buf buflen reachable)) (fun _ => True)
      (System.getrandom (ρ := ρ) tsc buf buflen reachable) := by
  rw [System.getrandom, Fine]
  by_cases nothing : buf = 0 ∨ buflen = 0
  · rw [if_pos nothing]
    refine .inl ⟨_, rfl, trivial, fun nonzero => ?_⟩
    rw [nothing.resolve_left nonzero]
    exact servable_iff.mpr (Nat.zero_le _)
  · rw [if_neg nothing]
    obtain ⟨target, -⟩ := not_or.mp nothing
    cases asked : allocBytes buflen with
    | ok u =>
      rw [ok_bind]
      refine .inl ?_
      cases reachable with
      | true => exact ⟨_, rfl, trivial, fun _ => allocBytes_ok_iff.mp asked⟩
      | false => exact ⟨_, rfl, trivial, fun _ => allocBytes_ok_iff.mp asked⟩
    | error e =>
      refine .inr ⟨⟨e, rfl⟩, fun fine => ?_⟩
      rw [allocBytes_ok_iff.mpr (fine target)] at asked
      cases asked

theorem Sound.answer (s : Sized ρ) {r : Except Nat Nat × Store × Caps} (sound : Sound r.2.1 r.2.2) :
    Sound (s.answer r).2.sys.store (s.answer r).2.caps := by
  obtain ⟨_ | _, st, caps⟩ := r
  · exact sound
  · exact sound

theorem step_decides (p : Profile) (sound : Sound s.sys.store s.caps) (call : Call) :
    Decides (s.Fine p call) (fun r => Sound r.2.sys.store r.2.caps) (s.step p call) := by
  cases call with
  | lseek fd rsi rdx => exact (lseek_decides p sound fd rsi rdx).map fun _ sound => sound
  | getrandom tsc buf buflen reachable =>
    exact (s.getrandom_decides p tsc buf buflen reachable).map fun _ _ => sound
  | write fd bytes =>
    rw [step, write, Fine]
    split
    next empty => exact .inl ⟨_, rfl, sound, fun nonzero => absurd empty nonzero⟩
    next more =>
      rcases s.sys.entry fd with _ | _ | f
      · exact .inl ⟨_, rfl, sound, by simp⟩
      · exact .inl ⟨_, rfl, sound, by simp⟩
      · cases writable : (s.sys.store.file f).writable with
        | false => exact .inl ⟨_, by simp only [writable]; rfl, sound, by simp [writable]⟩
        | true =>
          simp only [writable, Bool.not_true, Bool.false_eq_true, if_false]
          exact ((writeTo_decides p f true sound bytes.2).of_iff (by simp [more, writable])).map
            fun _ => Sound.answer s
  | writev fd iov =>
    rw [step, writev, Fine]
    rcases s.sys.entry fd with _ | _ | f
    · exact .inl ⟨_, rfl, sound, by simp⟩
    · exact .inl ⟨_, rfl, sound, by simp⟩
    · cases writable : (s.sys.store.file f).writable with
      | false => exact .inl ⟨_, by simp only [writable]; rfl, sound, by simp [writable]⟩
      | true =>
        simp only [writable, Bool.not_true, Bool.false_eq_true, if_false]
        exact ((writeAll_decides sound).of_iff (by simp [writable])).map fun _ => Sound.answer s

/-- A run of calls returns exactly if each of its calls is fine where the run has brought the
system. -/
theorem calls_return_iff (p : Profile) (s : Sized ρ) (sound : Sound s.sys.store s.caps)
    (calls : List Call) : (∃ out, s.run p calls = .ok out) ↔
      ∀ before call after, calls = before ++ call :: after → ∀ answers s',
        s.run p before = .ok (answers, s') → s'.Fine p call := by
  induction calls generalizing s with
  | nil => simp [run]
  | cons call calls ih =>
    obtain ⟨⟨a, s₁⟩, steps, sound₁, fine⟩ | ⟨⟨e, stops⟩, fails⟩ := step_decides p sound call
    · rw [run, steps, ok_bind]
      constructor
      · rintro ⟨out, runs⟩ before call' after same answers s' reached
        obtain ⟨out₁, rest, -⟩ := bind_eq_ok.mp runs
        cases before with
        | nil =>
          cases reached
          cases same
          exact fine
        | cons b before =>
          cases same
          rw [run, steps, ok_bind] at reached
          obtain ⟨⟨answers₁, s₂⟩, reached, last⟩ := bind_eq_ok.mp reached
          cases last
          exact (ih s₁ sound₁).mp ⟨out₁, rest⟩ before call' after rfl _ _ reached
      · intro all
        obtain ⟨out, rest⟩ := (ih s₁ sound₁).mpr fun before call' after same answers s' reached =>
          all (call :: before) call' after (by rw [same]; rfl) (a :: answers) s'
            (by rw [run, steps, ok_bind]; exact bind_eq_ok.mpr ⟨_, reached, rfl⟩)
        exact ⟨_, bind_eq_ok.mpr ⟨_, rest, rfl⟩⟩
    -- a call that is not fine stops the run, and is the one that the condition fails for
    · rw [run, stops, error_bind]
      simp only [reduceCtorEq, exists_false, false_iff]
      exact fun all => fails (all [] call calls rfl [] s rfl)

/-- The store of a process that has opened an empty file. -/
def emptyFile : Store :=
  ⟨[.stdin, .stdout, .stdout, .file 0 true true false], [], [⟨[], false⟩]⟩

/-- The vector of an empty file has no buffer, the deque of a pipe begins with `PIPE_BUF_SIZE`. -/
def freshCaps : Caps := ⟨fun _ => 0, fun _ => 4096⟩

theorem emptyFile_sound : Sound emptyFile freshCaps := by
  have files (f : Nat) : emptyFile.file f = .stdin ∨ emptyFile.file f = .file 0 true true false := by
    rcases f with _ | _ | _ | _ | f
    all_goals simp [emptyFile, Store.file, OpenFile.stdin, OpenFile.stdout]
  refine ⟨fun f kind => ?_, fun f kind => ?_, fun n node there => ?_, fun f => ?_, fun q => ?_⟩
  · rcases files f with same | same
    · rw [same] at kind
      cases kind
    · exact ⟨0, ⟨[], false⟩, by rw [same]; rfl, rfl⟩
  · rcases files f with same | same
    all_goals
      rw [same] at kind
      cases kind
  · obtain rfl : node = ⟨[], false⟩ := by
      rcases n with _ | n
      · exact (Option.some.inj there).symm
      · simp [emptyFile] at there
    exact ⟨Nat.le_refl _, Nat.zero_le _⟩
  · rcases files f with same | same
    all_goals
      rw [same]
      exact Nat.lt_of_lt_of_le (by decide) (Nat.le_add_right _ _)
  · exact ⟨⟨12, rfl, by decide, by decide⟩, by simp [emptyFile, Store.pipe, PipeInner.new]⟩

/-- A program opens an empty file. It can then stop the kernel with a byte written behind an offset of
four megabytes, with an offset that it moves beyond the largest `i64`, and with a large `getrandom`. -/
theorem calls_stop_kernel : ∃ s : System Unit,
    Reachable System.Initial (fun s s' => ∃ action answer, System.Step .dev s action answer s') s ∧
    s.store = emptyFile ∧
    run .dev [.lseek 3 (2 ^ 22) 0, .write 3 ⟨[97], by decide⟩] ⟨s, freshCaps⟩ =
      .error (.expect "[heap] GlobalAlloc::alloc OOM") ∧
    run .dev [.lseek 3 (2 ^ 63 - 1) 0, .lseek 3 1 1] ⟨s, freshCaps⟩ = .error .overflow ∧
    run .dev [.getrandom 0 4096 (2 ^ 22 + 1) true] ⟨s, freshCaps⟩ =
      .error (.expect "[heap] GlobalAlloc::alloc OOM") := by
  have evaluates : ∃ s, (System.bootedWith []).run .dev
        [.timer, .open (.file 0 true true false)] = .ok s ∧ s.store = emptyFile ∧
      run .dev [.lseek 3 (2 ^ 22) 0, .write 3 ⟨[97], by decide⟩] ⟨s, freshCaps⟩ =
        .error (.expect "[heap] GlobalAlloc::alloc OOM") ∧
      run .dev [.lseek 3 (2 ^ 63 - 1) 0, .lseek 3 1 1] ⟨s, freshCaps⟩ = .error .overflow ∧
      run .dev [.getrandom 0 4096 (2 ^ 22 + 1) true] ⟨s, freshCaps⟩ =
        .error (.expect "[heap] GlobalAlloc::alloc OOM") :=
    ⟨_, rfl, by decide +kernel, rfl, rfl, rfl⟩
  obtain ⟨s, run, facts⟩ := evaluates
  exact ⟨s, System.reachable_run (fun _ _ _ _ _ step => ⟨_, _, step⟩)
    (.start (System.bootedWith_initial [])) run, facts⟩

/-- A seek and a write behind it, within what the heap can serve. -/
theorem small_calls_return : ∃ s : Sized Unit, Sound s.sys.store s.caps ∧
    ∃ calls, calls = [Call.lseek 3 5 0, .write 3 ⟨[97], by decide⟩] ∧
      (∃ out, s.run .dev calls = .ok out) ∧
      ∀ before call after, calls = before ++ call :: after → ∀ answers s',
        s.run .dev before = .ok (answers, s') → s'.Fine .dev call := by
  have evaluates : ∃ s, (System.bootedWith []).run .dev
        [.timer, .open (.file 0 true true false)] = .ok s ∧ s.store = emptyFile ∧
      ∃ out, run .dev [.lseek 3 5 0, .write 3 ⟨[97], by decide⟩] ⟨s, freshCaps⟩ = .ok out :=
    ⟨_, rfl, by decide +kernel, _, rfl⟩
  obtain ⟨s, -, store, returns⟩ := evaluates
  have sound : Sound s.store freshCaps := store ▸ emptyFile_sound
  exact ⟨⟨s, freshCaps⟩, sound, _, rfl, returns, (calls_return_iff .dev ⟨s, freshCaps⟩ sound _).mp returns⟩

end Sized
end Ferrum
