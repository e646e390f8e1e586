import Ferrum.Library.Strings
import Ferrum.Machine.Basic

/-!
# The records of `getdents64`

A directory descriptor keeps the names that the directory had when it was opened, and as its offset the
number of names that have been handed out. Each call packs as many records as fit into the buffer of the
caller. Reading the buffers back gives the names in order, each once.
-/
namespace Ferrum

/-- The length of a record: the fixed part, the name and its null byte, rounded up to whole words. -/
def direntLen (name : List UInt8) : Nat := (19 + name.length + 1 + 7) / 8 * 8

/-- One record: inode, offset, length, type, name. The bytes behind the name are left as they are. -/
def writeDirent (m : Memory) (at_ i : Nat) (name : List UInt8) : Memory :=
  let m := m.writeLe at_ 8 (i + 1)
  let m := m.writeLe (at_ + 8) 8 (i + 1)
  let m := m.writeLe (at_ + 16) 2 (direntLen name)
  let m := m.writeLe (at_ + 18) 1 8
  let m := m.writeBytes (at_ + 19) name
  m.writeLe (at_ + 19 + name.length) 1 0

/-- The loop of `getdents64` over the names from the `i`-th on: the number of the first name that did not
fit, the bytes used, and the memory. -/
def direntLoop (buf count : Nat) : List (List UInt8) → Nat → Nat → Memory → Nat × Nat × Memory
  | [], i, outOff, m => (i, outOff, m)
  | name :: names, i, outOff, m =>
    if count < outOff + direntLen name then (i, outOff, m)
    else direntLoop buf count names (i + 1) (outOff + direntLen name)
      (writeDirent m (buf + outOff) i name)

/-- A directory descriptor. A vector has less than `2 ^ 63` elements. -/
structure DirFile where
  dirEntries : Option (List (List UInt8))
  offset : Nat
  bounded : ∀ names, dirEntries = some names → names.length < 2 ^ 63

/-- `getdents64` on a directory: the returned number of bytes, the descriptor and the memory. -/
def getdents64 (desc : DirFile) (m : Memory) (buf count : Nat) : Nat × DirFile × Memory :=
  match desc.dirEntries with
  | none => (0, desc, m)
  | some names =>
    let (i, outOff, m) := direntLoop buf count (names.drop desc.offset) desc.offset 0 m
    (outOff, { desc with offset := i }, m)

/-! ## Reading the records -/

structure Dirent where
  ino : Nat
  off : Nat
  type : Nat
  name : List UInt8
  deriving DecidableEq, Repr

/-- The record at an address. Its name ends inside it. -/
def readDirent (m : Memory) (at_ : Nat) : Option Dirent :=
  (m.cstr (at_ + 19) (m.readLe (at_ + 16) 2 - 19)).map fun name =>
    ⟨m.readLe at_ 8, m.readLe (at_ + 8) 8, m.readLe (at_ + 18) 1, name⟩

/-- Follow the lengths of the records through `rest` bytes that start `pos` bytes into the buffer. The
records must begin at whole words and end with the bytes. -/
def readDirents (m : Memory) (buf : Nat) : Nat → Nat → Nat → Option (List Dirent)
  | 0, _, _ => none
  | fuel + 1, pos, rest =>
    if rest = 0 then some []
    else
      let reclen := m.readLe (buf + pos + 16) 2
      if pos % 8 ≠ 0 ∨ reclen = 0 ∨ rest < reclen then none
      else do
        let record ← readDirent m (buf + pos)
        let records ← readDirents m buf fuel (pos + reclen) (rest - reclen)
        return record :: records

/-- What a program makes of a buffer in which `n` bytes were returned. -/
def decodeDirents (m : Memory) (buf n : Nat) : Option (List Dirent) := readDirents m buf (n + 1) 0 n

/-- Successive calls on one descriptor, each with a buffer in some memory, and what is decoded. -/
def direntCalls (desc : DirFile) : List (Memory × Nat × Nat) → List (Option (List Dirent))
  | [] => []
  | (m, buf, count) :: calls =>
    let (n, desc, m) := getdents64 desc m buf count
    decodeDirents m buf n :: direntCalls desc calls

/-- The records that the names from the `i`-th on stand for. -/
def direntsFrom : Nat → List (List UInt8) → List Dirent
  | _, [] => []
  | i, name :: names => ⟨i + 1, i + 1, 8, name⟩ :: direntsFrom (i + 1) names

/-! ## One record -/

variable {m m' : Memory} {at_ buf i : Nat} {name : List UInt8} {names : List (List UInt8)}

theorem length_lt_direntLen (name : List UInt8) : 19 + name.length < direntLen name := by
  rw [direntLen]
  omega

theorem direntLen_mod (name : List UInt8) : direntLen name % 8 = 0 := by
  rw [direntLen]
  omega

theorem writeDirent_outside {x : Nat} (h : x < at_ ∨ at_ + direntLen name ≤ x) :
    writeDirent m at_ i name x = m x := by
  have room := length_lt_direntLen name
  simp only [writeDirent]
  rw [Memory.writeLe_outside (by omega), Memory.writeBytes_outside (by omega),
    Memory.writeLe_outside (by omega), Memory.writeLe_outside (by omega),
    Memory.writeLe_outside (by omega), Memory.writeLe_outside (by omega)]

theorem readLe_stored {a n v : Nat} (small : v < 256 ^ n)
    (later : ∀ x, a ≤ x → x < a + n → m' x = m.writeLe a n v x) : m'.readLe a n = v := by
  have stored := Memory.readLe_writeLe m a n v (j := 0) (k := n) (by omega)
  rw [Nat.add_zero, Nat.pow_zero, Nat.div_one, Nat.mod_eq_of_lt small] at stored
  rw [Memory.readLe_congr later, stored]

structure DirentAt (m : Memory) (at_ i : Nat) (name : List UInt8) : Prop where
  ino : m.readLe at_ 8 = i + 1
  off : m.readLe (at_ + 8) 8 = i + 1
  reclen : m.readLe (at_ + 16) 2 = direntLen name
  type : m.readLe (at_ + 18) 1 = 8
  name : m.Holds (at_ + 19) (name ++ [0])

theorem direntAt_writeDirent (index : i + 1 < 2 ^ 64) (fits : direntLen name < 2 ^ 16) :
    DirentAt (writeDirent m at_ i name) at_ i name := by
  constructor
  · refine readLe_stored (m := m) (by simpa using index) fun x low high => ?_
    simp only [writeDirent]
    rw [Memory.writeLe_outside (by omega), Memory.writeBytes_outside (by omega),
      Memory.writeLe_outside (by omega), Memory.writeLe_outside (by omega),
      Memory.writeLe_outside (by omega)]
  · refine readLe_stored (m := m.writeLe at_ 8 (i + 1)) (by simpa using index) fun x low high => ?_
    simp only [writeDirent]
    rw [Memory.writeLe_outside (by omega), Memory.writeBytes_outside (by omega),
      Memory.writeLe_outside (by omega), Memory.writeLe_outside (by omega)]
  · refine readLe_stored (m := (m.writeLe at_ 8 (i + 1)).writeLe (at_ + 8) 8 (i + 1))
      (by simpa using fits) fun x low high => ?_
    simp only [writeDirent]
    rw [Memory.writeLe_outside (by omega), Memory.writeBytes_outside (by omega),
      Memory.writeLe_outside (by omega)]
  · refine readLe_stored (m := ((m.writeLe at_ 8 (i + 1)).writeLe (at_ + 8) 8 (i + 1)).writeLe
      (at_ + 16) 2 (direntLen name)) (by decide) fun x low high => ?_
    simp only [writeDirent]
    rw [Memory.writeLe_outside (by omega), Memory.writeBytes_outside (by omega)]
  · rw [Memory.holds_append]
    simp only [writeDirent]
    refine ⟨(Memory.holds_writeBytes _ _ _).congr fun x low high => Memory.writeLe_outside (by omega), ?_⟩
    rw [Memory.holds_cons]
    refine ⟨?_, Memory.holds_nil _ _⟩
    simp [Memory.writeLe]

theorem DirentAt.congr (h : DirentAt m at_ i name)
    (same : ∀ x, at_ ≤ x → x < at_ + direntLen name → m' x = m x) : DirentAt m' at_ i name := by
  have room := length_lt_direntLen name
  constructor
  · rw [Memory.readLe_congr fun x low high => same x low (by omega), h.ino]
  · rw [Memory.readLe_congr fun x low high => same x (by omega) (by omega), h.off]
  · rw [Memory.readLe_congr fun x low high => same x (by omega) (by omega), h.reclen]
  · rw [Memory.readLe_congr fun x low high => same x (by omega) (by omega), h.type]
  · refine h.name.congr fun x low high => same x (by omega) ?_
    rw [List.length_append, List.length_singleton] at high
    omega

theorem DirentAt.read (h : DirentAt m at_ i name) (clean : 0 ∉ name) :
    readDirent m at_ = some ⟨i + 1, i + 1, 8, name⟩ := by
  have room := length_lt_direntLen name
  have found : m.cstr (at_ + 19) (direntLen name - 19) = some name :=
    Memory.cstr_eq_some.mpr ⟨h.name, clean, by omega⟩
  rw [readDirent, h.reclen, found, h.ino, h.off, h.type]
  rfl

/-! ## One call -/

theorem direntLoop_outside {count outOff i' outOff' : Nat}
    (run : direntLoop buf count names i outOff m = (i', outOff', m')) :
    ∀ x < buf + outOff, m' x = m x := by
  induction names generalizing i outOff m with
  | nil =>
    cases run
    exact fun _ _ => rfl
  | cons name names ih =>
    rw [direntLoop] at run
    split at run
    · cases run
      exact fun _ _ => rfl
    · intro x low
      rw [ih run x (by omega), writeDirent_outside (.inl low)]

/-- What the loop has written is decoded as the records of the names that it took. -/
theorem direntLoop_decodes {count outOff i' outOff' : Nat} (aligned : outOff % 8 = 0)
    (clean : ∀ name ∈ names, 0 ∉ name) (fits : ∀ name ∈ names, direntLen name < 2 ^ 16)
    (index : i + names.length < 2 ^ 64)
    (run : direntLoop buf count names i outOff m = (i', outOff', m')) :
    i ≤ i' ∧ i' ≤ i + names.length ∧ outOff ≤ outOff' ∧ ∀ fuel, outOff' - outOff < fuel →
      readDirents m' buf fuel outOff (outOff' - outOff) =
        some (direntsFrom i (names.take (i' - i))) := by
  induction names generalizing i outOff m with
  | nil =>
    cases run
    refine ⟨Nat.le_refl _, Nat.le_add_right _ _, Nat.le_refl _, fun fuel enough => ?_⟩
    obtain ⟨fuel, rfl⟩ := Nat.exists_eq_succ_of_ne_zero (Nat.ne_of_gt (Nat.zero_lt_of_lt enough))
    rw [readDirents, if_pos (Nat.sub_self _), List.take_nil]
    rfl
  | cons name names ih =>
    rw [direntLoop] at run
    split at run
    · cases run
      refine ⟨Nat.le_refl _, Nat.le_add_right _ _, Nat.le_refl _, fun fuel enough => ?_⟩
      obtain ⟨fuel, rfl⟩ := Nat.exists_eq_succ_of_ne_zero (Nat.ne_of_gt (Nat.zero_lt_of_lt enough))
      rw [readDirents, if_pos (Nat.sub_self _), Nat.sub_self]
      rfl
    · have room := length_lt_direntLen name
      have whole := direntLen_mod name
      rw [List.length_cons] at index
      obtain ⟨more, last, behind, decoded⟩ := ih (by omega)
        (fun name mem => clean name (List.mem_cons_of_mem _ mem))
        (fun name mem => fits name (List.mem_cons_of_mem _ mem)) (by omega) run
      refine ⟨by omega, by rw [List.length_cons]; omega, by omega, fun fuel enough => ?_⟩
      obtain ⟨fuel, rfl⟩ := Nat.exists_eq_succ_of_ne_zero (Nat.ne_of_gt (Nat.zero_lt_of_lt enough))
      -- the rest of the loop leaves this record alone
      have record : DirentAt m' (buf + outOff) i name :=
        (direntAt_writeDirent (by omega) (fits name List.mem_cons_self)).congr
          fun x _ high => direntLoop_outside run x (by omega)
      have tail : outOff' - outOff - direntLen name = outOff' - (outOff + direntLen name) := by omega
      have taken : i' - i = i' - (i + 1) + 1 := by omega
      rw [readDirents, if_neg (by omega), record.reclen, if_neg (by omega),
        record.read (clean name List.mem_cons_self), tail, decoded fuel (by omega), taken,
        List.take_succ_cons, direntsFrom]
      rfl

/-! ## All calls -/

theorem direntsFrom_append (i : Nat) (names rest : List (List UInt8)) :
    direntsFrom i (names ++ rest) = direntsFrom i names ++ direntsFrom (i + names.length) rest := by
  induction names generalizing i with
  | nil => rfl
  | cons name names ih =>
    rw [List.cons_append, direntsFrom, ih, direntsFrom, List.cons_append, List.length_cons, Nat.add_assoc,
      Nat.add_comm 1]

theorem getdents64_decodes {desc desc' : DirFile} {count n : Nat} (entries : desc.dirEntries = some names)
    (clean : ∀ name ∈ names, 0 ∉ name) (fits : ∀ name ∈ names, direntLen name < 2 ^ 16)
    (inside : desc.offset ≤ names.length) (run : getdents64 desc m buf count = (n, desc', m')) :
    desc'.dirEntries = some names ∧ desc.offset ≤ desc'.offset ∧ desc'.offset ≤ names.length ∧
      decodeDirents m' buf n = some (direntsFrom desc.offset
        ((names.drop desc.offset).take (desc'.offset - desc.offset))) := by
  obtain ⟨_, offset, bounded⟩ := desc
  obtain rfl : _ = some names := entries
  have short := bounded names rfl
  have size : (names.drop offset).length = names.length - offset := List.length_drop
  simp only at inside
  simp only [getdents64] at run
  cases loop : direntLoop buf count (names.drop offset) offset 0 m with
  | mk i rest =>
    obtain ⟨outOff, written⟩ := rest
    simp only [loop] at run
    cases run
    obtain ⟨more, last, -, decoded⟩ := direntLoop_decodes rfl
      (fun name mem => clean name (List.mem_of_mem_drop mem))
      (fun name mem => fits name (List.mem_of_mem_drop mem)) (by omega) loop
    exact ⟨rfl, more, by simp only; omega, decoded _ (Nat.lt_succ_self _)⟩

/-- The buffers of successive calls on one descriptor decode to consecutive records of its names. -/
theorem direntCalls_decode {desc : DirFile} (entries : desc.dirEntries = some names)
    (clean : ∀ name ∈ names, 0 ∉ name) (fits : ∀ name ∈ names, direntLen name < 2 ^ 16)
    (inside : desc.offset ≤ names.length) (calls : List (Memory × Nat × Nat)) :
    ∃ records : List (List Dirent), direntCalls desc calls = records.map some ∧
      records.flatten <+: direntsFrom desc.offset (names.drop desc.offset) := by
  induction calls generalizing desc with
  | nil => exact ⟨[], rfl, List.nil_prefix⟩
  | cons call calls ih =>
    obtain ⟨m, buf, count⟩ := call
    cases run : getdents64 desc m buf count with
    | mk n rest =>
      obtain ⟨desc', m'⟩ := rest
      obtain ⟨entries', more, last, decoded⟩ := getdents64_decodes entries clean fits inside run
      obtain ⟨records, later, ⟨left, whole⟩⟩ := ih entries' last
      refine ⟨direntsFrom desc.offset ((names.drop desc.offset).take (desc'.offset - desc.offset)) ::
        records, ?_, left, ?_⟩
      · simp only [direntCalls, run, decoded, later, List.map_cons]
      · have size : ((names.drop desc.offset).take (desc'.offset - desc.offset)).length =
            desc'.offset - desc.offset := by
          rw [List.length_take, List.length_drop]
          omega
        have split : names.drop desc.offset =
            (names.drop desc.offset).take (desc'.offset - desc.offset) ++ names.drop desc'.offset := by
          have behind := List.take_append_drop (desc'.offset - desc.offset) (names.drop desc.offset)
          rwa [List.drop_drop, Nat.add_sub_cancel' more, eq_comm] at behind
        have records := direntsFrom_append desc.offset
          ((names.drop desc.offset).take (desc'.offset - desc.offset)) (names.drop desc'.offset)
        rw [← split, size, Nat.add_sub_cancel' more] at records
        rw [List.flatten_cons, List.append_assoc, whole, records]

/-- A directory that has just been opened: whatever buffers the calls pass, each buffer decodes, and the
records together are a first part of the names in order. -/
theorem getdents_in_order (desc : DirFile) (fresh : desc.offset = 0)
    (entries : desc.dirEntries = some names) (clean : ∀ name ∈ names, 0 ∉ name)
    (fits : ∀ name ∈ names, direntLen name < 2 ^ 16) (calls : List (Memory × Nat × Nat)) :
    ∃ records : List (List Dirent), direntCalls desc calls = records.map some ∧
      records.flatten <+: direntsFrom 0 names := by
  have decoded := direntCalls_decode entries clean fits (by omega) calls
  rwa [fresh, List.drop_zero] at decoded

/-- Two names in two buffers of 24 bytes, one record in each. -/
theorem getdents_two_buffers : ∃ records : List (List Dirent),
    direntCalls ⟨some [[97], [98, 99]], 0, by simp⟩ [(fun _ => 1, 64, 24), (fun _ => 1, 64, 24)] =
      records.map some ∧ records.flatten <+: direntsFrom 0 [[97], [98, 99]] ∧
      records = (direntsFrom 0 [[97], [98, 99]]).map fun record => [record] := by
  obtain ⟨records, calls, inOrder⟩ := getdents_in_order ⟨some [[97], [98, 99]], 0, by simp⟩ rfl rfl
    (by decide) (by decide) [(fun _ => 1, 64, 24), (fun _ => 1, 64, 24)]
  have decoded : direntCalls ⟨some [[97], [98, 99]], 0, by simp⟩
      [(fun _ => 1, 64, 24), (fun _ => 1, 64, 24)] =
        ((direntsFrom 0 [[97], [98, 99]]).map fun record => [record]).map some := by decide +kernel
  refine ⟨records, calls, inOrder, ?_⟩
  exact List.map_injective_iff.mpr (Option.some_injective _) (calls.symm.trans decoded)

/-! ## The end of a directory -/

/-- The names that are still to be handed out. -/
def DirFile.remaining (desc : DirFile) : List (List UInt8) :=
  (desc.dirEntries.getD []).drop desc.offset

/-- A caller that asks until the answer is 0, with the buffer `bufs k` in the `k`-th call: the names that
it was given. -/
def listUntilZero (bufs : Nat → Memory × Nat × Nat) : Nat → Nat → DirFile → Option (List (List UInt8))
  | 0, _, _ => none
  | fuel + 1, k, desc =>
    let (m, buf, count) := bufs k
    let (n, desc', _) := getdents64 desc m buf count
    if n = 0 then some []
    else (listUntilZero bufs fuel (k + 1) desc').map
      (desc.remaining.take (desc'.offset - desc.offset) ++ ·)

/-- The loop takes a first part of the names; it stops at the end or before a record that does not fit. -/
theorem direntLoop_taken {count outOff i' outOff' : Nat}
    (run : direntLoop buf count names i outOff m = (i', outOff', m')) :
    ∃ taken rest, names = taken ++ rest ∧ i' = i + taken.length ∧
      outOff' = outOff + (taken.map direntLen).sum ∧ (taken = [] ∨ outOff' ≤ count) ∧
      ∀ name ∈ rest.head?, count < outOff' + direntLen name := by
  induction names generalizing i outOff m with
  | nil =>
    cases run
    exact ⟨[], [], rfl, rfl, rfl, .inl rfl, by simp⟩
  | cons name names ih =>
    rw [direntLoop] at run
    split at run
    next full =>
      cases run
      exact ⟨[], name :: names, rfl, rfl, rfl, .inl rfl, by simpa using full⟩
    next fits =>
      obtain ⟨taken, rest, rfl, rfl, rfl, room, stop⟩ := ih run
      refine ⟨name :: taken, rest, rfl, ?_, ?_, .inr ?_, stop⟩
      · rw [List.length_cons]
        omega
      · rw [List.map_cons, List.sum_cons, Nat.add_assoc]
      · rcases room with rfl | room
        · simpa using Nat.not_lt.mp fits
        · exact room

theorem getdents64_taken {desc desc' : DirFile} {count n : Nat}
    (run : getdents64 desc m buf count = (n, desc', m')) :
    ∃ taken, desc.remaining = taken ++ desc'.remaining ∧ desc'.offset = desc.offset + taken.length ∧
      n = (taken.map direntLen).sum ∧ (taken = [] ∨ n ≤ count) ∧
      ∀ name ∈ desc'.remaining.head?, count < n + direntLen name := by
  obtain ⟨entries, offset, bounded⟩ := desc
  cases entries with
  | none =>
    cases run
    exact ⟨[], by simp, rfl, rfl, .inl rfl, by simp [DirFile.remaining]⟩
  | some names =>
    simp only [getdents64] at run
    rcases loop : direntLoop buf count (names.drop offset) offset 0 m with ⟨i, outOff, written⟩
    simp only [loop] at run
    cases run
    obtain ⟨taken, rest, split, rfl, rfl, room, stop⟩ := direntLoop_taken loop
    have behind : names.drop (offset + taken.length) = rest := by
      rw [← List.drop_drop, split, List.drop_left]
    refine ⟨taken, ?_, rfl, Nat.zero_add _, room, ?_⟩
    · simp only [DirFile.remaining, Option.getD_some, behind, split]
    · simpa only [DirFile.remaining, Option.getD_some, behind] using stop

theorem sum_direntLen_eq_zero {taken : List (List UInt8)} :
    (taken.map direntLen).sum = 0 ↔ taken = [] := by
  cases taken with
  | nil => simp
  | cons name taken =>
    have := length_lt_direntLen name
    rw [List.map_cons, List.sum_cons]
    simp only [reduceCtorEq, iff_false]
    omega

/-- The answer is 0 just if nothing remains or the next record does not fit. -/
theorem getdents64_eq_zero {desc desc' : DirFile} {count n : Nat}
    (run : getdents64 desc m buf count = (n, desc', m')) :
    n = 0 ↔ ∀ name ∈ desc.remaining.head?, count < direntLen name := by
  obtain ⟨taken, split, -, rfl, room, stop⟩ := getdents64_taken run
  rw [sum_direntLen_eq_zero]
  constructor
  · rintro rfl
    simpa [split] using stop
  · intro full
    rcases room with none | room
    · exact none
    · cases taken with
      | nil => rfl
      | cons name taken =>
        have first := full name (by simp [split])
        rw [List.map_cons, List.sum_cons] at room
        omega

/-- The descriptor before the `k`-th call. -/
def afterCalls (bufs : Nat → Memory × Nat × Nat) (desc : DirFile) : Nat → DirFile
  | 0 => desc
  | k + 1 => (getdents64 (afterCalls bufs desc k) (bufs k).1 (bufs k).2.1 (bufs k).2.2).2.1

/-- With buffers that hold the record that comes next, the caller is given all names. -/
theorem listUntilZero_complete (bufs : Nat → Memory × Nat × Nat) (desc : DirFile)
    (hold : ∀ k, ∀ name ∈ (afterCalls bufs desc k).remaining.head?, direntLen name ≤ (bufs k).2.2)
    (k : Nat) : ∃ fuel, listUntilZero bufs fuel k (afterCalls bufs desc k) =
      some (afterCalls bufs desc k).remaining := by
  -- every call before the last hands out a name
  induction len : (afterCalls bufs desc k).remaining.length using Nat.strong_induction_on
    generalizing k with
  | _ size ih =>
    have holds := hold k
    have next : afterCalls bufs desc (k + 1) = (getdents64 (afterCalls bufs desc k) (bufs k).1
      (bufs k).2.1 (bufs k).2.2).2.1 := rfl
    have later := fun fewer => ih _ fewer (k + 1) rfl
    rcases buffer : bufs k with ⟨m, buf, count⟩
    generalize afterCalls bufs desc k = before at len holds next ⊢
    rcases run : getdents64 before m buf count with ⟨n, desc', m'⟩
    simp only [buffer, run] at holds next
    rw [next] at later
    by_cases last : n = 0
    · have nothing : before.remaining = [] := by
        cases remaining : before.remaining with
        | nil => rfl
        | cons name rest =>
          have full := (getdents64_eq_zero run).mp last name (by simp [remaining])
          have fits := holds name (by simp [remaining])
          omega
      refine ⟨1, ?_⟩
      simp only [listUntilZero, buffer, run, if_pos last, nothing]
    · obtain ⟨taken, split, offset, total, -, -⟩ := getdents64_taken run
      have some : taken ≠ [] := fun none => last (total.trans (sum_direntLen_eq_zero.mpr none))
      obtain ⟨fuel, rest⟩ := later (by
        rw [← len, split, List.length_append]
        have := List.length_pos_iff.mpr some
        omega)
      refine ⟨fuel + 1, ?_⟩
      simp only [listUntilZero, buffer, run, if_neg last, rest, Option.map_some, offset]
      rw [Nat.add_sub_cancel_left, split, List.take_left]

/-- `getdents64` answers 0 only at the end of the directory if and only if the buffer holds the next
record; and a caller each of whose buffers holds the record that is next at that call is given the whole
listing. -/
theorem getdents_end_iff (desc : DirFile) :
    (∀ m buf count, ((getdents64 desc m buf count).1 = 0 → desc.remaining = []) ↔
      ∀ name ∈ desc.remaining.head?, direntLen name ≤ count) ∧
    ∀ bufs : Nat → Memory × Nat × Nat,
      (∀ k, ∀ name ∈ (afterCalls bufs desc k).remaining.head?, direntLen name ≤ (bufs k).2.2) →
        ∃ fuel, listUntilZero bufs fuel 0 desc = some desc.remaining := by
  refine ⟨fun m buf count => ?_, fun bufs hold => listUntilZero_complete bufs desc hold 0⟩
  rcases run : getdents64 desc m buf count with ⟨n, desc', m'⟩
  rw [getdents64_eq_zero run]
  cases desc.remaining with
  | nil => simp
  | cons name rest => simp

/-- A name of five bytes and a buffer of 24: the answer is 0, and the caller takes the directory to be
empty. -/
theorem getdents_ends_early :
    let desc : DirFile := ⟨some [[104, 101, 108, 108, 111]], 0, by simp⟩
    desc.remaining = [[104, 101, 108, 108, 111]] ∧
      (∀ m buf, (getdents64 desc m buf 24).1 = 0) ∧
      listUntilZero (fun _ => (fun _ => 0, 64, 24)) 1 0 desc = some [] := by
  have large : (24 : Nat) < 0 + direntLen [104, 101, 108, 108, 111] := by decide
  refine ⟨rfl, fun m buf => ?_, rfl⟩
  simp only [getdents64, List.drop_zero, direntLoop, if_pos large]

end Ferrum
