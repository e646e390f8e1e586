import Ferrum.Fs.Ramfs
import Mathlib

/-!
# Extraction of the initial archive

`initramfs::extract` walks a cpio archive in the newc format: a header of 110 bytes with hexadecimal
fields, the name with its terminating zero, the data, each aligned to four bytes relative to the start
of the archive. The format itself is described apart from the parser, as a relation between an entry
and its bytes.
-/
namespace Ferrum

/-- A string of ASCII characters, as its bytes. -/
def ascii (s : String) : List UInt8 := s.toList.map fun c => UInt8.ofNat c.toNat

namespace Newc

def NEWC_MAGIC : List UInt8 := ascii "070701"
def TRAILER : List UInt8 := ascii "TRAILER!!!"

/-- `data[a..b]`. -/
def slice (data : List UInt8) (a b : Nat) : List UInt8 := (data.drop a).take (b - a)

/-- The low two bits of `x + 3` cleared; positions are far from the top of the address space. -/
def align4 (x : Nat) : Nat := (x + 3) / 4 * 4

def hexDigit (b : UInt8) : Option Nat :=
  if 0x30 ≤ b ∧ b ≤ 0x39 then some (b.toNat - 0x30)
  else if 0x61 ≤ b ∧ b ≤ 0x66 then some (b.toNat - 0x61 + 10)
  else if 0x41 ≤ b ∧ b ≤ 0x46 then some (b.toNat - 0x41 + 10)
  else none

def parseHex8 (s : List UInt8) : Option Nat :=
  if s.length < 8 then none
  else (s.take 8).foldlM (fun val b => (hexDigit b).map fun digit => val * 16 + digit) 0

structure Header where
  mode : Nat
  namesize : Nat
  filesize : Nat

def Header.parse (data : List UInt8) : Option Header := do
  let mode ← parseHex8 (slice data 14 22)
  let filesize ← parseHex8 (slice data 54 62)
  let namesize ← parseHex8 (slice data 94 102)
  return ⟨mode % 2 ^ 32, namesize, filesize⟩

/-- `from_utf8`, up to the first zero byte. -/
def nameOf (bytes : List UInt8) : List UInt8 :=
  let name := bytes.takeWhile (· ≠ 0)
  if (ByteArray.mk name.toArray).validateUTF8 then name else ascii "<invalid>"

/-- The name without a leading `./`. -/
def stripped (name : List UInt8) : List UInt8 :=
  if ascii "./" <+: name then name.drop 2 else name

def normalizePath (name : List UInt8) : Path := ascii "/" ++ stripped name

/-- What the archive holds at a position, and where the next header may start. -/
structure Item where
  name : List UInt8
  mode : Nat
  fileData : List UInt8
  next : Nat

/-- One pass of the loop of `extract`, up to the file type; `none` leaves the loop. -/
def readItem (data : List UInt8) (pos : Nat) : Option Item :=
  let pos := align4 pos
  if data.length < pos + 110 then none
  else if slice data pos (pos + 6) ≠ NEWC_MAGIC then none
  else match Header.parse (slice data pos (pos + 110)) with
    | none => none
    | some hdr =>
      let pos := pos + 110
      if data.length < pos + hdr.namesize then none
      else
        let name := nameOf (slice data pos (pos + hdr.namesize))
        let pos := align4 (pos + hdr.namesize)
        if name = TRAILER then none
        else if data.length < pos + hdr.filesize then none
        else some ⟨name, hdr.mode, slice data pos (pos + hdr.filesize), align4 (pos + hdr.filesize)⟩

/-- What an item does to the file system. The results of the calls are only printed; symbolic links are
not supported, and devices are ignored. -/
def accept (fs : Ramfs) (item : Item) : Ramfs :=
  match item.mode >>> 12 &&& 0xf with
  | 0o10 =>
    if item.name = ascii "." then fs
    else (fs.change (fs.writeFile (normalizePath item.name) item.fileData)).2
  | 0o04 =>
    if item.name = ascii "." then fs else (fs.change (fs.mkdir (normalizePath item.name))).2
  | _ => fs

/-- The loop of `extract`. The first argument bounds the number of headers. -/
def extractFrom : Nat → List UInt8 → Nat → Ramfs → Ramfs
  | 0, _, _, fs => fs
  | fuel + 1, data, pos, fs =>
    match readItem data pos with
    | none => fs
    | some item => extractFrom fuel data item.next (accept fs item)

/-- Every header takes 110 bytes, so there are fewer of them than bytes. -/
def extract (data : List UInt8) (rootfs : Ramfs) : Ramfs := extractFrom (data.length + 1) data 0 rootfs

/-! ## The loop ends -/

variable {data : List UInt8} {fs : Ramfs} {pos n : Nat} {item : Item}

theorem le_align4 (x : Nat) : x ≤ align4 x := by
  unfold align4
  omega

/-- A pass that goes on has found a header, a name and the data of a file. -/
theorem readItem_some (read : readItem data pos = some item) : ∃ hdr : Header,
    align4 pos + 110 ≤ data.length ∧
    align4 (align4 pos + 110 + hdr.namesize) + hdr.filesize ≤ data.length ∧
    item.next = align4 (align4 (align4 pos + 110 + hdr.namesize) + hdr.filesize) := by
  unfold readItem at read
  grind

/-- Every pass moves past a header inside of the data, and at most to where the data ends. -/
theorem readItem_next (read : readItem data pos = some item) :
    align4 pos + 110 ≤ data.length ∧ align4 pos + 110 ≤ item.next ∧ item.next ≤ align4 data.length := by
  obtain ⟨hdr, header, content, next⟩ := readItem_some read
  have name := le_align4 (align4 pos + 110 + hdr.namesize)
  have file := le_align4 (align4 (align4 pos + 110 + hdr.namesize) + hdr.filesize)
  refine ⟨header, by omega, ?_⟩
  rw [next, align4, align4.eq_1 data.length]
  omega

/-- More fuel than there can be headers changes nothing: the loop has ended by itself. -/
theorem extractFrom_fuel (enough : data.length < pos + 110 * n) :
    extractFrom (n + 1) data pos fs = extractFrom n data pos fs := by
  induction n generalizing pos fs with
  | zero =>
    cases read : readItem data pos with
    | none => simp [extractFrom, read]
    | some item =>
      have := (readItem_next read).1
      have := le_align4 pos
      omega
  | succ n ih =>
    rw [extractFrom.eq_2 data pos fs (n + 1), extractFrom.eq_2 data pos fs n]
    cases read : readItem data pos with
    | none => rfl
    | some item =>
      have := (readItem_next read).2.1
      have := le_align4 pos
      exact ih (by omega)

/-- The number of passes that is allowed does not matter, if it is enough. -/
theorem extractFrom_enough (enough : data.length < 110 * n) (k : Nat) :
    extractFrom (n + k) data 0 fs = extractFrom n data 0 fs := by
  induction k with
  | zero => rfl
  | succ k ih => rw [← Nat.add_assoc, extractFrom_fuel (by omega), ih]

/-! ## The format -/

structure Entry where
  name : List UInt8
  mode : Nat
  data : List UInt8

/-- The character of a hexadecimal digit, in either case. -/
def IsDigit (b : UInt8) (d : Nat) : Prop :=
  (d < 10 ∧ b.toNat = 0x30 + d) ∨
    (10 ≤ d ∧ d < 16 ∧ (b.toNat = 0x61 + (d - 10) ∨ b.toNat = 0x41 + (d - 10)))

instance (b : UInt8) (d : Nat) : Decidable (IsDigit b d) := inferInstanceAs (Decidable (_ ∨ _))

/-- Eight digits, the most significant first. -/
def Hex8 (s : List UInt8) (n : Nat) : Prop :=
  ∃ digits, digits.length = 8 ∧ List.Forall₂ IsDigit s digits ∧ Nat.ofDigits 16 digits.reverse = n

/-- The bytes of an entry, from one aligned position to the next. The fields that the parser does not
read and the padding are arbitrary. -/
structure Encoding (e : Entry) (header pad pad' : List UInt8) : Prop where
  size : header.length = 110
  magic : slice header 0 6 = NEWC_MAGIC
  mode : Hex8 (slice header 14 22) e.mode
  filesize : Hex8 (slice header 54 62) e.data.length
  namesize : Hex8 (slice header 94 102) (e.name.length + 1)
  short : pad.length < 4
  aligned : 4 ∣ 110 + (e.name.length + 1) + pad.length
  short' : pad'.length < 4
  aligned' : 4 ∣ e.data.length + pad'.length

def Encodes (e : Entry) (bytes : List UInt8) : Prop :=
  ∃ header pad pad', Encoding e header pad pad' ∧
    bytes = header ++ ((e.name ++ [0]) ++ (pad ++ (e.data ++ pad')))

/-- A name that ends before its terminating zero and that is text. -/
structure Entry.Named (e : Entry) : Prop where
  noZero : 0 ∉ e.name
  text : (ByteArray.mk e.name.toArray).validateUTF8 = true

/-! ## Reading what was written -/

variable {e : Entry} {bytes before after header pad pad' s : List UInt8}

theorem hexDigit_of_isDigit {b : UInt8} {d : Nat} (h : IsDigit b d) : hexDigit b = some d := by
  simp only [hexDigit, UInt8.le_iff_toNat_le, UInt8.reduceToNat]
  grind [IsDigit]

theorem foldlM_hexDigit {digits : List Nat} (h : List.Forall₂ IsDigit s digits) (v : Nat) :
    s.foldlM (fun val b => (hexDigit b).map fun digit => val * 16 + digit) v =
      some (v * 16 ^ digits.length + Nat.ofDigits 16 digits.reverse) := by
  induction h generalizing v with
  | nil => simp
  | cons first _ ih =>
    rw [List.foldlM_cons, hexDigit_of_isDigit first]
    simp only [Option.map_some, Option.bind_eq_bind, Option.bind_some, ih, List.length_cons,
      List.reverse_cons, Nat.ofDigits_append, List.length_reverse, Nat.ofDigits_singleton, pow_succ]
    congr 1
    ring

/-- Eight digits in either case are read as the number that they denote. -/
theorem parseHex8_of_hex8 (h : Hex8 s n) : parseHex8 s = some n := by
  obtain ⟨digits, length, isDigit, rfl⟩ := h
  have size : s.length = 8 := isDigit.length_eq.trans length
  rw [parseHex8, if_neg (by omega), List.take_of_length_le (by omega), foldlM_hexDigit isDigit]
  simp

theorem lt_of_hex8 (h : Hex8 s n) : n < 2 ^ 32 := by
  obtain ⟨digits, length, isDigit, rfl⟩ := h
  have small : ∀ d ∈ digits, d < 16 := by
    clear length
    induction isDigit with
    | nil => simp
    | cons first _ ih => grind [IsDigit]
  have bound := Nat.ofDigits_lt_base_pow_length (b := 16) (l := digits.reverse) (by omega)
    fun d hd => small d (List.mem_reverse.mp hd)
  simpa [length] using bound

theorem Encoding.parse (h : Encoding e header pad pad') :
    Header.parse header = some ⟨e.mode, e.name.length + 1, e.data.length⟩ := by
  have mode := lt_of_hex8 h.mode
  simpa [Header.parse, parseHex8_of_hex8 h.mode, parseHex8_of_hex8 h.filesize,
    parseHex8_of_hex8 h.namesize] using mode

theorem slice_append (before bytes : List UInt8) (k : Nat) :
    slice (before ++ bytes) before.length (before.length + k) = bytes.take k := by
  simp [slice]

theorem nameOf_terminated (named : e.Named) : nameOf (e.name ++ [0]) = e.name := by
  have keep : ∀ b ∈ e.name, decide (b ≠ 0) = true := by
    intro b hb
    have := named.noZero
    grind
  have cut : (e.name ++ [0]).takeWhile (· ≠ 0) = e.name := by
    rw [List.takeWhile_append_of_pos keep]
    simp
  simp only [nameOf, cut, named.text, if_true]

theorem align4_of_dvd {x k : Nat} (short : k < 4) (aligned : 4 ∣ x + k) : align4 x = x + k := by
  unfold align4
  omega

/-- The header, the name and the position of the data are found at an aligned position. -/
theorem readItem_encoding (aligned : 4 ∣ before.length) (h : Encoding e header pad pad')
    (named : e.Named) (split : data = before ++ (header ++ ((e.name ++ [0]) ++ (pad ++ after)))) :
    readItem data before.length =
      if e.name = TRAILER then none
      else if after.length < e.data.length then none
      else some ⟨e.name, e.mode, after.take e.data.length,
        align4 (before.length + (110 + (e.name.length + 1) + pad.length) + e.data.length)⟩ := by
  have size := h.size
  have start : align4 before.length = before.length := align4_of_dvd (k := 0) (by omega) (by omega)
  have length : data.length = before.length + (110 + (e.name.length + 1) + pad.length) + after.length := by
    rw [split]
    simp only [List.length_append, size, List.length_cons, List.length_nil]
    omega
  have whole : slice data before.length (before.length + 110) = header := by
    rw [split, slice_append, ← size, List.take_left]
  have magic : slice data before.length (before.length + 6) = NEWC_MAGIC := by
    rw [split, slice_append, List.take_append_of_le_length (by omega)]
    exact h.magic
  have text : slice data (before.length + 110) (before.length + 110 + (e.name.length + 1)) =
      e.name ++ [0] := by
    have found := slice_append (before ++ header) ((e.name ++ [0]) ++ (pad ++ after)) (e.name.length + 1)
    rw [List.append_assoc, ← split, List.length_append, size] at found
    rw [found, List.take_append_of_le_length (by simp), List.take_of_length_le (by simp)]
  have content : slice data (before.length + (110 + (e.name.length + 1) + pad.length))
      (before.length + (110 + (e.name.length + 1) + pad.length) + e.data.length) =
        after.take e.data.length := by
    have found := slice_append (before ++ (header ++ ((e.name ++ [0]) ++ pad))) after e.data.length
    have split' : data = (before ++ (header ++ ((e.name ++ [0]) ++ pad))) ++ after := by simp [split]
    have length' : (before ++ (header ++ ((e.name ++ [0]) ++ pad))).length =
        before.length + (110 + (e.name.length + 1) + pad.length) := by
      simp only [List.length_append, size, List.length_cons, List.length_nil]
      omega
    rwa [← split', length'] at found
  have past : align4 (before.length + 110 + (e.name.length + 1)) =
      before.length + (110 + (e.name.length + 1) + pad.length) := by
    have := h.aligned
    rw [align4_of_dvd h.short (by omega)]
    omega
  unfold readItem
  simp only [start]
  rw [if_neg (by omega), if_neg (by simp [magic]), whole, h.parse]
  simp only
  rw [if_neg (by omega), text, nameOf_terminated named, past, content, length]
  simp only [Nat.add_lt_add_iff_left]

/-- An entry is read back as it was written, and the next header starts where it ends. -/
theorem readItem_encodes (aligned : 4 ∣ before.length) (h : Encodes e bytes) (named : e.Named)
    (ordinary : e.name ≠ TRAILER) (split : data = before ++ (bytes ++ after)) :
    4 ∣ bytes.length ∧ readItem data before.length =
      some ⟨e.name, e.mode, e.data, before.length + bytes.length⟩ := by
  obtain ⟨header, pad, pad', enc, rfl⟩ := h
  have size := enc.size
  have dvd := enc.aligned
  have dvd' := enc.aligned'
  have total : (header ++ ((e.name ++ [0]) ++ (pad ++ (e.data ++ pad')))).length =
      110 + (e.name.length + 1) + pad.length + (e.data.length + pad'.length) := by
    simp only [List.length_append, size, List.length_cons, List.length_nil]
    omega
  have split' : data = before ++ (header ++ ((e.name ++ [0]) ++ (pad ++ ((e.data ++ pad') ++ after)))) := by
    simp [split]
  refine ⟨by rw [total]; omega, ?_⟩
  rw [readItem_encoding aligned enc named split', if_neg ordinary, if_neg (by simp), total,
    align4_of_dvd enc.short' (by omega)]
  congr 2
  · simp
  · omega

theorem readItem_trailer (aligned : 4 ∣ before.length) (h : Encodes e bytes) (trailer : e.name = TRAILER)
    (split : data = before ++ (bytes ++ after)) : readItem data before.length = none := by
  obtain ⟨header, pad, pad', enc, rfl⟩ := h
  have named : e.Named := by
    constructor
    · rw [trailer]
      decide
    · rw [trailer]
      decide +kernel
  have split' : data = before ++ (header ++ ((e.name ++ [0]) ++ (pad ++ ((e.data ++ pad') ++ after)))) := by
    simp [split]
  rw [readItem_encoding aligned enc named split', if_pos trailer]

/-! ## The extracted file system -/

/-- The paths and nodes of a file system, in the order of its entries. -/
def contents (fs : Ramfs) : List (Path × Option RamfsNode) :=
  fs.entries.map fun entry => (entry.1, fs.nodes[entry.2]?)

/-- What an entry of the archive stands for: a file, a directory, or nothing. -/
def expected (e : Entry) : Option (Path × RamfsNode) :=
  if e.name = ascii "." then none
  else match e.mode >>> 12 &&& 0xf with
    | 0o10 => some (normalizePath e.name, ⟨.regular, e.data⟩)
    | 0o04 => some (normalizePath e.name, ⟨.directory, []⟩)
    | _ => none

/-- These paths and nodes, and no others. -/
def Holds (fs : Ramfs) (l : List (Path × RamfsNode)) : Prop :=
  contents fs = l.map fun x => (x.1, some x.2)

variable {l : List (Path × RamfsNode)} {path : Path} {node : RamfsNode}

theorem Holds.paths (h : Holds fs l) : fs.entries.map Prod.fst = l.map Prod.fst := by
  have paths := congrArg (List.map Prod.fst) h
  simpa [contents, Function.comp_def] using paths

theorem Holds.fresh (h : Holds fs l) (fresh : path ∉ l.map Prod.fst) : fs.openPath path = none := by
  rw [← h.paths] at fresh
  refine Keyed.get_eq_none.mpr fun entry mem same => fresh ?_
  exact List.mem_map.mpr ⟨entry, mem, same⟩

theorem Holds.push (h : Holds fs l) : Holds (fs.push path node) (l ++ [(path, node)]) := by
  have old : ∀ entry ∈ fs.entries, (fs.nodes ++ [node])[entry.2]? = fs.nodes[entry.2]? := by
    intro entry mem
    have there : (entry.1, fs.nodes[entry.2]?) ∈ contents fs := List.mem_map.mpr ⟨entry, mem, rfl⟩
    rw [h] at there
    obtain ⟨x, -, same⟩ := List.mem_map.mp there
    have inside : entry.2 < fs.nodes.length := by
      by_contra out
      have none : fs.nodes[entry.2]? = none := List.getElem?_eq_none (by omega)
      simp [none] at same
    exact List.getElem?_append_left inside
  have kept : (fs.entries.map fun entry => (entry.1, (fs.nodes ++ [node])[entry.2]?)) = contents fs := by
    refine List.map_congr_left fun entry mem => ?_
    rw [old entry mem]
  rw [Holds, contents, Ramfs.push, List.map_append, List.map_append, kept, h]
  simp

/-- An item adds what its entry stands for, under a path that is not there yet. -/
theorem Holds.accept (h : Holds fs l) (next : Nat) (fresh : normalizePath e.name ∉ l.map Prod.fst) :
    Holds (accept fs ⟨e.name, e.mode, e.data, next⟩) (l ++ (expected e).toList) := by
  have absent := h.fresh fresh
  have noEntry : fs.entries.find? (·.1 = normalizePath e.name) = none := by
    simpa [Ramfs.openPath, Keyed.get] using absent
  unfold Newc.accept expected
  by_cases root : e.name = ascii "."
  · simp only [root, if_true, Option.toList_none, List.append_nil]
    split <;> exact h
  · simp only [root, if_false]
    split
    · simp only [Ramfs.writeFile, noEntry, Ramfs.change]
      exact h.push
    · simp only [Ramfs.mkdir, Ramfs.any_entries, absent, Ramfs.change]
      exact h.push
    · simpa using h

theorem expected_path {x : Path × RamfsNode} (h : expected e = some x) : x.1 = normalizePath e.name := by
  unfold expected at h
  grind

section Archive

variable {entries : List Entry} {parts : List (List UInt8)} {last : Entry} {tail junk : List UInt8}
  (encoded : List.Forall₂ Encodes entries parts) (trailer : Encodes last tail) (isLast : last.name = TRAILER)
include encoded trailer isLast

theorem extractFrom_encoded (fuel : Nat) (enough : entries.length < fuel) (aligned : 4 ∣ before.length)
    (split : data = before ++ (parts.flatten ++ (tail ++ junk))) (named : ∀ e ∈ entries, e.Named)
    (ordinary : ∀ e ∈ entries, e.name ≠ TRAILER)
    (distinct : (l.map Prod.fst ++ entries.map (normalizePath ·.name)).Nodup) (h : Holds fs l) :
    Holds (extractFrom fuel data before.length fs) (l ++ entries.filterMap expected) := by
  induction encoded generalizing before fs l fuel with
  | nil =>
    obtain ⟨fuel, rfl⟩ := Nat.exists_eq_add_one_of_ne_zero (show fuel ≠ 0 by omega)
    rw [extractFrom, readItem_trailer aligned trailer isLast split]
    simpa using h
  | @cons e bytes entries parts first _ ih =>
    obtain ⟨fuel, rfl⟩ := Nat.exists_eq_add_one_of_ne_zero (show fuel ≠ 0 by simp at enough; omega)
    have split' : data = before ++ (bytes ++ (parts.flatten ++ (tail ++ junk))) := by simp [split]
    obtain ⟨size, read⟩ := readItem_encodes aligned first (named e List.mem_cons_self)
      (ordinary e List.mem_cons_self) split'
    have fresh : normalizePath e.name ∉ l.map Prod.fst := by
      intro there
      have := (List.nodup_append.mp distinct).2.2 _ there (normalizePath e.name) (by simp)
      exact this rfl
    -- the accumulated paths stay apart from those to come, whether the entry is kept or not
    have distinct' : ((l ++ (expected e).toList).map Prod.fst ++ entries.map (normalizePath ·.name)).Nodup := by
      cases kept : expected e with
      | none =>
        refine distinct.sublist ?_
        simp
      | some x => simpa [expected_path kept] using distinct
    have split'' : data = (before ++ bytes) ++ (parts.flatten ++ (tail ++ junk)) := by simp [split]
    have aligned' : 4 ∣ (before ++ bytes).length := by
      rw [List.length_append]
      omega
    have kept : (e :: entries).filterMap expected = (expected e).toList ++ entries.filterMap expected := by
      cases found : expected e <;> simp [found]
    rw [extractFrom, read, kept, ← List.append_assoc]
    have rest := ih fuel (by simpa using enough) aligned' split''
      (fun e he => named e (List.mem_cons_of_mem _ he)) (fun e he => ordinary e (List.mem_cons_of_mem _ he))
      distinct' (h.accept (before.length + bytes.length) fresh)
    rwa [List.length_append] at rest

end Archive

/-- Extraction undoes encoding: the file system holds the files and directories of the archive, with
their data, and nothing else. Only the name `.` itself is left out. -/
theorem extract_archive {entries : List Entry} {parts : List (List UInt8)} {last : Entry}
    {tail : List UInt8} (junk : List UInt8) (encoded : List.Forall₂ Encodes entries parts)
    (trailer : Encodes last tail) (isLast : last.name = TRAILER) (named : ∀ e ∈ entries, e.Named)
    (ordinary : ∀ e ∈ entries, e.name ≠ TRAILER)
    (distinct : (entries.map (stripped ·.name)).Nodup) :
    contents (extract (parts.flatten ++ tail ++ junk) Ramfs.new) =
      (entries.filterMap expected).map fun x => (x.1, some x.2) := by
  have paths : (([] : List (Path × RamfsNode)).map Prod.fst ++
      entries.map (normalizePath ·.name)).Nodup := by
    have slash : entries.map (normalizePath ·.name) =
        (entries.map (stripped ·.name)).map (ascii "/" ++ ·) := by simp [normalizePath]
    rw [List.map_nil, List.nil_append, slash]
    exact distinct.map fun a b same => List.append_cancel_left same
  have split : parts.flatten ++ tail ++ junk = [] ++ (parts.flatten ++ (tail ++ junk)) := by simp
  have start : Holds Ramfs.new [] := rfl
  rw [extract, ← extractFrom_enough (by omega) entries.length]
  exact extractFrom_encoded encoded trailer isLast _ (by omega) (by simp) split named ordinary paths start

/-! ## Two archives -/

/-- A header with zeros in the fields that are not read. -/
def headerOf (mode filesize namesize : String) : List UInt8 :=
  NEWC_MAGIC ++ (ascii "00000000" ++ ascii mode ++ List.replicate 32 0x30 ++ ascii filesize ++
    List.replicate 32 0x30 ++ ascii namesize ++ ascii "00000000")

/-- A regular file. -/
def fileBytes : List UInt8 :=
  headerOf "000081a4" "00000001" "00000004" ++ ((ascii "./a" ++ [0]) ++ ([0, 0] ++ ([7] ++ [0, 0, 0])))

/-- A regular file with the name of the root, written in upper case. -/
def rootBytes : List UInt8 :=
  headerOf "000081A4" "00000000" "00000004" ++ ((ascii "./." ++ [0]) ++ ([0, 0] ++ ([] ++ [])))

def trailerBytes : List UInt8 :=
  headerOf "00000000" "00000000" "0000000b" ++ ((TRAILER ++ [0]) ++ ([0, 0, 0] ++ ([] ++ [])))

theorem fileBytes_encodes : Encodes ⟨ascii "./a", 0o100644, [7]⟩ fileBytes := by
  refine ⟨_, [0, 0], [0, 0, 0], ⟨by decide, by decide, ⟨[0, 0, 0, 0, 8, 1, 10, 4], rfl, ?_, by decide⟩,
    ⟨[0, 0, 0, 0, 0, 0, 0, 1], rfl, ?_, by decide⟩, ⟨[0, 0, 0, 0, 0, 0, 0, 4], rfl, ?_, by decide⟩,
    by decide, by decide, by decide, by decide⟩, rfl⟩ <;> decide

theorem rootBytes_encodes : Encodes ⟨ascii "./.", 0o100644, []⟩ rootBytes := by
  refine ⟨_, [0, 0], [], ⟨by decide, by decide, ⟨[0, 0, 0, 0, 8, 1, 10, 4], rfl, ?_, by decide⟩,
    ⟨[0, 0, 0, 0, 0, 0, 0, 0], rfl, ?_, by decide⟩, ⟨[0, 0, 0, 0, 0, 0, 0, 4], rfl, ?_, by decide⟩,
    by decide, by decide, by decide, by decide⟩, rfl⟩ <;> decide

theorem trailerBytes_encodes : Encodes ⟨TRAILER, 0, []⟩ trailerBytes := by
  refine ⟨_, [0, 0, 0], [], ⟨by decide, by decide, ⟨[0, 0, 0, 0, 0, 0, 0, 0], rfl, ?_, by decide⟩,
    ⟨[0, 0, 0, 0, 0, 0, 0, 0], rfl, ?_, by decide⟩, ⟨[0, 0, 0, 0, 0, 0, 0, 11], rfl, ?_, by decide⟩,
    by decide, by decide, by decide, by decide⟩, rfl⟩ <;> decide

/-- One file, a trailer and more bytes. -/
theorem extract_archive_file :
    contents (extract ([fileBytes].flatten ++ trailerBytes ++ [1, 2, 3]) Ramfs.new) =
      [(ascii "/a", some ⟨.regular, [7]⟩)] := by
  have held := extract_archive [1, 2, 3] (.cons fileBytes_encodes .nil) trailerBytes_encodes rfl
    (by simpa using ⟨by decide, by decide +kernel⟩) (by simpa using by decide) (by simp)
  rw [held]
  decide

/-- The name `./.` denotes the root as well, but leaves an entry. -/
theorem extract_keeps_root :
    Encodes ⟨ascii "./.", 0o100644, []⟩ rootBytes ∧ stripped (ascii "./.") = ascii "." ∧
    Encodes ⟨TRAILER, 0, []⟩ trailerBytes ∧
    contents (extract (rootBytes ++ trailerBytes) Ramfs.new) =
      [(ascii "/.", some ⟨.regular, []⟩)] :=
  ⟨rootBytes_encodes, by decide, trailerBytes_encodes, by decide +kernel⟩

end Newc
end Ferrum
