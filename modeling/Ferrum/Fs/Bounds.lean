import Ferrum.Fs.Newc
import Ferrum.Library.Run
import Ferrum.Machine.Basic

/-!
# The extraction never stops the kernel

The archive comes from the boot medium, and its sizes are whatever the headers say. Here the walk of
`initramfs::extract` is done with the index checks of its slices and in 64-bit words. On every archive it
returns, with the result that the walk over numbers without a bound gives, so no slice is out of bounds
and no position overflows.
-/
namespace Ferrum

def Profile.mul : Profile → Nat → Nat → Except Stop Nat
  | .dev, a, b => if a * b < 2 ^ 64 then .ok (a * b) else .error .overflow
  | .release, a, b => .ok (a * b % 2 ^ 64)

theorem Profile.mul_ok (p : Profile) {a b : Nat} (h : a * b < 2 ^ 64) : p.mul a b = .ok (a * b) := by
  cases p with
  | dev => exact if_pos h
  | release => rw [mul, Nat.mod_eq_of_lt h]

namespace Newc.Checked

variable {p : Profile} {data s : List UInt8} {pos n : Nat} {item : Item} {fs : Ramfs}

/-- `&data[a..b]`. -/
def slice (data : List UInt8) (a b : Nat) : Except Stop (List UInt8) :=
  if a ≤ b ∧ b ≤ data.length then .ok (Newc.slice data a b) else .error .indexOutOfBounds

def align4 (p : Profile) (x : Nat) : Except Stop Nat := do
  let past ← p.add x 3
  return past &&& not64 3

/-- The loop of `parse_hex8`. -/
def hexDigits (p : Profile) : List UInt8 → Nat → Except Stop (Option Nat)
  | [], val => .ok (some val)
  | b :: rest, val =>
    match hexDigit b with
    | none => .ok none
    | some digit => do
      let shifted ← p.mul val 16
      let val ← p.add shifted digit
      hexDigits p rest val

def parseHex8 (p : Profile) (s : List UInt8) : Except Stop (Option Nat) :=
  if s.length < 8 then .ok none
  else do
    let digits ← slice s 0 8
    hexDigits p digits 0

/-- `Header::parse`, the fields in the order in which they are evaluated. -/
def parse (p : Profile) (data : List UInt8) : Except Stop (Option Header) := do
  let field ← slice data 14 22
  match ← parseHex8 p field with
  | none => return none
  | some mode => do
    let field ← slice data 54 62
    match ← parseHex8 p field with
    | none => return none
    | some filesize => do
      let field ← slice data 94 102
      match ← parseHex8 p field with
      | none => return none
      | some namesize => return some ⟨mode % 2 ^ 32, namesize, filesize⟩

/-- One pass of the loop, up to the file type. -/
def readItem (p : Profile) (data : List UInt8) (pos : Nat) : Except Stop (Option Item) := do
  let pos ← align4 p pos
  let headerEnd ← p.add pos 110
  if data.length < headerEnd then return none
  let magicEnd ← p.add pos 6
  let magic ← slice data pos magicEnd
  if magic ≠ NEWC_MAGIC then do
    -- taken once more to be printed
    let _ ← slice data pos magicEnd
    return none
  let header ← slice data pos headerEnd
  match ← parse p header with
  | none => return none
  | some hdr => do
    let nameEnd ← p.add headerEnd hdr.namesize
    if data.length < nameEnd then return none
    let nameBytes ← slice data headerEnd nameEnd
    let name := nameOf nameBytes
    let pos ← align4 p nameEnd
    if name = TRAILER then return none
    let fileEnd ← p.add pos hdr.filesize
    if data.length < fileEnd then return none
    let fileData ← slice data pos fileEnd
    let next ← align4 p fileEnd
    return some ⟨name, hdr.mode, fileData, next⟩

/-- The loop. The first argument bounds the number of passes; a walk that is not done by then has not
ended. -/
def extractFrom (p : Profile) : Nat → List UInt8 → Nat → Ramfs → Except Stop Ramfs
  | 0, _, _, _ => .error .diverges
  | passes + 1, data, pos, fs => do
    match ← readItem p data pos with
    | none => return fs
    | some item => extractFrom p passes data item.next (accept fs item)

/-! ## The checks pass -/

theorem slice_ok {a b : Nat} (order : a ≤ b) (inside : b ≤ data.length) :
    slice data a b = .ok (Newc.slice data a b) := if_pos ⟨order, inside⟩

theorem align4_ok (p : Profile) {x : Nat} (small : x + 3 < 2 ^ 64) : align4 p x = .ok (Newc.align4 x) := by
  rw [align4, p.add_ok small, ok_bind]
  exact congrArg Except.ok (and_not64_two_pow (k := 2) small (by omega))

theorem hexDigit_lt {b : UInt8} {digit : Nat} (h : hexDigit b = some digit) : digit < 16 := by
  unfold hexDigit at h
  simp only [UInt8.le_iff_toNat_le, UInt8.reduceToNat] at h
  grind

theorem hexDigits_ok {k : Nat} (start : n < 16 ^ k) (short : k + s.length ≤ 16) :
    hexDigits p s n = .ok (s.foldlM (fun val b => (hexDigit b).map fun digit => val * 16 + digit) n) ∧
    ∀ v, s.foldlM (fun val b => (hexDigit b).map fun digit => val * 16 + digit) n = some v →
      v < 16 ^ (k + s.length) := by
  induction s generalizing n k with
  | nil =>
    refine ⟨rfl, fun v same => ?_⟩
    cases same
    exact start
  | cons b rest ih =>
    rw [hexDigits, List.foldlM_cons]
    cases digit : hexDigit b with
    | none => exact ⟨rfl, fun v same => by cases same⟩
    | some d =>
      have small := hexDigit_lt digit
      rw [List.length_cons] at short ⊢
      have bound : n * 16 + d < 16 ^ (k + 1) := by
        rw [pow_succ]
        omega
      have fits : 16 ^ (k + 1) ≤ 2 ^ 64 := Nat.pow_le_pow_right (n := 16) (by omega) (show k + 1 ≤ 16 by omega)
      simp only [Option.map_some, Option.bind_eq_bind, Option.bind_some]
      rw [p.mul_ok (by omega), ok_bind, p.add_ok (by omega), ok_bind]
      have later := ih bound (by omega)
      rwa [show k + 1 + rest.length = k + (rest.length + 1) by omega] at later

theorem parseHex8_ok (p : Profile) (s : List UInt8) : parseHex8 p s = .ok (Newc.parseHex8 s) := by
  rw [parseHex8, Newc.parseHex8]
  split
  · rfl
  · rw [slice_ok (by omega) (by omega), ok_bind]
    exact (hexDigits_ok (k := 0) (by omega) (by simp [Newc.slice])).1

theorem lt_of_parseHex8 (h : Newc.parseHex8 s = some n) : n < 2 ^ 32 := by
  rw [Newc.parseHex8] at h
  split at h
  · cases h
  · have bound := (hexDigits_ok (p := .dev) (k := 0) (n := 0) (s := s.take 8) (by omega) (by simp)).2 n h
    have most : 16 ^ (0 + (s.take 8).length) ≤ 16 ^ 8 := Nat.pow_le_pow_right (by omega) (by simp)
    omega

theorem parse_ok (p : Profile) (size : data.length = 110) : parse p data = .ok (Header.parse data) := by
  rw [parse, Header.parse, slice_ok (by omega) (by omega), ok_bind, parseHex8_ok, ok_bind]
  cases Newc.parseHex8 (Newc.slice data 14 22) with
  | none => rfl
  | some mode =>
    simp only
    rw [slice_ok (by omega) (by omega), ok_bind, parseHex8_ok, ok_bind]
    cases Newc.parseHex8 (Newc.slice data 54 62) with
    | none => rfl
    | some filesize =>
      simp only
      rw [slice_ok (by omega) (by omega), ok_bind, parseHex8_ok, ok_bind]
      cases Newc.parseHex8 (Newc.slice data 94 102) with
      | none => rfl
      | some namesize => rfl

theorem sizes_lt {hdr : Header} (h : Header.parse data = some hdr) :
    hdr.namesize < 2 ^ 32 ∧ hdr.filesize < 2 ^ 32 := by
  simp only [Header.parse, Option.bind_eq_bind, Option.bind_eq_some_iff, Option.pure_def,
    Option.some.injEq] at h
  obtain ⟨mode, -, filesize, hf, namesize, hn, rfl⟩ := h
  exact ⟨lt_of_parseHex8 hn, lt_of_parseHex8 hf⟩

/-- A pass does the same with checks as without, from any position up to the end of the data. -/
theorem readItem_ok (p : Profile) (short : data.length < 2 ^ 63) (near : pos ≤ Newc.align4 data.length) :
    readItem p data pos = .ok (Newc.readItem data pos) := by
  have rounded (x : Nat) : Newc.align4 x ≤ x + 3 := by
    unfold Newc.align4
    omega
  have end_ := rounded data.length
  have start := rounded pos
  rw [readItem, Newc.readItem, align4_ok p (by omega), ok_bind, p.add_ok (by omega), ok_bind]
  simp only
  split
  · rfl
  rename_i room
  rw [p.add_ok (by omega), ok_bind, slice_ok (by omega) (by omega), ok_bind]
  split
  · rfl
  have size : (Newc.slice data (Newc.align4 pos) (Newc.align4 pos + 110)).length = 110 := by
    simp only [Newc.slice, List.length_take, List.length_drop]
    omega
  rw [slice_ok (by omega) (by omega), ok_bind, parse_ok p size, ok_bind]
  cases parsed : Header.parse (Newc.slice data (Newc.align4 pos) (Newc.align4 pos + 110)) with
  | none => rfl
  | some hdr =>
    have sizes := sizes_lt parsed
    simp only
    rw [p.add_ok (by omega), ok_bind]
    split
    · rfl
    rename_i named
    have name := rounded (Newc.align4 pos + 110 + hdr.namesize)
    rw [slice_ok (by omega) (by omega), ok_bind, align4_ok p (by omega), ok_bind]
    split
    · rfl
    rw [p.add_ok (by omega), ok_bind]
    split
    · rfl
    rw [slice_ok (by omega) (by omega), ok_bind, align4_ok p (by omega), ok_bind]
    rfl

/-- The loop ends by itself after at most one pass for every 110 bytes, and one more. -/
theorem extractFrom_ok (p : Profile) (short : data.length < 2 ^ 63) (near : pos ≤ Newc.align4 data.length)
    (enough : data.length < pos + 110 * n) (some : 0 < n) :
    extractFrom p n data pos fs = .ok (Newc.extractFrom n data pos fs) := by
  induction n generalizing pos fs with
  | zero => omega
  | succ n ih =>
    rw [extractFrom, Newc.extractFrom, readItem_ok p short near, ok_bind]
    cases read : Newc.readItem data pos with
    | none => rfl
    | some item =>
      obtain ⟨header, further, last⟩ := readItem_next read
      have := le_align4 pos
      exact ih last (by omega) (by omega)


/-- The positions at which the loop starts a pass. -/
def Visits (p : Profile) (data : List UInt8) : Nat → Prop :=
  Reachable (· = 0) fun pos next => ∃ item, readItem p data pos = .ok (some item) ∧ item.next = next

theorem Visits.near (short : data.length < 2 ^ 63) (h : Visits p data pos) :
    pos ≤ Newc.align4 data.length := by
  refine h.invariant (P := (· ≤ Newc.align4 data.length)) ?_ ?_
  · rintro pos rfl
    exact Nat.zero_le _
  · rintro pos next near ⟨item, read, rfl⟩
    rw [readItem_ok p short near] at read
    exact (readItem_next (Except.ok.inj read)).2.2

/-- Extraction is total. Wherever the loop starts a pass, the pass returns: no slice is out of bounds and
no sum overflows. If it goes on, a whole header lies before the end of the data and the position moves on
past it. So the loop ends after at most one pass for every 110 bytes and one more. -/
theorem extract_total (p : Profile) (data : Slice) (rootfs : Ramfs) :
    (∀ pos, Visits p data.1 pos → pos ≤ Newc.align4 data.1.length ∧
      ∃ read, readItem p data.1 pos = .ok read ∧ ∀ item, read = some item →
        Newc.align4 pos + 110 ≤ data.1.length ∧ Newc.align4 pos + 110 ≤ item.next) ∧
    ∀ passes, data.1.length < 110 * passes →
      extractFrom p passes data.1 0 rootfs = .ok (extract data.1 rootfs) := by
  have short := data.2
  refine ⟨fun pos visits => ?_, fun passes enough => ?_⟩
  · have near := visits.near short
    refine ⟨near, _, readItem_ok p short near, fun item read => ?_⟩
    obtain ⟨header, further, -⟩ := readItem_next read
    exact ⟨header, further⟩
  · rw [extractFrom_ok p short (Nat.zero_le _) (by omega) (by omega), extract,
      ← extractFrom_enough enough (data.1.length + 1), Nat.add_comm, extractFrom_enough (by omega)]

/-- A name and a file of almost 4 GiB each, in an archive of one header and no trailer. -/
theorem extract_total_header : Newc.Checked.extractFrom .dev 2
    (headerOf "000081a4" "ffffffff" "ffffffff") 0 Ramfs.new = .ok Ramfs.new := by
  have total := (extract_total .dev ⟨headerOf "000081a4" "ffffffff" "ffffffff", by decide⟩ Ramfs.new).2 2
    (by decide)
  rw [total]
  exact congrArg Except.ok (by decide +kernel)

end Newc.Checked
end Ferrum
