import Ferrum.Elf.Model

/-!
# The reads of the loader

The loader reads the file through raw pointers: the headers as packed structures, and the bytes of the
segments with `copy_nonoverlapping`. Here is the same loader with a check before every byte that it
reads. The two give the same result on every file, so no read lies behind the end of the data, whatever
the header fields are and whether or not their sums wrap.
-/
namespace Ferrum.Elf

/-- Why the checked loader stops: a read behind the data, or something that stops the loader too. -/
inductive Trap where
  | outside (index : Nat)
  | stop (reason : Stop)
  deriving DecidableEq, Repr

namespace Checked

variable {α β : Type} {data : List UInt8} {p : Profile} {ph : Phdr} {space : AddressSpace}

def lift (x : Except Stop α) : Except Trap α := x.mapError .stop

def byte (data : List UInt8) (i : Nat) : Except Trap UInt8 :=
  match data[i]? with
  | some b => .ok b
  | none => .error (.outside i)

def field (data : List UInt8) (offset : Nat) : Nat → Except Trap Nat
  | 0 => .ok 0
  | n + 1 => do
    let b ← byte data offset
    let rest ← field data (offset + 1) n
    return b.toNat + 256 * rest

/-- The source of `copy_nonoverlapping`. -/
def bytes (data : List UInt8) (start : Nat) : Nat → Except Trap (List UInt8)
  | 0 => .ok []
  | n + 1 => do
    let b ← byte data start
    let rest ← bytes data (start + 1) n
    return b :: rest

/-- `ElfLoader::new`. -/
def new (data : List UInt8) : Except Trap (Except String Unit) := do
  if data.length < EHDR_SIZE then return .error "ELF: data too small for header"
  let magic ← bytes data 0 4
  if magic ≠ ELFMAG then return .error "ELF: bad magic"
  let size ← field data 4 1
  if size ≠ ELFCLASS64 then return .error "ELF: not ELF64"
  let order ← field data 5 1
  if order ≠ ELFDATA2LSB then return .error "ELF: not little-endian"
  let type ← field data 16 2
  if type ≠ ET_EXEC then return .error "ELF: not ET_EXEC"
  let machine ← field data 18 2
  if machine ≠ EM_X86_64 then return .error "ELF: not x86-64"
  let phoff ← field data 32 8
  let phnum ← field data 56 2
  let phentsz ← field data 54 2
  if phentsz < PHDR_SIZE then return .error "ELF: e_phentsize too small"
  if 2 ^ 64 ≤ phoff + phnum * phentsz then return .error "ELF: phdr offset overflow"
  if data.length < phoff + phnum * phentsz then
    return .error "ELF: program header table out of bounds"
  return .ok ()

/-- All fields of a header, those of a header that is skipped too. -/
def readPhdr (data : List UInt8) (offset : Nat) : Except Trap Phdr := do
  let type ← field data offset 4
  let flags ← field data (offset + 4) 4
  let fileOffset ← field data (offset + 8) 8
  let vaddr ← field data (offset + 16) 8
  let filesz ← field data (offset + 32) 8
  let memsz ← field data (offset + 40) 8
  return ⟨type, flags, fileOffset, vaddr, filesz, memsz⟩

def copyFileBytes (p : Profile) (data : List UInt8) (ph : Phdr) (pageVaddr phys : Nat)
    (st : Machine Pool) : Except Trap (Machine Pool) := do
  let pageVaEnd ← lift (p.add pageVaddr PAGE_SIZE)
  let segFileVaEnd ← lift (p.add ph.vaddr ph.filesz)
  let copyVaStart := max pageVaddr ph.vaddr
  let copyVaEnd := min pageVaEnd segFileVaEnd
  if copyVaStart < copyVaEnd then do
    let fileCopyStart ← lift (p.add ph.offset (copyVaStart - ph.vaddr))
    if data.length < fileCopyStart then .error (.stop .indexOutOfBounds)
    let copied ← bytes data fileCopyStart (copyVaEnd - copyVaStart)
    return { st with mem := st.mem.writeBytes (phys + (copyVaStart - pageVaddr)) copied }
  else return st

def loadPages (p : Profile) (space : AddressSpace) (data : List UInt8) (ph : Phdr) (mapStart : Nat) :
    Nat → Nat → Machine Pool → Except Trap (Except String Unit × Machine Pool)
  | 0, _, st => .ok (.ok (), st)
  | n + 1, idx, st => do
    let pageVaddr ← lift (p.add mapStart (idx * PAGE_SIZE))
    let (frame, st) ← lift (st.allocBlock p space.owner 0)
    match frame with
    | none => return (.error "ELF: out of memory for PT_LOAD page", st)
    | some phys => do
      let pool ← lift (st.pool.track phys ⟨"elf:segment", space.ownerPid, 0⟩)
      let _ ← lift (physToVirt phys)
      let st := Machine.zeroPage { st with pool } phys
      let st ← copyFileBytes p data ph pageVaddr phys st
      let (mapped, st) ← lift (st.map (space.pages p) space.pml4 pageVaddr phys
        (pflagsToVma ph.flags).toPageFlags)
      match mapped with
      | none => return (.error "ELF: page table map failed", st)
      | some () => loadPages p space data ph mapStart n (idx + 1) st

def loadSegment (p : Profile) (space : AddressSpace) (st : Machine Pool) (data : List UInt8)
    (ph : Phdr) : Except Trap (Except String Unit × AddressSpace × Machine Pool) := do
  if 2 ^ 64 ≤ ph.offset + ph.filesz then return (.error "ELF: p_filesz overflow", space, st)
  if data.length < ph.offset + ph.filesz then
    return (.error "ELF: PT_LOAD file data out of bounds", space, st)
  let (mapStart, mapEnd, size) ← lift (segmentRange p ph)
  match Vmas.addVma space.vmas ⟨mapStart, mapEnd, pflagsToVma ph.flags, .anonymous⟩ with
  | .error _ => return (.error "ELF: add_vma failed", space, st)
  | .ok vmas => do
    let space := { space with vmas }
    let (r, st) ← loadPages p space data ph mapStart (size / PAGE_SIZE) 0 st
    return (r, space, st)

/-- The slice `data[offset..]` panics if it begins behind the data. -/
def loadHeaders (p : Profile) (data : List UInt8) (phoff phentsz : Nat) : Nat → Nat → AddressSpace →
    Machine Pool → Except Trap (Except String Unit × AddressSpace × Machine Pool)
  | 0, _, space, st => .ok (.ok (), space, st)
  | n + 1, i, space, st => do
    let offset ← lift (p.add phoff (i * phentsz))
    if data.length < offset then .error (.stop .indexOutOfBounds)
    let ph ← readPhdr data offset
    if !ph.isLoad then loadHeaders p data phoff phentsz n (i + 1) space st
    else do
      let (r, space, st) ← loadSegment p space st data ph
      match r with
      | .error e => return (.error e, space, st)
      | .ok () => loadHeaders p data phoff phentsz n (i + 1) space st

def load (p : Profile) (space : AddressSpace) (st : Machine Pool) (data : List UInt8) :
    Except Trap (Except String Nat × AddressSpace × Machine Pool) := do
  let valid ← new data
  match valid with
  | .error e => return (.error e, space, st)
  | .ok () => do
    let phoff ← field data 32 8
    let phnum ← field data 56 2
    let phentsz ← field data 54 2
    let (r, space, st) ← loadHeaders p data phoff phentsz phnum 0 space st
    let entry ← field data 24 8
    return (r.map fun _ => entry, space, st)

/-! ## Reads inside the data -/

theorem lift_ok (a : α) : lift (.ok a) = .ok a := rfl

theorem lift_bind (x : Except Stop α) (f : α → Except Stop β) :
    lift (x >>= f) = lift x >>= fun a => lift (f a) := by
  cases x with
  | error e => rfl
  | ok a => rfl

theorem byte_ok {i : Nat} (inside : i < data.length) : byte data i = .ok (data.getD i 0) := by
  rw [byte, List.getElem?_eq_getElem inside, List.getD_eq_getElem _ _ inside]

theorem field_ok {offset n : Nat} (inside : offset + n ≤ data.length) :
    field data offset n = .ok (Elf.field data offset n) := by
  induction n generalizing offset with
  | zero => rfl
  | succ n ih =>
    rw [field, byte_ok (by omega), ok_bind, ih (by omega), ok_bind]
    rfl

theorem bytes_ok {start n : Nat} (inside : start + n ≤ data.length) :
    bytes data start n = .ok ((data.drop start).take n) := by
  induction n generalizing start with
  | zero => rfl
  | succ n ih =>
    have here : start < data.length := by omega
    rw [bytes, byte_ok here, ok_bind, ih (by omega), ok_bind, List.drop_eq_getElem_cons here,
      List.take_succ_cons, List.getD_eq_getElem _ _ here]
    rfl

theorem new_eq (data : List UInt8) : new data = .ok (validate data) := by
  unfold new validate eType eMachine ePhoff ePhnum ePhentsize
  split
  · rfl
  next large =>
    have header : 64 ≤ data.length := Nat.not_lt.mp large
    have fields (offset n : Nat) (inside : offset + n ≤ 64) :
        field data offset n = .ok (Elf.field data offset n) := field_ok (by omega)
    rw [bytes_ok (by omega), ok_bind, List.drop_zero]
    simp only [fields 4 1 (by decide), fields 5 1 (by decide), fields 16 2 (by decide),
      fields 18 2 (by decide), fields 32 8 (by decide), fields 56 2 (by decide),
      fields 54 2 (by decide), ok_bind, apply_ite (Except.ok : _ → Except Trap (Except String Unit))]
    rfl

theorem passed {c : Prop} [Decidable c] {e : String} {rest : Except String Unit}
    (ok : (if c then .error e else rest) = .ok ()) : ¬ c ∧ rest = .ok () := by
  split at ok
  · cases ok
  next clear => exact ⟨clear, ok⟩

theorem validate_eq_ok (valid : validate data = .ok ()) : EHDR_SIZE ≤ data.length ∧
    PHDR_SIZE ≤ ePhentsize data ∧ ePhoff data + ePhnum data * ePhentsize data < 2 ^ 64 ∧
    ePhoff data + ePhnum data * ePhentsize data ≤ data.length := by
  obtain ⟨large, valid⟩ := passed valid
  obtain ⟨-, valid⟩ := passed valid
  obtain ⟨-, valid⟩ := passed valid
  obtain ⟨-, valid⟩ := passed valid
  obtain ⟨-, valid⟩ := passed valid
  obtain ⟨-, valid⟩ := passed valid
  obtain ⟨size, valid⟩ := passed valid
  obtain ⟨fits, valid⟩ := passed valid
  obtain ⟨inside, -⟩ := passed valid
  exact ⟨Nat.not_lt.mp large, Nat.not_lt.mp size, Nat.not_le.mp fits, Nat.not_lt.mp inside⟩

theorem readPhdr_ok {offset : Nat} (inside : offset + PHDR_SIZE ≤ data.length) :
    readPhdr data offset = .ok (Elf.readPhdr data offset) := by
  have fields (skip n : Nat) (fits : skip + n ≤ 56) :
      field data (offset + skip) n = .ok (Elf.field data (offset + skip) n) :=
    field_ok (by simp only [PHDR_SIZE] at inside; omega)
  rw [readPhdr, show field data offset 4 = _ from fields 0 4 (by decide)]
  simp only [fields 4 4 (by decide), fields 8 8 (by decide), fields 16 8 (by decide),
    fields 32 8 (by decide), fields 40 8 (by decide), ok_bind]
  rfl

theorem field_lt (data : List UInt8) (offset n : Nat) : Elf.field data offset n < 256 ^ n := by
  induction n generalizing offset with
  | zero => exact Nat.one_pos
  | succ n ih =>
    have first := (data.getD offset 0).toNat_lt
    have rest := ih (offset + 1)
    rw [Elf.field, Nat.pow_succ]
    omega

/-! ## The bytes of the segments -/

/-- The file bytes of a segment lie in the file; its fields are words. -/
structure Bounded (data : List UInt8) (ph : Phdr) : Prop where
  inside : ph.offset + ph.filesz ≤ data.length
  offset : ph.offset + ph.filesz < 2 ^ 64
  vaddr : ph.vaddr < 2 ^ 64

/-- A sum of words is exact or, when it wraps, less than its first part. -/
theorem add_exact_or_less {a b c : Nat} (ha : a < 2 ^ 64) (hb : b < 2 ^ 64) (sum : p.add a b = .ok c) :
    c = a + b ∨ c < a := by
  by_cases fits : a + b < 2 ^ 64
  · rw [p.add_ok fits] at sum
    exact .inl (Except.ok.inj sum).symm
  · cases p with
    | dev => exact absurd (Profile.lt_of_dev_add_ok sum) fits
    | release =>
      refine .inr ?_
      obtain rfl := Except.ok.inj sum
      rw [Nat.mod_eq_sub_mod (by omega), Nat.mod_eq_of_lt (by omega)]
      omega

/-- The part of the file that belongs to a page is found inside the data: where the end of the segment
wraps, it lies before the beginning and nothing is copied. -/
theorem copyFileBytes_eq (bounded : Bounded data ph) (p : Profile) (v phys : Nat) (st : Machine Pool) :
    copyFileBytes p data ph v phys st = lift (Elf.copyFileBytes p data ph v phys st) := by
  obtain ⟨inside, offset, vaddr⟩ := bounded
  unfold copyFileBytes Elf.copyFileBytes
  rw [lift_bind]
  refine bind_congr fun pageEnd => ?_
  cases sum : p.add ph.vaddr ph.filesz with
  | error e => rfl
  | ok segEnd =>
    have exact := add_exact_or_less vaddr (by omega) sum
    simp only [lift_ok, ok_bind]
    split
    next meets =>
      obtain rfl : segEnd = ph.vaddr + ph.filesz := by omega
      have start : ph.offset + (max v ph.vaddr - ph.vaddr) < 2 ^ 64 := by omega
      rw [p.add_ok start]
      simp only [lift_ok, ok_bind]
      rw [if_neg (by omega), if_neg (by omega), bytes_ok (by omega)]
      rfl
    next => rfl

theorem loadPages_eq (bounded : Bounded data ph) (p : Profile) (space : AddressSpace) (start n idx : Nat)
    (st : Machine Pool) :
    loadPages p space data ph start n idx st = lift (Elf.loadPages p space data ph start n idx st) := by
  induction n generalizing idx st with
  | zero => rfl
  | succ n ih =>
    rw [loadPages, Elf.loadPages, lift_bind]
    refine bind_congr fun v => ?_
    rw [lift_bind]
    refine bind_congr fun r => ?_
    obtain ⟨frame, st₁⟩ := r
    cases frame with
    | none => rfl
    | some phys =>
      simp only [lift_bind, copyFileBytes_eq bounded]
      refine bind_congr fun pool => bind_congr fun _ => bind_congr fun st₂ => bind_congr fun r => ?_
      obtain ⟨mapped, st₃⟩ := r
      cases mapped with
      | none => rfl
      | some => exact ih _ _

theorem loadSegment_eq (vaddr : ph.vaddr < 2 ^ 64) (p : Profile) (space : AddressSpace)
    (st : Machine Pool) :
    loadSegment p space st data ph = lift (Elf.loadSegment p space st data ph) := by
  unfold loadSegment Elf.loadSegment
  split
  · rfl
  next word =>
    split
    · rfl
    next inside =>
      have bounded : Bounded data ph := ⟨Nat.not_lt.mp inside, Nat.not_le.mp word, vaddr⟩
      rw [lift_bind]
      refine bind_congr fun range => ?_
      obtain ⟨first, past, size⟩ := range
      dsimp only
      cases Vmas.addVma space.vmas ⟨first, past, pflagsToVma ph.flags, .anonymous⟩ with
      | error e => rfl
      | ok vmas =>
        simp only [loadPages_eq bounded, lift_bind]
        rfl

/-! ## The loader -/

theorem loadHeaders_eq (valid : validate data = .ok ()) (p : Profile) {n i : Nat}
    (table : i + n ≤ ePhnum data) (space : AddressSpace) (st : Machine Pool) :
    loadHeaders p data (ePhoff data) (ePhentsize data) n i space st =
      lift (Elf.loadHeaders p data n i space st) := by
  obtain ⟨-, size, word, inside⟩ := validate_eq_ok valid
  induction n generalizing i space st with
  | zero => rfl
  | succ n ih =>
    -- the entry ends inside the table
    have entry : ePhoff data + i * ePhentsize data + ePhentsize data ≤
        ePhoff data + ePhnum data * ePhentsize data := by
      have row : (i + 1) * ePhentsize data ≤ ePhnum data * ePhentsize data :=
        Nat.mul_le_mul_right _ (by omega)
      rw [Nat.add_mul, Nat.one_mul] at row
      omega
    rw [loadHeaders, Elf.loadHeaders, p.add_ok (by omega)]
    simp only [lift_ok, ok_bind]
    rw [if_neg (by omega), readPhdr_ok (by omega), ok_bind]
    have vaddr : (header data i).vaddr < 2 ^ 64 := field_lt data _ 8
    simp only [← header.eq_def]
    split
    · exact ih (by omega) space st
    · rw [loadSegment_eq vaddr, lift_bind]
      refine bind_congr fun r => ?_
      obtain ⟨r, space₁, st₁⟩ := r
      cases r with
      | error e => rfl
      | ok => exact ih (by omega) space₁ st₁

/-- Every byte that the loader reads lies in the data: with a check before each read it does what it does
without. -/
theorem elf_reads_in_bounds (p : Profile) (space : AddressSpace) (st : Machine Pool) (data : List UInt8) :
    load p space st data = (Elf.load p space st data).mapError .stop ∧
      ∀ i, load p space st data ≠ .error (.outside i) := by
  have same : load p space st data = lift (Elf.load p space st data) := by
    unfold load Elf.load
    rw [new_eq, ok_bind]
    cases valid : validate data with
    | error e => rfl
    | ok =>
      have header : 64 ≤ data.length := (validate_eq_ok valid).1
      have fields (offset n : Nat) (inside : offset + n ≤ 64) :
          field data offset n = .ok (Elf.field data offset n) := field_ok (by omega)
      simp only [fields 32 8 (by decide), fields 56 2 (by decide), fields 54 2 (by decide),
        fields 24 8 (by decide), ok_bind]
      rw [lift_bind, ← loadHeaders_eq valid p (Nat.le_of_eq (Nat.zero_add _)) space st]
      rfl
  refine ⟨same, fun i outside => ?_⟩
  rw [same] at outside
  cases run : Elf.load p space st data with
  | error e =>
    rw [run] at outside
    cases outside
  | ok r =>
    rw [run] at outside
    cases outside

end Checked
end Ferrum.Elf
