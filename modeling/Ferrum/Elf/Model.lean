import Ferrum.AddressSpace.Model

/-!
# Loading ELF files

The validation of a file and the loading of its `PT_LOAD` segments into an address space. A file is a
list of bytes; header fields are little-endian and read at their offsets in the packed structures of
the source.
-/
namespace Ferrum.Elf

def ELFMAG : List UInt8 := [0x7f, 0x45, 0x4c, 0x46]
def ELFCLASS64 : Nat := 2
def ELFDATA2LSB : Nat := 1
def ET_EXEC : Nat := 2
def EM_X86_64 : Nat := 62
def PT_LOAD : Nat := 1
def PF_X : Nat := 1
def PF_W : Nat := 2
def PF_R : Nat := 4

/-- The sizes of `Elf64Ehdr` and `Elf64Phdr`. -/
def EHDR_SIZE : Nat := 64
def PHDR_SIZE : Nat := 56

/-- The little-endian field of `n` bytes at an offset. -/
def field (data : List UInt8) (offset : Nat) : Nat → Nat
  | 0 => 0
  | n + 1 => (data.getD offset 0).toNat + 256 * field data (offset + 1) n

def eType (data : List UInt8) : Nat := field data 16 2
def eMachine (data : List UInt8) : Nat := field data 18 2
def eEntry (data : List UInt8) : Nat := field data 24 8
def ePhoff (data : List UInt8) : Nat := field data 32 8
def ePhentsize (data : List UInt8) : Nat := field data 54 2
def ePhnum (data : List UInt8) : Nat := field data 56 2

structure Phdr where
  type : Nat
  flags : Nat
  offset : Nat
  vaddr : Nat
  filesz : Nat
  memsz : Nat
  deriving DecidableEq, Repr

def readPhdr (data : List UInt8) (offset : Nat) : Phdr where
  type := field data offset 4
  flags := field data (offset + 4) 4
  offset := field data (offset + 8) 8
  vaddr := field data (offset + 16) 8
  filesz := field data (offset + 32) 8
  memsz := field data (offset + 40) 8

/-- `ElfLoader::new`. The product of two 16-bit fields cannot overflow. -/
def validate (data : List UInt8) : Except String Unit :=
  if data.length < EHDR_SIZE then .error "ELF: data too small for header"
  else if data.take 4 ≠ ELFMAG then .error "ELF: bad magic"
  else if field data 4 1 ≠ ELFCLASS64 then .error "ELF: not ELF64"
  else if field data 5 1 ≠ ELFDATA2LSB then .error "ELF: not little-endian"
  else if eType data ≠ ET_EXEC then .error "ELF: not ET_EXEC"
  else if eMachine data ≠ EM_X86_64 then .error "ELF: not x86-64"
  else if ePhentsize data < PHDR_SIZE then .error "ELF: e_phentsize too small"
  else if 2 ^ 64 ≤ ePhoff data + ePhnum data * ePhentsize data then
    .error "ELF: phdr offset overflow"
  else if data.length < ePhoff data + ePhnum data * ePhentsize data then
    .error "ELF: program header table out of bounds"
  else .ok ()

def pflagsToVma (flags : Nat) : VMAFlags where
  read := flags &&& PF_R != 0
  write := flags &&& PF_W != 0
  exec := flags &&& PF_X != 0

/-- Copy the part of the segment's file bytes that belongs to one page. -/
def copyFileBytes (p : Profile) (data : List UInt8) (ph : Phdr) (pageVaddr phys : Nat)
    (st : Machine Pool) : Except Stop (Machine Pool) := do
  let pageVaEnd ← p.add pageVaddr PAGE_SIZE
  let segFileVaEnd ← p.add ph.vaddr ph.filesz
  let copyVaStart := max pageVaddr ph.vaddr
  let copyVaEnd := min pageVaEnd segFileVaEnd
  if copyVaStart < copyVaEnd then do
    let fileCopyStart ← p.add ph.offset (copyVaStart - ph.vaddr)
    if data.length < fileCopyStart then .error .indexOutOfBounds
    let bytes := (data.drop fileCopyStart).take (copyVaEnd - copyVaStart)
    return { st with mem := st.mem.writeBytes (phys + (copyVaStart - pageVaddr)) bytes }
  else return st

/-- The loop over the pages of a segment; `n` pages remain from page `idx` on. -/
def loadPages (p : Profile) (space : AddressSpace) (data : List UInt8) (ph : Phdr)
    (mapStart : Nat) : Nat → Nat → Machine Pool → Except Stop (Except String Unit × Machine Pool)
  | 0, _, st => .ok (.ok (), st)
  | n + 1, idx, st => do
    let pageVaddr ← p.add mapStart (idx * PAGE_SIZE)
    let (frame, st) ← st.allocBlock p space.owner 0
    match frame with
    | none => return (.error "ELF: out of memory for PT_LOAD page", st)
    | some phys => do
      let pool ← st.pool.track phys ⟨"elf:segment", space.ownerPid, 0⟩
      let _ ← physToVirt phys
      let st := Machine.zeroPage { st with pool } phys
      let st ← copyFileBytes p data ph pageVaddr phys st
      let (mapped, st) ← st.map (space.pages p) space.pml4 pageVaddr phys
        (pflagsToVma ph.flags).toPageFlags
      match mapped with
      | none => return (.error "ELF: page table map failed", st)
      | some () => loadPages p space data ph mapStart n (idx + 1) st

/-- The pages of a segment, from its first to past its last, and their size. -/
def segmentRange (p : Profile) (ph : Phdr) : Except Stop (Nat × Nat × Nat) := do
  let mapStart := alignDown ph.vaddr PAGE_SIZE
  let past ← p.add ph.vaddr ph.memsz
  let mapEnd ← alignUp p past PAGE_SIZE
  let bytes ← p.sub mapEnd mapStart
  return (mapStart, mapEnd, bytes)

/-- One `PT_LOAD` header: register the area, then fill its pages. -/
def loadSegment (p : Profile) (space : AddressSpace) (st : Machine Pool) (data : List UInt8)
    (ph : Phdr) : Except Stop (Except String Unit × AddressSpace × Machine Pool) := do
  if 2 ^ 64 ≤ ph.offset + ph.filesz then return (.error "ELF: p_filesz overflow", space, st)
  if data.length < ph.offset + ph.filesz then
    return (.error "ELF: PT_LOAD file data out of bounds", space, st)
  let (mapStart, mapEnd, bytes) ← segmentRange p ph
  match Vmas.addVma space.vmas ⟨mapStart, mapEnd, pflagsToVma ph.flags, .anonymous⟩ with
  | .error _ => return (.error "ELF: add_vma failed", space, st)
  | .ok vmas => do
    let space := { space with vmas }
    let (r, st) ← loadPages p space data ph mapStart (bytes / PAGE_SIZE) 0 st
    return (r, space, st)

def Phdr.isLoad (ph : Phdr) : Bool := ph.type = PT_LOAD && ph.memsz ≠ 0

def header (data : List UInt8) (i : Nat) : Phdr := readPhdr data (ePhoff data + i * ePhentsize data)

/-- The loop over the program headers; `n` headers remain from header `i` on. -/
def loadHeaders (p : Profile) (data : List UInt8) : Nat → Nat → AddressSpace → Machine Pool →
    Except Stop (Except String Unit × AddressSpace × Machine Pool)
  | 0, _, space, st => .ok (.ok (), space, st)
  | n + 1, i, space, st => do
    if !(header data i).isLoad then loadHeaders p data n (i + 1) space st
    else do
      let (r, space, st) ← loadSegment p space st data (header data i)
      match r with
      | .error e => return (.error e, space, st)
      | .ok () => loadHeaders p data n (i + 1) space st

/-- `AddressSpace::load_elf`: the entry point, or why the file was refused. -/
def load (p : Profile) (space : AddressSpace) (st : Machine Pool) (data : List UInt8) :
    Except Stop (Except String Nat × AddressSpace × Machine Pool) := do
  match validate data with
  | .error e => return (.error e, space, st)
  | .ok () => do
    let (r, space, st) ← loadHeaders p data (ePhnum data) 0 space st
    return (r.map fun _ => eEntry data, space, st)

end Ferrum.Elf
