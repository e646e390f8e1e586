import Ferrum.Machine.Basic

/-!
# Page tables

Four levels of tables of 512 words in physical memory. The functions are generic in the page
allocator that supplies the frames of new tables, as the source is through its `PageAllocator`
trait. A table is read and written through the higher-half window, which is why each function first
asks `physToVirt` for the table's address.

The source spells the descent through the levels out; here it is one recursion over the indices
(`ensurePath` where missing tables are created, `walkTables` where they are not). Flushing the TLB
has no effect on memory and is left out.
-/
namespace Ferrum

structure PageFlags where
  present : Bool
  writable : Bool
  user : Bool
  accessed : Bool
  dirty : Bool
  huge : Bool
  noExec : Bool
  deriving DecidableEq, Repr

namespace PageFlags

def bits (f : PageFlags) : Nat :=
  f.present.toNat <<< 0 ||| f.writable.toNat <<< 1 ||| f.user.toNat <<< 2 |||
    f.accessed.toNat <<< 5 ||| f.dirty.toNat <<< 6 ||| f.huge.toNat <<< 7 ||| f.noExec.toNat <<< 63

def fromBitsTruncate (w : Nat) : PageFlags where
  present := w.testBit 0
  writable := w.testBit 1
  user := w.testBit 2
  accessed := w.testBit 5
  dirty := w.testBit 6
  huge := w.testBit 7
  noExec := w.testBit 63

def none : PageFlags := ⟨false, false, false, false, false, false, false⟩

end PageFlags

def PHYS_ADDR_MASK : Nat := 0x000f_ffff_ffff_f000

/-! ## Entries

A page table entry is a 64-bit word. -/

namespace Entry

def isPresent (e : Nat) : Bool := e &&& 1 <<< 0 != 0

def physAddr (e : Nat) : Nat := e &&& PHYS_ADDR_MASK

def flags (e : Nat) : PageFlags := .fromBitsTruncate e

def newTable (phys : Nat) (flags : PageFlags) : Nat := phys ||| flags.bits

def newPage (phys : Nat) (flags : PageFlags) : Nat := phys ||| flags.bits

end Entry

structure VirtAddrParts where
  pml4 : Nat
  pdpt : Nat
  pd : Nat
  pt : Nat
  offset : Nat
  deriving DecidableEq, Repr

def VirtAddrParts.fromU64 (addr : Nat) : VirtAddrParts where
  pml4 := addr >>> 39 &&& 0x1ff
  pdpt := addr >>> 30 &&& 0x1ff
  pd := addr >>> 21 &&& 0x1ff
  pt := addr >>> 12 &&& 0x1ff
  offset := addr &&& 0xfff

def SIZE_2MB : Nat := 0x20_0000

/-! ## Allocators of page frames -/

structure PageOwner where
  tag : String
  pid : Nat
  order : Nat
  deriving DecidableEq, Repr

/-- A supplier of page frames, with the page-owner table that is kept beside it. -/
structure PageAllocator (A : Type) where
  allocPage : Machine A → Except Stop (Option Nat × Machine A)
  freePage : Machine A → Nat → Except Stop (Machine A)
  track : A → Nat → PageOwner → Except Stop A
  untrack : A → Nat → A

/-! ## Tables in memory -/

def readEntry (m : Memory) (table index : Nat) : Nat := m.read64 (table + 8 * index)

namespace Machine

variable {A : Type}

def writeEntry (st : Machine A) (table index e : Nat) : Machine A :=
  { st with mem := st.mem.write64 (table + 8 * index) e }

/-- Zero a whole page. -/
def zeroPage (st : Machine A) (phys : Nat) : Machine A :=
  { st with mem := st.mem.fill phys PAGE_SIZE 0 }

/-- The table an entry points to, created if there is none; `none` if there is no frame for it or
if the entry maps a huge page. -/
def ensureTable (pages : PageAllocator A) (st : Machine A) (table index : Nat)
    (tableFlags : PageFlags) : Except Stop (Option Nat × Machine A) :=
  let entry := readEntry st.mem table index
  if Entry.isPresent entry then
    if (Entry.flags entry).huge then .ok (none, st)
    else if tableFlags.user && !(Entry.flags entry).user then
      -- the USER bit is added to a table that so far held kernel pages only
      let phys := Entry.physAddr entry
      .ok (some phys, st.writeEntry table index
        (Entry.newTable phys { Entry.flags entry with user := true }))
    else .ok (some (Entry.physAddr entry), st)
  else do
    let (frame, st) ← pages.allocPage st
    match frame with
    | none => return (none, st)
    | some phys =>
      if phys = 0 then .error .tableAtZero
      return (some phys, (st.zeroPage phys).writeEntry table index (Entry.newTable phys tableFlags))

/-- Descend along the given indices, creating the tables that are missing. -/
def ensurePath (pages : PageAllocator A) (tableFlags : PageFlags) :
    List Nat → Machine A → Nat → Except Stop (Option Nat × Machine A)
  | [], st, table => .ok (some table, st)
  | index :: path, st, table => do
    let _ ← physToVirt table
    let (next, st) ← st.ensureTable pages table index tableFlags
    match next with
    | none => return (none, st)
    | some next => ensurePath pages tableFlags path st next

def tableFlagsFor (flags : PageFlags) : PageFlags :=
  { PageFlags.none with present := true, writable := true, user := flags.user }

def map4kb (pages : PageAllocator A) (st : Machine A) (pml4 virt phys : Nat) (flags : PageFlags) :
    Except Stop (Option Unit × Machine A) := do
  let parts := VirtAddrParts.fromU64 virt
  let (pt, st) ← ensurePath pages (tableFlagsFor flags) [parts.pml4, parts.pdpt, parts.pd] st pml4
  match pt with
  | none => return (none, st)
  | some pt => do
    let _ ← physToVirt pt
    return (some (), st.writeEntry pt parts.pt (Entry.newPage phys { flags with present := true }))

def map (pages : PageAllocator A) (st : Machine A) (pml4 virt phys : Nat) (flags : PageFlags) :
    Except Stop (Option Unit × Machine A) :=
  st.map4kb pages pml4 virt phys flags

/-- Follow present entries along the given indices. -/
def walkTables (m : Memory) : List Nat → Nat → Except Stop (Option Nat)
  | [], table => .ok (some table)
  | index :: path, table => do
    let _ ← physToVirt table
    let e := readEntry m table index
    if Entry.isPresent e then walkTables m path (Entry.physAddr e) else return none

def unmap (st : Machine A) (pml4 virt : Nat) : Except Stop (Option Nat × Machine A) := do
  let parts := VirtAddrParts.fromU64 virt
  match ← walkTables st.mem [parts.pml4, parts.pdpt, parts.pd] pml4 with
  | none => return (none, st)
  | some pt => do
    let _ ← physToVirt pt
    let e := readEntry st.mem pt parts.pt
    if Entry.isPresent e then
      return (some (Entry.physAddr e), st.writeEntry pt parts.pt 0)
    else return (none, st)

def translate (m : Memory) (pml4 virt : Nat) : Except Stop (Option Nat) := do
  let parts := VirtAddrParts.fromU64 virt
  match ← walkTables m [parts.pml4, parts.pdpt] pml4 with
  | none => return none
  | some pd => do
    let _ ← physToVirt pd
    let e := readEntry m pd parts.pd
    if !Entry.isPresent e then return none
    else if (Entry.flags e).huge then
      return some (Entry.physAddr e + (virt &&& (SIZE_2MB - 1)))
    else do
      let pt := Entry.physAddr e
      let _ ← physToVirt pt
      let e := readEntry m pt parts.pt
      if !Entry.isPresent e then return none
      else return some (Entry.physAddr e + parts.offset)

/-- Copy the entries 256 to 511, the kernel's half, from one top-level table to another. -/
def copyKernelHalf (st : Machine A) (src dst : Nat) : Machine A :=
  { st with mem := st.mem.copy (src + 8 * 256) (dst + 8 * 256) (8 * 256) }

def newUser (pages : PageAllocator A) (st : Machine A) (kernelPml4 ownerPid : Nat) :
    Except Stop (Option Nat × Machine A) := do
  let (frame, st) ← pages.allocPage st
  match frame with
  | none => return (none, st)
  | some pml4 => do
    let pool ← pages.track st.pool pml4 ⟨"page-table:pml4", ownerPid, 0⟩
    let st := { st with pool }
    let _ ← physToVirt kernelPml4
    return (some pml4, (st.zeroPage pml4).copyKernelHalf kernelPml4 pml4)

end Machine
end Ferrum
