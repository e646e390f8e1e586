import Ferrum.Frames.Pool
import Ferrum.Vma.Model

/-!
# Address spaces

A page table, a list of areas, and the operations that keep frames, tables and areas in step. Each
function takes the machine and returns it; a `Result` of the source is the inner `Except String`, and
whatever had been done before an error stays done, as in the source.

The page frames that an operation takes or gives back are logged under the number of the address
space, which no computation depends on.
-/
namespace Ferrum

structure AddressSpace where
  pml4 : Nat
  vmas : List VMA
  ownerPid : Nat
  id : Nat

/-- `while addr < stop { body; addr += PAGE_SIZE }`. Only a wrapped `addr` can make the loop longer
than the fuel, and then it never ends. -/
def pageLoop {σ : Type} (p : Profile) (body : σ → Nat → Except Stop σ) :
    Nat → σ → Nat → Nat → Except Stop σ
  | 0, s, addr, stop => if addr < stop then .error .diverges else .ok s
  | fuel + 1, s, addr, stop =>
    if addr < stop then do
      let s ← body s addr
      let next ← p.add addr PAGE_SIZE
      pageLoop p body fuel s next stop
    else .ok s

/-- The loop over the pages of a range. -/
def forPages {σ : Type} (p : Profile) (body : σ → Nat → Except Stop σ) (s : σ) (addr stop : Nat) :
    Except Stop σ :=
  pageLoop p body ((stop - addr) / PAGE_SIZE + 1) s addr stop

namespace AddressSpace

def owner (space : AddressSpace) : Owner := .space space.id

/-- The frames of an address space come from the global pool. -/
def pages (p : Profile) (space : AddressSpace) : PageAllocator Pool := poolPages p space.owner

/-- Give a frame back and forget its owner. -/
def release (p : Profile) (space : AddressSpace) (st : Machine Pool) (phys : Nat) :
    Except Stop (Machine Pool) := do
  let st ← st.freeBlock p space.owner phys 0
  return { st with pool := st.pool.untrack phys }

/-- The loop body of `munmap`, `punch_hole` and `destroy`. -/
def unmapPage (p : Profile) (space : AddressSpace) (st : Machine Pool) (addr : Nat) :
    Except Stop (Machine Pool) := do
  let (frame, st) ← st.unmap space.pml4 addr
  match frame with
  | some phys => space.release p st phys
  | none => return st

/-- The loop body of `clear_user`, which frees before it unmaps. -/
def clearPage (p : Profile) (space : AddressSpace) (st : Machine Pool) (addr : Nat) :
    Except Stop (Machine Pool) := do
  match ← Machine.translate st.mem space.pml4 addr with
  | some phys => do
    let st ← space.release p st phys
    let (_, st) ← st.unmap space.pml4 addr
    return st
  | none => return st

def handlePageFault (p : Profile) (space : AddressSpace) (st : Machine Pool) (faultAddr : Nat) :
    Except Stop (Except String Unit × Machine Pool) := do
  let pageAddr := alignDown faultAddr PAGE_SIZE
  if (← Machine.translate st.mem space.pml4 pageAddr).isSome then return (.ok (), st)
  match Vmas.findVma space.vmas faultAddr with
  | none => return (.error "No VMA for fault address", st)
  | some vma => do
    let (frame, st) ← st.allocBlock p space.owner 0
    match frame with
    | none => return (.error "Out of memory", st)
    | some phys => do
      let pool ← st.pool.track phys ⟨vma.kind.ownerTag, space.ownerPid, 0⟩
      let _ ← physToVirt phys
      let st := Machine.zeroPage { st with pool } phys
      let (mapped, st) ← st.map (space.pages p) space.pml4 pageAddr phys vma.flags.toPageFlags
      match mapped with
      | none => return (.error "Failed to map page", st)
      | some () => return (.ok (), st)

def mmap (p : Profile) (space : AddressSpace) (addr size : Nat) (flags : VMAFlags) (kind : VMAKind) :
    Except Stop (Except String Nat × AddressSpace) := do
  match ← Vmas.mmap p space.vmas addr size flags kind with
  | .error e => return (.error e, space)
  | .ok (start, vmas) => return (.ok start, { space with vmas })

def munmap (p : Profile) (space : AddressSpace) (st : Machine Pool) (addr size : Nat) :
    Except Stop (Except String Unit × AddressSpace × Machine Pool) := do
  let (start, stop) ← Vmas.range p addr size
  match Vmas.removeVma space.vmas start with
  | none => return (.error "VMA not found", space, st)
  | some (_, vmas) => do
    let st ← forPages p (space.unmapPage p) st start stop
    return (.ok (), { space with vmas }, st)

/-- The areas that `punch_hole` collects before it changes anything. -/
def overlapping (vmas : List VMA) (holeStart holeEnd : Nat) : List VMA :=
  let prev := (Vmas.below vmas holeStart).getLast?.filter fun v => holeStart < v.stop
  (prev.toList ++ Vmas.above vmas holeStart).takeWhile (·.start < holeEnd)

/-- Insert the piece of an area that a hole leaves, if there is one. -/
def keepPiece (vmas : List VMA) (vma : VMA) (start stop : Nat) : Except String (List VMA) :=
  if start < stop then Vmas.addVma vmas { vma with start, stop } else .ok vmas

/-- One round of `punch_hole`: an area leaves the list, its pages in the hole are released, and what
remains of it on the left and on the right is inserted again. -/
def punchOne (p : Profile) (space : AddressSpace) (holeStart holeEnd : Nat) (vmas : List VMA)
    (st : Machine Pool) (vma : VMA) :
    Except Stop (Except String Unit × List VMA × Machine Pool) := do
  let vmas := ((Vmas.removeVma vmas vma.start).map Prod.snd).getD vmas
  let st ← forPages p (space.unmapPage p) st (max vma.start holeStart) (min vma.stop holeEnd)
  match keepPiece vmas vma vma.start holeStart with
  | .error e => return (.error e, vmas, st)
  | .ok vmas =>
    match keepPiece vmas vma holeEnd vma.stop with
    | .error e => return (.error e, vmas, st)
    | .ok vmas => return (.ok (), vmas, st)

def punchAll (p : Profile) (space : AddressSpace) (holeStart holeEnd : Nat) :
    List VMA → List VMA → Machine Pool →
      Except Stop (Except String Unit × List VMA × Machine Pool)
  | [], vmas, st => .ok (.ok (), vmas, st)
  | vma :: rest, vmas, st => do
    let (r, vmas, st) ← punchOne p space holeStart holeEnd vmas st vma
    match r with
    | .error e => return (.error e, vmas, st)
    | .ok () => punchAll p space holeStart holeEnd rest vmas st

def punchHole (p : Profile) (space : AddressSpace) (st : Machine Pool) (holeStart holeEnd : Nat) :
    Except Stop (Except String Unit × List VMA × Machine Pool) :=
  punchAll p space holeStart holeEnd (overlapping space.vmas holeStart holeEnd) space.vmas st

def mmapFixed (p : Profile) (space : AddressSpace) (st : Machine Pool) (addr size : Nat)
    (flags : VMAFlags) (kind : VMAKind) :
    Except Stop (Except String Nat × AddressSpace × Machine Pool) := do
  let (start, stop) ← Vmas.range p addr size
  let (r, vmas, st) ← space.punchHole p st start stop
  match r with
  | .error e => return (.error e, { space with vmas }, st)
  | .ok () =>
    match Vmas.addVma vmas ⟨start, stop, flags, kind⟩ with
    | .error e => return (.error e, { space with vmas }, st)
    | .ok vmas => return (.ok start, { space with vmas }, st)

def extendHeap (space : AddressSpace) (brkStart newEnd : Nat) :
    Except Stop (Except String Unit × AddressSpace) := do
  let (r, vmas) ← Vmas.extendHeap space.vmas brkStart newEnd
  return (r, { space with vmas })

/-- A loop over the pages of every area. -/
def forAreas (p : Profile) (body : Machine Pool → Nat → Except Stop (Machine Pool))
    (vmas : List VMA) (st : Machine Pool) : Except Stop (Machine Pool) :=
  vmas.foldlM (fun st vma => forPages p body st vma.start vma.stop) st

def clearUser (p : Profile) (space : AddressSpace) (st : Machine Pool) :
    Except Stop (AddressSpace × Machine Pool) := do
  let st ← forAreas p (space.clearPage p) space.vmas st
  return ({ space with vmas := [] }, st)

/-- The entries of a table of the last level are cleared before the table is freed. -/
def freePt (p : Profile) (space : AddressSpace) (st : Machine Pool) (phys : Nat) :
    Except Stop (Machine Pool) := do
  let _ ← physToVirt phys
  let st := (List.range 512).foldl (fun st i =>
    if Entry.isPresent (readEntry st.mem phys i) then st.writeEntry phys i 0 else st) st
  st.freeBlock p space.owner phys 0

/-- Free the tables below a table, then the table itself: the common shape of `free_pd` and
`free_pdpt`. -/
def freeBelow (p : Profile) (space : AddressSpace)
    (child : Machine Pool → Nat → Except Stop (Machine Pool)) (st : Machine Pool) (phys : Nat) :
    Except Stop (Machine Pool) := do
  let _ ← physToVirt phys
  let st ← (List.range 512).foldlM (fun st i =>
    let e := readEntry st.mem phys i
    if Entry.isPresent e && !(Entry.flags e).huge then child st (Entry.physAddr e) else .ok st) st
  st.freeBlock p space.owner phys 0

def freePd (p : Profile) (space : AddressSpace) : Machine Pool → Nat → Except Stop (Machine Pool) :=
  freeBelow p space (freePt p space)

def freePdpt (p : Profile) (space : AddressSpace) :
    Machine Pool → Nat → Except Stop (Machine Pool) :=
  freeBelow p space (freePd p space)

def freeUserTables (p : Profile) (space : AddressSpace) (st : Machine Pool) :
    Except Stop (Machine Pool) := do
  let _ ← physToVirt space.pml4
  (List.range 256).foldlM (fun st i => do
    let e := readEntry st.mem space.pml4 i
    if Entry.isPresent e then do
      let st ← freePdpt p space st (Entry.physAddr e)
      return st.writeEntry space.pml4 i 0
    else return st) st

def destroy (p : Profile) (space : AddressSpace) (st : Machine Pool) :
    Except Stop (Machine Pool) := do
  let st ← forAreas p (space.unmapPage p) space.vmas st
  let st ← space.freeUserTables p st
  space.release p st space.pml4

end AddressSpace
end Ferrum
