import Ferrum.Paging.Model

/-!
# Virtual memory areas

The list of areas of an address space and the operations that only touch the list. The list is
searched with `partition_point`; as every insertion goes through `add_vma`, which inserts at such a
point, the list is always sorted by `start`, and the point divides it into the longest prefix that
satisfies the predicate and the rest.
-/
namespace Ferrum

structure VMAFlags where
  read : Bool
  write : Bool
  exec : Bool
  deriving DecidableEq, Repr

namespace VMAFlags

def rw : VMAFlags := ⟨true, true, false⟩

def toPageFlags (f : VMAFlags) : PageFlags :=
  { PageFlags.none with present := true, user := true, writable := f.write, noExec := !f.exec }

end VMAFlags

inductive VMAKind where
  | anonymous
  | stack
  | heap
  deriving DecidableEq, Repr

def VMAKind.ownerTag : VMAKind → String
  | .anonymous => "vma:anon"
  | .stack => "vma:stack"
  | .heap => "vma:heap"

/-- An area `[start, stop)`; the source calls the end of it `end`. -/
structure VMA where
  start : Nat
  stop : Nat
  flags : VMAFlags
  kind : VMAKind
  deriving DecidableEq, Repr

namespace VMA

def contains (v : VMA) (addr : Nat) : Bool := v.start ≤ addr && addr < v.stop

def mergeableWith (v w : VMA) : Bool := v.flags = w.flags && v.kind = w.kind

end VMA

def MMAP_ZONE_START : Nat := 0x0000_6000_0000_0000
def MMAP_ZONE_END : Nat := 0x0000_7000_0000_0000

namespace Vmas

/-- The areas before `lower_bound(start)`. -/
def below (vmas : List VMA) (start : Nat) : List VMA := vmas.takeWhile (·.start < start)

/-- The areas from `lower_bound(start)` on. -/
def above (vmas : List VMA) (start : Nat) : List VMA := vmas.dropWhile (·.start < start)

/-- Join the new area with its left neighbour if they touch and agree. -/
def mergeLeft (before : List VMA) (vma : VMA) : List VMA × VMA :=
  match before.getLast? with
  | some prev =>
    if prev.stop = vma.start && prev.mergeableWith vma then
      (before.dropLast, { vma with start := prev.start })
    else (before, vma)
  | none => (before, vma)

/-- Join the new area with its right neighbour if they touch and agree. -/
def mergeRight (vma : VMA) (after : List VMA) : VMA × List VMA :=
  match after with
  | next :: rest =>
    if vma.stop = next.start && vma.mergeableWith next then ({ vma with stop := next.stop }, rest)
    else (vma, after)
  | [] => (vma, after)

/-- Only the two neighbours of the insertion point are compared with the new area. -/
def addVma (vmas : List VMA) (vma : VMA) : Except String (List VMA) :=
  let before := below vmas vma.start
  let after := above vmas vma.start
  if before.getLast?.any fun prev => vma.start < prev.stop then .error "VMA overlap"
  else if after.head?.any fun next => next.start < vma.stop then .error "VMA overlap"
  else
    let left := mergeLeft before vma
    let right := mergeRight left.2 after
    .ok (left.1 ++ right.1 :: right.2)

def findVma (vmas : List VMA) (addr : Nat) : Option VMA :=
  match (vmas.takeWhile (·.start ≤ addr)).getLast? with
  | some candidate => if candidate.contains addr then some candidate else none
  | none => none

/-- The area that starts at `start`, and the list without it. -/
def removeVma (vmas : List VMA) (start : Nat) : Option (VMA × List VMA) :=
  match above vmas start with
  | v :: rest => if v.start = start then some (v, below vmas start ++ rest) else none
  | [] => none

/-- The scan of `find_free_area` from a cursor on. -/
def freeAreaFrom (size : Nat) : List VMA → Nat → Option Nat
  | [], cursor => if size ≤ MMAP_ZONE_END - cursor then some cursor else none
  | v :: rest, cursor =>
    if MMAP_ZONE_END ≤ v.start then
      if size ≤ MMAP_ZONE_END - cursor then some cursor else none
    else if v.stop ≤ MMAP_ZONE_START then freeAreaFrom size rest cursor
    else if size ≤ v.start - cursor then some cursor
    else freeAreaFrom size rest (max cursor v.stop)

def findFreeArea (vmas : List VMA) (size : Nat) : Option Nat :=
  freeAreaFrom size vmas MMAP_ZONE_START

/-- The whole pages that `munmap` and `mmap_fixed` work on. -/
def range (p : Profile) (addr size : Nat) : Except Stop (Nat × Nat) := do
  let start ← alignUp p addr PAGE_SIZE
  let past ← p.add start size
  let stop ← alignUp p past PAGE_SIZE
  return (start, stop)

/-- The whole pages that `mmap` chooses: in a free place of the zone if no address is given. -/
def place (p : Profile) (vmas : List VMA) (addr size : Nat) : Except Stop (Option (Nat × Nat)) := do
  let alignedSize ← alignUp p size PAGE_SIZE
  let start ← if addr = 0 then pure (findFreeArea vmas alignedSize)
    else some <$> alignUp p addr PAGE_SIZE
  match start with
  | none => return none
  | some start => do
    let past ← p.add start size
    let stop ← alignUp p past PAGE_SIZE
    return some (start, stop)

def mmap (p : Profile) (vmas : List VMA) (addr size : Nat) (flags : VMAFlags) (kind : VMAKind) :
    Except Stop (Except String (Nat × List VMA)) := do
  match ← place p vmas addr size with
  | none => return .error "No free area for mmap"
  | some (start, stop) =>
    return (addVma vmas ⟨start, stop, flags, kind⟩).map fun vmas => (start, vmas)

/-- The heap area that ends last. -/
def lastHeap (vmas : List VMA) : Option VMA :=
  vmas.foldl (fun best v =>
    if v.kind = .heap ∧ (best.map VMA.stop).getD 0 < v.stop then some v else best) none

/-- An error after the removal of the old heap area does not bring it back. -/
def extendHeap (vmas : List VMA) (brkStart newEnd : Nat) :
    Except Stop (Except String Unit × List VMA) :=
  let insert (vmas : List VMA) (vma : VMA) : Except String Unit × List VMA :=
    match addVma vmas vma with
    | .ok vmas => (.ok (), vmas)
    | .error e => (.error e, vmas)
  match lastHeap vmas with
  | some best =>
    match removeVma vmas best.start with
    | some (existing, rest) =>
      .ok (insert rest ⟨best.start, newEnd, existing.flags, existing.kind⟩)
    | none => .error (.expect "called `Option::unwrap()` on a `None` value")
  | none => .ok (insert vmas ⟨brkStart, newEnd, .rw, .heap⟩)

end Vmas
end Ferrum
