import Ferrum.Machine.Basic
import Ferrum.Library.Tiling

/-!
# The buddy allocator

Free blocks of each order form a linked list that is threaded through the blocks themselves: the
first eight bytes of a free block hold the physical address of the next one, and `0` ends the list.
The state is therefore the list heads and counts together with the whole of physical memory.

The checks that the source compiles only with `debug_assertions` run in the `dev` profile.
-/
namespace Ferrum

def MAX_ORDER : Nat := 11

structure BuddyAllocator where
  freeHeads : Nat → Nat
  freeCounts : Nat → Nat

namespace BuddyAllocator

def new : BuddyAllocator := ⟨fun _ => 0, fun _ => 0⟩

end BuddyAllocator

def orderToSize (order : Nat) : Nat := PAGE_SIZE <<< order

def buddyOf (addr order : Nat) : Nat := (addr / PAGE_SIZE ^^^ 1 <<< order) * PAGE_SIZE

/-- The largest order that fits into `remaining` bytes and to which `addr` is aligned. -/
def maxOrderFor (addr remaining : Nat) : Nat :=
  ((List.range MAX_ORDER).reverse.find? fun o =>
    orderToSize o ≤ remaining && (addr / PAGE_SIZE) &&& (1 <<< o - 1) == 0).getD 0

abbrev Buddy := Machine BuddyAllocator

namespace Buddy

def setHead (s : Buddy) (order addr : Nat) : Buddy :=
  { s with pool.freeHeads := Function.update s.pool.freeHeads order addr }

def setCount (s : Buddy) (order count : Nat) : Buddy :=
  { s with pool.freeCounts := Function.update s.pool.freeCounts order count }

def readNext (s : Buddy) (addr : Nat) : Except Stop Nat := do
  let _ ← physToVirt addr
  return s.mem.read64 addr

def writeNext (s : Buddy) (addr next : Nat) : Except Stop Buddy := do
  let _ ← physToVirt addr
  return { s with mem := s.mem.write64 addr next }

/-- The walk over one free list: `seen` nodes so far, at most `limit` before the walk is taken
to be a cycle. `limit + 1` iterations are always enough. -/
def walk (s : Buddy) (caller : String) (order limit : Nat) : Nat → Nat → Nat → Except Stop Nat
  | 0, _, _ => .error .diverges
  | fuel + 1, seen, addr =>
    if addr = 0 then .ok seen
    else if limit < seen + 1 then
      .error (.listCycle caller order (s.pool.freeCounts order))
    else do
      let next ← s.readNext addr
      walk s caller order limit fuel (seen + 1) next

def checkOrder (s : Buddy) (caller : String) (order : Nat) : Except Stop Unit := do
  let counted := s.pool.freeCounts order
  let seen ← s.walk caller order (counted + 1) (counted + 3) 0 (s.pool.freeHeads order)
  if seen = counted then .ok () else .error (.listLength caller order seen counted)

def checkMetadataIntegrity (s : Buddy) (caller : String) : Except Stop Unit :=
  (List.range MAX_ORDER).forM (s.checkOrder caller)

/-- The checks under `#[cfg(debug_assertions)]`. -/
def debugCheck (p : Profile) (s : Buddy) (caller : String) : Except Stop Unit :=
  match p with
  | .dev => s.checkMetadataIntegrity caller
  | .release => .ok ()

def pushBlock (s : Buddy) (addr order : Nat) : Except Stop Buddy :=
  if addr = 0 then .error (.pushNull order)
  else if MAX_ORDER ≤ order then .error .indexOutOfBounds
  else do
    let s ← s.writeNext addr (s.pool.freeHeads order)
    return (s.setHead order addr).setCount order (s.pool.freeCounts order + 1)

def popBlock (p : Profile) (s : Buddy) (order : Nat) : Except Stop (Nat × Buddy) := do
  let addr := s.pool.freeHeads order
  if p = .dev ∧ addr = 0 then .error (.popEmpty order)
  let next ← s.readNext addr
  let count ← p.sub (s.pool.freeCounts order) 1
  return (addr, (s.setHead order next).setCount order count)

/-- The `while` loop of `remove_from_list`. A list without a cycle is shorter than the address
space, so the loop either ends within `2 ^ 64` iterations or not at all. -/
def removeLoop (p : Profile) (s : Buddy) (target order : Nat) :
    Nat → Option Nat → Nat → Except Stop (Bool × Buddy)
  | 0, _, _ => .error .diverges
  | fuel + 1, prev, cur =>
    if cur = 0 then .ok (false, s)
    else do
      let next ← s.readNext cur
      if cur = target then do
        let t ← match prev with
          | some link => s.writeNext link next
          | none => .ok (s.setHead order next)
        let count ← p.sub (t.pool.freeCounts order) 1
        return (true, t.setCount order count)
      else removeLoop p s target order fuel (some cur) next

def removeFromList (p : Profile) (s : Buddy) (addr order : Nat) : Except Stop (Bool × Buddy) :=
  s.removeLoop p addr order (2 ^ 64) none (s.pool.freeHeads order)

/-- The `while` loop of `add_region`, one block an iteration; every block has at least a page. -/
def addBlocks : Nat → Buddy → Nat → Nat → Except Stop Buddy
  | 0, _, _, _ => .error .diverges
  | fuel + 1, s, addr, stop =>
    if addr + PAGE_SIZE ≤ stop then do
      let order := maxOrderFor addr (stop - addr)
      let s ← s.pushBlock addr order
      addBlocks fuel s (addr + orderToSize order) stop
    else .ok s

def addRegion (p : Profile) (s : Buddy) (base size : Nat) : Except Stop Buddy := do
  let start ← alignUp p base PAGE_SIZE
  let past ← p.add base size
  let stop := alignDown past PAGE_SIZE
  if stop ≤ start then return s
  let s ← addBlocks ((stop - start) / PAGE_SIZE + 1) s start stop
  s.checkMetadataIntegrity "add_region"
  return s

/-- Give back the upper halves of `block` from `order + n` down to `order`. A popped block lies in
the higher-half window, so the addition cannot overflow. -/
def splitDown (s : Buddy) (block order : Nat) : Nat → Except Stop Buddy
  | 0 => .ok s
  | n + 1 => do
    let s ← s.pushBlock (block + orderToSize (order + n)) (order + n)
    splitDown s block order n

def alloc (p : Profile) (s : Buddy) (order : Nat) : Except Stop (Option Nat × Buddy) := do
  s.debugCheck p "alloc_start"
  match (List.range' order (MAX_ORDER - order)).find? fun o => 0 < s.pool.freeCounts o with
  | none => return (none, s)
  | some found => do
    let (block, s) ← s.popBlock p found
    let s ← s.splitDown block order (found - order)
    s.debugCheck p "alloc_end"
    return (some block, s)

/-- The merging loop of `free`; at most `n` orders remain below the largest one. -/
def mergeUp (p : Profile) (s : Buddy) : Nat → Nat → Nat → Except Stop (Nat × Nat × Buddy)
  | 0, addr, order => .ok (addr, order, s)
  | n + 1, addr, order => do
    let buddy := buddyOf addr order
    let (found, s) ← s.removeFromList p buddy order
    if found then mergeUp p s n (min addr buddy) (order + 1)
    else return (addr, order, s)

def free (p : Profile) (s : Buddy) (addr order : Nat) : Except Stop Buddy := do
  s.debugCheck p "free_start"
  let (addr, order, s) ← s.mergeUp p (MAX_ORDER - 1 - order) addr order
  let s ← s.pushBlock addr order
  s.debugCheck p "free_end"
  return s

end Buddy
end Ferrum
