import Ferrum.Kernel.Window
import Ferrum.Paging.View

/-!
# The initial stack of a program

`build_argv_envp_stack` fills the stack from the top down: the strings of the environment, the
arguments, sixteen random bytes, and then, word by word and from the last to the first, the vectors that
the program reads upwards from `rsp`. Every store lies below all the earlier ones.
-/
namespace Ferrum

/-- `String::as_bytes`; a string is its list of characters. -/
def asBytes (s : List Char) : List UInt8 := s.flatMap String.utf8EncodeChar

namespace Exec

def AT_NULL : Nat := 0
def AT_PHDR : Nat := 3
def AT_PHENT : Nat := 4
def AT_PHNUM : Nat := 5
def AT_PAGESZ : Nat := 6
def AT_BASE : Nat := 7
def AT_FLAGS : Nat := 8
def AT_ENTRY : Nat := 9
def AT_UID : Nat := 11
def AT_EUID : Nat := 12
def AT_GID : Nat := 13
def AT_EGID : Nat := 14
def AT_SECURE : Nat := 23
def AT_RANDOM : Nat := 25
def AT_SYSINFO_EHDR : Nat := 33

/-- What the stack says about the program. -/
structure ElfInfo where
  entry : Nat
  phdrVaddr : Nat
  phent : Nat
  phnum : Nat

def auxv (elf : ElfInfo) (atRandomPtr : Nat) : List (Nat × Nat) :=
  [(AT_PHDR, elf.phdrVaddr), (AT_PHENT, elf.phent), (AT_PHNUM, elf.phnum), (AT_PAGESZ, 4096),
    (AT_BASE, 0), (AT_FLAGS, 0), (AT_ENTRY, elf.entry), (AT_UID, 0), (AT_EUID, 0), (AT_GID, 0),
    (AT_EGID, 0), (AT_SECURE, 0), (AT_RANDOM, atRandomPtr), (AT_SYSINFO_EHDR, 0), (AT_NULL, 0)]

def xorshift (x : UInt64) : UInt64 :=
  let x := x ^^^ (x <<< 13)
  let x := x ^^^ (x >>> 7)
  x ^^^ (x <<< 17)

def toLeBytes (x : UInt64) : List UInt8 :=
  [x.toUInt8, (x >>> 8).toUInt8, (x >>> 16).toUInt8, (x >>> 24).toUInt8, (x >>> 32).toUInt8,
    (x >>> 40).toUInt8, (x >>> 48).toUInt8, (x >>> 56).toUInt8]

/-- The random bytes, from two readings of the time stamp counter. -/
def atRandomBytes (tsc1 tsc2 : UInt64) : List UInt8 :=
  toLeBytes (xorshift (tsc1 ^^^ (tsc2 <<< 17) ^^^ (tsc2 >>> 13))) ++
    toLeBytes (xorshift (tsc2 ^^^ (tsc1 <<< 31) ^^^ (tsc1 >>> 5)))

def writeU64 (pml4 : Nat) (st : Machine Pool) (vaddr val : Nat) : Except Stop (Machine Pool) := do
  match ← pageFrame st pml4 vaddr with
  | none => .error (.expect "stack not mapped")
  | some phys => do
    let _ ← physToVirt phys
    return { st with mem := st.mem.write64 (phys + vaddr % PAGE_SIZE) val }

def writeBytesViaPt (p : Profile) (pml4 : Nat) (st : Machine Pool) (vaddr : Nat) (data : List UInt8) :
    Except Stop (Machine Pool) := do
  let (written, st) ← writeToUser p st pml4 vaddr data
  if written then return st else .error (.expect "stack not mapped")

/-- One string and the byte that ends it. -/
def pushString (p : Profile) (pml4 : Nat) (bytes : List UInt8) (addr : Nat) (st : Machine Pool) :
    Except Stop (Nat × Machine Pool) := do
  let addr ← p.sub addr (bytes.length + 1)
  let st ← writeBytesViaPt p pml4 st addr bytes
  let past ← p.add addr bytes.length
  let st ← writeBytesViaPt p pml4 st past [0]
  return (addr, st)

/-- The loop over the strings, which collects their addresses. -/
def pushStrings (p : Profile) (pml4 : Nat) : List (List UInt8) → Nat → Machine Pool →
    Except Stop (List Nat × Nat × Machine Pool)
  | [], addr, st => .ok ([], addr, st)
  | bytes :: strings, addr, st => do
    let (addr, st) ← pushString p pml4 bytes addr st
    let (ptrs, last, st) ← pushStrings p pml4 strings addr st
    return (addr :: ptrs, last, st)

def pushWord (p : Profile) (pml4 val addr : Nat) (st : Machine Pool) :
    Except Stop (Nat × Machine Pool) := do
  let addr ← p.sub addr 8
  let st ← writeU64 pml4 st addr val
  return (addr, st)

/-- The words of a list, one below the other. -/
def pushWords (p : Profile) (pml4 : Nat) : List Nat → Nat → Machine Pool →
    Except Stop (Nat × Machine Pool)
  | [], addr, st => .ok (addr, st)
  | val :: vals, addr, st => do
    let (addr, st) ← pushWord p pml4 val addr st
    pushWords p pml4 vals addr st

/-- Where the words must start so that they end on a multiple of sixteen. -/
def alignFor (p : Profile) (totalWords addr : Nat) : Except Stop Nat :=
  if totalWords % 2 ≠ 0 then p.sub (alignDown addr 16) 8 else .ok (alignDown addr 16)

/-- The part below the alignment: the auxiliary vector, the pointers and the count of arguments. -/
def pushVectors (p : Profile) (pml4 argc : Nat) (argvPtrs envpPtrs : List Nat) (aux : List (Nat × Nat))
    (addr : Nat) (st : Machine Pool) : Except Stop (Nat × Machine Pool) := do
  let (addr, st) ← pushWords p pml4 (aux.reverse.flatMap fun (tag, val) => [val, tag]) addr st
  let (addr, st) ← pushWord p pml4 0 addr st
  let (addr, st) ← pushWords p pml4 envpPtrs.reverse addr st
  let (addr, st) ← pushWord p pml4 0 addr st
  let (addr, st) ← pushWords p pml4 argvPtrs.reverse addr st
  pushWord p pml4 argc addr st

def buildArgvEnvpStack (p : Profile) (ustackTop pml4 : Nat) (argv envp : List (List Char))
    (elf : ElfInfo) (tsc1 tsc2 : UInt64) (st : Machine Pool) :
    Except Stop ((Nat × List UInt8) × Machine Pool) := do
  let (envpPtrs, addr, st) ← pushStrings p pml4 (envp.map asBytes) ustackTop st
  let (argvPtrs, addr, st) ← pushStrings p pml4 (argv.map asBytes) addr st
  let random := atRandomBytes tsc1 tsc2
  let atRandomPtr ← p.sub addr 16
  let st ← writeBytesViaPt p pml4 st atRandomPtr random
  let aux := auxv elf atRandomPtr
  let addr ← alignFor p (1 + argv.length + 1 + envp.length + 1 + aux.length * 2) atRandomPtr
  let (addr, st) ← pushVectors p pml4 argv.length argvPtrs envpPtrs aux addr st
  return ((addr, random), st)

end Exec

/-! ## Stores that go downwards -/

namespace Memory

variable {m m' m'' : Memory} {a b c : Nat} {ws : List Nat} {bs : List UInt8}

/-- The words of a list stand in memory, from an address on. -/
def HoldsWords (m : Memory) (a : Nat) (ws : List Nat) : Prop :=
  ∀ i, (h : i < ws.length) → m.read64 (a + 8 * i) = ws[i]

theorem holdsWords_nil (m : Memory) (a : Nat) : m.HoldsWords a [] := nofun

theorem holdsWords_cons {w : Nat} :
    m.HoldsWords a (w :: ws) ↔ m.read64 a = w ∧ m.HoldsWords (a + 8) ws := by
  constructor
  · intro h
    refine ⟨h 0 (by simp), fun i hi => ?_⟩
    have next : m.read64 (a + 8 * (i + 1)) = ws[i] := h (i + 1) (Nat.succ_lt_succ hi)
    rwa [show a + 8 * (i + 1) = a + 8 + 8 * i by omega] at next
  · rintro ⟨head, tail⟩ i hi
    cases i with
    | zero => exact head
    | succ i =>
      have inside : i < ws.length := Nat.lt_of_succ_lt_succ hi
      have next : m.read64 (a + 8 + 8 * i) = ws[i] := tail i inside
      rwa [show a + 8 + 8 * i = a + 8 * (i + 1) by omega] at next

/-- Only the bytes from `a` up to `b` differ. -/
def Only (a b : Nat) (m m' : Memory) : Prop := ∀ x, x < a ∨ b ≤ x → m' x = m x

theorem Only.refl (a b : Nat) (m : Memory) : Only a b m m := fun _ _ => rfl

theorem Only.trans (h : Only b c m m') (g : Only a b m' m'') (ab : a ≤ b) (bc : b ≤ c) :
    Only a c m m'' := fun x out => (g x (by omega)).trans (h x (by omega))

theorem Only.mono (h : Only a b m m') (bc : b ≤ c) : Only a c m m' := fun x out => h x (by omega)

theorem Only.holds (h : Only a b m m') (held : m.Holds c bs) (above : b ≤ c) : m'.Holds c bs :=
  held.congr fun x low _ => h x (by omega)

theorem Only.holdsWords (h : Only a b m m') (held : m.HoldsWords c ws) (above : b ≤ c) :
    m'.HoldsWords c ws := by
  intro i hi
  rw [← held i hi]
  exact read64_congr fun x low _ => h x (by omega)

end Memory

/-- Blocks, each an address and a length, one below the other from `top` down to `low`. -/
def Descend : Nat → Nat → List (Nat × Nat) → Prop
  | top, low, [] => low ≤ top
  | top, low, (a, n) :: blocks => a + n ≤ top ∧ Descend a low blocks

namespace Descend

variable {top mid low : Nat} {blocks blocks' : List (Nat × Nat)}

theorem append (h : Descend top mid blocks) (g : Descend mid low blocks') :
    Descend top low (blocks ++ blocks') := by
  induction blocks generalizing top with
  | nil =>
    cases blocks' with
    | nil => exact Nat.le_trans g h
    | cons block blocks' => exact ⟨Nat.le_trans g.1 h, g.2⟩
  | cons block blocks ih => exact ⟨h.1, ih h.2⟩

theorem within (h : Descend top low blocks) : low ≤ top ∧
    ∀ block ∈ blocks, low ≤ block.1 ∧ block.1 + block.2 ≤ top := by
  induction blocks generalizing top with
  | nil => exact ⟨h, nofun⟩
  | cons block blocks ih =>
    obtain ⟨first, rest⟩ := ih h.2
    refine ⟨by have := h.1; omega, fun other among => ?_⟩
    have bound := h.1
    rcases List.mem_cons.mp among with rfl | later
    · exact ⟨first, h.1⟩
    · obtain ⟨below, above⟩ := rest other later
      exact ⟨below, by omega⟩

theorem apart (h : Descend top low blocks) :
    blocks.Pairwise fun a b => a.1 + a.2 ≤ b.1 ∨ b.1 + b.2 ≤ a.1 := by
  induction blocks generalizing top with
  | nil => exact .nil
  | cons block blocks ih =>
    exact .cons (fun other later => .inr ((within h.2).2 other later).2) (ih h.2)

end Descend

namespace Exec

variable {m vm : Memory} {pml4 lo hi addr : Nat} {frame : Nat → Nat} {st : Machine Pool}
  {p : Profile} {bytes : List UInt8}

/-- The blocks of strings at some addresses. -/
def blocks (strings : List (List UInt8)) (ptrs : List Nat) : List (Nat × Nat) :=
  List.zipWith (fun s ptr => (ptr, s.length + 1)) strings ptrs

/-- The room that strings take. -/
def room (strings : List (List UInt8)) : Nat := (strings.map (·.length + 1)).sum

section Pushing

variable (addr st p bytes) (window : Window m pml4 lo hi frame)
  (shows_ : Shows m lo hi frame vm st.mem)

include window shows_

theorem writeBytesViaPt_ok (low : lo * PAGE_SIZE ≤ addr)
    (high : addr + bytes.length ≤ hi * PAGE_SIZE) :
    ∃ m', writeBytesViaPt p pml4 st addr bytes = .ok { st with mem := m' } ∧
      Shows m lo hi frame (vm.writeBytes addr bytes) m' := by
  obtain ⟨m', run, after⟩ := window.writeViaPt shows_ low high (Nat.le_refl _)
  refine ⟨m', ?_, after⟩
  rw [writeBytesViaPt, writeToUser, run]
  rfl

theorem writeU64_ok (low : lo * PAGE_SIZE ≤ addr) (high : addr + 8 ≤ hi * PAGE_SIZE)
    (aligned : 8 ∣ addr) (val : Nat) :
    ∃ m', writeU64 pml4 st addr val = .ok { st with mem := m' } ∧
      Shows m lo hi frame (vm.write64 addr val) m' := by
  have page : lo ≤ addr / PAGE_SIZE ∧ addr / PAGE_SIZE < hi := by simp only [PAGE_SIZE] at *; omega
  have after := window.patch (n := 8) (g := fun i => UInt8.ofNat (val / 256 ^ i)) shows_ low
    (by omega) (by simp only [PAGE_SIZE]; omega)
  refine ⟨_, ?_, after⟩
  rw [writeU64, window.pageFrame shows_ low (by omega), ok_bind]
  simp only [physToVirt_ok (window.direct _ page.1 page.2), ok_bind]
  rfl

theorem pushString_ok (low : lo * PAGE_SIZE + (bytes.length + 1) ≤ addr)
    (high : addr ≤ hi * PAGE_SIZE) :
    ∃ m' vm', pushString p pml4 bytes addr st =
        .ok (addr - (bytes.length + 1), { st with mem := m' }) ∧
      Shows m lo hi frame vm' m' ∧ Memory.Only (addr - (bytes.length + 1)) addr vm vm' ∧
      vm'.Holds (addr - (bytes.length + 1)) (bytes ++ [0]) := by
  have top := window.top
  obtain ⟨m₁, run₁, shows₁⟩ := writeBytesViaPt_ok (addr - (bytes.length + 1)) st p bytes
    window shows_ (by omega) (by omega)
  obtain ⟨m₂, run₂, shows₂⟩ := writeBytesViaPt_ok
    (addr - (bytes.length + 1) + bytes.length) ⟨m₁, st.pool⟩ p [0] window shows₁ (by omega)
    (by simp only [List.length_singleton]; omega)
  rw [Memory.writeBytes_append] at shows₂
  refine ⟨m₂, _, ?_, shows₂, fun x out => ?_, Memory.holds_writeBytes _ _ _⟩
  · rw [pushString, p.sub_ok (by omega) (by omega), ok_bind, run₁, ok_bind, p.add_ok (by omega),
      ok_bind, run₂]
    rfl
  · refine Memory.writeBytes_outside ?_
    simp only [List.length_append, List.length_singleton]
    omega

theorem pushWord_ok (low : lo * PAGE_SIZE + 8 ≤ addr) (high : addr ≤ hi * PAGE_SIZE)
    (aligned : 8 ∣ addr) (val : Nat) (small : val < 2 ^ 64) {ws : List Nat}
    (held : vm.HoldsWords addr ws) :
    ∃ m' vm', pushWord p pml4 val addr st = .ok (addr - 8, { st with mem := m' }) ∧
      Shows m lo hi frame vm' m' ∧ Memory.Only (addr - 8) addr vm vm' ∧
      vm'.HoldsWords (addr - 8) (val :: ws) := by
  have top := window.top
  obtain ⟨m', run, after⟩ := writeU64_ok (addr - 8) st window shows_ (by omega) (by omega)
    (by omega) val
  have only : Memory.Only (addr - 8) addr vm (vm.write64 (addr - 8) val) := fun x out =>
    Memory.write64_outside (by omega)
  refine ⟨m', _, ?_, after, only, Memory.holdsWords_cons.mpr ⟨?_, ?_⟩⟩
  · rw [pushWord, p.sub_ok (by omega) (by omega), ok_bind, run]
    rfl
  · rw [Memory.read64_write64, Nat.mod_eq_of_lt small]
  · rw [Nat.sub_add_cancel (by omega)]
    exact only.holdsWords held (Nat.le_refl _)

end Pushing

theorem pushStrings_ok (p : Profile) (st : Machine Pool) (addr : Nat)
    (window : Window m pml4 lo hi frame) (strings : List (List UInt8))
    (shows_ : Shows m lo hi frame vm st.mem) (low : lo * PAGE_SIZE + room strings ≤ addr)
    (high : addr ≤ hi * PAGE_SIZE) :
    ∃ ptrs m' vm', pushStrings p pml4 strings addr st =
        .ok (ptrs, addr - room strings, { st with mem := m' }) ∧
      Shows m lo hi frame vm' m' ∧ Memory.Only (addr - room strings) addr vm vm' ∧
      List.Forall₂ (fun s ptr => addr - room strings ≤ ptr ∧ vm'.Holds ptr (s ++ [0])) strings ptrs ∧
      Descend addr (addr - room strings) (blocks strings ptrs) ∧ ∀ ptr ∈ ptrs, ptr < 2 ^ 64 := by
  induction strings generalizing addr st vm with
  | nil => exact ⟨[], st.mem, vm, rfl, shows_, .refl _ _ _, .nil, Nat.le_refl _, nofun⟩
  | cons bytes strings ih =>
    have top := window.top
    have total : room (bytes :: strings) = (bytes.length + 1) + room strings := rfl
    rw [total] at low
    obtain ⟨m₁, vm₁, run₁, shows₁, only₁, held⟩ :=
      pushString_ok addr st p bytes window shows_ (by omega) high
    obtain ⟨ptrs, m₂, vm₂, run₂, shows₂, only₂, all, descend, small⟩ :=
      ih ⟨m₁, st.pool⟩ (addr - (bytes.length + 1)) shows₁ (by omega) (by omega)
    rw [Nat.sub_sub, ← total] at run₂ only₂ all descend
    refine ⟨_ :: ptrs, m₂, vm₂, ?_, shows₂, only₁.trans only₂ (by omega) (by omega),
      .cons ⟨by omega, only₂.holds held (Nat.le_refl _)⟩ all, ⟨by omega, descend⟩, ?_⟩
    · simp only [pushStrings, run₁, ok_bind, run₂, pure_eq_ok]
    · rintro ptr (_ | ⟨_, later⟩)
      · omega
      · exact small ptr later

/-- The words that were pushed stand in memory in the opposite order, on top of those before. -/
theorem pushWords_ok (p : Profile) (st : Machine Pool) (addr : Nat)
    (window : Window m pml4 lo hi frame) (vals ws : List Nat)
    (shows_ : Shows m lo hi frame vm st.mem) (low : lo * PAGE_SIZE + 8 * vals.length ≤ addr)
    (high : addr ≤ hi * PAGE_SIZE) (aligned : 8 ∣ addr) (small : ∀ val ∈ vals, val < 2 ^ 64)
    (held : vm.HoldsWords addr ws) :
    ∃ m' vm', pushWords p pml4 vals addr st = .ok (addr - 8 * vals.length, { st with mem := m' }) ∧
      Shows m lo hi frame vm' m' ∧ Memory.Only (addr - 8 * vals.length) addr vm vm' ∧
      vm'.HoldsWords (addr - 8 * vals.length) (vals.reverse ++ ws) := by
  induction vals generalizing addr st vm ws with
  | nil => exact ⟨st.mem, vm, rfl, shows_, .refl _ _ _, held⟩
  | cons val vals ih =>
    have top := window.top
    rw [List.length_cons] at low ⊢
    obtain ⟨m₁, vm₁, run₁, shows₁, only₁, held₁⟩ := pushWord_ok addr st p window shows_
      (by omega) high aligned val (small val List.mem_cons_self) held
    obtain ⟨m₂, vm₂, run₂, shows₂, only₂, held₂⟩ := ih ⟨m₁, st.pool⟩ (addr - 8)
      (val :: ws) shows₁ (by omega) (by omega) (by omega)
      (fun val' later => small val' (List.mem_cons_of_mem _ later)) held₁
    have size : addr - 8 - 8 * vals.length = addr - 8 * (vals.length + 1) := by omega
    rw [size] at run₂ only₂ held₂
    refine ⟨m₂, vm₂, ?_, shows₂, only₁.trans only₂ (by omega) (by omega), ?_⟩
    · rw [pushWords, run₁, ok_bind]
      exact run₂
    · simpa using held₂

theorem asBytes_length (s : List Char) : (asBytes s).length ≤ 4 * s.length := by
  induction s with
  | nil => simp [asBytes]
  | cons c s ih =>
    have one := c.utf8Size_le_four
    rw [asBytes, List.flatMap_cons, List.length_append, String.length_utf8EncodeChar,
      List.length_cons]
    rw [asBytes] at ih
    omega

theorem room_le {strings : List (List Char)} (short : ∀ s ∈ strings, s.length ≤ 255) :
    room (strings.map asBytes) ≤ 1021 * strings.length := by
  induction strings with
  | nil => simp [room]
  | cons s strings ih =>
    have one := asBytes_length s
    have bound := short s List.mem_cons_self
    have rest := ih fun s' later => short s' (List.mem_cons_of_mem _ later)
    have total : room ((s :: strings).map asBytes) =
        ((asBytes s).length + 1) + room (strings.map asBytes) := rfl
    rw [total, List.length_cons]
    omega

/-- The values that the kernel is told about the program are words. -/
def ElfInfo.Words (elf : ElfInfo) : Prop :=
  elf.entry < 2 ^ 64 ∧ elf.phdrVaddr < 2 ^ 64 ∧ elf.phent < 2 ^ 64 ∧ elf.phnum < 2 ^ 64

/-- The words that a program finds from `rsp` upwards. -/
def vectors (argc : Nat) (argvPtrs envpPtrs : List Nat) (aux : List (Nat × Nat)) : List Nat :=
  argc :: (argvPtrs ++ 0 :: (envpPtrs ++ 0 :: aux.flatMap fun (tag, val) => [tag, val]))

/-- The regions of the stack: its strings, the random bytes and the vectors. -/
def regions (rsp : Nat) (argv envp : List (List UInt8)) (argvPtrs envpPtrs : List Nat)
    (atRandomPtr : Nat) (aux : List (Nat × Nat)) : List (Nat × Nat) :=
  blocks envp envpPtrs ++ (blocks argv argvPtrs ++
    [(atRandomPtr, 16), (rsp, 8 * (vectors argv.length argvPtrs envpPtrs aux).length)])

/-- The stack that a program starts with. -/
structure InitialStack (vm : Memory) (top rsp : Nat) (argv envp : List (List UInt8)) (elf : ElfInfo)
    (random : List UInt8) (argvPtrs envpPtrs : List Nat) (atRandomPtr : Nat) : Prop where
  aligned : 16 ∣ rsp
  words : vm.HoldsWords rsp (vectors argv.length argvPtrs envpPtrs (auxv elf atRandomPtr))
  arguments : List.Forall₂ (fun s ptr => vm.Holds ptr (s ++ [0])) argv argvPtrs
  environment : List.Forall₂ (fun s ptr => vm.Holds ptr (s ++ [0])) envp envpPtrs
  entropy : vm.Holds atRandomPtr random
  inside : ∀ r ∈ regions rsp argv envp argvPtrs envpPtrs atRandomPtr (auxv elf atRandomPtr),
    rsp ≤ r.1 ∧ r.1 + r.2 ≤ top
  apart : (regions rsp argv envp argvPtrs envpPtrs atRandomPtr (auxv elf atRandomPtr)).Pairwise
    fun r s => r.1 + r.2 ≤ s.1 ∨ s.1 + s.2 ≤ r.1

theorem pushWords_append (p : Profile) (pml4 : Nat) (a b : List Nat) (addr : Nat)
    (st : Machine Pool) : pushWords p pml4 (a ++ b) addr st = (do
      let (addr, st) ← pushWords p pml4 a addr st
      pushWords p pml4 b addr st) := by
  induction a generalizing addr st with
  | nil => rfl
  | cons w a ih =>
    rw [List.cons_append, pushWords, pushWords]
    cases pushWord p pml4 w addr st with
    | error => rfl
    | ok out => exact ih out.1 out.2

theorem pushWords_singleton (p : Profile) (pml4 val addr : Nat) (st : Machine Pool) :
    pushWords p pml4 [val] addr st = pushWord p pml4 val addr st := by
  rw [pushWords]
  cases pushWord p pml4 val addr st <;> rfl

theorem pushVectors_eq (p : Profile) (pml4 argc : Nat) (argvPtrs envpPtrs : List Nat)
    (aux : List (Nat × Nat)) (addr : Nat) (st : Machine Pool) :
    pushVectors p pml4 argc argvPtrs envpPtrs aux addr st =
      pushWords p pml4 (vectors argc argvPtrs envpPtrs aux).reverse addr st := by
  have order : (vectors argc argvPtrs envpPtrs aux).reverse =
      (aux.reverse.flatMap fun (tag, val) => [val, tag]) ++
        ([0] ++ (envpPtrs.reverse ++ ([0] ++ (argvPtrs.reverse ++ [argc])))) := by
    simp [vectors, List.reverse_flatMap, Function.comp_def]
  simp only [order, pushWords_append, pushWords_singleton]
  rfl

theorem auxv_small {elf : ElfInfo} (words : elf.Words) (ptr : Nat) (small : ptr < 2 ^ 64) :
    ∀ w ∈ (auxv elf ptr).flatMap fun (tag, val) => [tag, val], w < 2 ^ 64 := by
  obtain ⟨entry, phdr, phent, phnum⟩ := words
  have tags : ∀ pair ∈ auxv elf ptr, pair.1 < 2 ^ 64 := by
    simp only [auxv, List.forall_mem_cons, List.not_mem_nil, IsEmpty.forall_iff, implies_true, and_true]
    decide
  have values : ∀ pair ∈ auxv elf ptr, pair.2 < 2 ^ 64 := by
    simp only [auxv, List.forall_mem_cons, List.not_mem_nil, IsEmpty.forall_iff, implies_true, and_true,
      phdr, phent, phnum, entry, small, true_and]
    decide
  intro w among
  obtain ⟨pair, listed, here⟩ := List.mem_flatMap.mp among
  rcases List.mem_pair.mp here with rfl | rfl
  · exact tags pair listed
  · exact values pair listed

theorem auxv_length (elf : ElfInfo) (ptr : Nat) : (auxv elf ptr).length = 15 := rfl

theorem alignFor_ok (p : Profile) (n addr : Nat) (enough : 32 ≤ addr) (small : addr < 2 ^ 64) :
    ∃ a, alignFor p n addr = .ok a ∧ a ≤ addr ∧ a % 16 = 8 * (n % 2) ∧ addr < a + 24 := by
  have rounded : alignDown addr 16 = addr / 16 * 16 :=
    and_not64_two_pow (k := 4) small (by omega)
  rw [alignFor, rounded]
  split
  next odd =>
    refine ⟨_, p.sub_ok (by omega) (by omega), ?_, ?_, ?_⟩ <;> omega
  next even =>
    refine ⟨_, rfl, ?_, ?_, ?_⟩ <;> omega

theorem atRandomBytes_length (tsc1 tsc2 : UInt64) : (atRandomBytes tsc1 tsc2).length = 16 := rfl

/-- `build_argv_envp_stack` succeeds if there is room for everything below the top. -/
theorem buildArgvEnvpStack_ok (p : Profile) {pml4 hi : Nat} {frame : Nat → Nat}
    {argv envp : List (List Char)} {elf : ElfInfo} (tsc1 tsc2 : UInt64) {st : Machine Pool}
    (enough : 128 ≤ hi) (window : Window st.mem pml4 (hi - 128) hi frame)
    (fits : room (argv.map asBytes) + room (envp.map asBytes) + 8 * (argv.length + envp.length) + 304 ≤
      128 * PAGE_SIZE) (words : elf.Words) :
    ∃ rsp m' vm argvPtrs envpPtrs atRandomPtr,
      buildArgvEnvpStack p (hi * PAGE_SIZE) pml4 argv envp elf tsc1 tsc2 st =
        .ok ((rsp, atRandomBytes tsc1 tsc2), ⟨m', st.pool⟩) ∧
      (hi - 128) * PAGE_SIZE ≤ rsp ∧ Shows st.mem (hi - 128) hi frame vm m' ∧
      Memory.Only rsp (hi * PAGE_SIZE) (seen (hi - 128) hi frame st.mem) vm ∧
      InitialStack vm (hi * PAGE_SIZE) rsp (argv.map asBytes) (envp.map asBytes) elf
        (atRandomBytes tsc1 tsc2) argvPtrs envpPtrs atRandomPtr := by
  have bottom : (hi - 128) * PAGE_SIZE + 128 * PAGE_SIZE = hi * PAGE_SIZE := by
    rw [← Nat.add_mul, Nat.sub_add_cancel enough]
  rw [show 128 * PAGE_SIZE = 524288 from rfl] at bottom fits
  have limit := window.top
  -- the strings
  obtain ⟨envpPtrs, m₁, vm₁, run₁, shows₁, only₁, envpHeld, envpBlocks, envpSmall⟩ :=
    pushStrings_ok p st (hi * PAGE_SIZE) window (envp.map asBytes) (.start ..) (by omega)
      (Nat.le_refl _)
  obtain ⟨a₁, first⟩ : ∃ a₁, hi * PAGE_SIZE - room (envp.map asBytes) = a₁ := ⟨_, rfl⟩
  rw [first] at run₁ only₁ envpHeld envpBlocks
  obtain ⟨argvPtrs, m₂, vm₂, run₂, shows₂, only₂, argvHeld, argvBlocks, argvSmall⟩ :=
    pushStrings_ok p ⟨m₁, st.pool⟩ a₁ window (argv.map asBytes) shows₁
      (by omega) (by omega)
  obtain ⟨a₂, second⟩ : ∃ a₂, a₁ - room (argv.map asBytes) = a₂ := ⟨_, rfl⟩
  rw [second] at run₂ only₂ argvHeld argvBlocks
  -- the random bytes
  have sixteen := atRandomBytes_length tsc1 tsc2
  obtain ⟨m₃, run₃, shows₃⟩ := writeBytesViaPt_ok (a₂ - 16) ⟨m₂, st.pool⟩ p
    (atRandomBytes tsc1 tsc2) window shows₂ (by omega) (by omega)
  have only₃ : Memory.Only (a₂ - 16) a₂ vm₂ (vm₂.writeBytes (a₂ - 16) (atRandomBytes tsc1 tsc2)) :=
    fun x out => Memory.writeBytes_outside (by omega)
  have entropy := vm₂.holds_writeBytes (a₂ - 16) (atRandomBytes tsc1 tsc2)
  -- the alignment
  obtain ⟨n, total⟩ : ∃ n, 1 + argv.length + 1 + envp.length + 1 + 30 = n := ⟨_, rfl⟩
  have number : n = argv.length + envp.length + 33 := by omega
  obtain ⟨a₃, third, below, aligned, close⟩ := alignFor_ok p n (a₂ - 16) (by omega) (by omega)
  have left : (hi - 128) * PAGE_SIZE + 8 * n ≤ a₃ := by omega
  -- the vectors
  have argc : argvPtrs.length = argv.length := by simpa using argvHeld.length_eq.symm
  have envc : envpPtrs.length = envp.length := by simpa using envpHeld.length_eq.symm
  have count : (vectors argv.length argvPtrs envpPtrs (auxv elf (a₂ - 16))).length = n := by
    simp [vectors, auxv, argc, envc, number]
    omega
  have small : ∀ w ∈ (vectors argv.length argvPtrs envpPtrs (auxv elf (a₂ - 16))).reverse,
      w < 2 ^ 64 := by
    have aux := auxv_small words (a₂ - 16) (by omega)
    intro w among
    simp only [vectors, List.mem_reverse, List.mem_cons, List.mem_append] at among
    rcases among with rfl | arg | rfl | env | rfl | other
    · omega
    · exact argvSmall w arg
    · decide
    · exact envpSmall w env
    · decide
    · exact aux w other
  obtain ⟨m₄, vm₄, run₄, shows₄, only₄, held⟩ := pushWords_ok p ⟨m₃, st.pool⟩ a₃ window _ [] shows₃ (by rw [List.length_reverse, count]; exact left)
    (by omega) (by omega) small (Memory.holdsWords_nil _ _)
  rw [List.length_reverse, count] at run₄ only₄ held
  rw [List.reverse_reverse, List.append_nil] at held
  obtain ⟨rsp, last⟩ : ∃ rsp, a₃ - 8 * n = rsp := ⟨_, rfl⟩
  rw [last] at run₄ only₄ held
  have low : (hi - 128) * PAGE_SIZE ≤ rsp := by omega
  have later₂ : Memory.Only rsp a₂ vm₂ vm₄ := only₃.trans (only₄.mono below) (by omega) (by omega)
  have later₁ : Memory.Only rsp a₁ vm₁ vm₄ := only₂.trans later₂ (by omega) (by omega)
  have descend : Descend (hi * PAGE_SIZE) rsp (regions rsp (argv.map asBytes) (envp.map asBytes)
      argvPtrs envpPtrs (a₂ - 16) (auxv elf (a₂ - 16))) := by
    refine envpBlocks.append (argvBlocks.append ⟨by omega, ?_, Nat.le_refl _⟩)
    rw [List.length_map, count]
    omega
  refine ⟨rsp, m₄, vm₄, argvPtrs, envpPtrs, a₂ - 16, ?_, low, shows₄, only₁.trans later₁ (by omega) (by omega), ?_⟩
  · simp only [buildArgvEnvpStack, run₁, run₂, ok_bind, p.sub_ok (show 16 ≤ a₂ by omega)
      (show a₂ < 2 ^ 64 by omega), run₃, auxv_length, total, third, pushVectors_eq, run₄, pure_eq_ok]
  · exact ⟨by omega, by rwa [List.length_map],
      argvHeld.imp fun s ptr h => later₂.holds h.2 h.1, envpHeld.imp fun s ptr h => later₁.holds h.2 h.1,
      only₄.holds entropy below, descend.within.2, descend.apart⟩

theorem fits_of_short {argv envp : List (List Char)} (argvFew : argv.length ≤ 32)
    (envpFew : envp.length ≤ 64) (short : ∀ s ∈ argv ++ envp, s.length ≤ 255) :
    room (argv.map asBytes) + room (envp.map asBytes) + 8 * (argv.length + envp.length) + 304 ≤
      128 * PAGE_SIZE := by
  have argvRoom := room_le fun s among => short s (List.mem_append_left _ among)
  have envpRoom := room_le fun s among => short s (List.mem_append_right _ among)
  simp only [PAGE_SIZE]
  omega

/-- `build_argv_envp_stack` builds the stack of a program in the pages below its top, and touches
nothing else. -/
theorem initial_stack (p : Profile) (pml4 hi : Nat) (frame : Nat → Nat) (argv envp : List (List Char))
    (elf : ElfInfo) (tsc1 tsc2 : UInt64) (st : Machine Pool) (enough : 128 ≤ hi)
    (window : Window st.mem pml4 (hi - 128) hi frame)
    (argvFew : argv.length ≤ 32) (envpFew : envp.length ≤ 64)
    (short : ∀ s ∈ argv ++ envp, s.length ≤ 255) (words : elf.Words) :
    ∃ rsp st' argvPtrs envpPtrs atRandomPtr,
      buildArgvEnvpStack p (hi * PAGE_SIZE) pml4 argv envp elf tsc1 tsc2 st =
        .ok ((rsp, atRandomBytes tsc1 tsc2), st') ∧
      (hi - 128) * PAGE_SIZE ≤ rsp ∧
      (∀ v < rsp, seen (hi - 128) hi frame st'.mem v = seen (hi - 128) hi frame st.mem v) ∧
      (∀ x, (∀ q, hi - 128 ≤ q → q < hi → x < frame q ∨ frame q + PAGE_SIZE ≤ x) →
        st'.mem x = st.mem x) ∧
      (∀ q, hi - 128 ≤ q → q < hi →
        Machine.translate st'.mem pml4 (q * PAGE_SIZE) = .ok (some (frame q))) ∧
      InitialStack (seen (hi - 128) hi frame st'.mem) (hi * PAGE_SIZE) rsp (argv.map asBytes)
        (envp.map asBytes) elf (atRandomBytes tsc1 tsc2) argvPtrs envpPtrs atRandomPtr := by
  obtain ⟨rsp, m', vm, argvPtrs, envpPtrs, atRandomPtr, run, low, shows_, only, stack⟩ :=
    buildArgvEnvpStack_ok p tsc1 tsc2 enough window (fits_of_short argvFew envpFew short) words
  refine ⟨rsp, ⟨m', st.pool⟩, argvPtrs, envpPtrs, atRandomPtr, run, low, fun v lower => ?_, shows_.outside,
    fun q first last => window.translate shows_ first last, by rwa [shows_.inside]⟩
  rw [shows_.inside]
  exact only v (.inl lower)

/-! ## A table of 128 pages -/

/-- Three tables, each with one entry that leads to the next. -/
def upperTables : Memory :=
  Memory.write64 (Memory.write64 (Memory.write64 (fun _ => 0) 0x1000 (Entry.newPage 0x2000 .userData))
    0x2000 (Entry.newPage 0x3000 .userData)) 0x3000 (Entry.newPage 0x4000 .userData)

/-- Below them, a table that maps 128 pages to consecutive frames. -/
def stackTables (base : Nat) : Memory := fun x =>
  if 0x4000 ≤ x ∧ x < 0x4400 then
    UInt8.ofNat (Entry.newPage (base + (x - 0x4000) / 8 * PAGE_SIZE) .userData / 256 ^ ((x - 0x4000) % 8))
  else upperTables x

variable {base : Nat} {m' : Memory}

theorem leaf_stackTables {q : Nat} (few : q < 128) (page : PageAddr (base + q * PAGE_SIZE)) :
    readEntry (stackTables base) 0x4000 q = Entry.newPage (base + q * PAGE_SIZE) .userData := by
  have same : ∀ x, 0x4000 + 8 * q ≤ x → x < 0x4000 + 8 * q + 8 → stackTables base x =
      Memory.write64 upperTables (0x4000 + 8 * q)
        (Entry.newPage (base + q * PAGE_SIZE) .userData) x := by
    intro x low high
    have index : (x - 0x4000) / 8 = q ∧ (x - 0x4000) % 8 = x - (0x4000 + 8 * q) := by omega
    rw [stackTables, if_pos (by omega), index.1, index.2, Memory.write64, Memory.writeLe,
      if_pos ⟨low, high⟩]
  rw [readEntry, Memory.read64_congr same, Memory.read64_write64, Nat.mod_eq_of_lt (Entry.newPage_lt page)]

theorem translate_stackTables (same : ∀ x < 0x5000, m' x = stackTables base x) {q : Nat} (few : q < 128)
    (page : PageAddr (base + q * PAGE_SIZE)) :
    Machine.translate m' 0x1000 (q * PAGE_SIZE) = .ok (some (base + q * PAGE_SIZE)) := by
  have entry (t : Nat) (below : t + 8 ≤ 0x4000) : readEntry m' t 0 = readEntry upperTables t 0 :=
    Memory.read64_congr fun x _ high => by
      rw [same x (by omega), stackTables, if_neg (by omega)]
  have first : readEntry m' 0x1000 0 = Entry.newPage 0x2000 .userData :=
    (entry _ (by omega)).trans (by decide +kernel)
  have second : readEntry m' 0x2000 0 = Entry.newPage 0x3000 .userData :=
    (entry _ (by omega)).trans (by decide +kernel)
  have third : readEntry m' 0x3000 0 = Entry.newPage 0x4000 .userData :=
    (entry _ (by omega)).trans (by decide +kernel)
  have leaf : readEntry m' 0x4000 q = Entry.newPage (base + q * PAGE_SIZE) .userData := by
    rw [← leaf_stackTables few page]
    exact Memory.read64_congr fun x _ high => same x (by omega)
  have parts : VirtAddrParts.fromU64 (q * PAGE_SIZE) = ⟨0, 0, 0, q, 0⟩ := by
    rw [fromU64_eq]
    simp only [pageOf, PAGE_SIZE, VirtAddrParts.mk.injEq]
    omega
  have table₂ : PageAddr 0x2000 := by decide
  have table₃ : PageAddr 0x3000 := by decide
  have table₄ : PageAddr 0x4000 := by decide
  simp only [Machine.translate, parts, Machine.walkTables, first, second, third, leaf,
    Entry.isPresent_newPage table₂, Entry.isPresent_newPage table₃, Entry.isPresent_newPage table₄,
    Entry.isPresent_newPage page, Entry.physAddr_newPage table₂, Entry.physAddr_newPage table₃,
    Entry.physAddr_newPage table₄, Entry.physAddr_newPage page, Entry.flags_newPage table₄,
    physToVirt_ok (show 0x1000 < DIRECT_MAP_END by decide),
    physToVirt_ok (show 0x2000 < DIRECT_MAP_END by decide),
    physToVirt_ok (show 0x3000 < DIRECT_MAP_END by decide),
    physToVirt_ok (show 0x4000 < DIRECT_MAP_END by decide), ok_bind, PageFlags.userData, PageFlags.none,
    if_true, Bool.not_true, Bool.false_eq_true, if_false, pure_eq_ok, Nat.add_zero]

/-- Frames that the higher-half window does not reach: the kernel panics at the first store. -/
theorem stack_beyond_window : ∃ (st : Machine Pool) (frame : Nat → Nat),
    (∀ q < 128, Machine.translate st.mem 0x1000 (q * PAGE_SIZE) = .ok (some (frame q))) ∧
    (∀ q r, q < 128 → r < 128 → frame q = frame r → q = r) ∧
    ∃ phys, buildArgvEnvpStack .dev (128 * PAGE_SIZE) 0x1000 [] [] ⟨0, 0, 0, 0⟩ 0 0 st =
      .error (.physToVirt phys) := by
  have pages (q : Nat) (few : q < 128) : PageAddr (2 ^ 47 + q * PAGE_SIZE) := by
    simp only [PageAddr, PAGE_SIZE]
    omega
  have mapped (q : Nat) (few : q < 128) :
      Machine.translate (stackTables (2 ^ 47)) 0x1000 (q * PAGE_SIZE) =
        .ok (some (2 ^ 47 + q * PAGE_SIZE)) :=
    translate_stackTables (fun _ _ => rfl) few (pages q few)
  refine ⟨⟨stackTables (2 ^ 47), ⟨.new, [], []⟩⟩, fun q => 2 ^ 47 + q * PAGE_SIZE, mapped, ?_,
    2 ^ 47 + 127 * PAGE_SIZE, ?_⟩
  · intro q r _ _ same
    simp only [PAGE_SIZE] at same
    omega
  · have top : alignDown (128 * PAGE_SIZE - 16) PAGE_SIZE = 127 * PAGE_SIZE := by decide
    have found : pageFrame ⟨stackTables (2 ^ 47), ⟨.new, [], []⟩⟩ 0x1000 (128 * PAGE_SIZE - 16) =
        .ok (some (2 ^ 47 + 127 * PAGE_SIZE)) := by
      rw [pageFrame, top]
      exact mapped 127 (by decide)
    have stops : physToVirt (2 ^ 47 + 127 * PAGE_SIZE) =
        .error (.physToVirt (2 ^ 47 + 127 * PAGE_SIZE)) := by decide
    have first : writeBytesViaPt .dev 0x1000 ⟨stackTables (2 ^ 47), ⟨.new, [], []⟩⟩
        (128 * PAGE_SIZE - 16) (atRandomBytes 0 0) = .error (.physToVirt (2 ^ 47 + 127 * PAGE_SIZE)) := by
      rw [writeBytesViaPt, writeToUser, atRandomBytes_length, writeViaPt, if_neg (by decide), found, ok_bind]
      simp only [stops, error_bind]
    simp only [buildArgvEnvpStack, List.map_nil, pushStrings, ok_bind,
      Profile.dev.sub_ok (show 16 ≤ 128 * PAGE_SIZE by decide) (by decide), first, error_bind]

theorem window_stackTables : Window (stackTables 0x100000) 0x1000 0 128 fun q =>
    0x100000 + q * PAGE_SIZE := by
  have pages (q : Nat) (few : q < 128) : PageAddr (0x100000 + q * PAGE_SIZE) := by
    simp only [PageAddr, PAGE_SIZE]
    omega
  refine ⟨fun q _ few => translate_stackTables (fun _ _ => rfl) few (pages q few),
    fun q _ few => (pages q few).1, fun q r _ _ _ _ same => ?_, fun q _ few => ?_, ?_, by decide⟩
  · simp only [PAGE_SIZE] at same
    omega
  · simp only [PAGE_SIZE, DIRECT_MAP_END]
    omega
  · intro m' same q _ few
    have tables : ∀ x < 0x5000, m' x = stackTables 0x100000 x := fun x low =>
      same x fun r _ _ => .inl (by omega)
    rw [translate_stackTables tables few (pages q few),
      translate_stackTables (fun _ _ => rfl) few (pages q few)]

/-- Two arguments, the second of them not ASCII, and one string of environment. -/
theorem stack_of_two_arguments : ∃ rsp st' argvPtrs envpPtrs atRandomPtr,
    buildArgvEnvpStack .dev (128 * PAGE_SIZE) 0x1000 [['s', 'h'], ['é']] [['P', '=', '/']]
      ⟨0x400000, 0x400040, 56, 2⟩ 1 2 ⟨stackTables 0x100000, ⟨.new, [], []⟩⟩ =
        .ok ((rsp, atRandomBytes 1 2), st') ∧
    InitialStack (seen 0 128 (fun q => 0x100000 + q * PAGE_SIZE) st'.mem) (128 * PAGE_SIZE) rsp
      [[115, 104], [195, 169]] [[80, 61, 47]] ⟨0x400000, 0x400040, 56, 2⟩ (atRandomBytes 1 2) argvPtrs
      envpPtrs atRandomPtr := by
  obtain ⟨rsp, st', argvPtrs, envpPtrs, atRandomPtr, run, -, -, -, -, stack⟩ :=
    initial_stack .dev 0x1000 128 (fun q => 0x100000 + q * PAGE_SIZE) [['s', 'h'], ['é']]
      [['P', '=', '/']] ⟨0x400000, 0x400040, 56, 2⟩ 1 2 ⟨stackTables 0x100000, ⟨.new, [], []⟩⟩
      (Nat.le_refl _) window_stackTables (by decide) (by decide) (by decide) ⟨by decide, by decide, by decide, by decide⟩
  exact ⟨rsp, st', argvPtrs, envpPtrs, atRandomPtr, run, stack⟩

end Exec
end Ferrum
