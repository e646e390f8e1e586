import Ferrum.AddressSpace.Exhaustion
import Ferrum.Elf.Fidelity
import Ferrum.Elf.Reads
import Ferrum.Kernel.Arguments
import Ferrum.Kernel.Delivery
import Ferrum.Kernel.Exec

/-!
# A new program

`execve` clears the caller, loads the file, maps 128 pages for the stack, builds the stack and maps a
control block behind it. The stack tells the program where its program headers are; the kernel computes
that address from their offset in the file, and the loader puts them where their segment says.
-/
namespace Ferrum

open Machine (Local PoolInv Own)

namespace Exec

/-- What `syscall_execve` tells the program about its file. -/
def elfInfo (p : Profile) (file : List UInt8) (entry : Nat) : Except Stop ElfInfo := do
  let phdrVaddr ← p.add 0x400000 (Elf.ePhoff file)
  return ⟨entry, phdrVaddr, Elf.ePhentsize file, Elf.ePhnum file⟩

/-- The stack of the program and its control block; `m` is the memory from which the arguments were
read. The first of the random bytes are the canary. -/
def newStack (p : Profile) (image : Image) (m : Memory) (argvPtr envpPtr : Nat) (elf : ElfInfo)
    (tsc1 tsc2 : UInt64) (st : Machine Pool) : Except Stop (Nat × Image × Machine Pool) := do
  let st ← (List.range USTACK_PAGES).foldlM (fun st i =>
    mapFresh p image.space "execve: ustack alloc" "execve: ustack map" st (USTACK_BASE + i * 0x1000)) st
  let space := addVmaOk image.space ⟨USTACK_BASE, USTACK_VIRT + 0x1000, .rw, .stack⟩
  let ((rsp, random), st) ← execveStack p m argvPtr envpPtr space.pml4 USTACK_VIRT elf tsc1 tsc2 st
  let (image, st) ← mapTcb p { image with space } (Elf.field random 0 8) st
  return (rsp, image, st)

/-- `syscall_execve` once the file is read: the entry point and the stack pointer of the program, or why
the file was refused. -/
def execveImage (p : Profile) (image : Image) (file : List UInt8) (m : Memory) (argvPtr envpPtr : Nat)
    (tsc1 tsc2 : UInt64) (st : Machine Pool) :
    Except Stop (Except String (Nat × Nat) × Image × Machine Pool) := do
  let (space, st) ← image.space.clearUser p st
  let (loaded, space, st) ← Elf.load p space st file
  match loaded with
  | .error e => return (.error e, { image with space }, st)
  | .ok entry => do
    let elf ← elfInfo p file entry
    let brk ← heapStart p space.vmas
    let (rsp, image, st) ← newStack p { image with space, brkStart := brk, brkCurrent := brk } m
      argvPtr envpPtr elf tsc1 tsc2 st
    return (.ok (entry, rsp), image, st)

variable {S img : Set Nat} {st st' : Machine Pool} {tab tab' : Tables} {p : Profile}
  {image image' : Image} {file : List UInt8} {m : Memory} {argvPtr envpPtr entry rsp : Nat}
  {elf : ElfInfo} {tsc1 tsc2 : UInt64}

/-! ## The stack -/

/-- The page past the last one of the stack. -/
def STACK_PAST : Nat := 0x7fff0
def STACK_FIRST : Nat := STACK_PAST - 128

/-- The pages that `execve` maps beside the segments. -/
def newPages : Set Nat := Set.Ico STACK_FIRST STACK_PAST ∪ {pageOf TCB_PAGE}

/-- The program finds a stack that tells it about its file. -/
def Tells (st : Machine Pool) (root rsp : Nat) (elf : ElfInfo) : Prop :=
  ∃ frame argv envp random argvPtrs envpPtrs atRandomPtr,
    Window st.mem root STACK_FIRST STACK_PAST frame ∧
    InitialStack (seen STACK_FIRST STACK_PAST frame st.mem) USTACK_VIRT rsp argv envp elf random
      argvPtrs envpPtrs atRandomPtr

theorem ustackBase_eq : USTACK_BASE = 0x7ff70000 := rfl

theorem stackFirst_eq : STACK_FIRST = 0x7ff70 := rfl

theorem pageOf_stack {i : Nat} (few : i < 128) :
    pageOf (USTACK_BASE + i * 0x1000) = STACK_FIRST + i := by
  rw [ustackBase_eq, stackFirst_eq, pageOf_eq (by omega)]
  simp only [PAGE_SIZE]
  omega

theorem stackPages_range {n : Nat} (few : n ≤ 128) :
    stackPages (List.range n) = Set.Ico STACK_FIRST (STACK_FIRST + n) := by
  ext q
  rw [Set.mem_Ico]
  constructor
  · rintro ⟨i, here, rfl⟩
    have small : i < n := List.mem_range.mp here
    rw [pageOf_stack (by omega)]
    omega
  · rintro ⟨low, high⟩
    refine ⟨q - STACK_FIRST, List.mem_range.mpr (by omega), ?_⟩
    rw [pageOf_stack (by omega)]
    omega

theorem stackPages_eq : stackPages (List.range USTACK_PAGES) = Set.Ico STACK_FIRST STACK_PAST :=
  stackPages_range (Nat.le_refl 128)

theorem pageOf_notMem_newPages {a : Nat} (low : a < USTACK_BASE) : pageOf a ∉ newPages := by
  rw [ustackBase_eq] at low
  rw [pageOf_eq (by omega)]
  simp only [newPages, stackFirst_eq, STACK_PAST, TCB_PAGE, pageOf, Set.mem_union, Set.mem_Ico,
    Set.mem_singleton_iff, PAGE_SIZE]
  omega

theorem tells_of_frames {owner : Owner} {root : Nat} {frame : Nat → Nat} {argv envp : List (List UInt8)}
    {random : List UInt8} {argvPtrs envpPtrs : List Nat} {atRandomPtr : Nat} (inv : PoolInv S st)
    (own : Owned img st owner root tab)
    (user : ∀ q, STACK_FIRST ≤ q → q < STACK_PAST → UserPage img q)
    (there : ∀ q, STACK_FIRST ≤ q → q < STACK_PAST → frameAt st.mem tab q = some (frame q))
    (stack : InitialStack (seen STACK_FIRST STACK_PAST frame st.mem) USTACK_VIRT rsp argv envp elf random
      argvPtrs envpPtrs atRandomPtr) : Tells st root rsp elf :=
  ⟨frame, argv, envp, random, argvPtrs, envpPtrs, atRandomPtr,
    own.window inv (by decide) user there, stack⟩

theorem Owned.execveStack {owner : Owner} {root : Nat} (inv : PoolInv S st)
    (own : Owned img st owner root tab)
    (user : ∀ q, STACK_FIRST ≤ q → q < STACK_PAST → UserPage img q)
    (there : ∀ q ∈ Set.Ico STACK_FIRST STACK_PAST, frameAt st.mem tab q ≠ none) (words : elf.Words)
    (p : Profile) (m : Memory) (argvPtr envpPtr : Nat) (tsc1 tsc2 : UInt64) :
    ∃ rsp st' frame argv envp argvPtrs envpPtrs atRandomPtr,
      Exec.execveStack p m argvPtr envpPtr root USTACK_VIRT elf tsc1 tsc2 st =
        .ok ((rsp, atRandomBytes tsc1 tsc2), st') ∧
      Repaged S img owner root (Set.Ico STACK_FIRST STACK_PAST) st tab st' tab ∧
      freeCells st' = freeCells st ∧
      (∀ q, STACK_FIRST ≤ q → q < STACK_PAST → frameAt st'.mem tab q = some (frame q)) ∧
      InitialStack (seen STACK_FIRST STACK_PAST frame st'.mem) USTACK_VIRT rsp argv envp elf
        (atRandomBytes tsc1 tsc2) argvPtrs envpPtrs atRandomPtr := by
  have frames := frames_of_there there
  have window := own.window inv (by decide) user frames
  obtain ⟨rsp, m', vm, envp, argvPtrs, envpPtrs, atRandomPtr, run, shows_, stack⟩ :=
    execveStack_shows p m argvPtr envpPtr elf tsc1 tsc2 st (show 128 ≤ STACK_PAST by decide) window words
  obtain ⟨repaged, same⟩ := own.shown inv user frames shows_
  refine ⟨rsp, ⟨m', st.pool⟩, _, (readUserCstrArray m argvPtr 32).map asBytes, envp, argvPtrs, envpPtrs,
    atRandomPtr, run, repaged, inv.freeCells_congr repaged.step.inv fun _ _ => Iff.rfl,
    fun q low high => (same q).trans (frames q low high), ?_⟩
  rw [show seen STACK_FIRST STACK_PAST _ m' = vm from shows_.inside]
  exact stack

theorem addVmaOk_pml4 (space : AddressSpace) (vma : VMA) : (addVmaOk space vma).pml4 = space.pml4 := by
  unfold addVmaOk
  split <;> rfl

theorem addVmaOk_owner (space : AddressSpace) (vma : VMA) : (addVmaOk space vma).owner = space.owner := by
  unfold addVmaOk
  split <;> rfl

theorem newStack_eq {st₁ st₂ : Machine Pool} {random : List UInt8}
    (mapped : (List.range USTACK_PAGES).foldlM (fun st i => mapFresh p image.space
      "execve: ustack alloc" "execve: ustack map" st (USTACK_BASE + i * 0x1000)) st = .ok st₁)
    (built : execveStack p m argvPtr envpPtr image.space.pml4 USTACK_VIRT elf tsc1 tsc2 st₁ =
      .ok ((rsp, random), st₂)) :
    newStack p image m argvPtr envpPtr elf tsc1 tsc2 st = (do
      let (image, st) ← mapTcb p
        { image with space := addVmaOk image.space ⟨USTACK_BASE, USTACK_VIRT + 0x1000, .rw, .stack⟩ }
        (Elf.field random 0 8) st₂
      return (rsp, image, st)) := by
  simp only [newStack, mapped, ok_bind, addVmaOk_pml4, built]

/-- The new pages are mapped and the stack is built, or there are not four free frames for each. -/
theorem newStack_cases (image : Image) (inv : PoolInv S st)
    (own : Owned img st image.space.owner image.space.pml4 tab)
    (clear : Clear img USTACK_BASE (TCB_PAGE + 0x1000)) (words : elf.Words) (p : Profile) (m : Memory)
    (argvPtr envpPtr : Nat) (tsc1 tsc2 : UInt64) :
    (∃ rsp image' st' tab', newStack p image m argvPtr envpPtr elf tsc1 tsc2 st = .ok (rsp, image', st') ∧
      image'.space.pml4 = image.space.pml4 ∧
      Repaged S img image.space.owner image.space.pml4 newPages st tab st' tab' ∧
      Tells st' image.space.pml4 rsp elf) ∨
    (∃ e, newStack p image m argvPtr envpPtr elf tsc1 tsc2 st = .error e) ∧
      (freeCells st).ncard < 129 * (4 * PAGE_SIZE) := by
  have all := stackPages_eq ▸ Image.Valid.stackPages_user clear
  have user (q : Nat) (low : STACK_FIRST ≤ q) (high : q < STACK_PAST) : UserPage img q :=
    all q ⟨low, high⟩
  have tcb : UserPage img (pageOf TCB_PAGE) :=
    Image.Valid.stackPage clear (v := TCB_PAGE) (by decide) (by decide) (by decide)
  have past (q : Nat) (_ : STACK_FIRST ≤ q) (high : q < STACK_PAST) : q ∉ ({pageOf TCB_PAGE} : Set Nat) :=
    fun here => absurd high (here ▸ (by decide))
  rcases own.mapStack_cases inv (Image.Valid.stackPages_user clear) "execve: ustack alloc"
    "execve: ustack map" p with ⟨st₁, tab₁, mapped, repaged₁, there, free⟩ | ⟨⟨e, failed⟩, short⟩
  · rw [stackPages_eq] at repaged₁ there
    rw [List.length_range, USTACK_PAGES] at free
    obtain ⟨rsp, st₂, frame, argv, envp, argvPtrs, envpPtrs, atRandomPtr, built, repaged₂, still, frames,
      stack⟩ := Owned.execveStack repaged₁.step.inv repaged₁.own user there words p m argvPtr envpPtr
        tsc1 tsc2
    rw [newStack_eq mapped built]
    -- the area of the stack changes neither the owner nor the tables
    have own₂ := repaged₂.own
    rw [← addVmaOk_owner image.space ⟨USTACK_BASE, USTACK_VIRT + 0x1000, .rw, .stack⟩,
      ← addVmaOk_pml4 image.space ⟨USTACK_BASE, USTACK_VIRT + 0x1000, .rw, .stack⟩] at own₂
    rcases Owned.mapTcb_cases { image with
        space := addVmaOk image.space ⟨USTACK_BASE, USTACK_VIRT + 0x1000, .rw, .stack⟩ }
      repaged₂.step.inv own₂ tcb (Elf.field (atRandomBytes tsc1 tsc2) 0 8) p with
      ⟨image', st₃, tab₃, last, pml4, repaged₃⟩ | ⟨⟨e, last⟩, short⟩
    · rw [addVmaOk_pml4] at pml4
      rw [addVmaOk_owner, addVmaOk_pml4] at repaged₃
      obtain ⟨frames₃, kept⟩ := repaged₃.seen_kept user past frames
      refine Or.inl ⟨rsp, image', st₃, tab₃, by rw [last]; rfl, pml4, ?_,
        tells_of_frames repaged₃.step.inv repaged₃.own user frames₃ (kept ▸ stack)⟩
      have both := (repaged₁.trans repaged₂).trans repaged₃
      rwa [Set.union_self] at both
    · rw [still] at short
      exact Or.inr ⟨⟨e, by rw [last]; rfl⟩, by omega⟩
  · rw [List.length_range, USTACK_PAGES] at short
    refine Or.inr ⟨⟨e, ?_⟩, by omega⟩
    rw [newStack, failed]
    rfl

/-! ## Any stack -/

theorem Owned.execveStack_store (space : AddressSpace) {random : List UInt8} (inv : PoolInv S st)
    (own : Owned img st space.owner space.pml4 tab)
    (user : ∀ q, STACK_FIRST ≤ q → q < STACK_PAST → UserPage img q)
    (there : ∀ q ∈ Set.Ico STACK_FIRST STACK_PAST, frameAt st.mem tab q ≠ none) (words : elf.Words)
    (run : Exec.execveStack p m argvPtr envpPtr space.pml4 USTACK_VIRT elf tsc1 tsc2 st =
      .ok ((rsp, random), st')) :
    ∃ data, buildStack p space [(STACK_FIRST * PAGE_SIZE, data)] st = .ok st' := by
  have frames := frames_of_there there
  have window := own.window inv (by decide) user frames
  obtain ⟨rsp', m', vm, -, -, -, -, run', shows_, -⟩ :=
    execveStack_shows p m argvPtr envpPtr elf tsc1 tsc2 st (show 128 ≤ STACK_PAST by decide) window words
  obtain ⟨-, rfl⟩ := Prod.mk.inj (Except.ok.inj (run'.symm.trans run))
  have length : (contents STACK_FIRST STACK_PAST vm).length = 128 * PAGE_SIZE := by
    rw [contents, List.length_map, List.length_range]
    rfl
  obtain ⟨m'', wrote, after⟩ := window.writeViaPt (p := p) (a := STACK_FIRST * PAGE_SIZE)
    (.start st.mem _ _ _) (Nat.le_refl _) (le_of_eq (by rw [length]; decide)) (Nat.le_refl _)
  have whole := writeBytes_contents (show STACK_FIRST ≤ STACK_PAST by decide)
    (fun q => (frameAt st.mem tab q).getD 0) st.mem m'
  rw [show seen STACK_FIRST STACK_PAST _ m' = vm from shows_.inside] at whole
  rw [whole] at after
  obtain rfl := shows_.unique after
  have stored : writeToUser p st space.pml4 (STACK_FIRST * PAGE_SIZE) (contents STACK_FIRST STACK_PAST vm) =
      .ok (true, ⟨m', st.pool⟩) := wrote
  refine ⟨contents STACK_FIRST STACK_PAST vm, ?_⟩
  simp only [buildStack, List.foldlM_cons, List.foldlM_nil, stored, ok_bind, if_true, pure_eq_ok]

/-! ## The program headers -/

/-- The program headers as they stand in the file. -/
def phdrTable (file : List UInt8) : List UInt8 :=
  (file.drop (Elf.ePhoff file)).take (Elf.ePhnum file * Elf.ePhentsize file)

/-- Where a segment has them in memory. -/
def phdrPlace (file : List UInt8) (ph : Elf.Phdr) : Nat := ph.vaddr + (Elf.ePhoff file - ph.offset)

/-- A segment that brings the program headers into memory: they lie in the part of the file and in the
part of the memory that it names, and not under the stack. -/
structure Brings (file : List UInt8) (ph : Elf.Phdr) : Prop where
  load : ph.isLoad
  first : ph.offset ≤ Elf.ePhoff file
  stored : Elf.ePhoff file + Elf.ePhnum file * Elf.ePhentsize file ≤ ph.offset + ph.filesz
  loaded : Elf.ePhoff file + Elf.ePhnum file * Elf.ePhentsize file ≤ ph.offset + ph.memsz
  apart : ∀ i < Elf.ePhnum file * Elf.ePhentsize file, pageOf (phdrPlace file ph + i) ∉ newPages

theorem load_valid {space space' : AddressSpace}
    (run : Elf.load p space st file = .ok (.ok entry, space', st')) :
    Elf.validate file = .ok () ∧ Elf.eEntry file = entry := by
  unfold Elf.load at run
  split at run
  · cases run
  · rename_i valid
    obtain ⟨⟨r, space₁, st₁⟩, -, out⟩ := bind_eq_ok.mp run
    obtain ⟨answer, -⟩ := Prod.mk.inj (Except.ok.inj out)
    cases r with
    | error e => cases answer
    | ok => exact ⟨valid, Except.ok.inj answer⟩

/-- The address that the program is told. A vector of bytes is shorter than `2 ^ 63`. -/
theorem elfInfo_ok (valid : Elf.validate file = .ok ()) (vector : file.length < 2 ^ 63) (p : Profile) :
    elfInfo p file (Elf.eEntry file) = .ok ⟨Elf.eEntry file, 0x400000 + Elf.ePhoff file,
      Elf.ePhentsize file, Elf.ePhnum file⟩ ∧
    ElfInfo.Words ⟨Elf.eEntry file, 0x400000 + Elf.ePhoff file, Elf.ePhentsize file, Elf.ePhnum file⟩ := by
  obtain ⟨-, -, -, inside⟩ := Elf.Checked.validate_eq_ok valid
  have entry := Elf.Checked.field_lt file 24 8
  have size := Elf.Checked.field_lt file 54 2
  have number := Elf.Checked.field_lt file 56 2
  refine ⟨?_, entry, by simp only; omega, ?_, ?_⟩
  · rw [elfInfo, p.add_ok (by omega)]
    rfl
  · exact lt_of_lt_of_le size (by decide)
  · exact lt_of_lt_of_le number (by decide)

/-- A segment of a file that was loaded still holds the program headers when the program starts. -/
theorem Brings.holds {ph : Elf.Phdr} {vmas : List VMA} {root : Nat} {owner : Owner}
    (brings : Brings file ph) (ok : Elf.Loadable img ph) (present : Elf.Present file ph vmas st.mem tab)
    (repaged : Repaged S img owner root newPages st tab st' tab') :
    HoldsBytes st' root (phdrPlace file ph) (phdrTable file) := by
  obtain ⟨-, first, stored, loaded, apart⟩ := brings
  intro k hk
  have short : k < Elf.ePhnum file * Elf.ePhentsize file := by
    rw [phdrTable, List.length_take] at hk
    omega
  have place : phdrPlace file ph + k = ph.vaddr + (Elf.ePhoff file - ph.offset + k) := by
    rw [phdrPlace]
    omega
  have off := apart k short
  rw [place] at off ⊢
  have inside : Elf.ePhoff file - ph.offset + k < ph.memsz := by omega
  obtain ⟨-, page⟩ := ok.page inside
  obtain ⟨f, there⟩ := present.pages _ page
  rw [← repaged.kept _ (ok.range.page _ page) off] at there
  obtain ⟨x, leads, byte⟩ := ok.byte present.file repaged.own.tree inside there
  refine ⟨x, leads, ?_⟩
  rw [if_pos (by omega), show ph.offset + (Elf.ePhoff file - ph.offset + k) = Elf.ePhoff file + k by omega]
    at byte
  rw [phdrTable, Elf.getD_take_drop short, List.getD_eq_getElem?_getD, byte, Option.getD_some]

section Starting

variable {space space₂ : AddressSpace} {st₁ st₂ : Machine Pool}
  (inv : PoolInv S st) (own : Owned img st image.space.owner image.space.pml4 tab)
  (areas : UserAreas img image.space.vmas)
  (loadable : ∀ j ∈ Elf.segments file 0 (Elf.ePhnum file), Elf.Loadable img (Elf.header file j))

include inv own areas loadable

theorem load_done (emptied : image.space.clearUser p st = .ok (space, st₁))
    (load : Elf.load p space st₁ file = .ok (.ok entry, space₂, st₂)) :
    ∃ vmas tab₂, space₂ = { image.space with vmas } ∧
      Cleared S img image.space.owner image.space.pml4 tab (areaPages image.space.vmas) st st₁ ∧
      Elf.Loaded S img file (Elf.segments file 0 (Elf.ePhnum file)) { image.space with vmas := [] } st₁ tab
        (.ok ()) vmas st₂ tab₂ := by
  obtain ⟨st₁', same, cleared⟩ := AddressSpace.clearUser_spec inv own areas p
  obtain ⟨rfl, rfl⟩ := Prod.mk.inj (Except.ok.inj (same.symm.trans emptied))
  have own₁ : Owned img st₁' (AddressSpace.owner { image.space with vmas := [] }) image.space.pml4 tab :=
    cleared.owned own areas.page
  rcases Elf.load_spec loadable cleared.step.inv own₁ Vmas.wf_nil p with
    ⟨r, vmas, st₂', tab₂, load', done⟩ | ⟨stuck, -⟩
  · have both := load'.symm.trans load
    simp only [Except.ok.injEq, Prod.mk.injEq] at both
    obtain ⟨answer, rfl, rfl⟩ := both
    cases r with
    | error e => cases answer
    | ok => exact ⟨vmas, tab₂, rfl, cleared, done⟩
  · rw [stuck] at load
    cases load

variable (vector : file.length < 2 ^ 63) (clear : Clear img USTACK_BASE (TCB_PAGE + 0x1000))

include vector clear

/-- A program that was started has its segments as the loader left them, apart from the new pages, and
a stack that tells it about its file; nothing else is mapped that was not mapped outside of the areas. -/
theorem execveImage_started
    (run : execveImage p image file m argvPtr envpPtr tsc1 tsc2 st = .ok (.ok (entry, rsp), image', st')) :
    ∃ vmas st₂ tab₂ tab', (∀ j ∈ Elf.segments file 0 (Elf.ePhnum file),
        Elf.Present file (Elf.header file j) vmas st₂.mem tab₂) ∧
      Repaged S img image.space.owner image'.space.pml4 newPages st₂ tab₂ st' tab' ∧
      (∀ q, UserPage img q → frameAt st.mem tab q = none → q ∉ newPages →
        (∀ j ∈ Elf.segments file 0 (Elf.ePhnum file),
          q ∉ pagesIn (Elf.header file j).first (Elf.header file j).past) →
        frameAt st'.mem tab' q = none) ∧
      Tells st' image'.space.pml4 rsp
        ⟨entry, 0x400000 + Elf.ePhoff file, Elf.ePhentsize file, Elf.ePhnum file⟩ := by
  obtain ⟨⟨space, st₁⟩, emptied, run⟩ := bind_eq_ok.mp run
  obtain ⟨⟨r, space₂, st₂⟩, load, run⟩ := bind_eq_ok.mp run
  cases r with
  | error e => cases run
  | ok e =>
    obtain ⟨valid, rfl⟩ := load_valid load
    obtain ⟨told, words⟩ := elfInfo_ok valid vector p
    obtain ⟨vmas, tab₂, rfl, cleared, done⟩ := load_done inv own areas loadable emptied load
    simp only [told, ok_bind] at run
    obtain ⟨brk, -, run⟩ := bind_eq_ok.mp run
    obtain ⟨⟨rsp₁, image₁, st₃⟩, stacked, run⟩ := bind_eq_ok.mp run
    simp only [pure_eq_ok, Except.ok.injEq, Prod.mk.injEq] at run
    obtain ⟨⟨rfl, rfl⟩, rfl, rfl⟩ := run
    rcases newStack_cases { image with
        space := { image.space with vmas }, brkStart := brk, brkCurrent := brk } done.step.inv done.own
      clear words p m argvPtr envpPtr tsc1 tsc2 with
      ⟨rsp₂, image₂, st₄, tab₄, same, pml4, repaged, tells⟩ | ⟨⟨e, failed⟩, -⟩
    · have both := same.symm.trans stacked
      simp only [Except.ok.injEq, Prod.mk.injEq] at both
      obtain ⟨rfl, rfl, rfl⟩ := both
      rw [pml4]
      refine ⟨vmas, st₂, tab₂, tab₄, (done.complete rfl).present, repaged, fun q user absent new off => ?_,
        tells⟩
      rw [frameAt_congr (repaged.kept q user new), frameAt_congr (done.kept q user off), frameAt]
      -- pages of areas are cleared, and others were not mapped before
      by_cases area : q ∈ areaPages image.space.vmas
      · rw [cleared.gone area user.lower]
        rfl
      · rw [cleared.kept area user.lower]
        exact absent
    · rw [failed] at stacked
      cases stacked

/-- With four free frames for each of the new pages, a file that the loader accepts is started. -/
theorem execveImage_ok (emptied : image.space.clearUser p st = .ok (space, st₁))
    (load : Elf.load p space st₁ file = .ok (.ok entry, space₂, st₂))
    (free : 129 * (4 * PAGE_SIZE) ≤ (freeCells st₂).ncard) (m : Memory) (argvPtr envpPtr : Nat)
    (tsc1 tsc2 : UInt64) : ∃ rsp image' st',
      execveImage p image file m argvPtr envpPtr tsc1 tsc2 st = .ok (.ok (entry, rsp), image', st') := by
  obtain ⟨valid, rfl⟩ := load_valid load
  obtain ⟨told, words⟩ := elfInfo_ok valid vector p
  obtain ⟨vmas, tab₂, rfl, -, done⟩ := load_done inv own areas loadable emptied load
  obtain ⟨brk, heap, -⟩ := heapStart_ok p done.wf
  rcases newStack_cases { image with
      space := { image.space with vmas }, brkStart := brk, brkCurrent := brk } done.step.inv done.own
    clear words p m argvPtr envpPtr tsc1 tsc2 with ⟨rsp, image', st', -, stacked, -⟩ | ⟨-, short⟩
  · refine ⟨rsp, image', st', ?_⟩
    simp only [execveImage, emptied, load, told, heap, stacked, ok_bind, pure_eq_ok]
  · omega

/-- The kernel's `execve`, which takes the stores of the stack from outside, does the same with the right
stores. -/
theorem execImage_of_execveImage {r : Except String (Nat × Nat)}
    (run : execveImage p image file m argvPtr envpPtr tsc1 tsc2 st = .ok (r, image', st')) :
    ∃ stack, execImage p image file stack st = .ok (r.map Prod.fst, image', st') := by
  obtain ⟨⟨space, st₁⟩, emptied, run⟩ := bind_eq_ok.mp run
  obtain ⟨⟨loaded, space₂, st₂⟩, load, run⟩ := bind_eq_ok.mp run
  cases loaded with
  | error e =>
    obtain ⟨rfl, rest⟩ := Prod.mk.inj (Except.ok.inj run)
    obtain ⟨rfl, rfl⟩ := Prod.mk.inj rest
    exact ⟨⟨[], 0⟩, by simp only [execImage, emptied, load, ok_bind]; rfl⟩
  | ok e =>
    obtain ⟨valid, rfl⟩ := load_valid load
    obtain ⟨told, words⟩ := elfInfo_ok valid vector p
    obtain ⟨vmas, tab₂, rfl, -, done⟩ := load_done inv own areas loadable emptied load
    simp only [told, ok_bind] at run
    obtain ⟨brk, heap, run⟩ := bind_eq_ok.mp run
    obtain ⟨⟨rsp₁, image₁, st₅⟩, stacked, run⟩ := bind_eq_ok.mp run
    obtain ⟨rfl, rest⟩ := Prod.mk.inj (Except.ok.inj run)
    obtain ⟨rfl, rfl⟩ := Prod.mk.inj rest
    obtain ⟨st₃, mapped, stacked⟩ := bind_eq_ok.mp stacked
    obtain ⟨⟨⟨rsp₂, random⟩, st₄⟩, built, stacked⟩ := bind_eq_ok.mp stacked
    obtain ⟨⟨image₂, st₆⟩, tcb, out⟩ := bind_eq_ok.mp stacked
    obtain ⟨-, rest⟩ := Prod.mk.inj (Except.ok.inj out)
    obtain ⟨rfl, rfl⟩ := Prod.mk.inj rest
    have all := Image.Valid.stackPages_user clear
    rcases done.own.mapStack_cases done.step.inv all "execve: ustack alloc" "execve: ustack map" p with
      ⟨st₃', tab₃, same, repaged, there, -⟩ | ⟨⟨e, failed⟩, -⟩
    · obtain rfl := Except.ok.inj (same.symm.trans mapped)
      rw [stackPages_eq] at there all
      have own₃ := repaged.own
      obtain ⟨vmas', widened⟩ := Image.Valid.addVmaOk_eq { image.space with vmas }
        ⟨USTACK_BASE, USTACK_VIRT + 0x1000, .rw, .stack⟩
      rw [widened] at built tcb
      obtain ⟨data, stored⟩ := Owned.execveStack_store { image.space with vmas := vmas' }
        repaged.step.inv own₃ (fun q low high => all q ⟨low, high⟩) there words built
      -- one store for the whole stack, and the canary from the random bytes
      refine ⟨⟨[(STACK_FIRST * PAGE_SIZE, data)], Elf.field random 0 8⟩, ?_⟩
      simp only [execImage, emptied, load, ok_bind, heap, mapped, widened, stored, tcb]
      rfl
    · exact absurd (failed.symm.trans mapped) (by simp)

end Starting

/-- Of a program that `execve` has started: the stack tells it `0x400000` plus the offset of its program
headers in the file; a segment that brings them has them at its own address; and the two are the same
exactly if the segment is linked at `0x400000` plus its offset. -/
theorem phdr_truthful_iff (inv : PoolInv S st) (sound : image.space.Sound img st)
    (vector : file.length < 2 ^ 63)
    (loadable : ∀ j ∈ Elf.segments file 0 (Elf.ePhnum file), Elf.Loadable img (Elf.header file j))
    (clear : Clear img USTACK_BASE (TCB_PAGE + 0x1000))
    (run : execveImage p image file m argvPtr envpPtr tsc1 tsc2 st = .ok (.ok (entry, rsp), image', st')) :
    Tells st' image'.space.pml4 rsp
      ⟨entry, 0x400000 + Elf.ePhoff file, Elf.ePhentsize file, Elf.ePhnum file⟩ ∧
    ∀ i < Elf.ePhnum file, Brings file (Elf.header file i) →
      HoldsBytes st' image'.space.pml4 (phdrPlace file (Elf.header file i)) (phdrTable file) ∧
      (0x400000 + Elf.ePhoff file = phdrPlace file (Elf.header file i) ↔
        (Elf.header file i).vaddr = 0x400000 + (Elf.header file i).offset) ∧
      ((Elf.header file i).vaddr = 0x400000 + (Elf.header file i).offset →
        HoldsBytes st' image'.space.pml4 (0x400000 + Elf.ePhoff file) (phdrTable file)) := by
  obtain ⟨tab, own⟩ := sound.own
  obtain ⟨vmas, st₂, tab₂, tab', present, repaged, -, tells⟩ :=
    execveImage_started inv own sound.areas loadable vector clear run
  refine ⟨tells, fun i few brings => ?_⟩
  have member : i ∈ Elf.segments file 0 (Elf.ePhnum file) := ⟨Nat.zero_le _, by omega, brings.load⟩
  have holds := brings.holds (loadable i member) (present i member) repaged
  have first := brings.first
  have equal : 0x400000 + Elf.ePhoff file = phdrPlace file (Elf.header file i) ↔
      (Elf.header file i).vaddr = 0x400000 + (Elf.header file i).offset := by
    rw [phdrPlace]
    omega
  exact ⟨holds, equal, fun linked => equal.mpr linked ▸ holds⟩

/-! ## Two link addresses -/

/-- A file of one segment, which holds all of it. -/
def linkedFile (base : Nat) : List UInt8 :=
  Elf.ehdrBytes base 1 ++ Elf.phdrBytes ⟨Elf.PT_LOAD, Elf.PF_R + Elf.PF_X, 0, base, 120, 120⟩

/-- A process without areas. -/
def bareImage (root : Nat) : Image := ⟨⟨root, [], 1, 0⟩, none, 0, 0, 0⟩

/-- Loading such a file: the entry point, and whether at most sixteen frames are out. -/
def loadLinked (base : Nat) : Except Stop (Option Nat × Bool) := do
  let (root, st) ← crowdedStart
  let (entry, _, st) ← Elf.load .release ⟨root.getD 0, [], 1, 0⟩ st (linkedFile base)
  return (entry.toOption, (outstanding st.pool.log).all (·.2.order = 0) &&
    (outstanding st.pool.log).length ≤ 16)

theorem linkedFile_short (base : Nat) : (linkedFile base).length < 2 ^ 63 := by
  have length : (linkedFile base).length = 120 := by simp [linkedFile, Elf.ehdrBytes, Elf.phdrBytes, Elf.ELFMAG]
  omega

theorem linkedFile_headers {base : Nat} (known : base = 0x400000 ∨ base = 0x500000) :
    Elf.ePhoff (linkedFile base) = 64 ∧ Elf.ePhentsize (linkedFile base) = 56 ∧
      Elf.ePhnum (linkedFile base) = 1 ∧ Elf.header (linkedFile base) 0 =
        ⟨Elf.PT_LOAD, Elf.PF_R + Elf.PF_X, 0, base, 120, 120⟩ := by
  rcases known with rfl | rfl
  · decide +kernel
  · decide +kernel

theorem linkedFile_header {base i : Nat} (known : base = 0x400000 ∨ base = 0x500000)
    (few : i < Elf.ePhnum (linkedFile base)) :
    Elf.header (linkedFile base) i = ⟨Elf.PT_LOAD, Elf.PF_R + Elf.PF_X, 0, base, 120, 120⟩ := by
  obtain ⟨-, -, one, first⟩ := linkedFile_headers known
  obtain rfl : i = 0 := by omega
  exact first

theorem linkedFile_loadable {base : Nat} (known : base = 0x400000 ∨ base = 0x500000) :
    ∀ j ∈ Elf.segments (linkedFile base) 0 (Elf.ePhnum (linkedFile base)),
      Elf.Loadable ∅ (Elf.header (linkedFile base) j) := by
  rintro j ⟨-, few, load⟩
  have number : Elf.header (linkedFile base) j = _ := linkedFile_header known (by omega)
  obtain ⟨first, last, -⟩ := Elf.Phdr.bounds load
  refine ⟨load, ⟨first, last, ?_, fun q _ => Set.notMem_empty q⟩, ?_⟩
  · rw [number]
    rcases known with rfl | rfl <;> decide
  · rw [number]
    rcases known with rfl | rfl <;> decide

theorem linkedFile_brings {base : Nat} (known : base = 0x400000 ∨ base = 0x500000) :
    Brings (linkedFile base) (Elf.header (linkedFile base) 0) := by
  obtain ⟨offset, size, number, first⟩ := linkedFile_headers known
  constructor
  all_goals simp only [first, offset, size, number, phdrPlace]
  · rfl
  · decide
  · decide
  · decide
  · intro i few
    refine pageOf_notMem_newPages ?_
    rw [ustackBase_eq]
    omega

theorem stack_clear : Clear ∅ USTACK_BASE (TCB_PAGE + 0x1000) := ⟨by decide, fun q _ => Set.notMem_empty q⟩

theorem linked_started {base : Nat} (known : base = 0x400000 ∨ base = 0x500000) :
    ∃ root st S tab rsp image' st', crowdedStart = .ok (some root, st) ∧ PoolInv S st ∧
      Owned ∅ st (bareImage root).space.owner (bareImage root).space.pml4 tab ∧
      (∀ q, frameAt st.mem tab q = none) ∧
      execveImage .release (bareImage root) (linkedFile base) (fun _ => 0) 0 0 0 0 st =
        .ok (.ok (base, rsp), image', st') := by
  have evaluates : loadLinked base = .ok (some base, true) := by
    rcases known with rfl | rfl
    · decide +kernel
    · decide +kernel
  obtain ⟨root, st, start, S, tab, inv, own, -, free, empty⟩ := crowdedStart_owned
  rw [loadLinked, start, ok_bind] at evaluates
  obtain ⟨⟨r, space, st₂⟩, load, out⟩ := bind_eq_ok.mp evaluates
  simp only [pure_eq_ok, Except.ok.injEq, Prod.mk.injEq, Bool.and_eq_true, decide_eq_true_eq] at out
  obtain ⟨answer, single, few⟩ := out
  cases r with
  | error e => cases answer
  | ok e =>
    obtain rfl := Option.some.inj answer
    have emptied : (bareImage root).space.clearUser .release st = .ok ((bareImage root).space, st) := rfl
    have own' : Owned ∅ st (bareImage root).space.owner (bareImage root).space.pml4 tab := own
    have areas : UserAreas ∅ (bareImage root).space.vmas := by simp [UserAreas, bareImage]
    obtain ⟨vmas, tab₂, -, cleared, done⟩ :=
      load_done inv own' areas (linkedFile_loadable known) emptied load
    have left := inv.freeCells_le done.step.inv
    have held := heldCells_le done.step.inv single
    obtain ⟨rsp, image', st', run⟩ := execveImage_ok inv own' areas (linkedFile_loadable known)
      (linkedFile_short _) stack_clear emptied load
      (by simp only [PAGE_SIZE] at *; omega) (fun _ => 0) 0 0 0 0
    exact ⟨root, st, S, tab, rsp, image', st', start, inv, own', empty, run⟩

/-- A program that is linked at `0x400000` is told the truth. -/
theorem linked_low_truthful : ∃ root st rsp image' st', crowdedStart = .ok (some root, st) ∧
    execveImage .release (bareImage root) (linkedFile 0x400000) (fun _ => 0) 0 0 0 0 st =
      .ok (.ok (0x400000, rsp), image', st') ∧
    Tells st' image'.space.pml4 rsp ⟨0x400000, 0x400040, 56, 1⟩ ∧
    HoldsBytes st' image'.space.pml4 0x400040 (phdrTable (linkedFile 0x400000)) := by
  have known : 0x400000 = 0x400000 ∨ 0x400000 = 0x500000 := Or.inl rfl
  obtain ⟨root, st, S, tab, rsp, image', st', start, inv, own, -, run⟩ := linked_started known
  obtain ⟨offset, size, number, first⟩ := linkedFile_headers known
  have sound : (bareImage root).space.Sound ∅ st :=
    ⟨⟨tab, own⟩, Vmas.wf_nil, by simp [UserAreas, bareImage]⟩
  obtain ⟨tells, holds⟩ := phdr_truthful_iff inv sound
    (linkedFile_short _) (linkedFile_loadable known)
    stack_clear run
  obtain ⟨-, -, there⟩ := holds 0 (by omega) (linkedFile_brings known)
  rw [offset, size, number] at tells
  rw [offset, first] at there
  exact ⟨root, st, rsp, image', st', start, run, tells, there rfl⟩

/-- A program that is linked at `0x500000` has its program headers at `0x500040`, and is told
`0x400040`, where nothing is mapped. -/
theorem linked_high_misled : ∃ root st rsp image' st', crowdedStart = .ok (some root, st) ∧
    execveImage .release (bareImage root) (linkedFile 0x500000) (fun _ => 0) 0 0 0 0 st =
      .ok (.ok (0x500000, rsp), image', st') ∧
    Brings (linkedFile 0x500000) (Elf.header (linkedFile 0x500000) 0) ∧
    Tells st' image'.space.pml4 rsp ⟨0x500000, 0x400040, 56, 1⟩ ∧
    HoldsBytes st' image'.space.pml4 0x500040 (phdrTable (linkedFile 0x500000)) ∧
    Machine.translate st'.mem image'.space.pml4 0x400040 = .ok none ∧
    ¬ HoldsBytes st' image'.space.pml4 0x400040 (phdrTable (linkedFile 0x500000)) := by
  have known : 0x500000 = 0x400000 ∨ 0x500000 = 0x500000 := Or.inr rfl
  obtain ⟨root, st, S, tab, rsp, image', st', start, inv, own, empty, run⟩ := linked_started known
  obtain ⟨offset, size, number, first⟩ := linkedFile_headers known
  have brings := linkedFile_brings known
  obtain ⟨vmas, st₂, tab₂, tab', present, repaged, others, tells⟩ := execveImage_started inv own
    (by simp [UserAreas, bareImage]) (linkedFile_loadable known)
    (linkedFile_short _) stack_clear run
  have member : 0 ∈ Elf.segments (linkedFile 0x500000) 0 (Elf.ePhnum (linkedFile 0x500000)) :=
    ⟨Nat.le_refl _, by omega, brings.load⟩
  have holds := brings.holds (linkedFile_loadable known 0 member) (present 0 member) repaged
  have absent : Machine.translate st'.mem image'.space.pml4 0x400040 = .ok none := by
    have user : UserPage ∅ (pageOf 0x400040) := ⟨pageOf_lower (by decide), Set.notMem_empty _⟩
    have unmapped := others _ user (empty _) (pageOf_notMem_newPages (by decide)) fun j member inside => ?_
    · rw [repaged.own.tree.translate_ok user.lower]
      simpa [frameAt] using unmapped
    · rw [linkedFile_header known (by have := member.2.1; omega)] at inside
      simp only [pagesIn, Elf.Phdr.first, pageOf, PAGE_SIZE, Set.mem_ofPred_eq] at inside
      omega
  rw [offset, size, number] at tells
  rw [phdrPlace, offset, first] at holds
  refine ⟨root, st, rsp, image', st', start, run, brings, tells, holds, absent, fun held => ?_⟩
  obtain ⟨x, leads, -⟩ := held 0 (by decide +kernel)
  rw [absent] at leads
  cases leads

end Exec
end Ferrum
