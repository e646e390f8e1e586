import Ferrum.Elf.Loading

/-!
# Loaded programs

If the loader accepts a file, every address of every segment reads as the file says and has the
permissions of its header, in the area list and in the page tables. A file with two segments in one page
is refused, as long as the page-owner table has room for the pages that are loaded before.
-/
namespace Ferrum

open Machine (Local PoolInv Own)

namespace Elf

variable {S img : Set Nat} {st st' : Machine Pool} {tab : Tables} {p : Profile}
  {space space' : AddressSpace} {data : List UInt8} {ph : Phdr}

/-- What the header says about byte `k` of its segment: its value, the permissions of its area and those
of its leaf entry. -/
structure Faithful (data : List UInt8) (ph : Phdr) (space : AddressSpace) (m : Memory) (k : Nat) :
    Prop where
  byte : ∃ phys, Machine.translate m space.pml4 (ph.vaddr + k) = .ok (some phys) ∧
    if k < ph.filesz then data[ph.offset + k]? = some (m phys) else m phys = 0
  area : ∃ v, Vmas.findVma space.vmas (ph.vaddr + k) = some v ∧
    v.flags.read = (ph.flags &&& PF_R != 0) ∧ v.flags.write = (ph.flags &&& PF_W != 0) ∧
    v.flags.exec = (ph.flags &&& PF_X != 0)
  leaf : ∃ pt, Machine.walkTables m [(VirtAddrParts.fromU64 (ph.vaddr + k)).pml4,
      (VirtAddrParts.fromU64 (ph.vaddr + k)).pdpt, (VirtAddrParts.fromU64 (ph.vaddr + k)).pd]
      space.pml4 = .ok (some pt) ∧
    (Entry.flags (readEntry m pt (VirtAddrParts.fromU64 (ph.vaddr + k)).pt)).writable =
      (ph.flags &&& PF_W != 0) ∧
    (Entry.flags (readEntry m pt (VirtAddrParts.fromU64 (ph.vaddr + k)).pt)).noExec =
      !(ph.flags &&& PF_X != 0)

theorem Loadable.page (ok : Loadable img ph) {k : Nat} (hk : k < ph.memsz) :
    pageOf (ph.vaddr + k) = (ph.vaddr + k) / PAGE_SIZE ∧
      pageOf (ph.vaddr + k) ∈ pagesIn ph.first ph.past := by
  obtain ⟨hs, -, low, high, -, -⟩ := Phdr.bounds ok.load
  have below := ok.range.below
  have number : pageOf (ph.vaddr + k) = (ph.vaddr + k) / PAGE_SIZE := pageOf_eq (by omega)
  refine ⟨number, ?_⟩
  rw [number]
  obtain ⟨n, first⟩ := hs
  simp only [pagesIn, Set.mem_ofPred_eq, PAGE_SIZE] at first ⊢
  omega

/-- A page of a segment holds its bytes of the file, and zeros behind them. -/
theorem Loadable.byte {m : Memory} {root : Nat} (ok : Loadable img ph) (file : InFile data ph)
    (tree : Tree m root tab) {k f : Nat} (hk : k < ph.memsz)
    (there : pageAt m tab (pageOf (ph.vaddr + k)) =
      some (segmentPage data ph f (pageOf (ph.vaddr + k)))) :
    ∃ phys, Machine.translate m root (ph.vaddr + k) = .ok (some phys) ∧
      if k < ph.filesz then data[ph.offset + k]? = some (m phys) else m phys = 0 := by
  obtain ⟨number, inside⟩ := ok.page hk
  have lower := UserRange.lower ok.range.below inside
  obtain ⟨seen, bytes⟩ := pageAt_eq_some.mp there
  refine ⟨f + (ph.vaddr + k) % PAGE_SIZE, ?_, ?_⟩
  · simp only [tree.translate_ok lower, seen, segmentPage, Option.map_some]
  · have offset : (ph.vaddr + k) % PAGE_SIZE < PAGE_SIZE := Nat.mod_lt _ Buddy.page_pos
    have whole : pageOf (ph.vaddr + k) * PAGE_SIZE + (ph.vaddr + k) % PAGE_SIZE = ph.vaddr + k := by
      rw [number]
      exact Nat.div_add_mod' _ _
    have byte := congrFun bytes ((ph.vaddr + k) % PAGE_SIZE)
    simp only [segmentPage, bytesAt, if_pos offset, whole, fileByte] at byte
    rw [← byte]
    have start : ph.vaddr + k - ph.vaddr = k := by omega
    split
    · rename_i stored
      have short := file.inside
      rw [if_pos ⟨by omega, by omega⟩, start, List.getD_eq_getElem?_getD,
        List.getElem?_eq_getElem (by omega)]
      rfl
    · rw [if_neg (by omega)]

theorem Present.faithful {vmas : List VMA} {m : Memory} (ok : Loadable img ph) (wf : Vmas.Wf vmas)
    (tree : Tree m space.pml4 tab) (present : Present data ph vmas m tab) {k : Nat}
    (hk : k < ph.memsz) : Faithful data ph { space with vmas } m k := by
  obtain ⟨-, -, low, high, -, -⟩ := Phdr.bounds ok.load
  obtain ⟨-, inside⟩ := ok.page hk
  have lower := UserRange.lower ok.range.below inside
  obtain ⟨f, there⟩ := present.pages _ inside
  refine ⟨ok.byte present.file tree hk there, ?_, ?_⟩
  · obtain ⟨v, hv, inside, past, flags, -⟩ := present.areas (ph.vaddr + k) ⟨by omega, by omega⟩
    refine ⟨v, (Vmas.findVma_eq_some wf).mpr ⟨hv, inside, past⟩, ?_⟩
    rw [flags]
    exact ⟨rfl, rfl, rfl⟩
  · obtain ⟨pt, walk, leaf⟩ := tree.leafEntry lower (pageAt_eq_some.mp there).1
    refine ⟨pt, walk, ?_⟩
    rw [leaf]
    exact ⟨rfl, rfl⟩

/-- Two segments have a page in common. -/
def Overlapping (data : List UInt8) : Prop :=
  ∃ i j, i < j ∧ j < ePhnum data ∧ (header data i).isLoad ∧ (header data j).isLoad ∧
    ∃ k < (header data i).memsz, ∃ l < (header data j).memsz,
      ((header data i).vaddr + k) / PAGE_SIZE = ((header data j).vaddr + l) / PAGE_SIZE

/-- The ranges of the segments end in the lower half. -/
def Low (data : List UInt8) : Prop :=
  ∀ i < ePhnum data, (header data i).type = PT_LOAD →
    (header data i).vaddr + (header data i).memsz ≤ 2 ^ 47 ∧
    (header data i).vaddr + (header data i).filesz ≤ 2 ^ 47

/-- Nothing is mapped in the ranges of the segments. -/
def Unused (data : List UInt8) (space : AddressSpace) (m : Memory) : Prop :=
  ∀ i < ePhnum data, (header data i).isLoad → ∀ k < (header data i).memsz,
    Machine.translate m space.pml4 ((header data i).vaddr + k) = .ok none

theorem Phdr.address (load : ph.isLoad) (low : ph.vaddr + ph.memsz ≤ 2 ^ 47) {q : Nat}
    (hq : q ∈ pagesIn ph.first ph.past) : ∃ k < ph.memsz, pageOf (ph.vaddr + k) = q := by
  have pos := Phdr.memsz_pos load
  simp only [pagesIn, Phdr.first, Phdr.past, roundUp, Set.mem_ofPred_eq, PAGE_SIZE] at hq
  refine ⟨q * PAGE_SIZE - ph.vaddr, ?_, ?_⟩
  · simp only [PAGE_SIZE]
    omega
  · rw [pageOf_eq (by simp only [PAGE_SIZE]; omega)]
    simp only [PAGE_SIZE]
    omega

theorem loadable_of_unused (own : Owned img st space.owner space.pml4 tab)
    (image : ∀ q ∈ img, frameAt st.mem tab q ≠ none) (low : Low data)
    (unused : Unused data space st.mem) :
    ∀ j ∈ segments data 0 (ePhnum data), Loadable img (header data j) := by
  rintro j ⟨-, hj, load⟩
  rw [Nat.zero_add] at hj
  have loads : (header data j).type = PT_LOAD := by
    simp only [Phdr.isLoad, Bool.and_eq_true, decide_eq_true_eq] at load
    exact load.1
  obtain ⟨memory, bytes⟩ := low j hj loads
  obtain ⟨hs, he, -, -, -, -⟩ := Phdr.bounds load
  refine ⟨load, ⟨hs, he, ?_, fun q hq inside => ?_⟩, by omega⟩
  · simp only [Phdr.past, roundUp, PAGE_SIZE]
    omega
  · obtain ⟨k, hk, rfl⟩ := Phdr.address load memory hq
    have absent := unused j hj load k hk
    rw [own.tree.translate_ok (pageOf_lower (by omega))] at absent
    exact image _ inside (by simpa [frameAt] using absent)

/-- What a file that is accepted leaves in memory, and that a file with overlapping segments is not
accepted. -/
theorem load_faithful (inv : PoolInv S st) (own : Owned img st space.owner space.pml4 tab)
    (image : ∀ q ∈ img, frameAt st.mem tab q ≠ none) (wf : Vmas.Wf space.vmas) (low : Low data)
    (unused : Unused data space st.mem) (p : Profile) :
    (∀ e space' st', load p space st data = .ok (.ok e, space', st') → e = eEntry data ∧
      ∀ i < ePhnum data, (header data i).isLoad → ∀ k < (header data i).memsz,
        Faithful data (header data i) space' st'.mem k) ∧
    (Overlapping data →
      st.pool.owners.length + pageCount data (List.range (ePhnum data)) ≤ RESERVE_CAPACITY →
      ∃ e space' st', load p space st data = .ok (.error e, space', st')) := by
  have ok := loadable_of_unused own image low unused
  have ended := load_spec ok inv own wf p
  refine ⟨fun e space' st' run => ?_, fun overlap room => ?_⟩
  · rcases ended with ⟨r, vmas, st₁, tab₁, run', loaded⟩ | ⟨run', -⟩
    · rw [run'] at run
      cases r with
      | error e => cases run
      | ok =>
        obtain ⟨entry, rest⟩ := Prod.mk.inj (Except.ok.inj run)
        obtain ⟨rfl, rfl⟩ := Prod.mk.inj rest
        refine ⟨(Except.ok.inj entry).symm, fun i hi load k hk => ?_⟩
        have member : i ∈ segments data 0 (ePhnum data) := ⟨Nat.zero_le _, by omega, load⟩
        exact ((loaded.complete rfl).present i member).faithful (ok i member) loaded.wf loaded.own.tree hk
    · rw [run'] at run
      cases run
  · rcases ended with ⟨r, vmas, st₁, tab₁, run, loaded⟩ | ⟨-, full⟩
    · cases r with
      | error e => exact ⟨e, _, _, run⟩
      | ok =>
        obtain ⟨i, j, order, hj, loadI, loadJ, k, hk, l, hl, same⟩ := overlap
        have memberI : i ∈ segments data 0 (ePhnum data) := ⟨Nat.zero_le _, by omega, loadI⟩
        have memberJ : j ∈ segments data 0 (ePhnum data) := ⟨Nat.zero_le _, by omega, loadJ⟩
        obtain ⟨pageI, insideI⟩ := (ok i memberI).page hk
        obtain ⟨pageJ, insideJ⟩ := (ok j memberJ).page hl
        have apart := (loaded.complete rfl).apart i memberI j memberJ order
        rw [pageJ, ← same, ← pageI] at insideJ
        exact absurd insideJ (Set.disjoint_left.mp apart insideI)
    · omega

/-! ## Writing files -/

def leBytes : Nat → Nat → List UInt8
  | 0, _ => []
  | n + 1, v => UInt8.ofNat v :: leBytes n (v / 256)

@[simp] theorem length_leBytes (n v : Nat) : (leBytes n v).length = n := by
  induction n generalizing v with
  | zero => rfl
  | succ n ih => rw [leBytes, List.length_cons, ih]

theorem field_leBytes (before after : List UInt8) {n v : Nat} (fits : v < 256 ^ n) :
    field (before ++ (leBytes n v ++ after)) before.length n = v := by
  induction n generalizing before v with
  | zero =>
    rw [field]
    omega
  | succ n ih =>
    have low : v / 256 < 256 ^ n := by
      rw [Nat.pow_succ] at fits
      omega
    have rest := ih (before ++ [UInt8.ofNat v]) low
    have same : before ++ (leBytes (n + 1) v ++ after) =
        before ++ [UInt8.ofNat v] ++ (leBytes n (v / 256) ++ after) := by simp [leBytes]
    have first : (before ++ (leBytes (n + 1) v ++ after)).getD before.length 0 = UInt8.ofNat v := by
      simp [leBytes]
    rw [field, first, same]
    rw [List.length_append, List.length_singleton] at rest
    rw [rest, UInt8.toNat_ofNat']
    omega

theorem field_append (before after : List UInt8) {offset n : Nat} (h : offset + n ≤ before.length) :
    field (before ++ after) offset n = field before offset n := by
  induction n generalizing offset with
  | zero => rfl
  | succ n ih => rw [field, field, List.getD_append _ _ _ _ (by omega), ih (by omega)]

/-- The header of a file whose program headers follow it. -/
def ehdrBytes (entry phnum : Nat) : List UInt8 :=
  ELFMAG ++ [2, 1, 1, 0, 0, 0, 0, 0, 0, 0, 0, 0] ++ leBytes 2 ET_EXEC ++ leBytes 2 EM_X86_64 ++
    leBytes 4 1 ++ leBytes 8 entry ++ leBytes 8 EHDR_SIZE ++ leBytes 8 0 ++ leBytes 4 0 ++
    leBytes 2 EHDR_SIZE ++ leBytes 2 PHDR_SIZE ++ leBytes 2 phnum ++ leBytes 6 0

def phdrBytes (ph : Phdr) : List UInt8 :=
  leBytes 4 ph.type ++ leBytes 4 ph.flags ++ leBytes 8 ph.offset ++ leBytes 8 ph.vaddr ++
    leBytes 8 ph.vaddr ++ leBytes 8 ph.filesz ++ leBytes 8 ph.memsz ++ leBytes 8 PAGE_SIZE

/-- The fields of a program header have their widths. -/
structure Phdr.Narrow (ph : Phdr) : Prop where
  type : ph.type < 256 ^ 4
  flags : ph.flags < 256 ^ 4
  offset : ph.offset < 256 ^ 8
  vaddr : ph.vaddr < 256 ^ 8
  filesz : ph.filesz < 256 ^ 8
  memsz : ph.memsz < 256 ^ 8

theorem readPhdr_phdrBytes (narrow : ph.Narrow) (before after : List UInt8) :
    readPhdr (before ++ (phdrBytes ph ++ after)) before.length = ph := by
  have type := field_leBytes before (leBytes 4 ph.flags ++ leBytes 8 ph.offset ++
    leBytes 8 ph.vaddr ++ leBytes 8 ph.vaddr ++ leBytes 8 ph.filesz ++ leBytes 8 ph.memsz ++
    leBytes 8 PAGE_SIZE ++ after) narrow.type
  have flags := field_leBytes (before ++ leBytes 4 ph.type) (leBytes 8 ph.offset ++
    leBytes 8 ph.vaddr ++ leBytes 8 ph.vaddr ++ leBytes 8 ph.filesz ++ leBytes 8 ph.memsz ++
    leBytes 8 PAGE_SIZE ++ after) narrow.flags
  have offset := field_leBytes (before ++ leBytes 4 ph.type ++ leBytes 4 ph.flags)
    (leBytes 8 ph.vaddr ++ leBytes 8 ph.vaddr ++ leBytes 8 ph.filesz ++ leBytes 8 ph.memsz ++
    leBytes 8 PAGE_SIZE ++ after) narrow.offset
  have vaddr := field_leBytes (before ++ leBytes 4 ph.type ++ leBytes 4 ph.flags ++
    leBytes 8 ph.offset) (leBytes 8 ph.vaddr ++ leBytes 8 ph.filesz ++ leBytes 8 ph.memsz ++
    leBytes 8 PAGE_SIZE ++ after) narrow.vaddr
  have filesz := field_leBytes (before ++ leBytes 4 ph.type ++ leBytes 4 ph.flags ++
    leBytes 8 ph.offset ++ leBytes 8 ph.vaddr ++ leBytes 8 ph.vaddr) (leBytes 8 ph.memsz ++
    leBytes 8 PAGE_SIZE ++ after) narrow.filesz
  have memsz := field_leBytes (before ++ leBytes 4 ph.type ++ leBytes 4 ph.flags ++
    leBytes 8 ph.offset ++ leBytes 8 ph.vaddr ++ leBytes 8 ph.vaddr ++ leBytes 8 ph.filesz)
    (leBytes 8 PAGE_SIZE ++ after) narrow.memsz
  simp only [List.append_assoc, List.length_append, length_leBytes, Nat.reduceAdd]
    at type flags offset vaddr filesz memsz
  simp only [readPhdr, phdrBytes, List.append_assoc, type, flags, offset, vaddr, filesz, memsz]

/-- A file with two program headers. -/
def pairFile (first second : Phdr) : List UInt8 :=
  ehdrBytes 0 2 ++ (phdrBytes first ++ phdrBytes second)

theorem pairFile_headers {first second : Phdr} (hf : first.Narrow) (hs : second.Narrow) :
    validate (pairFile first second) = .ok () ∧ (pairFile first second).length = 176 ∧
      ePhnum (pairFile first second) = 2 ∧ header (pairFile first second) 0 = first ∧
      header (pairFile first second) 1 = second := by
  have start : (ehdrBytes 0 2).length = 64 := rfl
  have size (ph : Phdr) : (phdrBytes ph).length = 56 := by simp [phdrBytes]
  have length : (pairFile first second).length = 176 := by simp [pairFile, start, size]
  -- the fields of the file header are those of its 64 bytes
  have own {offset n : Nat} (h : offset + n ≤ 64) :
      field (pairFile first second) offset n = field (ehdrBytes 0 2) offset n :=
    field_append _ _ (start.symm ▸ h)
  have phnum : ePhnum (pairFile first second) = 2 := (own (by decide)).trans (by decide +kernel)
  have phoff : ePhoff (pairFile first second) = 64 := (own (by decide)).trans (by decide +kernel)
  have phentsize : ePhentsize (pairFile first second) = 56 :=
    (own (by decide)).trans (by decide +kernel)
  refine ⟨?_, length, phnum, ?_, ?_⟩
  · have magic : (pairFile first second).take 4 = ELFMAG := rfl
    have cls : field (pairFile first second) 4 1 = 2 := (own (by decide)).trans (by decide +kernel)
    have order : field (pairFile first second) 5 1 = 1 := (own (by decide)).trans (by decide +kernel)
    have type : eType (pairFile first second) = 2 := (own (by decide)).trans (by decide +kernel)
    have machine : eMachine (pairFile first second) = 62 := (own (by decide)).trans (by decide +kernel)
    simp [validate, length, magic, cls, order, type, machine, phnum, phoff, phentsize, EHDR_SIZE,
      PHDR_SIZE, ELFCLASS64, ELFDATA2LSB, ET_EXEC, EM_X86_64]
  · have read := readPhdr_phdrBytes hf (ehdrBytes 0 2) (phdrBytes second)
    rw [start] at read
    rw [header, phoff, phentsize]
    exact read
  · have read := readPhdr_phdrBytes hs (ehdrBytes 0 2 ++ phdrBytes first) []
    rw [List.length_append, start, size, List.append_nil, List.append_assoc] at read
    rw [header, phoff, phentsize]
    exact read

/-! ## Small files -/

/-- A program of five bytes and three zeros that starts in the middle of a page. -/
def smallFile : List UInt8 :=
  ehdrBytes 0x500010 1 ++ phdrBytes ⟨PT_LOAD, PF_R + PF_X, 120, 0x500010, 5, 8⟩ ++ [1, 2, 3, 4, 5]

/-- The same page in two segments. -/
def twinFile : List UInt8 :=
  pairFile ⟨PT_LOAD, PF_R, 0, 0x500000, 0, 8⟩ ⟨PT_LOAD, PF_R, 0, 0x500008, 0, 8⟩

theorem unused_resident
    (own : Owned ∅ st residentSpace.owner residentSpace.pml4 tab)
    (only : ∀ q, UserPage ∅ q → frameAt st.mem tab q ≠ none → q = 0x400)
    (place : ∀ i < ePhnum data, 0x500000 ≤ (header data i).vaddr ∧
      (header data i).vaddr + (header data i).memsz ≤ 0x501000) :
    Unused data residentSpace st.mem := by
  intro i hi _ k hk
  obtain ⟨low, high⟩ := place i hi
  have lower : LowerPage (pageOf ((header data i).vaddr + k)) := pageOf_lower (by omega)
  have other : pageOf ((header data i).vaddr + k) ≠ 0x400 := by
    rw [pageOf_eq (by omega)]
    simp only [PAGE_SIZE]
    omega
  have absent : frameAt st.mem tab (pageOf ((header data i).vaddr + k)) = none := by
    by_contra there
    exact other (only _ ⟨lower, by simp⟩ there)
  rw [own.tree.translate_ok lower]
  simpa [frameAt] using absent

theorem smallFile_header : ePhnum smallFile = 1 ∧
    header smallFile 0 = ⟨PT_LOAD, PF_R + PF_X, 120, 0x500010, 5, 8⟩ := by decide +kernel

/-- The small program in the resident process. -/
theorem small_file_faithful : ∃ st space' st', residentStart = .ok st ∧
    load .dev residentSpace st smallFile = .ok (.ok 0x500010, space', st') ∧
    ∀ k < 8, Faithful smallFile ⟨PT_LOAD, PF_R + PF_X, 120, 0x500010, 5, 8⟩ space' st'.mem k := by
  have evaluates : (do
      let st ← residentStart
      let loaded ← load .dev residentSpace st smallFile
      return loaded.1.toOption) = .ok (some 0x500010) := by decide +kernel
  obtain ⟨st, start, rest⟩ := bind_eq_ok.mp evaluates
  obtain ⟨⟨r, space', st'⟩, run, out⟩ := bind_eq_ok.mp rest
  obtain ⟨number, first⟩ := smallFile_header
  have headers {P : Phdr → Prop} (h : P ⟨PT_LOAD, PF_R + PF_X, 120, 0x500010, 5, 8⟩) :
      ∀ i < ePhnum smallFile, P (header smallFile i) := by
    intro i hi
    obtain rfl : i = 0 := by omega
    rwa [first]
  obtain ⟨S, tab, inv, own, -, only, -⟩ := residentStart_owned (by simp : 0x400 ∉ (∅ : Set Nat)) start
  have unused := unused_resident own only
    (headers (P := fun ph => 0x500000 ≤ ph.vaddr ∧ ph.vaddr + ph.memsz ≤ 0x501000) (by decide))
  have low : Low smallFile := headers (P := fun ph => ph.type = PT_LOAD →
    ph.vaddr + ph.memsz ≤ 2 ^ 47 ∧ ph.vaddr + ph.filesz ≤ 2 ^ 47) (by decide)
  cases r with
  | error e => cases out
  | ok e =>
    obtain rfl : e = 0x500010 := Option.some.inj (Except.ok.inj out)
    have faithful := (load_faithful inv own (by simp) residentSpace_wf low unused .dev).1 _ _ _ run
    refine ⟨st, space', st', start, run, fun k hk => ?_⟩
    have byte := faithful.2 0 (by omega) (by rw [first]; decide) k (by rw [first]; exact hk)
    rwa [first] at byte

/-- A page-owner table without room. -/
def fullOwners : List (Nat × PageOwner) := List.replicate RESERVE_CAPACITY (0, ⟨"", 0, 0⟩)

/-- Two segments in one page and a full page-owner table: the loader does not return. -/
theorem twin_file_panics : ∃ (S : Set Nat) (st : Machine Pool) (tab : Tables), PoolInv S st ∧
    Owned ∅ st residentSpace.owner residentSpace.pml4 tab ∧ Vmas.Wf residentSpace.vmas ∧
    validate twinFile = .ok () ∧ Low twinFile ∧ Unused twinFile residentSpace st.mem ∧
    Overlapping twinFile ∧
    load .dev residentSpace st twinFile = .error (.ownersFull RESERVE_CAPACITY) := by
  have evaluates : (do
      let st ← residentStart
      return match load .dev residentSpace ⟨st.mem, { st.pool with owners := fullOwners }⟩ twinFile with
      | .ok _ => none
      | .error stop => some stop) = Except.ok (some (Stop.ownersFull RESERVE_CAPACITY)) := by
    decide +kernel
  obtain ⟨st, start, rest⟩ := bind_eq_ok.mp evaluates
  have narrow₀ : Phdr.Narrow ⟨PT_LOAD, PF_R, 0, 0x500000, 0, 8⟩ := by constructor <;> decide
  have narrow₁ : Phdr.Narrow ⟨PT_LOAD, PF_R, 0, 0x500008, 0, 8⟩ := by constructor <;> decide
  obtain ⟨valid, -, number, first, second⟩ := pairFile_headers narrow₀ narrow₁
  rw [← twinFile] at valid number first second
  have headers {P : Phdr → Prop} (h₀ : P ⟨PT_LOAD, PF_R, 0, 0x500000, 0, 8⟩)
      (h₁ : P ⟨PT_LOAD, PF_R, 0, 0x500008, 0, 8⟩) : ∀ i < ePhnum twinFile, P (header twinFile i) := by
    intro i hi
    obtain rfl | rfl : i = 0 ∨ i = 1 := by omega
    · rwa [first]
    · rwa [second]
  obtain ⟨S, tab, inv, own, -, only, -⟩ := residentStart_owned (by simp : 0x400 ∉ (∅ : Set Nat)) start
  have unused := unused_resident own only (headers
    (P := fun ph => 0x500000 ≤ ph.vaddr ∧ ph.vaddr + ph.memsz ≤ 0x501000) (by decide) (by decide))
  have low : Low twinFile := headers (P := fun ph => ph.type = PT_LOAD →
    ph.vaddr + ph.memsz ≤ 2 ^ 47 ∧ ph.vaddr + ph.filesz ≤ 2 ^ 47) (by decide) (by decide)
  have overlapping : Overlapping twinFile := by
    refine ⟨0, 1, by omega, by omega, by rw [first]; decide, by rw [second]; decide, 0, ?_, 0, ?_, ?_⟩
    · rw [first]
      decide
    · rw [second]
      decide
    · rw [first, second]
      decide
  refine ⟨S, ⟨st.mem, { st.pool with owners := fullOwners }⟩, tab, inv.owners _,
    own.owners _, residentSpace_wf, valid, low, unused,
    overlapping, ?_⟩
  generalize load .dev residentSpace _ twinFile = result at rest ⊢
  cases result with
  | ok out => cases rest
  | error stop => exact congrArg Except.error (Option.some.inj (Except.ok.inj rest))

end Elf
end Ferrum
