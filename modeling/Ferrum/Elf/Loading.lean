import Ferrum.AddressSpace.Faults

/-!
# What loading an ELF file leaves

A page of a segment takes its bytes from the intersection of two intervals, that of the page and that of
the file bytes in memory, and zeros elsewhere. A loaded segment has all its pages, and as `add_vma`
refuses an area that meets another one, the segments that follow do not touch them.
-/
namespace Ferrum

open Machine (Local PoolInv Own)

namespace Elf

variable {S img : Set Nat} {st st' : Machine Pool} {owner : Owner} {root : Nat} {tab tab' : Tables}
  {p : Profile} {space space' : AddressSpace} {data : List UInt8} {ph : Phdr}

/-! ## One page -/

/-- The byte of a segment at an address. -/
def fileByte (data : List UInt8) (ph : Phdr) (a : Nat) : UInt8 :=
  if ph.vaddr ≤ a ∧ a < ph.vaddr + ph.filesz then data.getD (ph.offset + (a - ph.vaddr)) 0 else 0

/-- The page `q` of a segment, in the frame `f`. -/
def segmentPage (data : List UInt8) (ph : Phdr) (f q : Nat) : Page where
  frame := f
  flags := (pflagsToVma ph.flags).toPageFlags
  bytes i := if i < PAGE_SIZE then fileByte data ph (q * PAGE_SIZE + i) else 0

/-- The file bytes of a segment lie in the file, and no sum of its fields overflows. -/
structure InFile (data : List UInt8) (ph : Phdr) : Prop where
  inside : ph.offset + ph.filesz ≤ data.length
  offset : ph.offset + ph.filesz < 2 ^ 64
  bytes : ph.vaddr + ph.filesz < 2 ^ 64

theorem getD_take_drop {a n j : Nat} (h : j < n) :
    ((data.drop a).take n).getD j 0 = data.getD (a + j) 0 := by
  simp [List.getD_eq_getElem?_getD, h]

theorem copyFileBytes_spec (file : InFile data ph) {v f : Nat} (top : v + PAGE_SIZE < 2 ^ 64)
    (p : Profile) (m : Memory) (pool : Pool) :
    ∃ m', copyFileBytes p data ph v f ⟨m.fill f PAGE_SIZE 0, pool⟩ = .ok ⟨m', pool⟩ ∧
      (∀ x, x ∉ pageBytes f → m' x = m x) ∧ ∀ i < PAGE_SIZE, m' (f + i) = fileByte data ph (v + i) := by
  obtain ⟨inside, offset, bytes⟩ := file
  have zeros {x} (hx : x ∉ pageBytes f) : m.fill f PAGE_SIZE 0 x = m x := by
    refine Memory.fill_outside ?_
    simp only [pageBytes, Set.mem_Ico] at hx
    omega
  have zero {i} (hi : i < PAGE_SIZE) : m.fill f PAGE_SIZE 0 (f + i) = 0 := if_pos (by omega)
  simp only [copyFileBytes, p.add_ok top, p.add_ok bytes, ok_bind]
  split
  · rename_i meets
    have start : ph.offset + (max v ph.vaddr - ph.vaddr) < 2 ^ 64 := by omega
    rw [p.add_ok start, ok_bind, if_neg (by omega)]
    generalize len : min (v + PAGE_SIZE) (ph.vaddr + ph.filesz) - max v ph.vaddr = n
    generalize src : ph.offset + (max v ph.vaddr - ph.vaddr) = a at *
    have length : ((data.drop a).take n).length = n := by
      simp only [List.length_take, List.length_drop]
      omega
    refine ⟨_, rfl, fun x hx => ?_, fun i hi => ?_⟩
    · refine (Memory.writeBytes_outside ?_).trans (zeros hx)
      rw [length]
      simp only [pageBytes, Set.mem_Ico] at hx
      omega
    · simp only [Memory.writeBytes, length, fileByte]
      by_cases here : ph.vaddr ≤ v + i ∧ v + i < ph.vaddr + ph.filesz
      · rw [if_pos (by omega), if_pos here, getD_take_drop (by omega)]
        congr 1
        omega
      · rw [if_neg (by omega), if_neg here, zero hi]
  · rename_i apart
    refine ⟨_, rfl, fun x => zeros, fun i hi => ?_⟩
    rw [zero hi, fileByte, if_neg (by omega)]

/-! ## The pages of a segment -/

/-- The pages of a set hold what the segment says, unless loading stopped; other pages are as they
were. -/
structure Filled (S img : Set Nat) (owner : Owner) (root : Nat) (data : List UInt8) (ph : Phdr)
    (Q : Set Nat) (st : Machine Pool) (tab : Tables) (r : Except String Unit) (st' : Machine Pool)
    (tab' : Tables) : Prop where
  step : Local S owner st st'
  own : Owned img st' owner root tab'
  filled : r = .ok () → ∀ q ∈ Q, ∃ f, pageAt st'.mem tab' q = some (segmentPage data ph f q)
  kept : ∀ q, UserPage img q → q ∉ Q → pageAt st'.mem tab' q = pageAt st.mem tab q

/-- The pages of a range are its first page and the pages behind that. -/
theorem pagesIn_cons {v stop q : Nat} (first : PAGE_SIZE ∣ v) (top : v + PAGE_SIZE ≤ 2 ^ 47)
    (room : v + PAGE_SIZE ≤ stop) :
    q ∈ pagesIn v stop ↔ q = pageOf v ∨ q ∈ pagesIn (v + PAGE_SIZE) stop := by
  rw [pageOf_eq (by simp only [PAGE_SIZE] at top; omega)]
  obtain ⟨k, rfl⟩ := first
  simp only [pagesIn, Set.mem_ofPred_eq, PAGE_SIZE] at *
  omega

/-- One round of the loop: there is no room in the page-owner table, or the round fails and ends the
loop, or one more page is there. -/
theorem loadPages_succ (file : InFile data ph) {start n idx v : Nat}
    (here : start + idx * PAGE_SIZE = v) (top : v + PAGE_SIZE ≤ 2 ^ 47) (aligned : PAGE_SIZE ∣ v)
    (inv : PoolInv S st) (own : Owned img st space.owner space.pml4 tab)
    (page : UserPage img (pageOf v)) (p : Profile) :
    (loadPages p space data ph start (n + 1) idx st = .error (.ownersFull RESERVE_CAPACITY) ∧
      RESERVE_CAPACITY ≤ st.pool.owners.length) ∨
    ∃ r st' tab', Filled S img space.owner space.pml4 data ph {pageOf v} st tab r st' tab' ∧
      st'.pool.owners.length ≤ st.pool.owners.length + 1 ∧
      loadPages p space data ph start (n + 1) idx st = match r with
        | .error e => .ok (.error e, st')
        | .ok () => loadPages p space data ph start n (idx + 1) st' := by
  have number : pageOf v * PAGE_SIZE = v := by
    rw [pageOf_eq (by simp only [PAGE_SIZE] at top; omega)]
    exact Nat.div_mul_cancel aligned
  obtain ⟨a, st₁, -, alloc, step₁, own₁, same₁, owners₁, result⟩ := own.alloc inv p
  have address : p.add start (idx * PAGE_SIZE) = .ok v := by
    rw [p.add_ok (by omega), here]
  rw [loadPages, address, ok_bind, alloc, ok_bind]
  cases a with
  | none =>
    exact Or.inr ⟨.error "ELF: out of memory for PT_LOAD page", st₁, tab,
      ⟨step₁, own₁, (fun h => by cases h), fun q hq _ => same₁ q hq⟩, by rw [owners₁]; omega, rfl⟩
  | some f =>
    obtain ⟨table, -, spare, -⟩ := result
    simp only [Pool.track, owners₁]
    split
    · rename_i full
      exact Or.inl ⟨rfl, full⟩
    obtain ⟨m, copied, outside, inside⟩ := copyFileBytes_spec file (by omega : v + PAGE_SIZE < 2 ^ 64) p
      st₁.mem { st₁.pool with owners := st.pool.owners ++ [(f, ⟨"elf:segment", space.ownerPid, 0⟩)] }
      (f := f)
    obtain ⟨r, st₂, tab', mapped, step₂, own₂, -, -, -, shown⟩ := own₁.place step₁.inv p page spare
      outside (st.pool.owners ++ [(f, ⟨"elf:segment", space.ownerPid, 0⟩)])
      (pflagsToVma ph.flags).toPageFlags
    have owners₂ : st₂.pool.owners.length ≤ st.pool.owners.length + 1 := by
      rw [Machine.map_owners mapped]
      simp
    have kept : ∀ q, UserPage img q → q ∉ ({pageOf v} : Set Nat) →
        pageAt st₂.mem tab' q = pageAt st.mem tab q := by
      intro q hq other
      rw [shown q hq, if_neg fun both => other both.2, same₁ q hq]
    have content : bytesAt m f = (segmentPage data ph f (pageOf v)).bytes := by
      funext i
      simp only [bytesAt, segmentPage, number]
      split
      · exact inside i (by assumption)
      · rfl
    simp only [physToVirt_ok table.window, ok_bind, Machine.zeroPage, copied, AddressSpace.pages, mapped]
    cases r with
    | none =>
      exact Or.inr ⟨.error "ELF: page table map failed", st₂, tab',
        ⟨step₁.trans step₂, own₂, (fun h => by cases h), kept⟩, owners₂, rfl⟩
    | some =>
      refine Or.inr ⟨.ok (), st₂, tab', ⟨step₁.trans step₂, own₂, ?_, kept⟩, owners₂, rfl⟩
      rintro - q rfl
      refine ⟨f, ?_⟩
      rw [shown _ page, if_pos ⟨rfl, rfl⟩, content]
      rfl

/-- The loop over pages ends, with or without an error, unless the page-owner table is full. -/
theorem loadPages_spec (space : AddressSpace) (file : InFile data ph) (start n idx : Nat)
    (inv : PoolInv S st) (own : Owned img st space.owner space.pml4 tab)
    (range : UserRange img (start + idx * PAGE_SIZE) (start + (idx + n) * PAGE_SIZE)) (p : Profile) :
    (∃ r st' tab', loadPages p space data ph start n idx st = .ok (r, st') ∧
      Filled S img space.owner space.pml4 data ph
        (pagesIn (start + idx * PAGE_SIZE) (start + (idx + n) * PAGE_SIZE)) st tab r st' tab' ∧
      st'.pool.owners.length ≤ st.pool.owners.length + n) ∨
    loadPages p space data ph start n idx st = .error (.ownersFull RESERVE_CAPACITY) ∧
      RESERVE_CAPACITY < st.pool.owners.length + n := by
  induction n generalizing idx st tab with
  | zero =>
    refine Or.inl ⟨.ok (), st, tab, rfl, ⟨.refl inv, own, fun _ q hq => ?_, fun _ _ _ => rfl⟩, le_rfl⟩
    simp only [pagesIn, Set.mem_ofPred_eq, Nat.add_zero] at hq
    omega
  | succ n ih =>
    generalize here : start + idx * PAGE_SIZE = v at range ⊢
    have next : start + (idx + 1) * PAGE_SIZE = v + PAGE_SIZE := by
      rw [Nat.succ_mul, ← Nat.add_assoc, here]
    have last : start + (idx + 1 + n) * PAGE_SIZE = start + (idx + (n + 1)) * PAGE_SIZE := by
      rw [Nat.add_right_comm idx 1 n, Nat.add_assoc idx n 1]
    have room : v + PAGE_SIZE ≤ start + (idx + (n + 1)) * PAGE_SIZE := by
      rw [← last, Nat.add_mul, ← Nat.add_assoc, next]
      exact Nat.le_add_right _ _
    generalize start + (idx + (n + 1)) * PAGE_SIZE = stop at range room last ⊢
    have inside : pageOf v ∈ pagesIn v stop := (pagesIn_step range.first range.first le_rfl
      (by simp only [PAGE_SIZE] at room ⊢; omega) range.below).1
    rcases loadPages_succ file here (room.trans range.below) range.first inv own (range.page _ inside) p
      with full | ⟨r, st₁, tab₁, first, owners, run⟩
    · exact Or.inr ⟨full.1, by omega⟩
    cases r with
    | error e =>
      refine Or.inl ⟨.error e, st₁, tab₁, run, ⟨first.step, first.own, (fun h => by cases h), ?_⟩, by omega⟩
      exact fun q hq other => first.kept q hq fun eq => other (eq ▸ inside)
    | ok =>
      have split {q} : q ∈ pagesIn v stop ↔ q = pageOf v ∨ q ∈ pagesIn (v + PAGE_SIZE) stop :=
        pagesIn_cons range.first (room.trans range.below) room
      have rest : UserRange img (v + PAGE_SIZE) stop :=
        ⟨Nat.dvd_add range.first (Nat.dvd_refl PAGE_SIZE), range.last, range.below,
          fun q hq => range.off q (split.mpr (Or.inr hq))⟩
      have tail := ih (idx + 1) first.step.inv first.own (by rw [next, last]; exact rest)
      rw [next, last] at tail
      rcases tail with ⟨r, st₂, tab₂, run', more, owners'⟩ | ⟨run', full⟩
      · refine Or.inl ⟨r, st₂, tab₂, run.trans run', ⟨first.step.trans more.step, more.own, ?_, ?_⟩,
          by omega⟩
        · intro done q hq
          by_cases later : q ∈ pagesIn (v + PAGE_SIZE) stop
          · exact more.filled done q later
          · obtain rfl := (split.mp hq).resolve_right later
            rw [more.kept _ (range.page _ hq) later]
            exact first.filled rfl _ rfl
        · intro q hq other
          rw [more.kept q hq fun later => other (split.mpr (Or.inr later)),
            first.kept q hq fun eq => other (split.mpr (Or.inl eq))]
      · exact Or.inr ⟨run.trans run', by omega⟩

/-! ## Segments and files -/

/-- A segment is in memory: all of its pages, and areas over all of its addresses. -/
structure Present (data : List UInt8) (ph : Phdr) (vmas : List VMA) (m : Memory) (tab : Tables) :
    Prop where
  file : InFile data ph
  pages : ∀ q ∈ pagesIn ph.first ph.past, ∃ f, pageAt m tab q = some (segmentPage data ph f q)
  areas : ∀ a ∈ Set.Ico ph.first ph.past, Vmas.Has vmas a (pflagsToVma ph.flags) .anonymous

/-- The segments of some headers are in memory, apart from each other and from the areas that were there
before. -/
structure Complete (data : List UInt8) (J : Set Nat) (vmas vmas' : List VMA) (m : Memory)
    (tab : Tables) : Prop where
  present : ∀ j ∈ J, Present data (header data j) vmas' m tab
  fresh : ∀ j ∈ J, ∀ a f k, Vmas.Has vmas a f k → a ∉ Set.Ico (header data j).first (header data j).past
  has : ∀ a f k, Vmas.Has vmas a f k → Vmas.Has vmas' a f k
  apart : ∀ i ∈ J, ∀ j ∈ J, i < j → Disjoint (Set.Ico (header data i).first (header data i).past)
    (Set.Ico (header data j).first (header data j).past)

/-- Loading has come to an end, with every segment or with an error. -/
structure Loaded (S img : Set Nat) (data : List UInt8) (J : Set Nat) (space : AddressSpace)
    (st : Machine Pool) (tab : Tables) (r : Except String Unit) (vmas : List VMA)
    (st' : Machine Pool) (tab' : Tables) : Prop where
  step : Local S space.owner st st'
  own : Owned img st' space.owner space.pml4 tab'
  wf : Vmas.Wf vmas
  kept : ∀ q, UserPage img q → (∀ j ∈ J, q ∉ pagesIn (header data j).first (header data j).past) →
    pageAt st'.mem tab' q = pageAt st.mem tab q
  complete : r = .ok () → Complete data J space.vmas vmas st'.mem tab'

/-- A segment that may be loaded: it lies in user pages, and its file bytes end in the lower half. -/
structure Loadable (img : Set Nat) (ph : Phdr) : Prop where
  load : ph.isLoad
  range : UserRange img ph.first ph.past
  bytes : ph.vaddr + ph.filesz < 2 ^ 64

theorem Loadable.fits (ok : Loadable img ph) : ph.vaddr + ph.memsz + PAGE_SIZE < 2 ^ 64 := by
  obtain ⟨-, -, -, up, -, -⟩ := Phdr.bounds ok.load
  have below := ok.range.below
  simp only [PAGE_SIZE]
  omega

theorem Loadable.proper (ok : Loadable img ph) {flags : VMAFlags} {kind : VMAKind} :
    VMA.Proper ⟨ph.first, ph.past, flags, kind⟩ := by
  obtain ⟨hs, he, -, -, order, -⟩ := Phdr.bounds ok.load
  have below := ok.range.below
  exact ⟨order, hs, he, by simp only; omega⟩

/-- The number of pages of a segment. -/
def Phdr.count (ph : Phdr) : Nat := (ph.past - ph.first) / PAGE_SIZE

theorem Phdr.count_mul (load : ph.isLoad) : ph.first + ph.count * PAGE_SIZE = ph.past := by
  obtain ⟨hs, he, -, -, order, -⟩ := Phdr.bounds load
  rw [Phdr.count, Nat.div_mul_cancel (Nat.dvd_sub he hs)]
  omega

theorem loadSegment_spec (ok : Loadable img ph) (inv : PoolInv S st)
    (own : Owned img st space.owner space.pml4 tab) (wf : Vmas.Wf space.vmas) (p : Profile) :
    (∃ r vmas st' tab', loadSegment p space st data ph = .ok (r, { space with vmas }, st') ∧
      Filled S img space.owner space.pml4 data ph (pagesIn ph.first ph.past) st tab r st' tab' ∧
      st'.pool.owners.length ≤ st.pool.owners.length + ph.count ∧ Vmas.Wf vmas ∧
      (r = .ok () → InFile data ph ∧ Vmas.addVma space.vmas
        ⟨ph.first, ph.past, pflagsToVma ph.flags, .anonymous⟩ = .ok vmas)) ∨
    loadSegment p space st data ph = .error (.ownersFull RESERVE_CAPACITY) ∧
      RESERVE_CAPACITY < st.pool.owners.length + ph.count := by
  have refused {e} : Filled S img space.owner space.pml4 data ph (pagesIn ph.first ph.past) st tab
      (.error e) st tab := ⟨.refl inv, own, nofun, fun _ _ _ => rfl⟩
  unfold loadSegment
  split
  · exact Or.inl ⟨_, space.vmas, st, tab, rfl, refused, by omega, wf, nofun⟩
  rename_i offset
  split
  · exact Or.inl ⟨_, space.vmas, st, tab, rfl, refused, by omega, wf, nofun⟩
  rename_i inside
  rw [segmentRange_eq ok.load ok.fits, ok_bind]
  simp only
  cases added : Vmas.addVma space.vmas ⟨ph.first, ph.past, pflagsToVma ph.flags, .anonymous⟩ with
  | error e =>
    exact Or.inl ⟨_, space.vmas, st, tab, rfl, refused, by omega, wf, nofun⟩
  | ok vmas =>
    have file : InFile data ph := ⟨by omega, by omega, ok.bytes⟩
    have whole := Phdr.count_mul ok.load
    have loop := loadPages_spec { space with vmas } file ph.first ph.count 0 inv own
      (by simpa only [Nat.zero_mul, Nat.add_zero, Nat.zero_add, whole] using ok.range) p
    simp only [Nat.zero_mul, Nat.add_zero, Nat.zero_add, whole] at loop
    rcases loop with ⟨r, st', tab', run, filled, owners⟩ | ⟨run, full⟩
    · refine Or.inl ⟨r, vmas, st', tab', ?_, filled, owners, ?_, fun _ => ⟨file, rfl⟩⟩
      · dsimp only
        rw [← Phdr.count, run]
        rfl
      · exact (Vmas.addVma_spec wf ok.proper added).1
    · refine Or.inr ⟨?_, full⟩
      dsimp only
      rw [← Phdr.count, run]
      rfl

/-- The pages of the segments of some headers. -/
def pageCount (data : List UInt8) (headers : List Nat) : Nat :=
  (headers.map fun j => if (header data j).isLoad then (header data j).count else 0).sum

/-- The segments of a range of headers. -/
def segments (data : List UInt8) (i n : Nat) : Set Nat :=
  {j | i ≤ j ∧ j < i + n ∧ (header data j).isLoad}

theorem segments_succ {i n j : Nat} : j ∈ segments data i (n + 1) ↔
    j = i ∧ (header data i).isLoad ∨ j ∈ segments data (i + 1) n := by
  simp only [segments, Set.mem_ofPred_eq]
  constructor
  · rintro ⟨low, high, load⟩
    by_cases here : j = i
    · exact Or.inl ⟨here, here ▸ load⟩
    · exact Or.inr ⟨by omega, by omega, load⟩
  · rintro (⟨rfl, load⟩ | ⟨low, high, load⟩)
    · exact ⟨by omega, by omega, load⟩
    · exact ⟨by omega, by omega, load⟩

/-- A segment that is present stays so while others are loaded that are apart from it. -/
theorem Present.kept {vmas vmas' : List VMA} {m m' : Memory} (h : Present data ph vmas m tab)
    (pages : ∀ q ∈ pagesIn ph.first ph.past, pageAt m' tab' q = pageAt m tab q)
    (has : ∀ a f k, Vmas.Has vmas a f k → Vmas.Has vmas' a f k) : Present data ph vmas' m' tab' :=
  ⟨h.file, fun q hq => (pages q hq).symm ▸ h.pages q hq, fun a ha => has _ _ _ (h.areas a ha)⟩

theorem Complete.cons {i n : Nat} {vmas vmas₁ vmas₂ : List VMA} {m m' : Memory}
    (ok : Loadable img (header data i)) (wf : Vmas.Wf vmas) (file : InFile data (header data i))
    (added : Vmas.addVma vmas ⟨(header data i).first, (header data i).past,
      pflagsToVma (header data i).flags, .anonymous⟩ = .ok vmas₁)
    (filled : ∀ q ∈ pagesIn (header data i).first (header data i).past,
      ∃ f, pageAt m tab q = some (segmentPage data (header data i) f q))
    (kept : ∀ q, UserPage img q → (∀ j ∈ segments data (i + 1) n,
      q ∉ pagesIn (header data j).first (header data j).past) → pageAt m' tab' q = pageAt m tab q)
    (rest : Complete data (segments data (i + 1) n) vmas₁ vmas₂ m' tab') :
    Complete data (segments data i (n + 1)) vmas vmas₂ m' tab' := by
  obtain ⟨-, apart, has⟩ := Vmas.addVma_spec wf ok.proper added
  have own {a} (ha : a ∈ Set.Ico (header data i).first (header data i).past) :
      Vmas.Has vmas₁ a (pflagsToVma (header data i).flags) .anonymous :=
    (has _ _ _).mpr (Or.inr ⟨ha.1, ha.2, rfl, rfl⟩)
  have old {a f k} (h : Vmas.Has vmas a f k) : Vmas.Has vmas₁ a f k := (has a f k).mpr (Or.inl h)
  have first : Present data (header data i) vmas₁ m tab := ⟨file, filled, fun a => own⟩
  refine ⟨fun j hj => ?_, fun j hj a f k h ha => ?_, fun a f k h => rest.has a f k (old h),
    fun j hj j' hj' order => ?_⟩
  · rcases segments_succ.mp hj with ⟨rfl, -⟩ | later
    · refine first.kept (fun q hq => kept q (ok.range.page q hq) fun j hj inside => ?_) rest.has
      exact rest.fresh j hj _ _ _ (own hq) inside
    · exact rest.present j later
  · rcases segments_succ.mp hj with ⟨rfl, -⟩ | later
    · obtain ⟨v, hv, low, high, -⟩ := h
      have := apart v hv
      simp only [Set.mem_Ico] at ha this
      omega
    · exact rest.fresh j later a f k (old h) ha
  · rcases segments_succ.mp hj' with ⟨rfl, -⟩ | later'
    · have := (segments_succ.mp hj).resolve_left fun both => by omega
      exact absurd this.1 (by omega)
    rcases segments_succ.mp hj with ⟨rfl, -⟩ | later
    · exact Set.disjoint_left.mpr fun a ha => rest.fresh j' later' a _ _ (own ha)
    · exact rest.apart j later j' later' order

/-- The loop over the headers ends, with or without an error, unless the page-owner table is full. -/
theorem loadHeaders_spec (n i : Nat) (space : AddressSpace)
    (ok : ∀ j ∈ segments data i n, Loadable img (header data j))
    (inv : PoolInv S st) (own : Owned img st space.owner space.pml4 tab) (wf : Vmas.Wf space.vmas)
    (p : Profile) :
    (∃ r vmas st' tab', loadHeaders p data n i space st = .ok (r, { space with vmas }, st') ∧
      Loaded S img data (segments data i n) space st tab r vmas st' tab') ∨
    loadHeaders p data n i space st = .error (.ownersFull RESERVE_CAPACITY) ∧
      RESERVE_CAPACITY < st.pool.owners.length + pageCount data (List.range' i n) := by
  induction n generalizing i space st tab with
  | zero =>
    have none : segments data i 0 = ∅ := by
      ext j
      simp only [segments, Set.mem_ofPred_eq, Set.mem_empty_iff_false, iff_false]
      omega
    refine Or.inl ⟨.ok (), space.vmas, st, tab, rfl, .refl inv, own, wf, fun _ _ _ => rfl, fun _ => ?_⟩
    simp only [none]
    exact ⟨by simp, by simp, fun _ _ _ h => h, by simp⟩
  | succ n ih =>
    have rest : ∀ j ∈ segments data (i + 1) n, Loadable img (header data j) := fun j hj =>
      ok j (segments_succ.mpr (Or.inr hj))
    have pages : pageCount data (List.range' i (n + 1)) =
        (if (header data i).isLoad then (header data i).count else 0) +
          pageCount data (List.range' (i + 1) n) := by
      simp [pageCount, List.range'_succ]
    rw [loadHeaders]
    by_cases load : (header data i).isLoad
    · rw [if_neg (by simp [load])]
      rw [if_pos load] at pages
      have here := ok i (segments_succ.mpr (Or.inl ⟨rfl, load⟩))
      have inside {q} (other : ∀ j ∈ segments data i (n + 1),
          q ∉ pagesIn (header data j).first (header data j).past) :
          q ∉ pagesIn (header data i).first (header data i).past ∧ ∀ j ∈ segments data (i + 1) n,
            q ∉ pagesIn (header data j).first (header data j).past :=
        ⟨other i (segments_succ.mpr (Or.inl ⟨rfl, load⟩)),
          fun j hj => other j (segments_succ.mpr (Or.inr hj))⟩
      rcases loadSegment_spec here inv own wf p with ⟨r, vmas, st₁, tab₁, run, first, owners, wf₁, done⟩ |
        ⟨run, full⟩
      · rw [run, ok_bind]
        cases r with
        | error e =>
          refine Or.inl ⟨.error e, vmas, st₁, tab₁, rfl, first.step, first.own, wf₁, ?_, fun h => by cases h⟩
          exact fun q hq other => first.kept q hq (inside other).1
        | ok =>
          obtain ⟨file, added⟩ := done rfl
          rcases ih (i + 1) { space with vmas } rest first.step.inv first.own wf₁ with
            ⟨r, vmas', st₂, tab₂, run', more⟩ | ⟨run', full⟩
          · refine Or.inl ⟨r, vmas', st₂, tab₂, run', first.step.trans more.step, more.own, more.wf,
              fun q hq other => ?_, fun whole => ?_⟩
            · rw [more.kept q hq (inside other).2, first.kept q hq (inside other).1]
            · exact .cons here wf file added (first.filled rfl) more.kept (more.complete whole)
          · exact Or.inr ⟨run', by omega⟩
      · exact Or.inr ⟨by rw [run]; rfl, by omega⟩
    · have same : segments data i (n + 1) = segments data (i + 1) n := by
        ext j
        simp [segments_succ, load]
      rw [if_pos (by simp [load]), same]
      rw [if_neg load, Nat.zero_add] at pages
      rw [pages]
      exact ih (i + 1) space rest inv own wf

/-- What `load_elf` leaves: unless the page-owner table is full it ends, with every segment of a valid
file or with an error. -/
theorem load_spec (ok : ∀ j ∈ segments data 0 (ePhnum data), Loadable img (header data j))
    (inv : PoolInv S st) (own : Owned img st space.owner space.pml4 tab) (wf : Vmas.Wf space.vmas)
    (p : Profile) :
    (∃ r vmas st' tab', load p space st data =
        .ok (Except.map (fun _ => eEntry data) r, { space with vmas }, st') ∧
      Loaded S img data (segments data 0 (ePhnum data)) space st tab r vmas st' tab') ∨
    load p space st data = .error (.ownersFull RESERVE_CAPACITY) ∧
      RESERVE_CAPACITY < st.pool.owners.length + pageCount data (List.range (ePhnum data)) := by
  unfold load
  cases validate data with
  | error e =>
    exact Or.inl ⟨.error e, space.vmas, st, tab, rfl, .refl inv, own, wf, fun _ _ _ => rfl, nofun⟩
  | ok =>
    rcases loadHeaders_spec (ePhnum data) 0 space ok inv own wf p with
      ⟨r, vmas, st', tab', run, loaded⟩ | ⟨run, full⟩
    · exact Or.inl ⟨r, vmas, st', tab', by simp only [run]; rfl, loaded⟩
    · exact Or.inr ⟨by simp only [run]; rfl, by rwa [List.range_eq_range']⟩

end Elf
end Ferrum
