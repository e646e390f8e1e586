import Ferrum.AddressSpace.Demand
import Ferrum.Kernel.Isolation
import Ferrum.Kernel.UserPages

/-!
# Results that are stored for the caller

A call puts its result where a pointer of the caller says, in one of three ways. `write_to_user` walks
the page tables of the caller; some calls report its failure and others drop it. `read`, `stat` and
`getdents64` store through the pointer itself, as kernel code, and the fault handler brings in the pages
of the caller that they touch first.

None of the three asks whether the page is one that user code may write.
-/
namespace Ferrum

open Machine (Local PoolInv)

/-- `checked`: `getcwd`, `ioctl`, `uname`, `getrandom`, `clock_gettime`. `unchecked`: `time`,
`clock_getres`, `wait4`, `pipe`, `arch_prctl`. `direct`: `read`, `pread64`, `stat`, `fstat`,
`newfstatat`, and `getdents64` for each of its records. -/
inductive StoreVia where
  | checked
  | unchecked
  | direct
  deriving DecidableEq, Repr

/-- How a call that stores a result ends: it goes on to return its value, it returns `-EFAULT`, or its
process is ended by a fault. -/
inductive StoreEnd where
  | value
  | efault
  | killed
  deriving DecidableEq, Repr

/-- Addresses whose upper bits agree with bit 47. -/
def canonical (addr : Nat) : Bool := addr < 2 ^ 47 || (2 ^ 64 - 2 ^ 47 ≤ addr && addr < 2 ^ 64)

/-- The page fault that kernel code takes at an address that is not there: in the kernel's half it
panics, and below it is handled as a fault of the process. -/
def faultIn (p : Profile) (space : AddressSpace) (st : Machine Pool) (addr : Nat) :
    Except Stop (Except String Unit × Machine Pool) := do
  match ← Machine.translate st.mem space.pml4 addr with
  | some _ => return (.ok (), st)
  | none =>
    if KERNEL_VIRT_BASE ≤ addr then .error (.expect "KERNEL PAGE FAULT")
    else space.handlePageFault p st addr

/-- Kernel code stores bytes through a pointer. The processor asks for a present entry, and with `wp`
(the bit of `CR0`) for a writable one. After a fault the instruction is tried again; on an entry that is
present the handler has nothing to do, and the instruction faults for ever. The list has, for each byte
that is stored, the machine at that moment and the address. -/
def directStore (p : Profile) (wp : Bool) (space : AddressSpace) : List UInt8 → Machine Pool → Nat →
    Except Stop (StoreEnd × Machine Pool × List (Machine Pool × Nat))
  | [], st, _ => .ok (.value, st, [])
  | byte :: rest, st, addr => do
    if !canonical addr then .error (.expect "#GP")
    let (handled, st) ← faultIn p space st addr
    match handled with
    | .error _ => return (.killed, st, [])
    | .ok () => do
      match ← Machine.translate st.mem space.pml4 addr with
      | none => .error .diverges
      | some phys => do
        if wp && !(effectiveAccess st.mem space.pml4 addr).writable then .error .diverges
        let stored := { st with mem := st.mem.writeBytes phys [byte] }
        let (ends, st', puts) ← directStore p wp space rest stored ((addr + 1) % 2 ^ 64)
        return (ends, st', (st, addr) :: puts)

def storeResult (p : Profile) (wp : Bool) (space : AddressSpace) (via : StoreVia) (st : Machine Pool)
    (ptr : Nat) (data : List UInt8) : Except Stop (StoreEnd × Machine Pool) :=
  match via with
  | .checked => do
    let (written, st) ← writeToUser p st space.pml4 ptr data
    return (if written then .value else .efault, st)
  | .unchecked => do
    let (_, st) ← writeToUser p st space.pml4 ptr data
    return (.value, st)
  | .direct => do
    let (ends, st, _) ← directStore p wp space data st ptr
    return (ends, st)

/-! ## Permitted stores -/

variable {S img : Set Nat} {st st' : Machine Pool} {tab : Tables} {p : Profile} {wp : Bool}
  {space : AddressSpace} {a n ptr len : Nat} {data : List UInt8}

/-- User code may write there: the page lies in the lower half and is mapped user and writable. -/
def Permitted (st : Machine Pool) (space : AddressSpace) (a : Nat) : Prop :=
  a < 2 ^ 47 ∧ (∃ phys, Machine.translate st.mem space.pml4 a = .ok (some phys)) ∧
    (effectiveAccess st.mem space.pml4 a).user = true ∧
    (effectiveAccess st.mem space.pml4 a).writable = true

/-- The bytes that change through the pointer are permitted, and otherwise the call fails and changes
nothing. A walk leaves the tables alone, so permission is that before the call. A direct store brings
pages in on its way: each byte has to be permitted when it is stored. -/
def StoresConfined (p : Profile) (wp : Bool) (space : AddressSpace) (via : StoreVia) (st : Machine Pool)
    (ptr len : Nat) : Prop :=
  ∀ data : List UInt8, data.length = len →
    if via = .direct then
      ∃ ends st' puts, directStore p wp space data st ptr = .ok (ends, st', puts) ∧
        (∀ put ∈ puts, Permitted put.1 space put.2) ∧ (ends ≠ .value → ends = .efault ∧ puts = [])
    else
      ∃ ends st', storeResult p wp space via st ptr data = .ok (ends, st') ∧
        (∀ x, st'.mem x ≠ st.mem x → ∃ i < len, Permitted st space (ptr + i) ∧
          Machine.translate st.mem space.pml4 (ptr + i) = .ok (some x)) ∧
        ((∃ i < len, ¬ Permitted st space (ptr + i)) → ends = .efault ∧ st'.mem = st.mem)

/-- What the page table shows does not change. -/
def SameViews (tab : Tables) (st st' : Machine Pool) : Prop :=
  ∀ q, view st'.mem tab q = view st.mem tab q

theorem Owned.permitted_iff (own : Owned img st space.owner space.pml4 tab) :
    Permitted st space a ↔ a < 2 ^ 47 ∧ ∃ f flags, view st.mem tab (pageOf a) = some (f, flags) ∧
      flags.user = true ∧ flags.writable = true := by
  refine and_congr_right fun low => ?_
  rw [own.tree.translate_ok (pageOf_lower low)]
  cases seen : view st.mem tab (pageOf a) with
  | none => simp
  | some e =>
    obtain ⟨f, flags⟩ := e
    rw [own.tree.effectiveAccess_eq seen]
    simp [PageFlags.access]

/-- The bytes of a store that stays in the page of a permitted address: they are where the following
addresses lead, and the tables are as they were. -/
theorem Owned.store_page (inv : PoolInv S st) (own : Owned img st space.owner space.pml4 tab)
    (ok : Permitted st space a) {f : Nat} (seen : frameAt st.mem tab (pageOf a) = some f)
    (fits : a % PAGE_SIZE + data.length ≤ PAGE_SIZE) {mem : Memory}
    (wrote : mem = st.mem.writeBytes (f + a % PAGE_SIZE) data) :
    PoolInv S ⟨mem, st.pool⟩ ∧ Owned img ⟨mem, st.pool⟩ space.owner space.pml4 tab ∧
    SameViews tab st ⟨mem, st.pool⟩ ∧ f < DIRECT_MAP_END ∧
    ∀ x, mem x ≠ st.mem x → ∃ i < data.length,
      Machine.translate st.mem space.pml4 (a + i) = .ok (some x) := by
  obtain ⟨low, ⟨phys, found⟩, user, -⟩ := ok
  obtain ⟨page, g, flags, there, rfl, held, notTable⟩ := own.access low user found
  obtain rfl : g = f := by simpa [frameAt, there] using seen
  have outside : ∀ x, x ∉ pageBytes g → mem x = st.mem x := by
    intro x hx
    rw [wrote]
    refine Memory.writeBytes_outside ?_
    simp only [pageBytes, Set.mem_Ico] at hx
    omega
  obtain ⟨step, own', views, -⟩ := own.write inv held notTable outside
  refine ⟨step.inv, own', views, (inv.tableFrame held).window, fun x differs => ?_⟩
  by_cases inside : g + a % PAGE_SIZE ≤ x ∧ x < g + a % PAGE_SIZE + data.length
  · refine ⟨x - (g + a % PAGE_SIZE), by omega, ?_⟩
    have same : pageOf (a + (x - (g + a % PAGE_SIZE))) = pageOf a ∧
        g + (a + (x - (g + a % PAGE_SIZE))) % PAGE_SIZE = x := by
      have top : a + (x - (g + a % PAGE_SIZE)) < 2 ^ 47 := by
        simp only [PAGE_SIZE] at *
        omega
      rw [pageOf_eq top, pageOf_eq low]
      simp only [PAGE_SIZE] at *
      omega
    rw [own.tree.translate_ok (same.1 ▸ page.lower), same.1, there]
    simp [same.2]
  · refine absurd ?_ differs
    rw [wrote]
    exact Memory.writeBytes_outside (by omega)

theorem Owned.walk_permitted (inv : PoolInv S st) (own : Owned img st space.owner space.pml4 tab)
    (enough : data.length ≤ n) (ok : ∀ i < data.length, Permitted st space (a + i)) :
    ∃ st', Ferrum.writeViaPt p space.pml4 n st a data = .ok (true, st') ∧
      ∀ x, st'.mem x ≠ st.mem x → ∃ i < data.length,
        Machine.translate st.mem space.pml4 (a + i) = .ok (some x) := by
  rcases Nat.eq_zero_or_pos data.length with none | some
  · obtain rfl := List.eq_nil_of_length_eq_zero none
    refine ⟨st, ?_, fun x differs => absurd rfl differs⟩
    cases n with
    | zero => rfl
    | succ n => rfl
  have low : a + data.length ≤ 2 ^ 47 := by
    have last := (ok (data.length - 1) (by omega)).1
    omega
  have pages : ∀ i < data.length, pageOf (a + i) ∈ {q | UserPage img q} := by
    intro i hi
    obtain ⟨lower, ⟨phys, found⟩, user, -⟩ := ok i hi
    exact (own.access lower user found).1
  obtain ⟨k, m', run, delivered⟩ :=
    ((own.separate inv).storable own.tree low pages).writeViaPt (by omega) enough p
  have all : k = data.length := by
    by_contra short
    have less : k < data.length := lt_of_le_of_ne delivered.le short
    obtain ⟨-, ⟨phys, found⟩, -⟩ := ok k less
    rw [delivered.stopped less] at found
    cases found
  rw [decide_eq_true all] at run
  refine ⟨_, run, fun x differs => ?_⟩
  by_contra off
  push Not at off
  exact differs (delivered.others x fun i hi => off i (by omega))

/-! ## Pages that a store brings in -/

/-- The pages of the range that are not there yet. -/
def missingPages (m : Memory) (tab : Tables) (ptr len : Nat) : Set Nat :=
  {q | ∃ i < len, pageOf (ptr + i) = q ∧ frameAt m tab q = none}

/-- The tables that are missing on the way to some pages. -/
def wanting (tab : Tables) (Q : Set Nat) : Set (List Nat) :=
  {π | tab π = none ∧ ∃ q ∈ Q, π <+: pagePath q}

/-- User code may write there, or will once the page of a writable area is brought in. -/
def Writable (st : Machine Pool) (space : AddressSpace) (a : Nat) : Prop :=
  Permitted st space a ∨ a < 2 ^ 47 ∧ Machine.translate st.mem space.pml4 a = .ok none ∧
    ∃ vma, Vmas.findVma space.vmas a = some vma ∧ vma.flags.write = true

theorem Owned.writable_iff (own : Owned img st space.owner space.pml4 tab) :
    Writable st space a ↔ a < 2 ^ 47 ∧
      ((∃ f flags, view st.mem tab (pageOf a) = some (f, flags) ∧ flags.user = true ∧
          flags.writable = true) ∨
        view st.mem tab (pageOf a) = none ∧
          ∃ vma, Vmas.findVma space.vmas a = some vma ∧ vma.flags.write = true) := by
  rw [Writable, own.permitted_iff, ← and_or_left]
  refine and_congr_right fun low => or_congr_right (and_congr_left fun _ => ?_)
  rw [own.tree.translate_ok (pageOf_lower low), Except.ok.injEq, Option.map_eq_none_iff]

theorem Owned.writable_page (own : Owned img st space.owner space.pml4 tab) (wf : Vmas.Wf space.vmas)
    (user : UserAreas img space.vmas) (ok : Writable st space a) : UserPage img (pageOf a) := by
  rcases ok with ⟨low, ⟨phys, found⟩, granted, -⟩ | ⟨-, -, vma, area, -⟩
  · exact (own.access low granted found).1
  · exact (user.page_of_area wf area).2.1

/-- The pages of the range can be brought in: there is a frame for each of them and for each missing
table, and a place in the page-owner table for each. -/
structure Openable (st : Machine Pool) (space : AddressSpace) (tab : Tables) (ptr len : Nat) : Prop where
  bytes : ∀ i < len, Writable st space (ptr + i)
  frames : ((wanting tab (missingPages st.mem tab ptr len)).ncard + (missingPages st.mem tab ptr len).ncard) *
    PAGE_SIZE ≤ (freeCells st).ncard
  entries : (missingPages st.mem tab ptr len).Nonempty →
    st.pool.owners.length + (missingPages st.mem tab ptr len).ncard ≤ RESERVE_CAPACITY

theorem finite_missingPages (m : Memory) (tab : Tables) (ptr len : Nat) : (missingPages m tab ptr len).Finite := by
  refine ((Set.finite_lt_nat len).image fun i => pageOf (ptr + i)).subset ?_
  rintro q ⟨i, hi, rfl, -⟩
  exact ⟨i, hi, rfl⟩

theorem finite_wanting (tab : Tables) {Q : Set Nat} (finite : Q.Finite) : (wanting tab Q).Finite := by
  refine (Set.Finite.biUnion finite fun q _ => List.finite_toSet (pagePath q).inits).subset ?_
  rintro π ⟨-, q, hq, pre⟩
  exact Set.mem_biUnion hq ((List.mem_inits _ _).mpr pre)

theorem Owned.openable_of_permitted (own : Owned img st space.owner space.pml4 tab)
    (ok : ∀ i < len, Permitted st space (ptr + i)) : Openable st space tab ptr len := by
  have none : missingPages st.mem tab ptr len = ∅ := by
    refine Set.eq_empty_of_forall_notMem ?_
    rintro q ⟨i, hi, rfl, absent⟩
    obtain ⟨-, f, flags, seen, -⟩ := own.permitted_iff.mp (ok i hi)
    rw [frameAt, seen] at absent
    cases absent
  have tables : wanting tab ∅ = ∅ := by
    refine Set.eq_empty_of_forall_notMem ?_
    rintro π ⟨-, q, ⟨⟩, -⟩
  refine ⟨fun i hi => .inl (ok i hi), ?_, ?_⟩
  · rw [none, tables, Set.ncard_empty, Set.ncard_empty]
    exact Nat.zero_le _
  · rw [none]
    exact fun some => absurd some Set.not_nonempty_empty

theorem Owned.openable_cons (own : Owned img st space.owner space.pml4 tab)
    (own' : Owned img st' space.owner space.pml4 tab) (same : SameViews tab st st')
    (cells : freeCells st' = freeCells st) (owners : st'.pool.owners = st.pool.owners)
    (ok : Permitted st space a) : Openable st space tab a (n + 1) ↔ Openable st' space tab (a + 1) n := by
  have frames : ∀ q, frameAt st'.mem tab q = frameAt st.mem tab q := fun q => by
    rw [frameAt, same, frameAt]
  have there : frameAt st.mem tab (pageOf a) ≠ none := by
    obtain ⟨low, ⟨phys, found⟩, -⟩ := ok
    rw [own.tree.translate_ok (pageOf_lower low)] at found
    obtain ⟨x, seen, -⟩ := Option.map_eq_some_iff.mp (Except.ok.inj found)
    rw [frameAt, seen]
    exact Option.some_ne_none _
  have pages : missingPages st'.mem tab (a + 1) n = missingPages st.mem tab a (n + 1) := by
    ext q
    simp only [missingPages, Set.mem_ofPred_eq, frames]
    constructor
    · rintro ⟨i, hi, here, absent⟩
      exact ⟨i + 1, by omega, by rw [← here, Nat.add_assoc, Nat.add_comm 1], absent⟩
    · rintro ⟨i, hi, rfl, absent⟩
      cases i with
      | zero => exact absurd absent there
      | succ i => exact ⟨i, by omega, by rw [Nat.add_assoc, Nat.add_comm 1], absent⟩
  have bytes (b : Nat) : Writable st' space b ↔ Writable st space b := by
    rw [own.writable_iff, own'.writable_iff, same]
  constructor
  · rintro ⟨all, room, entries⟩
    refine ⟨fun i hi => (bytes _).mpr ?_, ?_, ?_⟩
    · rw [Nat.add_assoc, Nat.add_comm 1]
      exact all (i + 1) (by omega)
    · rwa [pages, cells]
    · rwa [pages, owners]
  · rintro ⟨all, room, entries⟩
    rw [pages, cells] at room
    rw [pages, owners] at entries
    refine ⟨fun i hi => ?_, room, entries⟩
    cases i with
    | zero => exact .inl ok
    | succ i =>
      rw [Nat.add_comm i, ← Nat.add_assoc]
      exact (bytes _).mp (all i (by omega))

theorem UserAreas.same_page {vma : VMA} {b : Nat} (wf : Vmas.Wf space.vmas)
    (user : UserAreas img space.vmas) (area : Vmas.findVma space.vmas a = some vma) (low : b < 2 ^ 47)
    (page : pageOf b = pageOf a) : Vmas.findVma space.vmas b = some vma := by
  obtain ⟨member, above, below⟩ := (Vmas.findVma_eq_some wf).mp area
  obtain ⟨-, ⟨i, first⟩, ⟨j, last⟩, top, -⟩ := user vma member
  rw [pageOf_eq low, pageOf_eq (by omega)] at page
  refine (Vmas.findVma_eq_some wf).mpr ⟨member, ?_, ?_⟩
  · simp only [PAGE_SIZE] at *
    omega
  · simp only [PAGE_SIZE] at *
    omega

theorem view_of_pageAt {m m' : Memory} {tab' : Tables} {q : Nat}
    (same : pageAt m' tab' q = pageAt m tab q) : view m' tab' q = view m tab q := by
  cases seen : view m tab q with
  | none => exact pageAt_eq_none.mp (same.trans (pageAt_eq_none.mpr seen))
  | some e =>
    have page : pageAt m tab q = some ⟨e.1, e.2, bytesAt m e.1⟩ := pageAt_eq_some.mpr ⟨seen, rfl⟩
    exact (pageAt_eq_some.mp (same.trans page)).1

section Fault

variable {st₁ : Machine Pool} {tab₁ : Tables} {vma : VMA} {f : Nat}
  (faulted : Faulted S img space a vma f true st tab st₁ tab₁)

include faulted

theorem Faulted.view_eq {q : Nat} (page : UserPage img q) : view st₁.mem tab₁ q =
    if q = pageOf a then some (f, vma.flags.toPageFlags) else view st.mem tab q := by
  have shown := faulted.pages q page
  split
  · rename_i here
    rw [if_pos ⟨rfl, here⟩] at shown
    exact (pageAt_eq_some.mp shown).1
  · rename_i other
    rw [if_neg fun both => other both.2] at shown
    exact view_of_pageAt shown

/-- The fault brings in the page and changes the permissions of no other. -/
theorem Faulted.writable_iff (own : Owned img st space.owner space.pml4 tab) (wf : Vmas.Wf space.vmas)
    (user : UserAreas img space.vmas) (area : Vmas.findVma space.vmas a = some vma)
    (write : vma.flags.write = true) (absent : view st.mem tab (pageOf a) = none) (b : Nat) :
    Writable st₁ space b ↔ Writable st space b := by
  by_cases page : UserPage img (pageOf b)
  · rw [faulted.own.writable_iff, own.writable_iff, faulted.view_eq page]
    refine and_congr_right fun low => ?_
    split
    · rename_i here
      refine iff_of_true (.inl ⟨f, _, rfl, rfl, write⟩) (.inr ⟨here ▸ absent, vma, ?_, write⟩)
      exact user.same_page wf area low here
    · exact Iff.rfl
  · exact iff_of_false (fun ok => page (faulted.own.writable_page wf user ok))
      fun ok => page (own.writable_page wf user ok)

theorem Faulted.missingPages_eq (own : Owned img st space.owner space.pml4 tab) (wf : Vmas.Wf space.vmas)
    (user : UserAreas img space.vmas) (bytes : ∀ i < n, Writable st space (ptr + i)) :
    missingPages st₁.mem tab₁ ptr n = missingPages st.mem tab ptr n \ {pageOf a} := by
  ext q
  simp only [missingPages, Set.mem_ofPred_eq, Set.mem_sdiff, Set.mem_singleton_iff]
  constructor
  · rintro ⟨i, hi, rfl, vacant⟩
    rw [frameAt, faulted.view_eq (own.writable_page wf user (bytes i hi))] at vacant
    split at vacant
    · cases vacant
    · rename_i other
      exact ⟨⟨i, hi, rfl, vacant⟩, other⟩
  · rintro ⟨⟨i, hi, rfl, vacant⟩, other⟩
    refine ⟨i, hi, rfl, ?_⟩
    rwa [frameAt, faulted.view_eq (own.writable_page wf user (bytes i hi)), if_neg other]

/-- The tables that are still missing, and those that the fault has made. -/
theorem Faulted.wanting_ncard {Q : Set Nat} (finite : Q.Finite) (here : pageOf a ∈ Q) :
    (wanting tab Q).ncard =
      (gainedTables tab tab₁).ncard + (wanting tab₁ (Q \ {pageOf a})).ncard := by
  have tables : ∀ π, tab₁ π = none ↔ tab π = none ∧ ¬ π <+: pagePath (pageOf a) := fun π =>
    faulted.tables rfl
  have split : wanting tab Q = gainedTables tab tab₁ ∪ wanting tab₁ (Q \ {pageOf a}) := by
    ext π
    simp only [wanting, gainedTables, Set.mem_ofPred_eq, Set.mem_union, Set.mem_sdiff,
      Set.mem_singleton_iff, ne_eq, tables π, not_and, not_not]
    constructor
    · rintro ⟨vacant, q, hq, pre⟩
      by_cases way : π <+: pagePath (pageOf a)
      · exact .inl ⟨vacant, fun _ => way⟩
      · exact .inr ⟨⟨vacant, way⟩, q, ⟨hq, fun same => way (same ▸ pre)⟩, pre⟩
    · rintro (⟨vacant, way⟩ | ⟨⟨vacant, -⟩, q, ⟨hq, -⟩, pre⟩)
      · exact ⟨vacant, _, here, way vacant⟩
      · exact ⟨vacant, q, hq, pre⟩
  have apart : Disjoint (gainedTables tab tab₁) (wanting tab₁ (Q \ {pageOf a})) :=
    Set.disjoint_left.mpr fun π gained wanted => gained.2 wanted.1
  have all := finite_wanting tab finite
  rw [split] at all
  rw [split, Set.ncard_union_eq apart (all.subset Set.subset_union_left)
    (all.subset Set.subset_union_right)]

omit faulted in
theorem cells_step {g w u c c' : Nat} (cells : c = c' + (g + 1) * PAGE_SIZE) :
    (g + w + (u + 1)) * PAGE_SIZE ≤ c ↔ (w + u) * PAGE_SIZE ≤ c' := by
  rw [cells, show g + w + (u + 1) = w + u + (g + 1) by omega, Nat.add_mul _ (g + 1)]
  exact Nat.add_le_add_iff_right

theorem Faulted.openable_iff (own : Owned img st space.owner space.pml4 tab) (wf : Vmas.Wf space.vmas)
    (user : UserAreas img space.vmas) (area : Vmas.findVma space.vmas a = some vma)
    (write : vma.flags.write = true) (absent : view st.mem tab (pageOf a) = none)
    (entry : st.pool.owners.length < RESERVE_CAPACITY) (pos : 0 < n) :
    Openable st₁ space tab₁ a n ↔ Openable st space tab a n := by
  have same := faulted.writable_iff own wf user area write absent
  by_cases bytes : ∀ i < n, Writable st space (a + i)
  · have pages := faulted.missingPages_eq own wf user bytes
    set Q := missingPages st.mem tab a n with missing_
    have finite : Q.Finite := finite_missingPages _ _ _ _
    have here : pageOf a ∈ Q := ⟨0, pos, rfl, by rw [frameAt, absent]; rfl⟩
    have one : (Q \ {pageOf a}).ncard + 1 = Q.ncard := Set.ncard_sdiff_singleton_add_one here finite
    have tables := faulted.wanting_ncard finite here
    have cells := faulted.cells
    have owners := faulted.owners
    constructor
    · rintro ⟨-, frames, entries⟩
      rw [pages] at frames entries
      refine ⟨bytes, ?_, fun _ => ?_⟩
      · rw [← missing_, tables, ← one]
        exact (cells_step cells).mpr frames
      · rw [← missing_]
        rcases Set.eq_empty_or_nonempty (Q \ {pageOf a}) with none | some
        · rw [none, Set.ncard_empty] at one
          omega
        · have := entries some
          omega
    · rintro ⟨-, frames, entries⟩
      have := entries ⟨_, here⟩
      rw [← missing_] at frames this
      rw [tables, ← one] at frames
      refine ⟨fun i hi => (same _).mpr (bytes i hi), ?_, fun _ => ?_⟩
      · rw [pages]
        exact (cells_step cells).mp frames
      · rw [pages]
        omega
  · refine iff_of_false (fun opens => bytes fun i hi => (same _).mp (opens.bytes i hi)) fun opens => ?_
    exact bytes opens.bytes

end Fault

/-! ## Direct stores -/

/-- The store goes through, and each byte is permitted when it is stored. -/
def Lands (p : Profile) (wp : Bool) (space : AddressSpace) (data : List UInt8) (st : Machine Pool)
    (a : Nat) : Prop :=
  ∃ st' puts, directStore p wp space data st a = .ok (.value, st', puts) ∧
    ∀ put ∈ puts, Permitted put.1 space put.2

section Direct

variable {byte : UInt8} {rest : List UInt8} {phys : Nat} {st₁ : Machine Pool}

theorem lands_there (place : canonical a = true)
    (found : Machine.translate st.mem space.pml4 a = .ok (some phys)) :
    Lands p wp space (byte :: rest) st a ↔ Permitted st space a ∧
      Lands p wp space rest ⟨st.mem.writeBytes phys [byte], st.pool⟩ ((a + 1) % 2 ^ 64) := by
  by_cases refused : wp = true ∧ (effectiveAccess st.mem space.pml4 a).writable = false
  · refine iff_of_false ?_ ?_
    · rintro ⟨st', puts, run, -⟩
      simp [directStore, faultIn, place, found, refused] at run
    · rintro ⟨⟨-, -, -, writable⟩, -⟩
      rw [refused.2] at writable
      cases writable
  · have run : directStore p wp space (byte :: rest) st a =
        directStore p wp space rest ⟨st.mem.writeBytes phys [byte], st.pool⟩ ((a + 1) % 2 ^ 64) >>=
          fun r => .ok (r.1, r.2.1, (st, a) :: r.2.2) := by
      rw [directStore]
      simp [faultIn, place, found, refused]
    simp only [Lands, run, bind_eq_ok]
    constructor
    · rintro ⟨st', puts, ⟨⟨ends, st'', puts'⟩, later, last⟩, all⟩
      obtain ⟨rfl, rfl, rfl⟩ := by simpa using last
      exact ⟨all _ List.mem_cons_self, st'', puts', later, fun put hput =>
        all put (List.mem_cons_of_mem _ hput)⟩
    · rintro ⟨ok, st', puts, later, all⟩
      exact ⟨st', _, ⟨_, later, rfl⟩, List.forall_mem_cons.mpr ⟨ok, all⟩⟩

variable (place : canonical a = true) (low : ¬ KERNEL_VIRT_BASE ≤ a)
  (absent : Machine.translate st.mem space.pml4 a = .ok none)

include place low absent

theorem not_lands_fault (failed : ∀ st₁, space.handlePageFault p st a ≠ .ok (.ok (), st₁)) :
    ¬ Lands p wp space (byte :: rest) st a := by
  rintro ⟨st', puts, run, -⟩
  simp only [directStore, faultIn, place, absent, if_neg low, ok_bind, Bool.not_true, Bool.false_eq_true,
    if_false] at run
  obtain ⟨⟨r, st₁⟩, handled, run⟩ := bind_eq_ok.mp run
  cases r with
  | error e => cases run
  | ok u => exact failed st₁ handled

theorem lands_fault (handled : space.handlePageFault p st a = .ok (.ok (), st₁))
    (found : Machine.translate st₁.mem space.pml4 a = .ok (some phys)) :
    Lands p wp space (byte :: rest) st a ↔ Lands p wp space (byte :: rest) st₁ a := by
  have same : directStore p wp space (byte :: rest) st a = directStore p wp space (byte :: rest) st₁ a := by
    simp only [directStore, faultIn, place, absent, found, if_neg low, ok_bind, handled, Bool.not_true,
      Bool.false_eq_true, if_false, pure_eq_ok]
  rw [Lands, Lands, same]

end Direct

theorem not_lands_high {byte : UInt8} {rest : List UInt8} (high : ¬ a < 2 ^ 47) :
    ¬ Lands p wp space (byte :: rest) st a := by
  intro lands
  cases place : canonical a with
  | false =>
    obtain ⟨st', puts, run, -⟩ := lands
    simp [directStore, place] at run
  | true =>
    have upper : KERNEL_VIRT_BASE ≤ a := by
      simp only [canonical, Bool.or_eq_true, Bool.and_eq_true, decide_eq_true_eq, KERNEL_VIRT_BASE] at *
      omega
    cases found : Machine.translate st.mem space.pml4 a with
    | error e =>
      obtain ⟨st', puts, run, -⟩ := lands
      simp [directStore, faultIn, place, found] at run
    | ok r =>
      cases r with
      | none =>
        obtain ⟨st', puts, run, -⟩ := lands
        simp [directStore, faultIn, place, found, upper] at run
      | some phys => exact high ((lands_there place found).mp lands).1.1

theorem Openable.first (opens : Openable st space tab a n) (pos : 0 < n)
    (absent : view st.mem tab (pageOf a) = none) :
    st.pool.owners.length < RESERVE_CAPACITY ∧
      ((missingTables tab (pageOf a)).ncard + 1) * PAGE_SIZE ≤ (freeCells st).ncard := by
  have finite := finite_missingPages st.mem tab a n
  have here : pageOf a ∈ missingPages st.mem tab a n := ⟨0, pos, rfl, by rw [frameAt, absent]; rfl⟩
  have some : 0 < (missingPages st.mem tab a n).ncard := (Set.ncard_pos finite).mpr ⟨_, here⟩
  have entries := opens.entries ⟨_, here⟩
  have tables : (missingTables tab (pageOf a)).ncard ≤ (wanting tab (missingPages st.mem tab a n)).ncard :=
    Set.ncard_le_ncard (fun π missing => ⟨missing.2, _, here, missing.1⟩) (finite_wanting tab finite)
  exact ⟨by omega, (Nat.mul_le_mul_right _ (by omega)).trans opens.frames⟩

theorem canonical_of_low (low : a < 2 ^ 47) : canonical a = true := by
  rw [canonical, Bool.or_eq_true]
  exact .inl (decide_eq_true low)

section Cons

variable {byte : UInt8} {rest : List UInt8} (low : a < 2 ^ 47)
  (next : ∀ {st tab}, PoolInv S st → Owned img st space.owner space.pml4 tab →
    (Lands p wp space rest st (a + 1) ↔ Openable st space tab (a + 1) rest.length))

include low next

/-- The first byte, if its page is there: it has to be permitted, and the rest decides. -/
theorem Owned.lands_cons_there (inv : PoolInv S st) (own : Owned img st space.owner space.pml4 tab)
    {e : Nat × PageFlags} (seen : view st.mem tab (pageOf a) = some e) :
    Lands p wp space (byte :: rest) st a ↔ Openable st space tab a (rest.length + 1) := by
  have place : canonical a = true := canonical_of_low low
  have found : Machine.translate st.mem space.pml4 a = .ok (some (e.1 + a % PAGE_SIZE)) := by
    rw [own.tree.translate_ok (pageOf_lower low), seen]
    rfl
  rw [lands_there place found]
  by_cases ok : Permitted st space a
  · have inside : a % PAGE_SIZE < PAGE_SIZE := Nat.mod_lt _ Buddy.page_pos
    have fits : a % PAGE_SIZE + [byte].length ≤ PAGE_SIZE := by
      simp only [List.length_singleton]
      omega
    obtain ⟨inv₁, own₁, same, -, -⟩ :=
      own.store_page inv ok (frameAt_eq_some.mpr ⟨e.2, seen⟩) fits rfl
    have cells := inv.freeCells_congr inv₁ fun _ _ => Iff.rfl
    have after : (a + 1) % 2 ^ 64 = a + 1 := Nat.mod_eq_of_lt (by omega)
    rw [and_iff_right ok, after, next inv₁ own₁, own.openable_cons own₁ same cells rfl ok]
  · refine iff_of_false (fun both => ok both.1) fun opens => ?_
    rcases opens.bytes 0 (Nat.succ_pos _) with permitted | ⟨-, none, -⟩
    · exact ok permitted
    · rw [Nat.add_zero, found] at none
      cases none

/-- The first byte, if its page is not there: a fault has to bring it in, writable. -/
theorem Owned.lands_cons_absent (inv : PoolInv S st) (own : Owned img st space.owner space.pml4 tab)
    (wf : Vmas.Wf space.vmas) (user : UserAreas img space.vmas)
    (seen : view st.mem tab (pageOf a) = none) :
    Lands p wp space (byte :: rest) st a ↔ Openable st space tab a (rest.length + 1) := by
  have pos : 0 < rest.length + 1 := Nat.succ_pos _
  have place : canonical a = true := canonical_of_low low
  have below : ¬ KERNEL_VIRT_BASE ≤ a := by
    simp only [KERNEL_VIRT_BASE]
    omega
  have absent : Machine.translate st.mem space.pml4 a = .ok none := by
    rw [own.tree.translate_ok (pageOf_lower low), seen]
    rfl
  have needs (opens : Openable st space tab a (rest.length + 1)) :
      ∃ vma, Vmas.findVma space.vmas a = some vma ∧ vma.flags.write = true := by
    obtain ⟨-, ⟨g, flags, seen', -⟩ | ⟨-, writable⟩⟩ := own.writable_iff.mp (opens.bytes 0 pos)
    · rw [Nat.add_zero, seen] at seen'
      cases seen'
    · exact writable
  have fails (failed : ∀ st₁, space.handlePageFault p st a ≠ .ok (.ok (), st₁))
      (short : ¬ Openable st space tab a (rest.length + 1)) :
      Lands p wp space (byte :: rest) st a ↔ Openable st space tab a (rest.length + 1) :=
    iff_of_false (not_lands_fault place below absent failed) short
  cases area : Vmas.findVma space.vmas a with
  | none =>
    refine fails (fun st₁ handled => ?_) fun opens => ?_
    · rw [own.fault_outside low seen area] at handled
      cases handled
    · obtain ⟨vma, found, -⟩ := needs opens
      rw [area] at found
      cases found
  | some vma =>
    have vacant : frameAt st.mem tab (pageOf a) = none := by rw [frameAt, seen]; rfl
    rcases own.fault_absent inv wf user area vacant p with ⟨empty, run⟩ | ⟨-, full, run⟩ |
      ⟨-, entry, f, done, st₁, tab₁, run, faulted, enough⟩
    · refine fails (by simp [run]) fun opens => ?_
      have := (opens.first pos seen).2
      rw [empty, Set.ncard_empty] at this
      simp only [PAGE_SIZE] at this
      omega
    · exact fails (by simp [run]) fun opens => absurd (opens.first pos seen).1 (Nat.not_lt.mpr full)
    cases done with
    | false =>
      refine fails (by simp [run]) fun opens => Bool.false_ne_true (enough.mpr ?_)
      rw [own.tree.tablesMissing_eq (pageOf_lower low)]
      exact (opens.first pos seen).2
    | true =>
      have shown : view st₁.mem tab₁ (pageOf a) = some (f, vma.flags.toPageFlags) := by
        rw [faulted.view_eq (user.page_of_area wf area).2.1, if_pos rfl]
      have found : Machine.translate st₁.mem space.pml4 a = .ok (some (f + a % PAGE_SIZE)) := by
        rw [faulted.own.tree.translate_ok (pageOf_lower low), shown]
        rfl
      rw [lands_fault place below absent run found,
        faulted.own.lands_cons_there low next faulted.step.inv shown]
      by_cases write : vma.flags.write = true
      · exact faulted.openable_iff own wf user area write seen entry pos
      · refine iff_of_false (fun opens => ?_) fun opens => ?_
        · obtain ⟨-, ⟨g, flags, seen', -, granted⟩ | ⟨none, -⟩⟩ :=
            faulted.own.writable_iff.mp (opens.bytes 0 pos)
          · rw [Nat.add_zero, shown] at seen'
            obtain ⟨-, rfl⟩ := Prod.mk.inj (Option.some.inj seen')
            exact write granted
          · rw [Nat.add_zero, shown] at none
            cases none
        · obtain ⟨vma', area', granted⟩ := needs opens
          exact write (Option.some.inj (area'.symm.trans area) ▸ granted)

end Cons

/-- A direct store lands exactly if the pages of its range are there or can be brought in. -/
theorem Owned.lands_iff (inv : PoolInv S st) (own : Owned img st space.owner space.pml4 tab)
    (wf : Vmas.Wf space.vmas) (user : UserAreas img space.vmas) :
    Lands p wp space data st a ↔ Openable st space tab a data.length := by
  induction data generalizing st a tab with
  | nil =>
    refine iff_of_true ⟨st, [], rfl, by simp⟩ (own.openable_of_permitted fun i hi => ?_)
    exact absurd hi (Nat.not_lt_zero i)
  | cons byte rest ih =>
    by_cases low : a < 2 ^ 47
    · cases seen : view st.mem tab (pageOf a) with
      | some e => exact own.lands_cons_there low ih inv seen
      | none => exact own.lands_cons_absent low ih inv wf user seen
    · refine iff_of_false (not_lands_high low) fun opens => ?_
      rcases opens.bytes 0 (Nat.succ_pos _) with permitted | ⟨lower, -⟩
      · exact low permitted.1
      · exact low lower

/-! ## Other stores -/

/-- Writing one byte over and over leaves every cell as it was or with that byte. -/
theorem writeBytes_replicate {m : Memory} {l : List UInt8} {c : UInt8} (all : ∀ b ∈ l, b = c) (x y : Nat) :
    m.writeBytes y l x = m x ∨ m.writeBytes y l x = c := by
  unfold Memory.writeBytes
  split
  · rename_i inside
    have there : x - y < l.length := by omega
    refine .inr ?_
    rw [List.getD_eq_getElem _ _ there]
    exact all _ (List.getElem_mem there)
  · exact .inl rfl

theorem writeViaPt_replicate {root : Nat} {c : UInt8} {done : Bool} (all : ∀ b ∈ data, b = c)
    (run : Ferrum.writeViaPt p root n st a data = .ok (done, st')) (x : Nat) :
    st'.mem x = st.mem x ∨ st'.mem x = c := by
  refine writeViaPt_induction (P := fun _ data st st' => (∀ b ∈ data, b = c) →
    st'.mem x = st.mem x ∨ st'.mem x = c) run ?_ ?_ ?_ all
  · intro a data st all
    exact .inl rfl
  · intro a data st phys some found all
    exact writeBytes_replicate (fun b hb => all b (List.mem_of_mem_take hb)) x _
  · intro a data st phys next st' some found longer added rest all
    rcases rest fun b hb => all b (List.mem_of_mem_drop hb) with same | new
    · rw [same]
      exact writeBytes_replicate (fun b hb => all b (List.mem_of_mem_take hb)) x _
    · exact .inr new

/-- If `write_to_user` finds the first page, whatever it is, it changes memory there. -/
theorem writeToUser_changes {root phys : Nat} (pos : 0 < len)
    (found : pageFrame st root ptr = .ok (some phys)) :
    ∃ data : List UInt8, data.length = len ∧ ∀ done st',
      writeToUser p st root ptr data = .ok (done, st') → st'.mem ≠ st.mem := by
  obtain ⟨c, differs⟩ : ∃ c, c ≠ st.mem (phys + ptr % PAGE_SIZE) := by
    by_cases zero : st.mem (phys + ptr % PAGE_SIZE) = 0
    · exact ⟨1, zero ▸ by decide⟩
    · exact ⟨0, fun same => zero same.symm⟩
  refine ⟨List.replicate len c, List.length_replicate, fun done st' run unchanged => ?_⟩
  have all : ∀ b ∈ List.replicate len c, b = c := fun b hb => List.eq_of_mem_replicate hb
  obtain ⟨k, rfl⟩ : ∃ k, len = k + 1 := ⟨len - 1, by omega⟩
  rw [writeToUser, List.length_replicate, Ferrum.writeViaPt, if_neg (by simp), found, ok_bind] at run
  obtain ⟨_, -, run⟩ := bind_eq_ok.mp run
  have inside : ptr % PAGE_SIZE < PAGE_SIZE := Nat.mod_lt _ Buddy.page_pos
  have first : st.mem.writeBytes (phys + ptr % PAGE_SIZE) ((List.replicate (k + 1) c).take
      (min (PAGE_SIZE - ptr % PAGE_SIZE) (List.replicate (k + 1) c).length)) (phys + ptr % PAGE_SIZE) =
        c := by
    have some : 0 < min (PAGE_SIZE - ptr % PAGE_SIZE) (k + 1) := by omega
    rw [Memory.writeBytes, List.length_replicate, List.take_replicate, List.length_replicate,
      if_pos (by omega), Nat.sub_self, List.getD_eq_getElem _ _ (by simpa using some),
      List.getElem_replicate]
  refine differs ?_
  rw [← unchanged]
  dsimp only at run
  split at run
  · obtain ⟨next, -, run⟩ := bind_eq_ok.mp run
    rcases writeViaPt_replicate (fun b hb => all b (List.mem_of_mem_drop hb)) run
      (phys + ptr % PAGE_SIZE) with same | new
    · rw [same]
      exact first.symm
    · exact new.symm
  · obtain ⟨-, rfl⟩ := Prod.mk.inj (Except.ok.inj run)
    exact first.symm

theorem directStore_ends {ends : StoreEnd} {puts : List (Machine Pool × Nat)}
    (run : directStore p wp space data st a = .ok (ends, st', puts)) : ends ≠ .efault := by
  induction data generalizing st a puts with
  | nil =>
    obtain ⟨rfl, -⟩ := Prod.mk.inj (Except.ok.inj run)
    decide
  | cons byte rest ih =>
    rw [directStore] at run
    split at run
    · cases run
    obtain ⟨⟨handled, st₁⟩, -, run⟩ := bind_eq_ok.mp run
    cases handled with
    | error e =>
      obtain ⟨rfl, -⟩ := Prod.mk.inj (Except.ok.inj run)
      decide
    | ok =>
      obtain ⟨again, -, run⟩ := bind_eq_ok.mp run
      cases again with
      | none => cases run
      | some phys =>
        dsimp only at run
        split at run
        · cases run
        · obtain ⟨⟨ends', st'', puts'⟩, later, run⟩ := bind_eq_ok.mp run
          obtain ⟨rfl, rest⟩ := Prod.mk.inj (Except.ok.inj run)
          obtain ⟨rfl, -⟩ := Prod.mk.inj rest
          exact ih later

/-! ## Exactly the permitted stores -/

/-- A walk is confined if and only if every byte is permitted, or the call reports a failure and the first
page is not there. -/
theorem Owned.walk_confined_iff (inv : PoolInv S st) (own : Owned img st space.owner space.pml4 tab)
    {via : StoreVia} (walks : via ≠ .direct) : StoresConfined p wp space via st ptr len ↔
      (∀ i < len, Permitted st space (ptr + i)) ∨
      (via = .checked ∧ pageFrame st space.pml4 ptr = .ok none) := by
  simp only [StoresConfined, if_neg walks]
  constructor
  · intro confined
    by_cases all : ∀ i < len, Permitted st space (ptr + i)
    · exact .inl all
    refine .inr ?_
    have some : ∃ i < len, ¬ Permitted st space (ptr + i) := by
      push Not at all
      exact all
    have pos : 0 < len := by
      obtain ⟨i, hi, -⟩ := some
      omega
    obtain ⟨ends, st', run, -, fails⟩ := confined (List.replicate len 0) List.length_replicate
    obtain ⟨rfl, -⟩ := fails some
    cases via with
    | unchecked =>
      obtain ⟨_, -, run⟩ := bind_eq_ok.mp run
      cases run
    | direct => exact absurd rfl walks
    | checked =>
      refine ⟨rfl, ?_⟩
      obtain ⟨⟨written, st₁⟩, wrote, -⟩ := bind_eq_ok.mp run
      obtain ⟨k, rfl⟩ : ∃ k, len = k + 1 := ⟨len - 1, by omega⟩
      rw [writeToUser, List.length_replicate, Ferrum.writeViaPt, if_neg (by simp)] at wrote
      obtain ⟨frame, found, -⟩ := bind_eq_ok.mp wrote
      cases frame with
      | none => exact found
      | some phys =>
        obtain ⟨data, length, changes⟩ := writeToUser_changes (p := p) pos found
        obtain ⟨ends, st', run, -, fails⟩ := confined data length
        obtain ⟨⟨written, st₂⟩, wrote, run⟩ := bind_eq_ok.mp run
        obtain ⟨-, rfl⟩ := Prod.mk.inj (Except.ok.inj run)
        exact absurd (fails some).2 (changes written _ wrote)
  · rintro (all | ⟨rfl, absent⟩) data rfl
    · have none : ¬ ∃ i < data.length, ¬ Permitted st space (ptr + i) := by
        rintro ⟨i, hi, refused⟩
        exact refused (all i hi)
      obtain ⟨st', run, changes⟩ := own.walk_permitted (p := p) inv (Nat.le_refl _) all
      refine ⟨.value, st', ?_, fun x differs => ?_, fun refused => absurd refused none⟩
      · cases via with
        | direct => exact absurd rfl walks
        | checked => simp [storeResult, writeToUser, run]
        | unchecked => simp [storeResult, writeToUser, run]
      · obtain ⟨i, hi, found⟩ := changes x differs
        exact ⟨i, hi, all i hi, found⟩
    · cases data with
      | nil => exact ⟨.value, st, rfl, fun x differs => absurd rfl differs, by rintro ⟨i, hi, -⟩; cases hi⟩
      | cons byte rest =>
        refine ⟨.efault, st, ?_, fun x differs => absurd rfl differs, fun _ => ⟨rfl, rfl⟩⟩
        simp [storeResult, writeToUser, Ferrum.writeViaPt, absent]

theorem Owned.direct_confined_iff (inv : PoolInv S st) (own : Owned img st space.owner space.pml4 tab)
    (wf : Vmas.Wf space.vmas) (user : UserAreas img space.vmas) :
    StoresConfined p wp space .direct st ptr len ↔ Openable st space tab ptr len := by
  simp only [StoresConfined, if_true]
  constructor
  · intro confined
    obtain ⟨ends, st', puts, run, permitted, fails⟩ :=
      confined (List.replicate len 0) List.length_replicate
    have value : ends = .value := by
      by_contra other
      exact directStore_ends run (fails other).1
    subst value
    have opens := (own.lands_iff inv wf user).mp ⟨st', puts, run, permitted⟩
    rwa [List.length_replicate] at opens
  · rintro opens data rfl
    obtain ⟨st', puts, run, permitted⟩ : Lands p wp space data st ptr := (own.lands_iff inv wf user).mpr opens
    exact ⟨.value, st', puts, run, permitted, fun other => absurd rfl other⟩

/-- The results that a call stores for its caller are confined if and only if every byte of the range is
one that user code may write; or the call reports a failure and the first page is not there; or it stores
through the pointer, and the pages of the range that are not there belong to writable areas and can be
brought in. -/
theorem stores_confined_iff (inv : PoolInv S st) (own : Owned img st space.owner space.pml4 tab)
    (wf : Vmas.Wf space.vmas) (user : UserAreas img space.vmas) (via : StoreVia) :
    StoresConfined p wp space via st ptr len ↔
      (∀ i < len, Permitted st space (ptr + i)) ∨
      (via = .checked ∧ pageFrame st space.pml4 ptr = .ok none) ∨
      (via = .direct ∧ Openable st space tab ptr len) := by
  by_cases direct : via = .direct
  · subst direct
    rw [own.direct_confined_iff inv wf user]
    constructor
    · exact fun opens => .inr (.inr ⟨rfl, opens⟩)
    · rintro (all | ⟨⟨⟩, -⟩ | ⟨-, opens⟩)
      · exact own.openable_of_permitted all
      · exact opens
  · rw [own.walk_confined_iff inv direct]
    simp only [direct, false_and, or_false]

/-- Four bytes in the page of the resident process, stored in any way. -/
theorem resident_stores_confined : ∃ st, residentStart = .ok st ∧
    ∀ via, StoresConfined .dev true residentSpace via st 0x400010 4 := by
  have evaluates : (do
      let st ← residentStart
      return (List.range 4).all fun i =>
        (Machine.translate st.mem residentSpace.pml4 (0x400010 + i)).toOption.join.isSome &&
        (effectiveAccess st.mem residentSpace.pml4 (0x400010 + i)).user &&
        (effectiveAccess st.mem residentSpace.pml4 (0x400010 + i)).writable) = Except.ok true := by
    decide +kernel
  obtain ⟨st, start, rest⟩ := bind_eq_ok.mp evaluates
  obtain ⟨S, tab, inv, own, -⟩ := residentStart_owned (Set.notMem_empty _) start
  refine ⟨st, start, fun via => (stores_confined_iff inv own residentSpace_wf
    (residentSpace_user (Set.notMem_empty _)) via).mpr (.inl fun i hi => ?_)⟩
  have checks := List.all_eq_true.mp (Except.ok.inj rest) i (List.mem_range.mpr hi)
  rw [Bool.and_eq_true, Bool.and_eq_true] at checks
  obtain ⟨⟨found, user⟩, writable⟩ := checks
  refine ⟨by omega, ?_, user, writable⟩
  obtain ⟨phys, found⟩ := Option.isSome_iff_exists.mp found
  cases walked : Machine.translate st.mem residentSpace.pml4 (0x400010 + i) with
  | error e => simp [walked, Except.toOption] at found
  | ok r => exact ⟨phys, by simpa [walked, Except.toOption] using found⟩

/-- A child of the resident process names the kernel image, which is mapped in its tables for the kernel
alone: whichever way the result is stored, the image is overwritten and the call reports success. -/
theorem store_into_kernel_image : ∃ (st : Machine Pool) (child : Image),
    (effectiveAccess st.mem child.space.pml4 0x200000).user = false ∧ st.mem 0x200000 = 0 ∧
    ∀ via, (∃ st', storeResult .dev true child.space via st 0x200000 [1] = .ok (.value, st') ∧
      st'.mem 0x200000 = 1) ∧ ¬ StoresConfined .dev true child.space via st 0x200000 1 := by
  have evaluates : (do
      let st ← residentStart
      let forked ← forkImage .dev residentImage 0x1000 1 ⟨residentSpace, none, 0, 0, 0⟩ 2 [] st
      let st := forked.2
      forked.1.elim (.error .diverges) fun child => do
        let there ← Machine.translate st.mem child.space.pml4 0x200000
        let r₁ ← storeResult .dev true child.space .checked st 0x200000 [1]
        let r₂ ← storeResult .dev true child.space .unchecked st 0x200000 [1]
        let r₃ ← storeResult .dev true child.space .direct st 0x200000 [1]
        return ((there, (effectiveAccess st.mem child.space.pml4 0x200000).user, st.mem 0x200000),
          (r₁.1, r₁.2.mem 0x200000), (r₂.1, r₂.2.mem 0x200000), r₃.1, r₃.2.mem 0x200000)) =
      Except.ok ((some 0x200000, false, 0), (.value, 1), (.value, 1), .value, 1) := by decide +kernel
  obtain ⟨st₀, -, rest⟩ := bind_eq_ok.mp evaluates
  obtain ⟨⟨child, st⟩, -, rest⟩ := bind_eq_ok.mp rest
  cases child with
  | none => cases rest
  | some child =>
    obtain ⟨there, found, rest⟩ := bind_eq_ok.mp rest
    obtain ⟨⟨e₁, st₁⟩, run₁, rest⟩ := bind_eq_ok.mp rest
    obtain ⟨⟨e₂, st₂⟩, run₂, rest⟩ := bind_eq_ok.mp rest
    obtain ⟨⟨e₃, st₃⟩, run₃, rest⟩ := bind_eq_ok.mp rest
    simp only [pure_eq_ok, Except.ok.injEq, Prod.mk.injEq] at rest
    obtain ⟨⟨rfl, user, before⟩, ⟨rfl, after₁⟩, ⟨rfl, after₂⟩, rfl, after₃⟩ := rest
    have stored : ∀ via, ∃ st', storeResult .dev true child.space via st 0x200000 [1] =
        .ok (.value, st') ∧ st'.mem 0x200000 = 1 := by
      intro via
      cases via with
      | checked => exact ⟨st₁, run₁, after₁⟩
      | unchecked => exact ⟨st₂, run₂, after₂⟩
      | direct => exact ⟨st₃, run₃, after₃⟩
    have refused : ¬ Permitted st child.space 0x200000 := by
      rintro ⟨-, -, granted, -⟩
      rw [user] at granted
      cases granted
    refine ⟨st, child, user, before, fun via => ⟨stored via, fun confined => ?_⟩⟩
    have confined := confined [1] rfl
    split at confined
    · obtain ⟨ends, st', puts, run, permitted, fails⟩ := confined
      obtain rfl : ends = .value := by
        by_contra other
        exact directStore_ends run (fails other).1
      exact refused ((lands_there (by decide) found).mp ⟨st', puts, run, permitted⟩).1
    · obtain ⟨st', run, -⟩ := stored via
      obtain ⟨ends, st'', run', -, fails⟩ := confined
      obtain ⟨rfl, -⟩ := fails ⟨0, by decide, refused⟩
      rw [run] at run'
      cases run'

end Ferrum
