import Ferrum.Kernel.Delivery
import Ferrum.Kernel.InitialStack

/-!
# Stores are byte-exact

What `write_to_user_via_pt` leaves in memory, for any page table: the bytes up to the first page that is
not there, each where its address leads, and nothing else. The kernel copy of it that builds the first
stack panics where this one returns `false`.
-/
namespace Ferrum

variable {st : Machine Pool} {m m' : Memory} {root a n i k q : Nat} {data : List UInt8}

/-- Exactly the bytes with addresses below `stop` have been written. -/
structure WrittenBelow (root : Nat) (m : Memory) (a : Nat) (data : List UInt8) (stop : Nat) (m' : Memory) :
    Prop where
  bytes : ∀ i < data.length, a + i < stop →
    ∃ x, Machine.translate m root (a + i) = .ok (some x) ∧ m' x = data.getD i 0
  others : ∀ x, (∀ i < data.length, a + i < stop → Machine.translate m root (a + i) ≠ .ok (some x)) →
    m' x = m x

theorem Delivered.writtenBelow {stop : Nat} (h : Delivered root m a data k m')
    (before : ∀ i < data.length, a + i < stop ↔ i < k) : WrittenBelow root m a data stop m' := by
  refine ⟨fun i hi early => h.bytes i ((before i hi).mp early), fun x off => h.others x fun i hi => ?_⟩
  have inside := lt_of_lt_of_le hi h.le
  exact off i inside ((before i inside).mpr hi)

namespace Storable

theorem translate_eq_none_iff (h : Storable m root a n) (inside : i < n) :
    Machine.translate m root (a + i) = .ok none ↔
      Machine.translate m root ((a + i) / PAGE_SIZE * PAGE_SIZE) = .ok none := by
  rw [h.translate_eq inside, h.translate_page (mem_pagesOf inside), Except.ok.injEq, Except.ok.injEq,
    Option.map_eq_none_iff]

theorem exists_translate_iff (h : Storable m root a n) (inside : i < n) :
    (∃ x, Machine.translate m root (a + i) = .ok (some x)) ↔
      ∃ f, Machine.translate m root ((a + i) / PAGE_SIZE * PAGE_SIZE) = .ok (some f) := by
  rw [h.translate_eq inside, h.translate_page (mem_pagesOf inside)]
  cases destination m root ((a + i) / PAGE_SIZE * PAGE_SIZE) <;> simp

theorem tables_kept (h : Storable m root a data.length) (delivered : Delivered root m a data k m')
    (inside : q ∈ pagesOf a data.length) :
    tablesOnWay m' root (q * PAGE_SIZE) = tablesOnWay m root (q * PAGE_SIZE) ∧
      destination m' root (q * PAGE_SIZE) = destination m root (q * PAGE_SIZE) := by
  refine walk_congr fun t table x hx => delivered.others x fun i early leads => ?_
  have within := lt_of_lt_of_le early delivered.le
  rw [h.translate_eq within] at leads
  obtain ⟨f, found, here⟩ := Option.map_eq_some_iff.mp (Except.ok.inj leads)
  have leads : Machine.translate m root ((a + i) / PAGE_SIZE * PAGE_SIZE) = .ok (some f) := by
    rw [h.translate_page (mem_pagesOf within), found]
  have offset : (a + i) % PAGE_SIZE < PAGE_SIZE := Nat.mod_lt _ (by decide)
  refine Set.disjoint_right.mp (h.apart _ (mem_pagesOf within) f leads q inside t table) hx ?_
  simp only [pageBytes, Set.mem_Ico]
  omega

theorem kept (h : Storable m root a data.length) (delivered : Delivered root m a data k m')
    (inside : i < data.length) :
    Machine.translate m' root (a + i) = Machine.translate m root (a + i) := by
  have after : Storable m' root a data.length :=
    h.congr (Set.Subset.refl _) fun q page => h.tables_kept delivered page
  rw [after.translate_eq inside, h.translate_eq inside, (h.tables_kept delivered (mem_pagesOf inside)).2]

/-- If not all bytes were written, the store has stopped at the first page that is not there. -/
theorem stops_at_page (h : Storable m root a data.length) (delivered : Delivered root m a data k m')
    (short : k < data.length) :
    ∃ q ∈ pagesOf a data.length, Machine.translate m root (q * PAGE_SIZE) = .ok none ∧
      (∀ r ∈ pagesOf a data.length, r < q → ∃ f, Machine.translate m root (r * PAGE_SIZE) = .ok (some f)) ∧
      WrittenBelow root m a data (q * PAGE_SIZE) m' := by
  have absent := (h.translate_eq_none_iff short).mp (delivered.stopped short)
  -- the bytes that were written lie in other pages, so in earlier ones
  have earlier : ∀ i < data.length, a + i < (a + k) / PAGE_SIZE * PAGE_SIZE ↔ i < k := by
    intro i hi
    refine ⟨fun less => ?_, fun less => ?_⟩
    · simp only [PAGE_SIZE] at less
      omega
    · obtain ⟨x, leads, -⟩ := delivered.bytes i less
      have other : (a + i) / PAGE_SIZE ≠ (a + k) / PAGE_SIZE := by
        intro same
        obtain ⟨f, found⟩ := (h.exists_translate_iff hi).mp ⟨x, leads⟩
        rw [same, absent] at found
        cases found
      simp only [PAGE_SIZE] at other ⊢
      omega
  refine ⟨_, mem_pagesOf short, absent, ?_, delivered.writtenBelow earlier⟩
  rintro r ⟨i, hi, rfl⟩ less
  have early : i < k := by
    simp only [PAGE_SIZE] at less
    omega
  obtain ⟨x, leads, -⟩ := delivered.bytes i early
  exact (h.exists_translate_iff hi).mp ⟨x, leads⟩

theorem all_iff (h : Storable m root a data.length) (delivered : Delivered root m a data k m') :
    k = data.length ↔
      ∀ q ∈ pagesOf a data.length, ∃ f, Machine.translate m root (q * PAGE_SIZE) = .ok (some f) := by
  constructor
  · rintro rfl q ⟨i, hi, rfl⟩
    obtain ⟨x, leads, -⟩ := delivered.bytes i hi
    exact (h.exists_translate_iff hi).mp ⟨x, leads⟩
  · intro mapped
    by_contra short
    obtain ⟨q, inside, absent, -, -⟩ := h.stops_at_page delivered (lt_of_le_of_ne delivered.le short)
    obtain ⟨f, found⟩ := mapped q inside
    rw [absent] at found
    cases found

end Storable

/-! ## Tables with one last level -/

/-- Three tables that lead to one with the given entries. -/
def leafTables (leaf : Nat → Nat) : Memory := fun x =>
  if 0x4000 ≤ x ∧ x < 0x5000 then UInt8.ofNat (leaf ((x - 0x4000) / 8) / 256 ^ ((x - 0x4000) % 8))
  else Exec.upperTables x

section LeafTables

variable {leaf : Nat → Nat}

theorem readEntry_leaf (inside : i < 512) : readEntry (leafTables leaf) 0x4000 i = leaf i % 2 ^ 64 := by
  have same : ∀ x, 0x4000 + 8 * i ≤ x → x < 0x4000 + 8 * i + 8 → leafTables leaf x =
      Memory.write64 (fun _ => 0) (0x4000 + 8 * i) (leaf i) x := by
    intro x low high
    have index : (x - 0x4000) / 8 = i ∧ (x - 0x4000) % 8 = x - (0x4000 + 8 * i) := by omega
    rw [leafTables, if_pos (by omega), index.1, index.2, Memory.write64, Memory.writeLe, if_pos ⟨low, high⟩]
  rw [readEntry, Memory.read64_congr same, Memory.read64_write64]

/-- Each of the upper tables has its first entry only, which leads to the next table. -/
theorem readEntry_upper (leaf : Nat → Nat) (t next : Nat) (inside : i < 512)
    (table : (t, next) ∈ [(0x1000, 0x2000), (0x2000, 0x3000), (0x3000, 0x4000)]) :
    (i ≠ 0 → Entry.isPresent (readEntry (leafTables leaf) t i) = false) ∧
    (i = 0 → Entry.isPresent (readEntry (leafTables leaf) t i) = true ∧
      Entry.physAddr (readEntry (leafTables leaf) t i) = next ∧
      (Entry.flags (readEntry (leafTables leaf) t i)).huge = false) := by
  simp only [List.mem_cons, Prod.mk.injEq, List.not_mem_nil, or_false] at table
  have same : readEntry (leafTables leaf) t i = readEntry Exec.upperTables t i :=
    Memory.read64_congr fun x _ high => by rw [leafTables, if_neg (by omega)]
  rw [same]
  constructor
  · intro later
    have zero : readEntry Exec.upperTables t i = 0 := by
      rw [readEntry, Exec.upperTables, Memory.read64_write64_of_disjoint (by omega),
        Memory.read64_write64_of_disjoint (by omega), Memory.read64_write64_of_disjoint (by omega)]
      exact Memory.readLe_zero fun _ _ _ => rfl
    rw [zero]
    rfl
  · rintro rfl
    rcases table with ⟨rfl, rfl⟩ | ⟨rfl, rfl⟩ | ⟨rfl, rfl⟩ <;> decide +kernel

/-- The first 512 pages are mapped as the entries of the last table say, and no others. -/
theorem walk_leafTables (words : ∀ i, leaf i < 2 ^ 64) (v : Nat) :
    (∀ t ∈ tablesOnWay (leafTables leaf) 0x1000 v, t ∈ [0x1000, 0x2000, 0x3000, 0x4000]) ∧
    destination (leafTables leaf) 0x1000 v =
      if pageOf v < 512 ∧ Entry.isPresent (leaf (pageOf v)) then
        some (Entry.physAddr (leaf (pageOf v)) + v % PAGE_SIZE)
      else none := by
  have bound := Space.pageOf_lt v
  obtain ⟨absent₁, present₁⟩ := readEntry_upper leaf 0x1000 0x2000 (index_lt (pageOf v / 2 ^ 27)) (by decide)
  obtain ⟨absent₂, present₂⟩ := readEntry_upper leaf 0x2000 0x3000 (index_lt (pageOf v / 2 ^ 18)) (by decide)
  obtain ⟨absent₃, present₃⟩ := readEntry_upper leaf 0x3000 0x4000 (index_lt (pageOf v / 2 ^ 9)) (by decide)
  rw [tablesOnWay, destination]
  rw [← pml4Entry] at absent₁ present₁
  by_cases first : pageOf v / 2 ^ 27 % 512 = 0
  swap
  · rw [absent₁ first, if_neg (show ¬ (pageOf v < 512 ∧ _) by omega)]
    simp
  obtain ⟨present₁, addr₁, -⟩ := present₁ first
  rw [← addr₁, ← pdptEntry] at absent₂ present₂
  by_cases second : pageOf v / 2 ^ 18 % 512 = 0
  swap
  · rw [present₁, addr₁, absent₂ second, if_neg (show ¬ (pageOf v < 512 ∧ _) by omega)]
    simp
  obtain ⟨present₂, addr₂, -⟩ := present₂ second
  rw [← addr₂, ← pdEntry] at absent₃ present₃
  by_cases third : pageOf v / 2 ^ 9 % 512 = 0
  swap
  · rw [present₁, addr₁, present₂, addr₂, absent₃ third, if_neg (show ¬ (pageOf v < 512 ∧ _) by omega)]
    simp
  obtain ⟨present₃, addr₃, small⟩ := present₃ third
  have last : ptEntry (leafTables leaf) 0x1000 v = leaf (pageOf v) := by
    rw [ptEntry, addr₃, readEntry_leaf (index_lt _), Nat.mod_eq_of_lt (words _),
      Nat.mod_eq_of_lt (show pageOf v < 512 by omega)]
  rw [present₁, addr₁, present₂, addr₂, present₃, addr₃, small, last]
  have few : pageOf v < 512 := by omega
  cases Entry.isPresent (leaf (pageOf v)) <;> simp [few]

theorem translate_leafTables (words : ∀ i, leaf i < 2 ^ 64) (v : Nat) :
    Machine.translate (leafTables leaf) 0x1000 v =
      .ok (if pageOf v < 512 ∧ Entry.isPresent (leaf (pageOf v)) then
        some (Entry.physAddr (leaf (pageOf v)) + v % PAGE_SIZE)
      else none) := by
  obtain ⟨tables, found⟩ := walk_leafTables words v
  rw [translate_eq_destination fun t mem => ?_, found]
  have reached : ∀ t ∈ [0x1000, 0x2000, 0x3000, 0x4000], t < DIRECT_MAP_END := by decide
  exact reached t (tables t mem)

end LeafTables

/-- Entries for the first two pages. -/
def twoPages (f g : Nat) (i : Nat) : Nat :=
  if i = 0 then Entry.newPage f .userData else if i = 1 then Entry.newPage g .userData else 0

section TwoPages

variable {f g : Nat} (hf : PageAddr f) (hg : PageAddr g)
include hf hg

theorem twoPages_lt (i : Nat) : twoPages f g i < 2 ^ 64 := by
  unfold twoPages
  split
  · exact Entry.newPage_lt hf
  split
  · exact Entry.newPage_lt hg
  · decide

theorem translate_twoPages (q : Nat) (small : q < 2 ^ 36) :
    Machine.translate (leafTables (twoPages f g)) 0x1000 (q * PAGE_SIZE) =
      .ok (if q = 0 then some f else if q = 1 then some g else none) := by
  have page : pageOf (q * PAGE_SIZE) = q := by
    simp only [pageOf, PAGE_SIZE]
    omega
  rw [translate_leafTables (twoPages_lt hf hg), page, Nat.mul_mod_left]
  unfold twoPages
  by_cases zero : q = 0
  · subst zero
    simp [hf, PageFlags.userData]
  by_cases one : q = 1
  · subst one
    simp [hg, PageFlags.userData]
  · simp only [zero, one, if_false]
    rw [if_neg]
    rintro ⟨-, present⟩
    cases present

theorem exists_translate_twoPages (early : q ≤ 1) :
    ∃ h, Machine.translate (leafTables (twoPages f g)) 0x1000 (q * PAGE_SIZE) = .ok (some h) := by
  rw [translate_twoPages hf hg q (by omega)]
  obtain zero | one := Nat.le_one_iff_eq_zero_or_eq_one.mp early
  · exact ⟨f, by rw [if_pos zero]⟩
  · exact ⟨g, by rw [one]; rfl⟩

theorem storable_twoPages (ne : f ≠ g) (behind : 0x5000 ≤ f ∧ 0x5000 ≤ g)
    (direct : f < DIRECT_MAP_END ∧ g < DIRECT_MAP_END) (low : a + n ≤ 2 ^ 47) :
    Storable (leafTables (twoPages f g)) 0x1000 a n := by
  have small {q} (inside : q ∈ pagesOf a n) : q < 2 ^ 36 := by
    obtain ⟨i, hi, rfl⟩ := inside
    simp only [PAGE_SIZE]
    omega
  have frame {q h} (inside : q ∈ pagesOf a n)
      (leads : Machine.translate (leafTables (twoPages f g)) 0x1000 (q * PAGE_SIZE) = .ok (some h)) :
      (q = 0 ∧ h = f) ∨ (q = 1 ∧ h = g) := by
    rw [translate_twoPages hf hg q (small inside)] at leads
    grind
  have low {q t} (mem : t ∈ tablesOnWay (leafTables (twoPages f g)) 0x1000 (q * PAGE_SIZE)) :
      t ≤ 0x4000 := by
    have each : ∀ t ∈ [0x1000, 0x2000, 0x3000, 0x4000], t ≤ 0x4000 := by decide
    exact each t ((walk_leafTables (twoPages_lt hf hg) _).1 t mem)
  refine ⟨fun q _ t mem => ?_, fun q hq h leads => ?_, fun q hq r hr h leads leads' => ?_,
    fun q hq h leads r _ t mem => ?_⟩
  · exact lt_of_le_of_lt (low mem) (by decide)
  · rcases frame hq leads with ⟨-, rfl⟩ | ⟨-, rfl⟩
    · exact direct.1
    · exact direct.2
  · have := frame hq leads
    have := frame hr leads'
    omega
  · have bound := low mem
    have := frame hq leads
    refine Set.disjoint_left.mpr fun x hx hx' => ?_
    simp only [pageBytes, Set.mem_Ico, PAGE_SIZE] at hx hx'
    omega

end TwoPages

theorem clear_leaves {f g : Nat} (whole : 0x4008 + k = 0x5000) :
    (leafTables (twoPages f g)).writeBytes 0x4008 (List.replicate k 0) =
      leafTables fun i => if i = 0 then Entry.newPage f .userData else 0 := by
  funext x
  simp only [Memory.writeBytes, leafTables, twoPages, List.length_replicate]
  rcases Nat.lt_or_ge x 0x4008 with front | back
  · rw [if_neg (by omega)]
    by_cases inside : 0x4000 ≤ x
    · rw [if_pos (by omega), if_pos (by omega), if_pos (by omega), if_pos (by omega)]
    · rw [if_neg (by omega), if_neg (by omega)]
  · by_cases inside : x < 0x5000
    · rw [if_pos (by omega), if_pos (by omega), if_neg (by omega), Nat.zero_div,
        List.getD_eq_getElem?_getD, List.getElem?_replicate, if_pos (by omega)]
      rfl
    · rw [if_neg (by omega), if_neg (by omega), if_neg (by omega)]

/-- The first page is mapped to the last table, and the store goes on into the second page. -/
theorem write_over_table (whole : 0x4008 + k = 0x5000) :
    writeViaPt .dev 0x1000 (n + 2) ⟨leafTables (twoPages 0x4000 0x5000), ⟨.new, [], []⟩⟩ 8
      (List.replicate (k + 1) 0) =
        .ok (false, ⟨leafTables fun i => if i = 0 then Entry.newPage 0x4000 .userData else 0,
          ⟨.new, [], []⟩⟩) := by
  have hf : PageAddr 0x4000 := by decide
  have first : pageFrame ⟨leafTables (twoPages 0x4000 0x5000), ⟨.new, [], []⟩⟩ 0x1000 8 =
      .ok (some 0x4000) := translate_twoPages hf (by decide) 0 (by decide)
  have second : pageFrame ⟨leafTables fun i => if i = 0 then Entry.newPage 0x4000 .userData else 0,
      ⟨.new, [], []⟩⟩ 0x1000 0x1000 = .ok none := by
    refine (translate_leafTables (fun i => ?_) _).trans (by decide +kernel)
    split
    · exact Entry.newPage_lt hf
    · decide
  have avail : min (PAGE_SIZE - 8 % PAGE_SIZE) (List.replicate (k + 1) (0 : UInt8)).length = k := by
    simp only [List.length_replicate, PAGE_SIZE]
    omega
  rw [writeViaPt, if_neg (by simp), first, ok_bind]
  simp only [physToVirt_ok (show 0x4000 < DIRECT_MAP_END by decide), ok_bind, avail]
  rw [if_pos (by simp), Profile.dev.add_ok (by omega), ok_bind, List.take_replicate, List.drop_replicate,
    Nat.min_eq_left (by omega), show 0x4000 + 8 % PAGE_SIZE = 0x4008 by rfl, clear_leaves whole,
    show 8 + k = 0x1000 by omega, writeViaPt, if_neg (by simp), second]
  rfl

/-! ## Any page table -/

/-- `write_to_user_via_pt` returns. It returns `true` exactly if every page of the range is there; then the
byte at each address is the one of the data, and no other byte has changed. Otherwise exactly the bytes
before the first page that is not there have been written. -/
theorem write_to_user_via_pt_exact (p : Profile) (root n : Nat) (st : Machine Pool) (a : Nat)
    (data : List UInt8) (word : a + data.length ≤ 2 ^ 64) (enough : data.length ≤ n)
    (h : Storable st.mem root a data.length) :
    ∃ done m', writeViaPt p root n st a data = .ok (done, ⟨m', st.pool⟩) ∧
      (done = true ↔ ∀ q ∈ pagesOf a data.length,
        ∃ f, Machine.translate st.mem root (q * PAGE_SIZE) = .ok (some f)) ∧
      (done = true → WrittenBelow root st.mem a data (a + data.length) m') ∧
      (done = false → ∃ q ∈ pagesOf a data.length,
        Machine.translate st.mem root (q * PAGE_SIZE) = .ok none ∧
        (∀ r ∈ pagesOf a data.length, r < q →
          ∃ f, Machine.translate st.mem root (r * PAGE_SIZE) = .ok (some f)) ∧
        WrittenBelow root st.mem a data (q * PAGE_SIZE) m') ∧
      ∀ i < data.length, Machine.translate m' root (a + i) = Machine.translate st.mem root (a + i) := by
  obtain ⟨k, m', run, delivered⟩ := h.writeViaPt word enough p
  have le := delivered.le
  refine ⟨_, m', run, ?_, fun done => ?_, fun partly => ?_, fun i => h.kept delivered⟩
  · rw [decide_eq_true_iff]
    exact h.all_iff delivered
  · have all := of_decide_eq_true done
    exact delivered.writtenBelow fun i hi => by omega
  · have short := of_decide_eq_false partly
    exact h.stops_at_page delivered (by omega)


/-- Four bytes across a page boundary, with the second page before the first in memory. -/
theorem write_across_pages : ∃ m',
    writeViaPt .dev 0x1000 4 ⟨leafTables (twoPages 0x6000 0x5000), ⟨.new, [], []⟩⟩ 0xffe [1, 2, 3, 4] =
      .ok (true, ⟨m', ⟨.new, [], []⟩⟩) ∧
    m' 0x6ffe = 1 ∧ m' 0x6fff = 2 ∧ m' 0x5000 = 3 ∧ m' 0x5001 = 4 ∧ m' 0x5002 = 0 := by
  have hf : PageAddr 0x6000 := by decide
  have hg : PageAddr 0x5000 := by decide
  obtain ⟨done, m', run, all, written, -, -⟩ := write_to_user_via_pt_exact .dev 0x1000 4
    ⟨leafTables (twoPages 0x6000 0x5000), ⟨.new, [], []⟩⟩ 0xffe [1, 2, 3, 4] (by decide) (by decide)
    (storable_twoPages hf hg (by decide) (by decide) (by decide) (by decide))
  have leads (i : Nat) (few : i < 4) :
      Machine.translate (leafTables (twoPages 0x6000 0x5000)) 0x1000 (0xffe + i) =
        .ok (some (if i < 2 then 0x6ffe + i else 0x4ffe + i)) := by
    rw [translate_leafTables (twoPages_lt hf hg)]
    interval_cases i <;> decide +kernel
  obtain rfl : done = true := by
    refine all.mpr ?_
    rintro q ⟨i, few, rfl⟩
    simp only [List.length_cons, List.length_nil] at few
    exact exists_translate_twoPages hf hg (by simp only [PAGE_SIZE]; omega)
  have byte (i : Nat) (few : i < 4) :
      m' (if i < 2 then 0x6ffe + i else 0x4ffe + i) = [1, 2, 3, 4].getD i 0 := by
    obtain ⟨x, found, held⟩ := (written rfl).bytes i few (Nat.add_lt_add_left few _)
    rw [leads i few] at found
    cases found
    exact held
  refine ⟨m', run, byte 0 (by decide), byte 1 (by decide), byte 2 (by decide), byte 3 (by decide), ?_⟩
  refine ((written rfl).others 0x5002 fun i few _ found => ?_).trans (by decide +kernel)
  rw [leads i few] at found
  have : i < 4 := few
  grind

/-- Different frames are not enough. If the first page is mapped to the table that maps the second one, a
store to both clears the entry of the second before it is looked up. -/
theorem distinct_frames_not_enough : ∃ st' : Machine Pool,
    (∀ q r f, LowerPage q → LowerPage r →
      Machine.translate (leafTables (twoPages 0x4000 0x5000)) 0x1000 (q * PAGE_SIZE) = .ok (some f) →
      Machine.translate (leafTables (twoPages 0x4000 0x5000)) 0x1000 (r * PAGE_SIZE) = .ok (some f) →
      q = r) ∧
    (∀ q ∈ pagesOf 8 4089, ∃ f,
      Machine.translate (leafTables (twoPages 0x4000 0x5000)) 0x1000 (q * PAGE_SIZE) = .ok (some f)) ∧
    writeToUser .dev ⟨leafTables (twoPages 0x4000 0x5000), ⟨.new, [], []⟩⟩ 0x1000 8
      (List.replicate 4089 0) = .ok (false, st') := by
  have hf : PageAddr 0x4000 := by decide
  have hg : PageAddr 0x5000 := by decide
  refine ⟨⟨leafTables fun i => if i = 0 then Entry.newPage 0x4000 .userData else 0, ⟨.new, [], []⟩⟩,
    fun q r f hq hr leads leads' => ?_, ?_, ?_⟩
  · rw [translate_twoPages hf hg q hq.lt] at leads
    rw [translate_twoPages hf hg r hr.lt] at leads'
    grind
  · rintro q ⟨i, few, rfl⟩
    exact exists_translate_twoPages hf hg (by simp only [PAGE_SIZE]; omega)
  · rw [writeToUser, List.length_replicate]
    exact write_over_table (n := 4087) (k := 4088) rfl

end Ferrum
