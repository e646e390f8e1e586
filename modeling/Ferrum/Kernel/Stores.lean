import Ferrum.AddressSpace.Owned
import Ferrum.Kernel.Image
import Ferrum.Paging.Walk

/-!
# Stores through a page table

`write_to_user_via_pt` cuts the bytes at the page boundaries and asks the page table where each page lies.
So every byte has to arrive where its own address leads. That is so as long as no frame serves two pages
of the range or holds one of the tables that lead there.
-/
namespace Ferrum

variable {st : Machine Pool} {p : Profile} {m m₁ m' : Memory} {root a a' n n' i j f q x k : Nat}
  {data bytes : List UInt8}

/-! ## Page by page -/

/-- How many bytes of the data lie in the first page. -/
def inFirstPage (a : Nat) (data : List UInt8) : Nat := min (PAGE_SIZE - a % PAGE_SIZE) data.length

/-- The store of these bytes to the frame of the page. -/
def storeFirst (st : Machine Pool) (phys a : Nat) (data : List UInt8) : Machine Pool :=
  { st with mem := st.mem.writeBytes (phys + a % PAGE_SIZE) (data.take (inFirstPage a data)) }

theorem storeFirst_outside {phys : Nat} (off : x ∉ pageBytes phys) :
    (storeFirst st phys a data).mem x = st.mem x := by
  have offset : a % PAGE_SIZE < PAGE_SIZE := Nat.mod_lt _ (by decide)
  refine Memory.writeBytes_outside ?_
  simp only [pageBytes, Set.mem_Ico, List.length_take, inFirstPage] at *
  omega

/-- The rule for a run that returns: what holds of doing nothing, of the last page, and of a page and the
rest, holds of the run. -/
theorem writeViaPt_induction {P : Nat → List UInt8 → Machine Pool → Machine Pool → Prop} {done : Bool}
    {st' : Machine Pool} (run : writeViaPt p root n st a data = .ok (done, st'))
    (stay : ∀ a data st, P a data st st)
    (last : ∀ a data st phys, data ≠ [] → pageFrame st root a = .ok (some phys) →
      P a data st (storeFirst st phys a data))
    (more : ∀ a data st phys next st', data ≠ [] → pageFrame st root a = .ok (some phys) →
      inFirstPage a data < data.length → p.add a (inFirstPage a data) = .ok next →
      P next (data.drop (inFirstPage a data)) (storeFirst st phys a data) st' → P a data st st') :
    P a data st st' := by
  induction n generalizing st a data with
  | zero =>
    obtain ⟨-, rfl⟩ := Prod.mk.inj (Except.ok.inj run)
    exact stay a data st
  | succ n ih =>
    rw [writeViaPt] at run
    split at run
    · obtain ⟨-, rfl⟩ := Prod.mk.inj (Except.ok.inj run)
      exact stay a data st
    rename_i some
    obtain ⟨frame, found, run⟩ := bind_eq_ok.mp run
    cases frame with
    | none =>
      obtain ⟨-, rfl⟩ := Prod.mk.inj (Except.ok.inj run)
      exact stay a data st
    | some phys =>
      obtain ⟨_, -, run⟩ := bind_eq_ok.mp run
      dsimp only at run
      split at run
      · rename_i longer
        obtain ⟨next, added, run⟩ := bind_eq_ok.mp run
        exact more a data st phys next st' some found longer added (ih run)
      · obtain ⟨-, rfl⟩ := Prod.mk.inj (Except.ok.inj run)
        exact last a data st phys some found

/-! ## Where the bytes arrive -/

/-- The first `k` bytes of `data` have been written, each where its address leads, and nothing else; the
next address leads nowhere. -/
structure Delivered (root : Nat) (m : Memory) (a : Nat) (data : List UInt8) (k : Nat) (m' : Memory) :
    Prop where
  le : k ≤ data.length
  bytes : ∀ i < k, ∃ x, Machine.translate m root (a + i) = .ok (some x) ∧ m' x = data.getD i 0
  stopped : k < data.length → Machine.translate m root (a + k) = .ok none
  others : ∀ x, (∀ i < k, Machine.translate m root (a + i) ≠ .ok (some x)) → m' x = m x

theorem Delivered.nothing {m : Memory} (data : List UInt8)
    (stopped : data ≠ [] → Machine.translate m root a = .ok none) : Delivered root m a data 0 m :=
  ⟨Nat.zero_le _, by simp, fun some => stopped (List.length_pos_iff.mp some), fun _ _ => rfl⟩

/-- A first piece that arrives whole, and what is delivered of the rest. -/
theorem Delivered.append {m m₁ m' : Memory} {avail : Nat} (fits : avail ≤ data.length)
    (first : Delivered root m a (data.take avail) avail m₁)
    (rest : Delivered root m₁ (a + avail) (data.drop avail) k m')
    (same : ∀ i < data.length - avail,
      Machine.translate m₁ root (a + avail + i) = Machine.translate m root (a + (avail + i)))
    (apart : ∀ i < avail, ∀ j < k, ∀ x, Machine.translate m root (a + i) = .ok (some x) →
      Machine.translate m root (a + (avail + j)) ≠ .ok (some x)) :
    Delivered root m a data (avail + k) m' := by
  have length : (data.drop avail).length = data.length - avail := List.length_drop
  have le := rest.le
  refine ⟨by omega, fun i hi => ?_, fun short => ?_, fun x off => ?_⟩
  · by_cases early : i < avail
    · obtain ⟨x, leads, wrote⟩ := first.bytes i early
      refine ⟨x, leads, ?_⟩
      rw [rest.others x fun j hj => ?_, wrote]
      · simp [List.getD_eq_getElem?_getD, List.getElem?_take_of_lt early]
      · rw [same j (by omega)]
        exact apart i early j hj x leads
    · obtain ⟨x, leads, wrote⟩ := rest.bytes (i - avail) (by omega)
      have whole : avail + (i - avail) = i := by omega
      rw [same _ (by omega), whole] at leads
      refine ⟨x, leads, ?_⟩
      rw [wrote]
      simp [List.getD_eq_getElem?_getD, whole]
  · rw [← same _ (by omega)]
    exact rest.stopped (by omega)
  · rw [rest.others x fun j hj => ?_, first.others x fun i hi => off i (by omega)]
    rw [same _ (by omega)]
    exact off _ (by omega)

/-- The pages that a range of addresses touches. -/
def pagesOf (a n : Nat) : Set Nat := {q | ∃ i < n, (a + i) / PAGE_SIZE = q}

theorem mem_pagesOf (inside : i < n) : (a + i) / PAGE_SIZE ∈ pagesOf a n := ⟨i, inside, rfl⟩

theorem pagesOf_subset (start : a ≤ a') (stop : a' + n' ≤ a + n) : pagesOf a' n' ⊆ pagesOf a n := by
  rintro q ⟨i, inside, rfl⟩
  refine ⟨a' - a + i, by omega, ?_⟩
  rw [show a + (a' - a + i) = a' + i by omega]

/-- What a store to a range asks of the page table. The kernel reaches the tables on the way and the
frames through the higher-half window; no frame serves two pages of the range, and none holds a table on
the way to one of them. -/
structure Storable (m : Memory) (root a n : Nat) : Prop where
  tables : ∀ q ∈ pagesOf a n, ∀ t ∈ tablesOnWay m root (q * PAGE_SIZE), t < DIRECT_MAP_END
  frames : ∀ q ∈ pagesOf a n, ∀ f, Machine.translate m root (q * PAGE_SIZE) = .ok (some f) →
    f < DIRECT_MAP_END
  distinct : ∀ q ∈ pagesOf a n, ∀ r ∈ pagesOf a n, ∀ f,
    Machine.translate m root (q * PAGE_SIZE) = .ok (some f) →
    Machine.translate m root (r * PAGE_SIZE) = .ok (some f) → q = r
  apart : ∀ q ∈ pagesOf a n, ∀ f, Machine.translate m root (q * PAGE_SIZE) = .ok (some f) →
    ∀ r ∈ pagesOf a n, ∀ t ∈ tablesOnWay m root (r * PAGE_SIZE), Disjoint (pageBytes f) (pageBytes t)

namespace Storable

theorem translate_page (h : Storable m root a n) (inside : q ∈ pagesOf a n) :
    Machine.translate m root (q * PAGE_SIZE) = .ok (destination m root (q * PAGE_SIZE)) :=
  translate_eq_destination (h.tables q inside)

/-- An address of the range leads to its offset in the frame of its page. -/
theorem translate_eq (h : Storable m root a n) (inside : i < n) : Machine.translate m root (a + i) =
    .ok ((destination m root ((a + i) / PAGE_SIZE * PAGE_SIZE)).map (· + (a + i) % PAGE_SIZE)) := by
  have tables := h.tables _ (mem_pagesOf inside)
  rw [tablesOnWay_congr (pageOf_page _)] at tables
  rw [translate_eq_destination tables, destination_eq_page]

theorem page_eq (h : Storable m root a n) (hi : i < n) (hj : j < n)
    (leads : Machine.translate m root (a + i) = .ok (some x))
    (leads' : Machine.translate m root (a + j) = .ok (some x)) :
    (a + i) / PAGE_SIZE = (a + j) / PAGE_SIZE := by
  rw [h.translate_eq hi] at leads
  rw [h.translate_eq hj] at leads'
  obtain ⟨f, found, here⟩ := Option.map_eq_some_iff.mp (Except.ok.inj leads)
  obtain ⟨g, found', there⟩ := Option.map_eq_some_iff.mp (Except.ok.inj leads')
  obtain ⟨c, hc⟩ := destination_aligned found
  obtain ⟨d, hd⟩ := destination_aligned found'
  obtain rfl : f = g := by
    simp only [PAGE_SIZE] at *
    omega
  refine h.distinct _ (mem_pagesOf hi) _ (mem_pagesOf hj) f ?_ ?_
  · rw [h.translate_page (mem_pagesOf hi), found]
  · rw [h.translate_page (mem_pagesOf hj), found']

theorem steady (h : Storable m root a n) (inside : q ∈ pagesOf a n)
    (found : destination m root (q * PAGE_SIZE) = some f) (outside : ∀ x ∉ pageBytes f, m₁ x = m x)
    {r : Nat} (inside' : r ∈ pagesOf a n) :
    tablesOnWay m₁ root (r * PAGE_SIZE) = tablesOnWay m root (r * PAGE_SIZE) ∧
      destination m₁ root (r * PAGE_SIZE) = destination m root (r * PAGE_SIZE) := by
  refine walk_congr fun t table x hx => outside x ?_
  have leads : Machine.translate m root (q * PAGE_SIZE) = .ok (some f) := by
    rw [h.translate_page inside, found]
  exact Set.disjoint_right.mp (h.apart q inside f leads r inside' t table) hx

theorem congr (h : Storable m root a n) (within : pagesOf a' n' ⊆ pagesOf a n)
    (same : ∀ r ∈ pagesOf a n, tablesOnWay m₁ root (r * PAGE_SIZE) = tablesOnWay m root (r * PAGE_SIZE) ∧
      destination m₁ root (r * PAGE_SIZE) = destination m root (r * PAGE_SIZE)) :
    Storable m₁ root a' n' := by
  have tables : ∀ q ∈ pagesOf a' n', ∀ t ∈ tablesOnWay m₁ root (q * PAGE_SIZE), t < DIRECT_MAP_END := by
    intro q inside t table
    rw [(same q (within inside)).1] at table
    exact h.tables q (within inside) t table
  have leads {q f : Nat} (inside : q ∈ pagesOf a' n')
      (found : Machine.translate m₁ root (q * PAGE_SIZE) = .ok (some f)) :
      Machine.translate m root (q * PAGE_SIZE) = .ok (some f) := by
    rwa [translate_eq_destination (tables q inside), (same q (within inside)).2,
      ← h.translate_page (within inside)] at found
  refine ⟨tables, fun q inside f found => h.frames q (within inside) f (leads inside found),
    fun q hq r hr f found found' =>
      h.distinct q (within hq) r (within hr) f (leads hq found) (leads hr found'),
    fun q hq f found r hr t table => ?_⟩
  rw [(same r (within hr)).1] at table
  exact h.apart q (within hq) f (leads hq found) r (within hr) t table

theorem piece (h : Storable m root a n)
    (found : destination m root (a / PAGE_SIZE * PAGE_SIZE) = some f) (short : bytes.length ≤ n)
    (fits : a % PAGE_SIZE + bytes.length ≤ PAGE_SIZE)
    (wrote : m₁ = m.writeBytes (f + a % PAGE_SIZE) bytes) :
    (∀ x ∉ pageBytes f, m₁ x = m x) ∧ Delivered root m a bytes bytes.length m₁ := by
  have outside : ∀ x, (∀ i < bytes.length, x ≠ f + a % PAGE_SIZE + i) → m₁ x = m x := by
    intro x off
    rw [wrote]
    refine Memory.writeBytes_outside ?_
    by_contra inside
    exact off (x - (f + a % PAGE_SIZE)) (by omega) (by omega)
  have leads : ∀ i < bytes.length,
      Machine.translate m root (a + i) = .ok (some (f + a % PAGE_SIZE + i)) := by
    intro i hi
    have within : (a + i) / PAGE_SIZE = a / PAGE_SIZE ∧ (a + i) % PAGE_SIZE = a % PAGE_SIZE + i := by
      simp only [PAGE_SIZE] at *
      omega
    rw [h.translate_eq (by omega), within.1, within.2, found, Option.map_some, Nat.add_assoc]
  refine ⟨fun x hx => outside x fun i hi => ?_, Nat.le_refl _, fun i hi => ⟨_, leads i hi, ?_⟩,
    fun less => absurd less (Nat.lt_irrefl _), fun x off => outside x fun i hi => ?_⟩
  · rintro rfl
    simp only [pageBytes, Set.mem_Ico] at hx
    omega
  · rw [wrote, Memory.writeBytes, if_pos (by omega)]
    congr 1
    omega
  · rintro rfl
    exact off i hi (leads i hi)

theorem pageFrame_eq (h : Storable st.mem root a n) (some : 0 < n) (word : a < 2 ^ 64) :
    pageFrame st root a = .ok (destination st.mem root (a / PAGE_SIZE * PAGE_SIZE)) := by
  have inside : a / PAGE_SIZE ∈ pagesOf a n := ⟨0, some, rfl⟩
  rw [pageFrame, alignDown_page word, h.translate_page inside]

/-- `write_to_user_via_pt` writes the bytes before the first page that is not there, and says whether that
was all of them. -/
theorem writeViaPt (h : Storable st.mem root a data.length) (word : a + data.length ≤ 2 ^ 64)
    (enough : data.length ≤ n) (p : Profile) :
    ∃ k m', writeViaPt p root n st a data = .ok (decide (k = data.length), ⟨m', st.pool⟩) ∧
      Delivered root st.mem a data k m' := by
  induction n generalizing st a data with
  | zero =>
    obtain rfl : data = [] := List.eq_nil_of_length_eq_zero (by omega)
    exact ⟨0, st.mem, rfl, .nothing [] (by simp)⟩
  | succ n ih =>
    rw [Ferrum.writeViaPt]
    by_cases empty : data = []
    · subst empty
      exact ⟨0, st.mem, rfl, .nothing [] (by simp)⟩
    have positive : 0 < data.length := List.length_pos_iff.mpr empty
    have page : a / PAGE_SIZE ∈ pagesOf a data.length := ⟨0, positive, rfl⟩
    rw [if_neg empty, h.pageFrame_eq positive (by omega)]
    cases found : destination st.mem root (a / PAGE_SIZE * PAGE_SIZE) with
    | none =>
      have absent : Machine.translate st.mem root a = .ok none := by
        rw [← Nat.add_zero a, h.translate_eq positive, Nat.add_zero, found]
        rfl
      refine ⟨0, st.mem, ?_, .nothing data fun _ => absent⟩
      rw [decide_eq_false (by omega)]
      rfl
    | some f =>
      have offset : a % PAGE_SIZE < PAGE_SIZE := Nat.mod_lt _ (by decide)
      have direct : f < DIRECT_MAP_END := h.frames _ page f (by rw [h.translate_page page, found])
      simp only [ok_bind, physToVirt_ok direct]
      set avail := min (PAGE_SIZE - a % PAGE_SIZE) data.length with cut
      have taken : (data.take avail).length = avail := by
        rw [List.length_take]
        omega
      generalize wrote : st.mem.writeBytes (f + a % PAGE_SIZE) (data.take avail) = m₁
      obtain ⟨outside, first⟩ := h.piece found (by omega)
        (show a % PAGE_SIZE + (data.take avail).length ≤ PAGE_SIZE by omega) wrote.symm
      rw [taken] at first
      split
      · rename_i more
        have length : (data.drop avail).length = data.length - avail := List.length_drop
        have within : pagesOf (a + avail) (data.drop avail).length ⊆ pagesOf a data.length :=
          pagesOf_subset (by omega) (by omega)
        have later : Storable m₁ root (a + avail) (data.drop avail).length :=
          h.congr within fun r inside => h.steady page found outside inside
        obtain ⟨k, m', run, rest⟩ := @ih ⟨m₁, st.pool⟩ (a + avail) (data.drop avail) later (by omega) (by omega)
        have le := rest.le
        refine ⟨avail + k, m', ?_, first.append (by omega) rest (fun i hi => ?_) ?_⟩
        · rw [p.add_ok (by omega), ok_bind, run, length]
          congr 2
          exact decide_eq_decide.mpr (by omega)
        · have inside : avail + i < data.length := by omega
          rw [later.translate_eq (by omega), h.translate_eq inside, Nat.add_assoc,
            (h.steady page found outside (mem_pagesOf inside)).2]
        · intro i hi j hj x leads leads'
          have number := h.page_eq (by omega) (by omega) leads leads'
          simp only [PAGE_SIZE] at *
          omega
      · have all : avail = data.length := by omega
        rw [all, List.take_length] at first
        refine ⟨data.length, m₁, ?_, first⟩
        rw [decide_eq_true rfl]
        rfl

end Storable

/-! ## Pages of a tree -/

section Separate

variable {S img Q : Set Nat} {tab : Tables}

/-- Pages of the lower half whose frames are no tables and serve one page each. -/
structure Separate (m : Memory) (tab : Tables) (Q : Set Nat) : Prop where
  lower : ∀ {q}, q ∈ Q → LowerPage q
  frame : ∀ {q f}, q ∈ Q → frameAt m tab q = some f →
    PAGE_SIZE ∣ f ∧ f < DIRECT_MAP_END ∧ ∀ π, tab π ≠ some f
  inj : ∀ {q r f}, q ∈ Q → r ∈ Q → frameAt m tab q = some f → frameAt m tab r = some f → q = r

theorem Owned.separate (inv : Machine.PoolInv S st) {owner : Owner} (own : Owned img st owner root tab) :
    Separate st.mem tab {q | UserPage img q} := by
  refine ⟨UserPage.lower, fun user seen => ?_, fun hq hr seen seen' => ?_⟩
  · obtain ⟨flags, seen⟩ := frameAt_eq_some.mp seen
    obtain ⟨held, notTable⟩ := own.pages user seen
    exact ⟨(inv.tableFrame held).aligned, (inv.tableFrame held).window, notTable⟩
  · obtain ⟨flags, seen⟩ := frameAt_eq_some.mp seen
    obtain ⟨flags', seen'⟩ := frameAt_eq_some.mp seen'
    exact own.inj hq hr seen seen'

namespace Separate

theorem storable (sep : Separate st.mem tab Q) (tree : Tree st.mem root tab) (low : a + n ≤ 2 ^ 47)
    (inside : ∀ i < n, pageOf (a + i) ∈ Q) : Storable st.mem root a n := by
  have page {q} (hq : q ∈ pagesOf a n) : q ∈ Q ∧ pageOf (q * PAGE_SIZE) = q := by
    obtain ⟨i, hi, rfl⟩ := hq
    have number : pageOf (a + i) = (a + i) / PAGE_SIZE := pageOf_eq (by omega)
    exact ⟨number ▸ inside i hi, (pageOf_page _).trans number⟩
  have found {q f} (hq : q ∈ pagesOf a n)
      (leads : Machine.translate st.mem root (q * PAGE_SIZE) = .ok (some f)) :
      frameAt st.mem tab q = some f := by
    rw [tree.translate_ok ((page hq).2.symm ▸ sep.lower (page hq).1), (page hq).2, Nat.mul_mod_left] at leads
    obtain ⟨⟨g, flags⟩, seen, here⟩ := Option.map_eq_some_iff.mp (Except.ok.inj leads)
    obtain rfl : g = f := here
    exact frameAt_eq_some.mpr ⟨flags, seen⟩
  have tables {q t} (hq : q ∈ pagesOf a n) (mem : t ∈ tablesOnWay st.mem root (q * PAGE_SIZE)) :
      ∃ π, tab π = some t :=
    tree.of_mem_tablesOnWay ((page hq).2.symm ▸ sep.lower (page hq).1) mem
  refine ⟨fun q hq t mem => ?_, fun q hq f leads => (sep.frame (page hq).1 (found hq leads)).2.1,
    fun q hq r hr f leads leads' => sep.inj (page hq).1 (page hr).1 (found hq leads) (found hr leads'),
    fun q hq f leads r hr t mem => ?_⟩
  · obtain ⟨π, table⟩ := tables hq mem
    exact (tree.frame table).window
  · obtain ⟨π, table⟩ := tables hr mem
    obtain ⟨aligned, -, notTable⟩ := sep.frame (page hq).1 (found hq leads)
    refine Set.disjoint_left.mpr fun x => ?_
    exact Space.pageBytes_disjoint aligned (tree.frame table).aligned fun same => notTable π (same ▸ table)

/-- `write_to_user` writes the bytes before the first page that is not there, and says whether that was
all of them. The tables do not change. -/
theorem writeViaPt (sep : Separate st.mem tab Q) (tree : Tree st.mem root tab)
    (low : a + data.length ≤ 2 ^ 47) (inside : ∀ i < data.length, pageOf (a + i) ∈ Q)
    (enough : data.length ≤ n) (p : Profile) :
    ∃ k m', writeViaPt p root n st a data = .ok (decide (k = data.length), ⟨m', st.pool⟩) ∧
      Delivered root st.mem a data k m' ∧ Tree m' root tab ∧
      ∀ q, view m' tab q = view st.mem tab q := by
  obtain ⟨k, m', run, delivered⟩ := (sep.storable tree low inside).writeViaPt (by omega) enough p
  have tables : ∀ π t, tab π = some t → Set.EqOn m' st.mem (pageBytes t) := by
    intro π t table x hx
    refine delivered.others x fun i hi leads => ?_
    have within : i < data.length := lt_of_lt_of_le hi delivered.le
    rw [tree.translate_ok (sep.lower (inside i within))] at leads
    obtain ⟨⟨f, flags⟩, seen, here⟩ := Option.map_eq_some_iff.mp (Except.ok.inj leads)
    obtain ⟨aligned, -, notTable⟩ := sep.frame (inside i within) (frameAt_eq_some.mpr ⟨flags, seen⟩)
    have offset : (a + i) % PAGE_SIZE < PAGE_SIZE := Nat.mod_lt _ Buddy.page_pos
    refine Space.pageBytes_disjoint (tree.frame table).aligned aligned (fun same => notTable π (same ▸ table))
      hx ?_
    simp only [pageBytes, Set.mem_Ico]
    omega
  exact ⟨k, m', run, delivered, tree.congr tables, Tree.view_congr tables⟩

end Separate

end Separate
end Ferrum
