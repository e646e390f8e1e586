import Ferrum.AddressSpace.Faults
import Ferrum.AddressSpace.Teardown

/-!
# What demand paging takes

A fault takes a frame for the page, a place in the page-owner table for that frame, and a frame for each
table that is missing on the way to the page. It can run out of any of them, after having taken the ones
before.
-/
namespace Ferrum

open Machine (Local PoolInv Own)

variable {S img : Set Nat} {st st' : Machine Pool} {owner : Owner} {root q : Nat} {tab tab' : Tables}
  {p : Profile} {addr : Nat} {space : AddressSpace}

/-! ## Missing tables -/

/-- How many tables a descent along a path finds missing. -/
def tablesMissing (m : Memory) : Nat → List Nat → Nat
  | _, [] => 0
  | table, i :: path =>
    let e := readEntry m table i
    if Entry.isPresent e then tablesMissing m (Entry.physAddr e) path else path.length + 1

/-- The tables on the way to a page that a tree lacks. -/
def missingTables (tab : Tables) (q : Nat) : Set (List Nat) := {π | π <+: pagePath q ∧ tab π = none}

theorem finite_missingTables (tab : Tables) (q : Nat) : (missingTables tab q).Finite := by
  refine (List.finite_toSet (pagePath q).inits).subset fun π missing => ?_
  exact (List.mem_inits _ _).mpr missing.1

theorem ncard_prefixes (l : List Nat) : {σ | σ <+: l}.ncard = l.length + 1 := by
  induction l with
  | nil => simp
  | cons i l ih =>
    have split : {σ | σ <+: i :: l} = insert [] ((i :: ·) '' {σ | σ <+: l}) := by
      ext σ
      simp only [List.prefix_cons_iff, Set.mem_ofPred_eq, Set.mem_insert_iff, Set.mem_image]
      grind
    have finite : {σ | σ <+: l}.Finite := by
      refine (List.finite_toSet l.inits).subset fun σ inside => ?_
      exact (List.mem_inits _ _).mpr inside
    rw [split, Set.ncard_insert_of_notMem (by simp) (finite.image _),
      Set.ncard_image_of_injective _ (List.cons_injective (a := i)), ih, List.length_cons]

/-- Along the rest of a path the descent counts what is missing below a table. -/
theorem Tree.tablesMissing_below {m : Memory} (tree : Tree m root tab) {π rest : List Nat} {t : Nat}
    (here : tab π = some t) (deep : π.length + rest.length ≤ 3) (slots : ∀ i ∈ rest, i < 512)
    (top : π = [] → ∀ i ∈ rest.head?, i < 256) :
    tablesMissing m t rest = {σ | σ <+: rest ∧ tab (π ++ σ) = none}.ncard := by
  induction rest generalizing π t with
  | nil =>
    have nothing : {σ | σ <+: [] ∧ tab (π ++ σ) = none} = ∅ := by
      refine Set.eq_empty_of_forall_notMem fun σ missing => ?_
      obtain ⟨rfl, missing⟩ := And.imp_left List.prefix_nil.mp missing
      simp [here] at missing
    rw [nothing, Set.ncard_empty, tablesMissing]
  | cons i rest ih =>
    have slot : Slot π i := ⟨slots i List.mem_cons_self, fun first => top first i rfl⟩
    have next : {σ | σ <+: i :: rest ∧ tab (π ++ σ) = none} =
        (i :: ·) '' {σ | σ <+: rest ∧ tab (π ++ [i] ++ σ) = none} := by
      ext σ
      simp only [List.prefix_cons_iff, Set.mem_ofPred_eq, Set.mem_image, List.append_assoc,
        List.singleton_append]
      grind
    rw [next, Set.ncard_image_of_injective _ List.cons_injective, tablesMissing]
    rw [List.length_cons] at deep
    cases child : tab (π ++ [i]) with
    | some c =>
      obtain ⟨present, -, phys⟩ := tree.link_entry here child
      rw [present, if_pos rfl, phys]
      refine ih child ?_ (fun j hj => slots j (List.mem_cons_of_mem _ hj)) fun first => ?_
      · simp only [List.length_append, List.length_singleton]
        omega
      · simp at first
    | none =>
      have all : {σ | σ <+: rest ∧ tab (π ++ [i] ++ σ) = none} = {σ | σ <+: rest} := by
        ext σ
        refine and_iff_left_of_imp fun _ => ?_
        by_contra there
        obtain ⟨s, there⟩ := Option.ne_none_iff_exists'.mp there
        obtain ⟨c, above⟩ := tree.ancestor there (List.prefix_append _ _)
        rw [child] at above
        cases above
      rw [tree.absent here (by omega) slot child, all, ncard_prefixes]
      rfl

theorem Tree.tablesMissing_eq {m : Memory} (tree : Tree m root tab) (lower : LowerPage q) :
    tablesMissing m root (pagePath q) = (missingTables tab q).ncard := by
  have top : q / 2 ^ 27 % 512 < 256 := lower.top
  refine tree.tablesMissing_below tree.root (Nat.le_refl 3) (fun i hi => ?_) fun _ i hi => ?_
  · simp only [pagePath, List.mem_cons, List.not_mem_nil, or_false] at hi
    omega
  · obtain rfl : q / 2 ^ 27 % 512 = i := by simpa [pagePath] using hi
    exact top

/-! ## Free frames -/

/-- The tables that a tree has gained. -/
def gainedTables (tab tab' : Tables) : Set (List Nat) := {π | tab π = none ∧ tab' π ≠ none}

theorem Grown.freeCells_ncard (grown : Grown S owner root st tab st' tab') (inv : PoolInv S st)
    (rooted : Rooted st owner root tab) :
    (freeCells st).ncard = (freeCells st').ncard + (gainedTables tab tab').ncard * PAGE_SIZE := by
  set frames := (fun π => (tab' π).getD 0) '' gainedTables tab tab' with new
  have mem {t} : t ∈ frames ↔ ∃ π, tab π = none ∧ tab' π = some t := by
    simp only [new, gainedTables, Set.mem_image, Set.mem_ofPred_eq]
    constructor
    · rintro ⟨π, ⟨vacant, there⟩, rfl⟩
      obtain ⟨t, there⟩ := Option.ne_none_iff_exists'.mp there
      exact ⟨π, vacant, by rw [there, Option.getD_some]⟩
    · rintro ⟨π, vacant, there⟩
      exact ⟨π, ⟨vacant, by simp [there]⟩, by rw [there, Option.getD_some]⟩
  have inj : Set.InjOn (fun π => (tab' π).getD 0) (gainedTables tab tab') := by
    rintro π ⟨-, hπ⟩ ρ ⟨-, hρ⟩ same
    obtain ⟨s, hs⟩ := Option.ne_none_iff_exists'.mp hπ
    obtain ⟨t, ht⟩ := Option.ne_none_iff_exists'.mp hρ
    simp only [hs, ht, Option.getD_some] at same
    exact grown.rooted.tree.inj hs (same ▸ ht)
  rw [← inj.ncard_image, ← new]
  refine grown.step.freeCells_taken inv (fun t ht => ?_) fun {b} => ?_
  · obtain ⟨π, vacant, there⟩ := mem.mp ht
    refine (grown.fresh there).resolve_left fun old => ?_
    rw [vacant] at old
    cases old
  · rw [grown.holds]
    constructor
    · rintro (old | ⟨single, π, table⟩)
      · exact Or.inl old
      · cases old : tab π with
        | none => exact Or.inr ⟨single, mem.mpr ⟨π, old, table⟩⟩
        | some t =>
          obtain ⟨a, order⟩ := b
          obtain rfl : order = 0 := single
          obtain rfl : t = a := Option.some.inj ((grown.kept old).symm.trans table)
          exact Or.inl (rooted.tables old)
    · rintro (old | ⟨single, table⟩)
      · exact Or.inl old
      · obtain ⟨π, -, table⟩ := mem.mp table
        exact Or.inr ⟨single, π, table⟩

theorem Reach.gained {done : Bool} (reach : Reach (pagePath q) done tab st' tab') :
    gainedTables tab tab' ⊆ missingTables tab q := by
  rintro π ⟨vacant, new⟩
  obtain ⟨t, new⟩ := Option.ne_none_iff_exists'.mp new
  refine ⟨(reach.only new).resolve_left fun old => ?_, vacant⟩
  rw [vacant] at old
  cases old

theorem Reach.tables_iff {done : Bool} (reach : Reach (pagePath q) done tab st' tab')
    (grown : Grown S owner root st tab st' tab') (there : tab' (pagePath q) ≠ none) {π : List Nat} :
    tab' π = none ↔ tab π = none ∧ ¬ π <+: pagePath q := by
  constructor
  · intro vacant
    refine ⟨Option.eq_none_iff_forall_ne_some.mpr fun t old => ?_, fun pre => ?_⟩
    · rw [grown.kept old] at vacant
      cases vacant
    · obtain ⟨t, last⟩ := Option.ne_none_iff_exists'.mp there
      obtain ⟨s, above⟩ := grown.rooted.tree.ancestor last pre
      rw [above] at vacant
      cases vacant
  · rintro ⟨vacant, off⟩
    refine Option.eq_none_iff_forall_ne_some.mpr fun t new => ?_
    rcases reach.only new with old | pre
    · rw [vacant] at old
      cases old
    · exact off pre

/-- `map` goes through exactly if the free memory has a frame for each table that is missing. -/
theorem Reach.done_iff {done : Bool} (reach : Reach (pagePath q) done tab st' tab')
    (grown : Grown S owner root st tab st' tab') (inv : PoolInv S st)
    (rooted : Rooted st owner root tab) (there : done = true → tab' (pagePath q) ≠ none) :
    done = true ↔ (missingTables tab q).ncard * PAGE_SIZE ≤ (freeCells st).ncard := by
  have count := grown.freeCells_ncard inv rooted
  have finite := finite_missingTables tab q
  cases done with
  | true =>
    refine iff_of_true rfl ?_
    have all : missingTables tab q ⊆ gainedTables tab tab' := fun π absent =>
      ⟨absent.2, fun vacant => ((reach.tables_iff grown (there rfl)).mp vacant).2 absent.1⟩
    rw [count, all.antisymm reach.gained]
    exact Nat.le_add_left _ _
  | false =>
    refine iff_of_false Bool.false_ne_true (Nat.not_le.mpr ?_)
    obtain ⟨stuck, empty⟩ := reach.stuck rfl
    have last : pagePath q ∈ missingTables tab q := by
      refine ⟨List.prefix_rfl, ?_⟩
      by_contra old
      obtain ⟨t, old⟩ := Option.ne_none_iff_exists'.mp old
      rw [grown.kept old] at stuck
      cases stuck
    have fewer : (gainedTables tab tab').ncard < (missingTables tab q).ncard :=
      Set.ncard_lt_ncard ⟨reach.gained, fun all => (all last).2 stuck⟩ finite
    rw [count, empty, Set.ncard_empty, Nat.zero_add]
    exact Nat.mul_lt_mul_of_pos_right fewer (by decide)

theorem alloc_freeCells {f : Nat} (inv : PoolInv S st) (step : Local S owner st st')
    (fresh : f ∉ st.frames) (holds : ∀ {b}, st'.holds owner b ↔ b = ⟨f, 0⟩ ∨ st.holds owner b) :
    (freeCells st).ncard = (freeCells st').ncard + PAGE_SIZE := by
  have one := step.freeCells_taken inv (F := {f}) (fun g hg => ?_) fun {b} => ?_
  · rwa [Set.ncard_singleton, Nat.one_mul] at one
  · obtain rfl := Set.mem_singleton_iff.mp hg
    exact fresh
  · obtain ⟨a, order⟩ := b
    rw [holds, Block.mk.injEq, Set.mem_singleton_iff]
    tauto

theorem tablesMissing_le (m : Memory) (table : Nat) (path : List Nat) :
    tablesMissing m table path ≤ path.length := by
  induction path generalizing table with
  | nil => exact Nat.le_refl 0
  | cons i path ih =>
    rw [tablesMissing, List.length_cons]
    split
    · exact Nat.le_succ_of_le (ih _)
    · exact Nat.le_refl _

/-! ## The ends of a fault -/

/-- What a fault in an area leaves behind once it has a frame `f` for the page: the frame, new tables
and an entry for the frame; and if it is `done`, the page shows zeros. -/
structure Faulted (S img : Set Nat) (space : AddressSpace) (addr : Nat) (vma : VMA) (f : Nat)
    (done : Bool) (st : Machine Pool) (tab : Tables) (st' : Machine Pool) (tab' : Tables) : Prop where
  step : Local S space.owner st st'
  own : Owned img st' space.owner space.pml4 tab'
  fresh : f ∉ st.frames
  holds : ∀ {b}, st'.holds space.owner b ↔
    (b = ⟨f, 0⟩ ∨ st.holds space.owner b) ∨ (b.order = 0 ∧ ∃ π, tab' π = some b.addr)
  kept : ∀ {π t}, tab π = some t → tab' π = some t
  notTable : ∀ π, tab' π ≠ some f
  owners : st'.pool.owners.length = st.pool.owners.length + 1
  free : (freeCells st).ncard ≤ (freeCells st').ncard + 4 * PAGE_SIZE
  tables : done = true → ∀ {π}, tab' π = none ↔ tab π = none ∧ ¬ π <+: pagePath (pageOf addr)
  cells : (freeCells st).ncard = (freeCells st').ncard + ((gainedTables tab tab').ncard + 1) * PAGE_SIZE
  pages : ∀ q, UserPage img q → pageAt st'.mem tab' q =
    if done ∧ q = pageOf addr then some ⟨f, vma.flags.toPageFlags, fun _ => 0⟩ else pageAt st.mem tab q

theorem UserAreas.page_of_area {vma : VMA} (wf : Vmas.Wf space.vmas) (user : UserAreas img space.vmas)
    (area : Vmas.findVma space.vmas addr = some vma) :
    addr < 2 ^ 47 ∧ UserPage img (pageOf addr) ∧ pageOf addr ∈ areaPages space.vmas ∧
      pageOf (alignDown addr PAGE_SIZE) = pageOf addr := by
  obtain ⟨member, low, high⟩ := (Vmas.findVma_eq_some wf).mp area
  have below := (user vma member).2.below
  obtain ⟨page, number, inside⟩ := user.page_of_mem member low high
  have number' : pageOf addr = addr / PAGE_SIZE := pageOf_eq (by omega)
  rw [number, ← number'] at page
  rw [← number'] at inside
  exact ⟨by omega, page, ⟨vma, member, inside⟩, number.trans number'.symm⟩

theorem Owned.fault_there {vma : VMA} {f : Nat} (own : Owned img st space.owner space.pml4 tab)
    (wf : Vmas.Wf space.vmas) (user : UserAreas img space.vmas)
    (area : Vmas.findVma space.vmas addr = some vma)
    (there : frameAt st.mem tab (pageOf addr) = some f) (p : Profile) :
    space.handlePageFault p st addr = .ok (.ok (), st) := by
  obtain ⟨-, page, -, number⟩ := user.page_of_area wf area
  obtain ⟨flags, seen⟩ := frameAt_eq_some.mp there
  have found : Machine.translate st.mem space.pml4 (alignDown addr PAGE_SIZE) =
      .ok (some (f + alignDown addr PAGE_SIZE % PAGE_SIZE)) := by
    rw [own.tree.translate_ok (number ▸ page.lower), number, seen]
    rfl
  rw [AddressSpace.handlePageFault, found]
  rfl

/-- A new frame that has been cleared and entered in the page-owner table. -/
structure Entered (S img : Set Nat) (space : AddressSpace) (tab : Tables) (f : Nat)
    (st st' : Machine Pool) : Prop where
  step : Local S space.owner st st'
  own : Owned img st' space.owner space.pml4 tab
  spare : Spare img st' space.owner tab f
  holds : ∀ {b}, st'.holds space.owner b ↔ st.holds space.owner b
  free : freeCells st' = freeCells st
  pages : ∀ q, UserPage img q → pageAt st'.mem tab q = pageAt st.mem tab q

theorem Owned.enter_frame {f : Nat} (inv : PoolInv S st) (own : Owned img st space.owner space.pml4 tab)
    (spare : Spare img st space.owner tab f) (owners : List (Nat × PageOwner)) :
    Entered S img space tab f st ⟨st.mem.fill f PAGE_SIZE 0, { st.pool with owners }⟩ := by
  have zeroed : ∀ x, x ∉ pageBytes f → st.mem.fill f PAGE_SIZE 0 x = st.mem x := by
    intro x hx
    refine Memory.fill_outside ?_
    simp only [pageBytes, Set.mem_Ico] at hx
    omega
  obtain ⟨wrote, own', views, pages⟩ := own.write inv spare.held spare.notTable zeroed
  have step := wrote.trans (.owners wrote.inv owners)
  refine ⟨step, own'.owners owners, ⟨spare.held, spare.notTable, fun hq => ?_⟩, Iff.rfl,
    inv.freeCells_congr step.inv fun _ _ => Iff.rfl, fun q hq => pages q (fun seen => ?_) hq⟩
  · simpa only [views] using spare.unseen hq
  · obtain ⟨flags, seen⟩ := frameAt_eq_some.mp seen
    exact spare.unseen hq seen

/-- A fault on a page without a frame finds no free memory, or no place in the page-owner table, or
takes a frame and then needs one more for each table that is missing. -/
theorem Owned.fault_absent {vma : VMA} (inv : PoolInv S st)
    (own : Owned img st space.owner space.pml4 tab) (wf : Vmas.Wf space.vmas)
    (user : UserAreas img space.vmas) (area : Vmas.findVma space.vmas addr = some vma)
    (absent : frameAt st.mem tab (pageOf addr) = none) (p : Profile) :
    freeCells st = ∅ ∧ space.handlePageFault p st addr = .ok (.error "Out of memory", st) ∨
    freeCells st ≠ ∅ ∧ RESERVE_CAPACITY ≤ st.pool.owners.length ∧
      space.handlePageFault p st addr = .error (.ownersFull RESERVE_CAPACITY) ∨
    freeCells st ≠ ∅ ∧ st.pool.owners.length < RESERVE_CAPACITY ∧ ∃ f done st' tab',
      space.handlePageFault p st addr =
        .ok (if done then .ok () else .error "Failed to map page", st') ∧
      Faulted S img space addr vma f done st tab st' tab' ∧
      (done = true ↔ (tablesMissing st.mem space.pml4 (pagePath (pageOf addr)) + 1) * PAGE_SIZE ≤
        (freeCells st).ncard) := by
  obtain ⟨-, page, -, number⟩ := user.page_of_area wf area
  have empty : view st.mem tab (pageOf addr) = none := Option.map_eq_none_iff.mp absent
  have found : Machine.translate st.mem space.pml4 (alignDown addr PAGE_SIZE) = .ok none := by
    rw [own.tree.translate_ok (number ▸ page.lower), number, empty]
    rfl
  obtain ⟨r, st₁, alloc, block, step₁, own₁, same₁, owners₁, result⟩ := own.alloc inv p
  simp only [AddressSpace.handlePageFault, found, ok_bind, Option.isSome_none, area, block,
    Bool.false_eq_true, if_false]
  cases r with
  | none =>
    obtain ⟨rfl, none⟩ := inv.allocPage_none alloc
    exact Or.inl ⟨none, rfl⟩
  | some f =>
    obtain ⟨table, fresh, spare, holds₁⟩ := result
    have lost := alloc_freeCells inv step₁ fresh holds₁
    have some : freeCells st ≠ ∅ := by
      intro none
      rw [none, Set.ncard_empty] at lost
      simp only [PAGE_SIZE] at lost
      omega
    refine Or.inr ?_
    by_cases full : RESERVE_CAPACITY ≤ st.pool.owners.length
    · refine Or.inl ⟨some, full, ?_⟩
      simp only [Pool.track, owners₁, if_pos full]
      rfl
    refine Or.inr ⟨some, Nat.not_le.mp full, ?_⟩
    have entered := own₁.enter_frame step₁.inv spare
      (st₁.pool.owners ++ [(f, ⟨vma.kind.ownerTag, space.ownerPid, 0⟩)])
    obtain ⟨r, st', tab', mapped, grown, own', reach, shown⟩ :=
      entered.own.map entered.step.inv p (number ▸ page) entered.spare vma.flags.toPageFlags
    rw [number] at reach shown
    have there : r.isSome = true → tab' (pagePath (pageOf addr)) ≠ none := by
      intro done vacant
      have seen := shown _ page
      rw [if_pos ⟨done, rfl⟩, pageAt, view, vacant] at seen
      cases seen
    have missing := own.tree.tablesMissing_eq page.lower
    have done := reach.done_iff grown entered.step.inv entered.own.toRooted there
    have gained := grown.freeCells_ncard entered.step.inv entered.own.toRooted
    have few : (gainedTables tab tab').ncard ≤ 3 := by
      have bound := tablesMissing_le st.mem space.pml4 (pagePath (pageOf addr))
      rw [missing] at bound
      exact le_trans (Set.ncard_le_ncard reach.gained (finite_missingTables tab (pageOf addr))) bound
    rw [entered.free] at done gained
    refine ⟨f, r.isSome, st', tab', ?_, ⟨(step₁.trans entered.step).trans grown.step, own', fresh,
      fun {b} => ?_, grown.kept, ?_, ?_, ?_, fun done {π} => reach.tables_iff grown (there done), ?_,
      fun q hq => ?_⟩, ?_⟩
    · simp only [Pool.track, if_neg (owners₁ ▸ full), physToVirt_ok table.window, ok_bind,
        AddressSpace.pages, Machine.zeroPage]
      rw [mapped, ok_bind]
      cases r <;> rfl
    · rw [grown.holds, entered.holds, holds₁]
    · exact (grown.spare_data entered.spare.held entered.spare.notTable).1
    · rw [Machine.map_owners mapped, ← owners₁]
      exact List.length_append
    · rw [lost, gained]
      simp only [PAGE_SIZE] at *
      omega
    · rw [lost, gained, Nat.add_mul, Nat.one_mul, Nat.add_assoc]
    · rw [shown q hq]
      split
      · rw [bytesAt_fill]
        rfl
      · rw [entered.pages q hq, same₁ q hq]
    · rw [done, missing, lost, Nat.add_mul, Nat.one_mul]
      omega

/-! ## Sequences of faults -/

/-- Faults of several address spaces, one after the other. -/
def handleFaults (p : Profile) : List (AddressSpace × Nat) → Machine Pool →
    Except Stop (List (Except String Unit) × Machine Pool)
  | [], st => .ok ([], st)
  | (space, addr) :: rest, st => do
    let (r, st) ← space.handlePageFault p st addr
    let (rs, st) ← handleFaults p rest st
    return (r :: rs, st)

theorem handleFaults_cons (p : Profile) (rest : List (AddressSpace × Nat)) {r : Except String Unit}
    (first : space.handlePageFault p st addr = .ok (r, st')) :
    handleFaults p ((space, addr) :: rest) st =
      (handleFaults p rest st').map fun out => (r :: out.1, out.2) := by
  rw [handleFaults, first, ok_bind]
  dsimp only
  cases handleFaults p rest st' <;> rfl

theorem handleFaults_snoc (p : Profile) {l : List (AddressSpace × Nat)}
    {rs : List (Except String Unit)} (before : handleFaults p l st = .ok (rs, st')) :
    handleFaults p (l ++ [(space, addr)]) st =
      (space.handlePageFault p st' addr).map fun out => (rs ++ [out.1], out.2) := by
  induction l generalizing st rs with
  | nil =>
    obtain ⟨rfl, rfl⟩ := Prod.mk.inj (Except.ok.inj before)
    rw [List.nil_append, handleFaults]
    cases space.handlePageFault p st addr <;> rfl
  | cons e l ih =>
    obtain ⟨s, a⟩ := e
    rw [handleFaults] at before
    obtain ⟨⟨r, st₁⟩, first, before⟩ := bind_eq_ok.mp before
    obtain ⟨⟨rs', st₂⟩, rest, before⟩ := bind_eq_ok.mp before
    obtain ⟨rfl, rfl⟩ := Prod.mk.inj (Except.ok.inj before)
    rw [List.cons_append, handleFaults_cons p _ first, ih rest]
    cases space.handlePageFault p st₂ addr <;> rfl

/-! ### Memory that `destroy` finds -/

/-- A block that `destroy` gives back: a table, or the frame of a page in an area. -/
def InReach (space : AddressSpace) (m : Memory) (tab : Tables) (b : Block) : Prop :=
  b.order = 0 ∧ ((∃ q ∈ areaPages space.vmas, frameAt m tab q = some b.addr) ∨
    ∃ π, tab π = some b.addr)

/-- `destroy` gives back everything that the address space has taken since `base`. -/
def Reclaims (p : Profile) (base st : Machine Pool) (space : AddressSpace) : Prop :=
  ∃ st', space.destroy p st = .ok st' ∧ ∀ b, st'.holds space.owner b → base.holds space.owner b

variable {base : Machine Pool} {vma : VMA}

theorem reclaims_iff (inv : PoolInv S st) (own : Owned img st space.owner space.pml4 tab)
    (user : UserAreas img space.vmas) (p : Profile) :
    Reclaims p base st space ↔ ∀ b, st.holds space.owner b →
      base.holds space.owner b ∨ InReach space st.mem tab b := by
  obtain ⟨st', run, -, holds⟩ := AddressSpace.destroy_spec inv own user p
  constructor
  · rintro ⟨st'', run', left⟩ b held
    obtain rfl := Except.ok.inj (run.symm.trans run')
    by_cases reachable : InReach space st.mem tab b
    · exact Or.inr reachable
    · exact Or.inl (left b (holds.mpr ⟨held, reachable⟩))
  · intro all
    refine ⟨st', run, fun b held => ?_⟩
    obtain ⟨held, unreachable⟩ := holds.mp held
    exact (all b held).resolve_right unreachable

/-- Nothing that the address space has taken since `base` is out of its reach. -/
def Unleaked (img : Set Nat) (base st : Machine Pool) (space : AddressSpace) : Prop :=
  ∃ tab, Owned img st space.owner space.pml4 tab ∧
    (∀ b, base.holds space.owner b → st.holds space.owner b) ∧
    ∀ b, st.holds space.owner b → base.holds space.owner b ∨ InReach space st.mem tab b

theorem areaPages_user (user : UserAreas img space.vmas) (inside : q ∈ areaPages space.vmas) :
    UserPage img q := by
  obtain ⟨v, member, inside⟩ := inside
  exact (user v member).2.page q inside

theorem frameAt_congr {m m' : Memory} (same : pageAt m' tab' q = pageAt m tab q) :
    frameAt m' tab' q = frameAt m tab q := by
  have frames := congrArg (Option.map Page.frame) same
  simpa [pageAt, frameAt, Option.map_map, Function.comp_def] using frames

theorem Unleaked.other (unleaked : Unleaked img base st space) (user : UserAreas img space.vmas)
    (step : Local S owner st st') (ne : space.owner ≠ owner) : Unleaked img base st' space := by
  obtain ⟨tab, own, kept, reach⟩ := unleaked
  obtain ⟨own', same⟩ := own.other step ne
  refine ⟨tab, own', fun b held => (step.holds ne).mpr (kept b held), fun b held => ?_⟩
  refine (reach b ((step.holds ne).mp held)).imp_right fun ⟨single, found⟩ => ⟨single, ?_⟩
  refine found.imp_left fun ⟨q, inside, seen⟩ => ⟨q, inside, ?_⟩
  rw [frameAt_congr (same q (areaPages_user user inside)), seen]

/-! ### One fault -/

/-- The fault finds the page there, or everything that it needs, or no free memory at all. -/
def Affordable (space : AddressSpace) (st : Machine Pool) (addr : Nat) : Prop :=
  (∃ phys, Machine.translate st.mem space.pml4 (alignDown addr PAGE_SIZE) = .ok (some phys)) ∨
  freeCells st = ∅ ∨
  st.pool.owners.length < RESERVE_CAPACITY ∧
    (tablesMissing st.mem space.pml4 (pagePath (pageOf addr)) + 1) * PAGE_SIZE ≤ (freeCells st).ncard

theorem Owned.there_iff (own : Owned img st space.owner space.pml4 tab) (wf : Vmas.Wf space.vmas)
    (user : UserAreas img space.vmas) (area : Vmas.findVma space.vmas addr = some vma) :
    (∃ phys, Machine.translate st.mem space.pml4 (alignDown addr PAGE_SIZE) = .ok (some phys)) ↔
      frameAt st.mem tab (pageOf addr) ≠ none := by
  obtain ⟨-, page, -, number⟩ := user.page_of_area wf area
  rw [own.tree.translate_ok (number ▸ page.lower), number, frameAt]
  cases view st.mem tab (pageOf addr) <;> simp

theorem Unleaked.fault (unleaked : Unleaked img base st space) (inv : PoolInv S st)
    (wf : Vmas.Wf space.vmas) (user : UserAreas img space.vmas)
    (area : Vmas.findVma space.vmas addr = some vma) (affordable : Affordable space st addr)
    (p : Profile) : ∃ r st', space.handlePageFault p st addr = .ok (r, st') ∧
      Local S space.owner st st' ∧ Unleaked img base st' space := by
  obtain ⟨tab, own, kept, reach⟩ := id unleaked
  cases there : frameAt st.mem tab (pageOf addr) with
  | some f => exact ⟨_, st, own.fault_there wf user area there p, .refl inv, unleaked⟩
  | none =>
    have enough := affordable.resolve_left fun found => (own.there_iff wf user area).mp found there
    rcases own.fault_absent inv wf user area there p with
      ⟨-, run⟩ | ⟨some, full, -⟩ | ⟨some, -, f, done, st', tab', run, faulted, exact⟩
    · exact ⟨_, st, run, .refl inv, unleaked⟩
    · exact absurd (enough.resolve_left some).1 (Nat.not_lt.mpr full)
    obtain rfl : done = true := exact.mpr (enough.resolve_left some).2
    obtain ⟨-, page, inside, -⟩ := user.page_of_area wf area
    refine ⟨_, st', run, faulted.step, tab', faulted.own,
      fun b held => faulted.holds.mpr (Or.inl (Or.inr (kept b held))), fun b held => ?_⟩
    have frames {q} (hq : q ∈ areaPages space.vmas) (other : q ≠ pageOf addr) :
        frameAt st'.mem tab' q = frameAt st.mem tab q := by
      refine frameAt_congr ?_
      rw [faulted.pages q (areaPages_user user hq), if_neg fun here => other here.2]
    rcases faulted.holds.mp held with (rfl | old) | ⟨single, table⟩
    · refine Or.inr ⟨rfl, Or.inl ⟨_, inside, ?_⟩⟩
      have seen := faulted.pages _ page
      rw [if_pos ⟨rfl, rfl⟩] at seen
      exact frameAt_eq_some.mpr ⟨_, (pageAt_eq_some.mp seen).1⟩
    · refine (reach b old).imp_right fun ⟨single, found⟩ => ⟨single, ?_⟩
      rcases found with ⟨q, hq, seen⟩ | ⟨π, table⟩
      · refine Or.inl ⟨q, hq, ?_⟩
        rw [frames hq, seen]
        rintro rfl
        rw [there] at seen
        cases seen
      · exact Or.inr ⟨π, faulted.kept table⟩
    · exact Or.inr ⟨single, Or.inr table⟩

theorem Unleaked.fault_leaks (unleaked : Unleaked img base st space) (inv : PoolInv S st)
    (wf : Vmas.Wf space.vmas) (user : UserAreas img space.vmas)
    (area : Vmas.findVma space.vmas addr = some vma) (short : ¬ Affordable space st addr)
    {r : Except String Unit} (run : space.handlePageFault p st addr = .ok (r, st')) :
    ¬ Reclaims p base st' space := by
  obtain ⟨tab, own, kept, -⟩ := unleaked
  have absent : frameAt st.mem tab (pageOf addr) = none := by
    by_contra there
    exact short (Or.inl ((own.there_iff wf user area).mpr there))
  rcases own.fault_absent inv wf user area absent p with
    ⟨none, -⟩ | ⟨-, -, panics⟩ | ⟨-, room, f, done, st₁, tab', run', faulted, exact⟩
  · exact absurd (Or.inr (Or.inl none)) short
  · rw [panics] at run
    cases run
  have undone : ¬ done = true := fun enough => short (Or.inr (Or.inr ⟨room, exact.mp enough⟩))
  obtain ⟨-, rfl⟩ := Prod.mk.inj (Except.ok.inj (run'.symm.trans run))
  rw [reclaims_iff faulted.step.inv faulted.own user]
  intro all
  rcases all ⟨f, 0⟩ (faulted.holds.mpr (Or.inl (Or.inl rfl))) with old | ⟨-, ⟨q, inside, seen⟩ | ⟨π, table⟩⟩
  · exact faulted.fresh ⟨_, kept _ old⟩
  · have page := areaPages_user user inside
    have same : pageAt st₁.mem tab' q = pageAt st.mem tab q := by
      rw [faulted.pages q page, if_neg fun here => undone here.1]
    rw [frameAt_congr same] at seen
    obtain ⟨flags, seen⟩ := frameAt_eq_some.mp seen
    exact faulted.fresh ⟨_, (own.pages page seen).1⟩
  · exact faulted.notTable π table

/-! ### Whole runs -/

/-- Address spaces that share the memory, each with tables and frames of its own. -/
structure Sharing (S img : Set Nat) (spaces : Set AddressSpace) (st : Machine Pool) : Prop where
  inv : PoolInv S st
  wf : ∀ {s}, s ∈ spaces → Vmas.Wf s.vmas
  user : ∀ {s}, s ∈ spaces → UserAreas img s.vmas
  apart : ∀ {s t}, s ∈ spaces → t ∈ spaces → s.owner = t.owner → s = t
  owned : ∀ {s}, s ∈ spaces → ∃ tab, Owned img st s.owner s.pml4 tab

variable {spaces : Set AddressSpace} {faults : List (AddressSpace × Nat)}

/-- As long as the faults are affordable, they all return and leak nothing. -/
theorem Sharing.run (sharing : Sharing S img spaces st) (p : Profile)
    (within : ∀ e ∈ faults, e.1 ∈ spaces ∧ ∃ vma, Vmas.findVma e.1.vmas e.2 = some vma)
    (affordable : ∀ l s a, l ++ [(s, a)] <+: faults → ∀ rs st', handleFaults p l st = .ok (rs, st') →
      Affordable s st' a) :
    ∃ rs st', handleFaults p faults st = .ok (rs, st') ∧ PoolInv S st' ∧
      ∀ s ∈ spaces, Unleaked img st st' s := by
  induction faults using List.reverseRecOn with
  | nil =>
    refine ⟨[], st, rfl, sharing.inv, fun s hs => ?_⟩
    obtain ⟨tab, own⟩ := sharing.owned hs
    exact ⟨tab, own, fun _ => id, fun _ => Or.inl⟩
  | append_singleton faults e ih =>
    obtain ⟨rs, st₁, before, inv, unleaked⟩ := ih
      (fun e he => within e (List.mem_append_left _ he))
      fun l s a pre => affordable l s a (pre.trans (List.prefix_append _ _))
    obtain ⟨space, addr⟩ := e
    obtain ⟨member, vma, area⟩ := within (space, addr) (by simp)
    have enough := affordable faults space addr List.prefix_rfl rs st₁ before
    obtain ⟨r, st₂, run, step, after⟩ := (unleaked space member).fault inv (sharing.wf member)
      (sharing.user member) area enough p
    refine ⟨rs ++ [r], st₂, ?_, step.inv, fun s hs => ?_⟩
    · rw [handleFaults_snoc p before, run]
      rfl
    · by_cases same : s.owner = space.owner
      · rw [sharing.apart hs member same]
        exact after
      · exact (unleaked s hs).other (sharing.user hs) step same

end Ferrum
