import Ferrum.Frames.Free
import Ferrum.AddressSpace.Areas

/-!
# What an address space owns

The tables of an address space are frames that it holds, and so are the frames behind its user pages;
no frame serves twice. The pages of the kernel image are mapped in the same tables, but the frames
behind them belong to nobody here and are out of reach of user code.
-/
namespace Ferrum

open Machine (Local PoolInv Own PoolJ)

/-! ## The pages of a tree -/

/-- A page of the lower half that is not a page of the kernel image. -/
structure UserPage (img : Set Nat) (q : Nat) : Prop where
  lower : LowerPage q
  off : q ∉ img

/-- The frame behind a page. -/
def frameAt (m : Memory) (tab : Tables) (q : Nat) : Option Nat := (view m tab q).map Prod.fst

theorem frameAt_eq_some {m : Memory} {tab : Tables} {q f : Nat} :
    frameAt m tab q = some f ↔ ∃ flags, view m tab q = some (f, flags) := by
  simp [frameAt]

/-- What a page holds, byte by byte. -/
def bytesAt (m : Memory) (frame i : Nat) : UInt8 := if i < PAGE_SIZE then m (frame + i) else 0

theorem bytesAt_congr {m m' : Memory} {f : Nat} (same : Set.EqOn m' m (pageBytes f)) :
    bytesAt m' f = bytesAt m f := by
  funext i
  unfold bytesAt
  split
  · exact same ⟨by omega, by omega⟩
  · rfl

/-- A mapped page: where it lies, how it may be used and what it holds. -/
@[ext]
structure Page where
  frame : Nat
  flags : PageFlags
  bytes : Nat → UInt8

def pageAt (m : Memory) (tab : Tables) (q : Nat) : Option Page :=
  (view m tab q).map fun e => ⟨e.1, e.2, bytesAt m e.1⟩

theorem pageAt_eq_none {m : Memory} {tab : Tables} {q : Nat} :
    pageAt m tab q = none ↔ view m tab q = none := by
  simp [pageAt]

theorem pageAt_eq_some {m : Memory} {tab : Tables} {q : Nat} {pg : Page} :
    pageAt m tab q = some pg ↔
      view m tab q = some (pg.frame, pg.flags) ∧ pg.bytes = bytesAt m pg.frame := by
  simp only [pageAt, Option.map_eq_some_iff, Prod.exists]
  constructor
  · rintro ⟨f, flags, seen, rfl⟩
    exact ⟨seen, rfl⟩
  · rintro ⟨seen, bytes⟩
    exact ⟨_, _, seen, by rw [← bytes]⟩

theorem pageAt_congr {m m' : Memory} {tab tab' : Tables} {q : Nat}
    (seen : view m' tab' q = view m tab q)
    (same : ∀ f flags, view m tab q = some (f, flags) → Set.EqOn m' m (pageBytes f)) :
    pageAt m' tab' q = pageAt m tab q := by
  unfold pageAt
  rw [seen]
  cases h : view m tab q with
  | none => rfl
  | some e => simp [bytesAt_congr (same e.1 e.2 h)]

/-! ## Trees that an owner holds -/

variable {S img : Set Nat} {st st' st'' : Machine Pool} {owner o : Owner} {root : Nat}
  {tab tab' tab'' : Tables} {p : Profile} {v f : Nat}

/-- The tables of a tree are held by one owner. -/
structure Rooted (st : Machine Pool) (owner : Owner) (root : Nat) (tab : Tables) : Prop where
  tree : Tree st.mem root tab
  tables : ∀ {π t}, tab π = some t → st.holds owner ⟨t, 0⟩

/-- The frames behind the user pages are held by the same owner, each used once. -/
structure Owned (img : Set Nat) (st : Machine Pool) (owner : Owner) (root : Nat) (tab : Tables) :
    Prop extends Rooted st owner root tab where
  pages : ∀ {q f flags}, UserPage img q → view st.mem tab q = some (f, flags) →
    st.holds owner ⟨f, 0⟩ ∧ ∀ π, tab π ≠ some f
  inj : ∀ {q r f flags flags'}, UserPage img q → UserPage img r →
    view st.mem tab q = some (f, flags) → view st.mem tab r = some (f, flags') → q = r
  image : ∀ {q f flags}, LowerPage q → q ∈ img → view st.mem tab q = some (f, flags) →
    flags.user = false

/-- A frame that the owner holds and that neither tables nor pages use. -/
structure Spare (img : Set Nat) (st : Machine Pool) (owner : Owner) (tab : Tables) (f : Nat) :
    Prop where
  held : st.holds owner ⟨f, 0⟩
  notTable : ∀ π, tab π ≠ some f
  unseen : ∀ {q flags}, UserPage img q → view st.mem tab q ≠ some (f, flags)

/-- What leaves the bytes of an owner alone and takes nothing from it leaves its tree alone. -/
theorem Rooted.mono (rooted : Rooted st owner root tab)
    (keep : ∀ {b}, st.holds owner b → st'.holds owner b)
    (mem : Set.EqOn st'.mem st.mem (Own owner st)) :
    Rooted st' owner root tab ∧ ∀ q, view st'.mem tab q = view st.mem tab q := by
  have tables : ∀ π t, tab π = some t → Set.EqOn st'.mem st.mem (pageBytes t) :=
    fun π t h => mem.mono (rooted.tables h).page_own
  exact ⟨⟨rooted.tree.congr tables, fun h => keep (rooted.tables h)⟩, Tree.view_congr tables⟩

theorem Owned.mono (own : Owned img st owner root tab)
    (keep : ∀ {b}, st.holds owner b → st'.holds owner b)
    (mem : Set.EqOn st'.mem st.mem (Own owner st)) :
    Owned img st' owner root tab ∧
      ∀ q, UserPage img q → pageAt st'.mem tab q = pageAt st.mem tab q := by
  obtain ⟨rooted, views⟩ := own.toRooted.mono keep mem
  refine ⟨⟨rooted, ?_, ?_, ?_⟩, fun q user => pageAt_congr (views q) fun f flags seen => ?_⟩
  · intro q f flags user seen
    obtain ⟨held, notTable⟩ := own.pages user (views q ▸ seen)
    exact ⟨keep held, notTable⟩
  · intro q r f flags flags' hq hr seen seen'
    exact own.inj hq hr (views q ▸ seen) (views r ▸ seen')
  · intro q f flags lower inside seen
    exact own.image lower inside (views q ▸ seen)
  · exact mem.mono (own.pages user seen).1.page_own

/-- What is done for one owner does not show in the address space of another. -/
theorem Owned.other (own : Owned img st owner root tab) (step : Local S o st st') (ne : owner ≠ o) :
    Owned img st' owner root tab ∧
      ∀ q, UserPage img q → pageAt st'.mem tab q = pageAt st.mem tab q := by
  refine own.mono (step.holds ne).mpr (step.mem.mono ?_)
  rintro x ⟨b, hb, hx⟩
  exact hb.foreign ne hx

theorem Owned.owners (own : Owned img st owner root tab) (owners : List (Nat × PageOwner)) :
    Owned img ⟨st.mem, { st.pool with owners }⟩ owner root tab := by
  have keep {b} (h : st.holds owner b) :
      Machine.holds ⟨st.mem, { st.pool with owners }⟩ owner b := h
  exact (own.mono keep fun _ _ => rfl).1

/-! ## Taking, giving back and writing a frame -/

theorem Owned.alloc (inv : PoolInv S st) (own : Owned img st owner root tab) (p : Profile) :
    ∃ r st', st.allocPage p owner = .ok (r, st') ∧ st.allocBlock p owner 0 = .ok (r, st') ∧
      Local S owner st st' ∧ Owned img st' owner root tab ∧
      (∀ q, UserPage img q → pageAt st'.mem tab q = pageAt st.mem tab q) ∧
      st'.pool.owners = st.pool.owners ∧
      match r with
      | none => ∀ {b}, st'.holds owner b ↔ st.holds owner b
      | some f => TableFrame f ∧ f ∉ st.frames ∧ Spare img st' owner tab f ∧
          ∀ {b}, st'.holds owner b ↔ b = ⟨f, 0⟩ ∨ st.holds owner b := by
  obtain ⟨r, st', run, inv', frame, owners, log⟩ := Machine.allocPage_spec inv p owner
  have block : st.allocBlock p owner 0 = .ok (r, st') := by
    unfold Machine.allocPage at run
    obtain ⟨⟨a, st₁⟩, alloc, run⟩ := bind_eq_ok.mp run
    cases a with
    | none =>
      obtain ⟨rfl, rfl⟩ := by simpa using run
      exact alloc
    | some a =>
      obtain ⟨_, -, run⟩ := bind_eq_ok.mp run
      obtain ⟨rfl, rfl⟩ := by simpa using run
      exact alloc
  have events : st'.pool.log = (r.map fun a => Event.alloc owner ⟨a, 0⟩).toList ++ st.pool.log := by
    cases r with
    | none => exact log
    | some a => exact log.1
  have keep {b} (h : st.holds owner b) : st'.holds owner b := by
    cases r with
    | none => simpa [Machine.holds, log] using h
    | some a => exact (Machine.holds_alloc log.1 _ _).mpr (Or.inr h)
  have mem : Set.EqOn st'.mem st.mem (Own owner st) := by
    refine frame.mono ?_
    rintro x ⟨b, hb, hx⟩ _
    exact ⟨b, hb.mem_out, hx⟩
  obtain ⟨own', same⟩ := own.mono keep mem
  refine ⟨r, st', run, block, .of_alloc inv' frame events, own', same, owners, ?_⟩
  cases r with
  | none => simp [Machine.holds, log]
  | some a =>
    obtain ⟨log, table, fresh⟩ := log
    have holds {b} : st'.holds owner b ↔ b = ⟨a, 0⟩ ∨ st.holds owner b := by
      simp [Machine.holds_alloc log]
    refine ⟨table, fresh, ⟨holds.mpr (Or.inl rfl), ?_, ?_⟩, holds⟩
    · exact fun π h => fresh ⟨owner, own.tables h⟩
    · intro q flags user seen
      rw [(own.toRooted.mono keep mem).2 q] at seen
      exact fresh ⟨owner, (own.pages user seen).1⟩

/-- A frame that is no table may be written; pages with other frames do not show it. -/
theorem Owned.write (inv : PoolInv S st) (own : Owned img st owner root tab)
    (held : st.holds owner ⟨f, 0⟩) (notTable : ∀ π, tab π ≠ some f) {m : Memory}
    (same : ∀ x, x ∉ pageBytes f → m x = st.mem x) :
    Local S owner st ⟨m, st.pool⟩ ∧ Owned img ⟨m, st.pool⟩ owner root tab ∧
      (∀ q, view m tab q = view st.mem tab q) ∧
      ∀ q, frameAt st.mem tab q ≠ some f → UserPage img q → pageAt m tab q = pageAt st.mem tab q := by
  have outside {g} (hg : st.holds owner ⟨g, 0⟩) (ne : g ≠ f) : Set.EqOn m st.mem (pageBytes g) :=
    fun x hx => same x (Space.pageBytes_disjoint (inv.tableFrame hg).aligned
      (inv.tableFrame held).aligned ne hx)
  have tables : ∀ π t, tab π = some t → Set.EqOn m st.mem (pageBytes t) := fun π t h =>
    outside (own.tables h) fun eq => notTable π (eq ▸ h)
  have views := Tree.view_congr tables
  refine ⟨.writePage inv held same, ⟨⟨own.tree.congr tables, own.tables⟩, ?_, ?_, ?_⟩, views, ?_⟩
  · exact fun user seen => own.pages user (views _ ▸ seen)
  · exact fun hq hr seen seen' => own.inj hq hr (views _ ▸ seen) (views _ ▸ seen')
  · exact fun lower inside seen => own.image lower inside (views _ ▸ seen)
  · intro q other user
    refine pageAt_congr (views q) fun g flags seen => outside (own.pages user seen).1 ?_
    rintro rfl
    exact other (frameAt_eq_some.mpr ⟨flags, seen⟩)

/-! ## Mapping -/

/-- A tree has grown: new tables hang in it, and only bytes of tables have changed. -/
structure Grown (S : Set Nat) (owner : Owner) (root : Nat) (st : Machine Pool) (tab : Tables)
    (st' : Machine Pool) (tab' : Tables) : Prop where
  step : Local S owner st st'
  rooted : Rooted st' owner root tab'
  kept : ∀ {π t}, tab π = some t → tab' π = some t
  fresh : ∀ {π t}, tab' π = some t → tab π = some t ∨ t ∉ st.frames
  holds : ∀ {b}, st'.holds owner b ↔
    st.holds owner b ∨ (b.order = 0 ∧ ∃ π, tab' π = some b.addr)
  data : ∀ {f}, f ∈ st.frames → (∀ π, tab π ≠ some f) → Set.EqOn st'.mem st.mem (pageBytes f)

/-- The space of the page-table operations that belongs to a rooted tree. -/
theorem Rooted.good (inv : PoolInv S st) (rooted : Rooted st owner root tab) :
    Space.Good (PoolJ S owner st) root ⟨st, tab, st.frames⟩ where
  tree := rooted.tree
  held := PoolJ.refl inv owner
  tables h := ⟨owner, rooted.tables h⟩
  aligned := inv.aligned

theorem Rooted.grown {c : Space Pool} (inv : PoolInv S st) (rooted : Rooted st owner root tab)
    (good : c.Good (PoolJ S owner st) root) (ext : Space.Extends root ⟨st, tab, st.frames⟩ c) :
    Grown S owner root st tab c.st c.tab := by
  have used : c.used = c.st.frames := good.held.used
  have others {o b} (ne : o ≠ owner) : c.st.holds o b ↔ st.holds o b := by
    simp [good.held.holds, ne]
  have holds {b} : c.st.holds owner b ↔
      st.holds owner b ∨ (b.order = 0 ∧ ∃ π, c.tab π = some b.addr) := by
    rw [good.held.holds]
    constructor
    · rintro (old | ⟨-, single, inside, new⟩)
      · exact Or.inl old
      · rcases ext.added (used ▸ inside) with old | table
        · exact absurd old new
        · exact Or.inr ⟨single, table⟩
    · rintro (old | ⟨single, π, table⟩)
      · exact Or.inl old
      · rcases ext.fresh table with old | new
        · obtain ⟨a, _⟩ := b
          obtain rfl : _ = 0 := single
          exact Or.inl (rooted.tables old)
        · exact Or.inr ⟨rfl, single, used ▸ good.tables table, new⟩
  have inside {π t} (h : c.tab π = some t) : c.st.holds owner ⟨t, 0⟩ :=
    holds.mpr (Or.inr ⟨rfl, π, h⟩)
  have step : Local S owner st c.st := by
    refine ⟨good.held.inv, others, fun x foreign => ?_⟩
    have foreign' : x ∈ Machine.Foreign S owner c.st := fun reg =>
      let ⟨o, b, ne, hb, hx⟩ := foreign reg
      ⟨o, b, ne, (others ne).mpr hb, hx⟩
    by_cases single : x ∈ bytesOf st.frames
    · obtain ⟨f, hf, hx⟩ := single
      refine ext.frame hf (fun π h => ?_) hx
      exact inv.own_notForeign ((rooted.tables h).page_own hx) foreign
    · refine good.held.rest (Machine.foreign_subset_held foreign) fun ⟨f, hf, hx⟩ => ?_
      rcases ext.added (used ▸ hf) with old | ⟨π, h⟩
      · exact single ⟨f, old, hx⟩
      · exact good.held.inv.own_notForeign ((inside h).page_own hx) foreign'
  exact ⟨step, ⟨good.tree, inside⟩, ext.tab, ext.fresh, holds, ext.frame⟩

/-- New tables lie on one path. The descent along it stops only when no memory is free. -/
structure Reach (path : List Nat) (done : Bool) (tab : Tables) (st' : Machine Pool) (tab' : Tables) :
    Prop where
  only : ∀ {π t}, tab' π = some t → tab π = some t ∨ π <+: path
  stuck : done = false → tab' path = none ∧ freeCells st' = ∅

theorem Rooted.map (inv : PoolInv S st) (rooted : Rooted st owner root tab) (p : Profile)
    (hv : LowerPage (pageOf v)) (hf : PageAddr f) (flags : PageFlags) :
    ∃ r st' tab', st.map (poolPages p owner) root v f flags = .ok (r, st') ∧
      Grown S owner root st tab st' tab' ∧ Reach (pagePath (pageOf v)) r.isSome tab st' tab' ∧
      ∀ q < 2 ^ 36, view st'.mem tab' q =
        if r.isSome then
          Function.update (view st.mem tab) (pageOf v) (some (f, { flags with present := true })) q
        else view st.mem tab q := by
  obtain ⟨r, c, run, good, ext, down, views⟩ :=
    Space.map_spec (Machine.poolPages_lawful S p owner st) (rooted.good inv) hv hf flags
  refine ⟨r, c.st, c.tab, run, rooted.grown inv good ext, ⟨down.only, fun failed => ?_⟩, views⟩
  obtain ⟨vacant, st₁, used, held, alloc⟩ := down.stuck failed
  obtain ⟨same, empty⟩ := held.inv.allocPage_none alloc
  exact ⟨vacant, same ▸ empty⟩

theorem Rooted.unmap (inv : PoolInv S st) (rooted : Rooted st owner root tab)
    (hv : LowerPage (pageOf v)) :
    ∃ st', st.unmap root v = .ok (frameAt st.mem tab (pageOf v), st') ∧ st'.pool = st.pool ∧
      Grown S owner root st tab st' tab ∧
      ∀ q < 2 ^ 36, view st'.mem tab q = Function.update (view st.mem tab) (pageOf v) none q := by
  obtain ⟨c, run, good, ext, pool, same, -, views⟩ :=
    Space.unmap_spec (Machine.poolPages_lawful S .dev owner st) (rooted.good inv) hv
  have grown := rooted.grown inv good ext
  rw [same] at grown views
  exact ⟨c.st, run, pool, grown, views⟩

/-- A frame of the owner that is no table keeps its bytes and does not become a table. -/
theorem Grown.spare_data (grown : Grown S owner root st tab st' tab') (held : st.holds o ⟨f, 0⟩)
    (notTable : ∀ π, tab π ≠ some f) :
    (∀ π, tab' π ≠ some f) ∧ Set.EqOn st'.mem st.mem (pageBytes f) := by
  refine ⟨fun π h => ?_, grown.data ⟨o, held⟩ notTable⟩
  rcases grown.fresh h with old | new
  · exact notTable π old
  · exact new ⟨o, held⟩

theorem Grown.pageAt (grown : Grown S owner root st tab st' tab')
    (own : Owned img st owner root tab) {q : Nat} (user : UserPage img q)
    (seen : view st'.mem tab' q = view st.mem tab q) :
    pageAt st'.mem tab' q = Ferrum.pageAt st.mem tab q := by
  refine pageAt_congr seen fun f flags old => ?_
  obtain ⟨held, notTable⟩ := own.pages user old
  exact (grown.spare_data held notTable).2

/-- A tree that has grown stays owned if every page it shows was there before or has a spare frame of
its own. -/
theorem Grown.owned (grown : Grown S owner root st tab st' tab')
    (own : Owned img st owner root tab) {q₀ : Nat}
    (views : ∀ q, LowerPage q → q ≠ q₀ → view st'.mem tab' q = view st.mem tab q)
    (new : ∀ {f flags}, view st'.mem tab' q₀ = some (f, flags) → view st.mem tab q₀ = some (f, flags) ∨
      (UserPage img q₀ → Spare img st owner tab f) ∧ (q₀ ∈ img → flags.user = false)) :
    Owned img st' owner root tab' := by
  have keep {b} (h : st.holds owner b) : st'.holds owner b := grown.holds.mpr (Or.inl h)
  -- what a page shows was shown before, or the page is the new one and its frame is spare
  have shown {q f flags} (user : UserPage img q) (seen : view st'.mem tab' q = some (f, flags)) :
      view st.mem tab q = some (f, flags) ∨ (q = q₀ ∧ Spare img st owner tab f) := by
    by_cases here : q = q₀
    · subst here
      exact (new seen).imp_right fun ok => ⟨rfl, ok.1 user⟩
    · exact Or.inl (views q user.lower here ▸ seen)
  refine ⟨grown.rooted, ?_, ?_, ?_⟩
  · intro q f flags user seen
    rcases shown user seen with old | ⟨-, spare⟩
    · obtain ⟨held, notTable⟩ := own.pages user old
      exact ⟨keep held, (grown.spare_data held notTable).1⟩
    · exact ⟨keep spare.held, (grown.spare_data spare.held spare.notTable).1⟩
  · intro q r f flags flags' hq hr seen seen'
    rcases shown hq seen with old | ⟨rfl, spare⟩ <;> rcases shown hr seen' with old' | ⟨rfl, spare'⟩
    · exact own.inj hq hr old old'
    · exact absurd old (spare'.unseen hq)
    · exact absurd old' (spare.unseen hr)
    · rfl
  · intro q f flags lower inside seen
    by_cases here : q = q₀
    · subst here
      rcases new seen with old | ⟨-, plain⟩
      · exact own.image lower inside old
      · exact plain inside
    · exact own.image lower inside (views q lower here ▸ seen)

theorem Owned.map (inv : PoolInv S st) (own : Owned img st owner root tab) (p : Profile)
    (user : UserPage img (pageOf v)) (spare : Spare img st owner tab f) (flags : PageFlags) :
    ∃ r st' tab', st.map (poolPages p owner) root v f flags = .ok (r, st') ∧
      Grown S owner root st tab st' tab' ∧ Owned img st' owner root tab' ∧
      Reach (pagePath (pageOf v)) r.isSome tab st' tab' ∧
      ∀ q, UserPage img q → pageAt st'.mem tab' q =
        if r.isSome ∧ q = pageOf v then some ⟨f, { flags with present := true }, bytesAt st.mem f⟩
        else pageAt st.mem tab q := by
  have addr := (inv.tableFrame spare.held).pageAddr
  obtain ⟨r, st', tab', run, grown, reach, views⟩ := own.toRooted.map inv p user.lower addr flags
  have elsewhere {q} (lower : LowerPage q) (ne : q ≠ pageOf v) :
      view st'.mem tab' q = view st.mem tab q := by
    rw [views q lower.lt, Function.update_of_ne ne, ite_self]
  refine ⟨r, st', tab', run, grown, grown.owned own (fun q => elsewhere) ?_, reach, fun q hq => ?_⟩
  · intro g flags' seen
    rw [views _ user.lower.lt, Function.update_self] at seen
    split at seen
    · obtain ⟨rfl, rfl⟩ := by simpa using seen
      exact Or.inr ⟨fun _ => spare, fun inside => absurd inside user.off⟩
    · exact Or.inl seen
  · split
    · rename_i here
      obtain ⟨done, rfl⟩ := here
      rw [pageAt_eq_some, views _ hq.lower.lt, if_pos done, Function.update_self]
      exact ⟨rfl, (bytesAt_congr (grown.spare_data spare.held spare.notTable).2).symm⟩
    · rename_i other
      refine grown.pageAt own hq ?_
      rw [views q hq.lower.lt]
      by_cases done : r.isSome = true
      · rw [if_pos done, Function.update_of_ne fun here => other ⟨done, here⟩]
      · rw [if_neg done]

/-- A spare frame is filled and put behind a user page; the page-owner table may have changed as
well. -/
theorem Owned.place (inv : PoolInv S st) (own : Owned img st owner root tab) (p : Profile)
    (user : UserPage img (pageOf v)) (spare : Spare img st owner tab f) {m : Memory}
    (same : ∀ x, x ∉ pageBytes f → m x = st.mem x) (owners : List (Nat × PageOwner))
    (flags : PageFlags) :
    ∃ r st' tab',
      Machine.map (poolPages p owner) ⟨m, { st.pool with owners }⟩ root v f flags = .ok (r, st') ∧
      Local S owner st st' ∧ Owned img st' owner root tab' ∧
      (∀ {b}, st'.holds owner b ↔ st.holds owner b ∨ (b.order = 0 ∧ ∃ π, tab' π = some b.addr)) ∧
      (∀ {π t}, tab π = some t → tab' π = some t) ∧
      Reach (pagePath (pageOf v)) r.isSome tab st' tab' ∧
      ∀ q, UserPage img q → pageAt st'.mem tab' q =
        if r.isSome ∧ q = pageOf v then some ⟨f, { flags with present := true }, bytesAt m f⟩
        else pageAt st.mem tab q := by
  obtain ⟨wrote, own₁, views, pages⟩ := own.write inv spare.held spare.notTable same
  have step : Local S owner st ⟨m, { st.pool with owners }⟩ := wrote.trans (.owners wrote.inv owners)
  have own₂ := own₁.owners owners
  have spare₂ : Spare img ⟨m, { st.pool with owners }⟩ owner tab f :=
    ⟨spare.held, spare.notTable, fun hq => by simpa only [views] using spare.unseen hq⟩
  obtain ⟨r, st', tab', run, grown, own', reach, shown⟩ := own₂.map step.inv p user spare₂ flags
  refine ⟨r, st', tab', run, step.trans grown.step, own', grown.holds, grown.kept, reach,
    fun q hq => ?_⟩
  rw [shown q hq]
  refine if_congr Iff.rfl rfl (pages q (fun seen => ?_) hq)
  obtain ⟨flags', seen⟩ := frameAt_eq_some.mp seen
  exact spare.unseen hq seen

/-! ## A new address space -/

/-- Everything that the owner holds is a table or the frame of a user page. -/
def Exact (img : Set Nat) (st : Machine Pool) (owner : Owner) (tab : Tables) : Prop :=
  ∀ {b}, st.holds owner b → b.order = 0 ∧
    ((∃ π, tab π = some b.addr) ∨ ∃ q, UserPage img q ∧ frameAt st.mem tab q = some b.addr)

theorem newUser_owned (img : Set Nat) {r : Option Nat} {kernelPml4 pid : Nat} (inv : PoolInv S st)
    (fresh : ∀ b, ¬ st.holds owner b)
    (run : st.newUser (poolPages p owner) kernelPml4 pid = .ok (r, st')) :
    Local S owner st st' ∧ ∀ root, r = some root →
      Owned img st' owner root (Space.newTables root) ∧
      Exact img st' owner (Space.newTables root) ∧
      ∀ q, view st'.mem (Space.newTables root) q = none := by
  obtain ⟨a, st₁, alloc, inv₁, frame, -, log⟩ := Machine.allocPage_spec inv p owner
  have created := id run
  simp only [Machine.newUser, poolPages, alloc, ok_bind] at run
  cases a with
  | none =>
    obtain ⟨rfl, rfl⟩ := by simpa using run
    have events : st₁.pool.log =
        ((none : Option Nat).map fun a => Event.alloc owner ⟨a, 0⟩).toList ++ st.pool.log := log
    exact ⟨.of_alloc inv₁ frame events, by simp⟩
  | some root =>
    obtain ⟨pool, tracked, run⟩ := bind_eq_ok.mp run
    obtain rfl := Pool.track_owners tracked
    obtain ⟨_, -, run⟩ := bind_eq_ok.mp run
    obtain ⟨rfl, rfl⟩ := by simpa using run
    obtain ⟨log, -, -⟩ := log
    have holds {b} : st₁.holds owner b ↔ b = ⟨root, 0⟩ := by
      simp [Machine.holds_alloc log, fresh]
    have held : st₁.holds owner ⟨root, 0⟩ := holds.mpr rfl
    have events : st₁.pool.log =
        ((some root).map fun a => Event.alloc owner ⟨a, 0⟩).toList ++ st.pool.log := log
    have taken : Local S owner st st₁ := .of_alloc inv₁ frame events
    obtain ⟨good, -, -, empty⟩ := Space.newUser_spec (Machine.poolPages_lawful S p owner st)
      (Machine.PoolJ.refl inv owner) inv.aligned created
    refine ⟨taken.trans ((Local.owners inv₁ _).trans ⟨good.held.inv, fun _ => Iff.rfl, ?_⟩), ?_⟩
    · intro x foreign
      have outside : x ∉ pageBytes root := fun hx =>
        inv₁.own_notForeign (held.page_own hx) foreign
      have beyond : x < root + 8 * 256 ∨ root + 8 * 256 + 8 * 256 ≤ x := by
        simp only [pageBytes, Set.mem_Ico, PAGE_SIZE] at outside
        omega
      exact (Memory.copy_outside beyond).trans (Space.zeroPage_outside outside)
    · rintro _ ⟨⟩
      refine ⟨⟨⟨good.tree, ?_⟩, ?_, ?_, ?_⟩, ?_, empty⟩
      · intro π t h
        rw [(Space.newTables_eq_some.mp h).2]
        exact held
      · intro q f flags _ seen
        rw [empty q] at seen
        cases seen
      · intro q r f flags flags' _ _ seen
        rw [empty q] at seen
        cases seen
      · intro q f flags _ _ seen
        rw [empty q] at seen
        cases seen
      · intro b hb
        obtain rfl := holds.mp hb
        exact ⟨rfl, Or.inl ⟨[], Space.newTables_eq_some.mpr ⟨rfl, rfl⟩⟩⟩

end Ferrum
