import Ferrum.Paging.View

/-!
# Mapping and unmapping

The specification of the page-table operations, over any allocator that keeps a simple contract: a
frame it hands out is not in use, and it does not touch the frames in use.

`Space` collects the ghost values that the contract speaks of: the tables of one tree and the set of
frames in use, which contains the tables. `Extends` says what an operation on a tree does to
everything but the view.
-/
namespace Ferrum

variable {A : Type}

/-- The bytes of a set of frames. -/
def bytesOf (used : Set Nat) : Set Nat := {x | ∃ f ∈ used, x ∈ pageBytes f}

theorem pageBytes_subset {used : Set Nat} {f : Nat} (h : f ∈ used) : pageBytes f ⊆ bytesOf used :=
  fun _ hx => ⟨f, h, hx⟩

/-- `J st used` is an invariant of the allocator under which the frames of `used` are safe: they are
not handed out, and the allocator neither reads nor writes them. -/
structure Lawful (pages : PageAllocator A) (J : Machine A → Set Nat → Prop) : Prop where
  alloc : ∀ {st used}, J st used → ∃ r st', pages.allocPage st = .ok (r, st') ∧
    Set.EqOn st'.mem st.mem (bytesOf used) ∧
    match r with
    | none => J st' used
    | some f => TableFrame f ∧ f ∉ used ∧ J st' (insert f used)
  write : ∀ {st used m}, J st used → (∀ x, x ∉ bytesOf used → m x = st.mem x) →
    J ⟨m, st.pool⟩ used
  track : ∀ {st used f owner pool}, J st used → pages.track st.pool f owner = .ok pool →
    J ⟨st.mem, pool⟩ used

/-- A machine with one tree of tables and the frames in use. -/
structure Space (A : Type) where
  st : Machine A
  tab : Tables
  used : Set Nat

namespace Space

variable {pages : PageAllocator A} {J : Machine A → Set Nat → Prop} {root : Nat} {c c' c'' : Space A}

structure Good (J : Machine A → Set Nat → Prop) (root : Nat) (c : Space A) : Prop where
  tree : Tree c.st.mem root c.tab
  held : J c.st c.used
  tables : ∀ {π t}, c.tab π = some t → t ∈ c.used
  aligned : ∀ {f}, f ∈ c.used → PAGE_SIZE ∣ f

/-- New frames are new tables, old tables stay, and only bytes of tables change. -/
structure Extends (root : Nat) (c c' : Space A) : Prop where
  tab : ∀ {π t}, c.tab π = some t → c'.tab π = some t
  used : c.used ⊆ c'.used
  fresh : ∀ {π t}, c'.tab π = some t → c.tab π = some t ∨ t ∉ c.used
  added : ∀ {f}, f ∈ c'.used → f ∈ c.used ∨ ∃ π, c'.tab π = some f
  user : ∀ {π i t d}, c.tab π = some t → c.tab (π ++ [i]) = some d →
    userEntry c.st.mem t i = true → userEntry c'.st.mem t i = true
  frame : ∀ {f}, f ∈ c.used → (∀ π, c.tab π ≠ some f) →
    Set.EqOn c'.st.mem c.st.mem (pageBytes f)
  kernelHalf : ∀ {i}, 256 ≤ i → i < 512 → readEntry c'.st.mem root i = readEntry c.st.mem root i

theorem Extends.refl (c : Space A) : Extends root c c :=
  ⟨id, subset_rfl, Or.inl, Or.inl, fun _ _ => id, fun _ _ _ _ => rfl, fun _ _ => rfl⟩

theorem Extends.trans (h : Extends root c c') (h' : Extends root c' c'') : Extends root c c'' where
  tab ht := h'.tab (h.tab ht)
  used := h.used.trans h'.used
  fresh ht := by
    rcases h'.fresh ht with old | new
    · exact h.fresh old
    · exact Or.inr fun mem => new (h.used mem)
  added hf := by
    rcases h'.added hf with old | new
    · rcases h.added old with older | ⟨π, hπ⟩
      · exact Or.inl older
      · exact Or.inr ⟨π, h'.tab hπ⟩
    · exact Or.inr new
  user ht hd marked := h'.user (h.tab ht) (h.tab hd) (h.user ht hd marked)
  frame {f} hf notTable := by
    have still : ∀ π, c'.tab π ≠ some f := by
      intro π hπ
      rcases h.fresh hπ with old | new
      · exact notTable π old
      · exact new hf
    exact (h'.frame (h.used hf) still).trans (h.frame hf notTable)
  kernelHalf hl hr := (h'.kernelHalf hl hr).trans (h.kernelHalf hl hr)

theorem pageBytes_disjoint {s t x : Nat} (hs : PAGE_SIZE ∣ s) (ht : PAGE_SIZE ∣ t) (ne : s ≠ t)
    (hx : x ∈ pageBytes s) : x ∉ pageBytes t := by
  obtain ⟨k, rfl⟩ := hs
  obtain ⟨l, rfl⟩ := ht
  simp only [pageBytes, Set.mem_Ico, PAGE_SIZE] at *
  omega

variable {π : List Nat} {t i e : Nat}

theorem write64_outside_page {m : Memory} {x : Nat} (hi : i < 512) (hx : x ∉ pageBytes t) :
    m.write64 (t + 8 * i) e x = m x := by
  refine Memory.write64_outside ?_
  simp only [pageBytes, Set.mem_Ico, PAGE_SIZE] at hx
  omega

theorem zeroPage_outside {st : Machine A} {x : Nat} (hx : x ∉ pageBytes t) :
    (st.zeroPage t).mem x = st.mem x := by
  refine Memory.fill_outside ?_
  simp only [pageBytes, Set.mem_Ico] at hx
  omega

theorem Good.writeEntry (law : Lawful pages J) (good : c.Good J root) (h : c.tab π = some t)
    (slot : Slot π i) (tree : Tree (c.st.mem.write64 (t + 8 * i) e) root c.tab) (he : e < 2 ^ 64)
    (keep : ∀ {d}, c.tab (π ++ [i]) = some d → userEntry c.st.mem t i = true →
      (Entry.flags e).user = true) :
    Good J root { c with st := c.st.writeEntry t i e } ∧
      Extends root c { c with st := c.st.writeEntry t i e } := by
  have outside {x} (hx : x ∉ pageBytes t) : (c.st.writeEntry t i e).mem x = c.st.mem x :=
    write64_outside_page slot.1 hx
  refine ⟨⟨tree, ?_, good.tables, good.aligned⟩, ?_⟩
  · exact law.write good.held fun x hx => outside fun hp => hx (pageBytes_subset (good.tables h) hp)
  · refine ⟨id, subset_rfl, Or.inl, Or.inl, ?_, ?_, ?_⟩
    · intro ρ j s d hs hd marked
      by_cases same : s = t ∧ j = i
      · obtain ⟨rfl, rfl⟩ := same
        obtain rfl := good.tree.inj h hs
        have here : readEntry (c.st.writeEntry s j e).mem s j = e := readEntry_write64_same he
        rw [userEntry, here]
        exact keep hd marked
      · have other : readEntry (c.st.writeEntry t i e).mem s j = readEntry c.st.mem s j :=
          readEntry_write64 (good.tree.frame h).aligned (good.tree.frame hs).aligned slot.1
            (good.tree.parent hd).1.1 same
        rw [userEntry, other]
        exact marked
    · intro f hf notTable x hx
      refine outside (pageBytes_disjoint (good.aligned hf) (good.tree.frame h).aligned ?_ hx)
      rintro rfl
      exact notTable π h
    · intro j lo hi
      refine readEntry_write64 (good.tree.frame h).aligned (good.tree.frame good.tree.root).aligned
        slot.1 hi ?_
      rintro ⟨rfl, rfl⟩
      have := slot.2 (good.tree.inj h good.tree.root)
      omega

/-- An allocation that fails, or one whose frame is not linked anywhere yet. -/
theorem Good.congr {st' : Machine A} {used' : Set Nat} (good : c.Good J root)
    (same : Set.EqOn st'.mem c.st.mem (bytesOf c.used)) (held : J st' used')
    (more : c.used ⊆ used') (aligned : ∀ {f}, f ∈ used' → PAGE_SIZE ∣ f) :
    Good J root { c with st := st', used := used' } where
  tree := good.tree.congr fun _ _ h => same.mono (pageBytes_subset (good.tables h))
  held := held
  tables h := more (good.tables h)
  aligned := aligned

theorem Good.extends_of_eqOn {st' : Machine A} (good : c.Good J root)
    (same : Set.EqOn st'.mem c.st.mem (bytesOf c.used)) : Extends root c { c with st := st' } := by
  have page {f} (hf : f ∈ c.used) := same.mono (pageBytes_subset hf)
  refine ⟨id, subset_rfl, Or.inl, Or.inl, ?_, fun hf _ => page hf, fun _ hi => ?_⟩
  · intro ρ j s d hs hd marked
    rw [userEntry, readEntry_congr (good.tree.parent hd).1.1 (page (good.tables hs))]
    exact marked
  · exact readEntry_congr hi (page (good.tables good.tree.root))

theorem Good.grow {st' : Machine A} {d : Nat} (law : Lawful pages J) (good : c.Good J root)
    (h : c.tab π = some t) (shallow : π.length < 3) (slot : Slot π i)
    (vacant : c.tab (π ++ [i]) = none) (same : Set.EqOn st'.mem c.st.mem (bytesOf c.used))
    (hd : TableFrame d) (fresh : d ∉ c.used) (held : J st' (insert d c.used)) {f : PageFlags}
    (link : f.Link) :
    let c' : Space A := ⟨(st'.zeroPage d).writeEntry t i (Entry.newPage d f),
      Function.update c.tab (π ++ [i]) (some d), insert d c.used⟩
    c'.Good J root ∧ Extends root c c' ∧
      ∀ q, view c'.st.mem c'.tab q = view c.st.mem c.tab q := by
  intro c'
  have zeroed : Set.EqOn (st'.zeroPage d).mem c.st.mem (bytesOf c.used) := by
    rintro x ⟨g, hg, hx⟩
    have ne : g ≠ d := by
      rintro rfl
      exact fresh hg
    rw [zeroPage_outside (pageBytes_disjoint (good.aligned hg) hd.aligned ne hx)]
    exact same ⟨g, hg, hx⟩
  have tables {ρ s} (hs : c.tab ρ = some s) : Set.EqOn (st'.zeroPage d).mem c.st.mem (pageBytes s) :=
    zeroed.mono (pageBytes_subset (good.tables hs))
  have tree := good.tree.congr fun _ _ hs => tables hs
  have empty : ∀ j < 512, readEntry (st'.zeroPage d).mem d j = 0 := by
    intro j hj
    exact Memory.read64_fill_zero (by omega) (by simp only [PAGE_SIZE]; omega)
  have new : ∀ ρ, c.tab ρ ≠ some d := fun ρ hρ => fresh (good.tables hρ)
  have other {s j} (hs : PAGE_SIZE ∣ s) (hj : j < 512) (ne : ¬ (s = t ∧ j = i)) :
      readEntry c'.st.mem s j = readEntry (st'.zeroPage d).mem s j :=
    readEntry_write64 (good.tree.frame h).aligned hs slot.1 hj ne
  refine ⟨⟨tree.grow h shallow slot vacant hd new empty link, ?_, ?_, ?_⟩,
    ⟨?_, Set.subset_insert _ _, ?_, ?_, ?_, ?_, ?_⟩, fun q => ?_⟩
  · refine law.write (law.write held (m := (st'.zeroPage d).mem) fun x hx => ?_) fun x hx => ?_
    · exact zeroPage_outside fun hp => hx (pageBytes_subset (Set.mem_insert d c.used) hp)
    · exact write64_outside_page slot.1 fun hp =>
        hx (pageBytes_subset (Set.mem_insert_of_mem d (good.tables h)) hp)
  · intro ρ s hs
    by_cases path : ρ = π ++ [i]
    · subst path
      have : s = d := by simpa [c'] using hs.symm
      exact this ▸ Set.mem_insert _ _
    · exact Set.mem_insert_of_mem _ (good.tables (by simpa [c', path] using hs))
  · rintro g (rfl | hg)
    · exact hd.aligned
    · exact good.aligned hg
  · intro ρ s hs
    have path : ρ ≠ π ++ [i] := by
      rintro rfl
      rw [vacant] at hs
      cases hs
    simpa [c', path] using hs
  · intro ρ s hs
    by_cases path : ρ = π ++ [i]
    · subst path
      have : s = d := by simpa [c'] using hs.symm
      exact Or.inr (this ▸ fresh)
    · exact Or.inl (by simpa [c', path] using hs)
  · rintro g (rfl | hg)
    · exact Or.inr ⟨π ++ [i], by simp [c']⟩
    · exact Or.inl hg
  · intro ρ j s e hs he marked
    have ne : ¬ (s = t ∧ j = i) := by
      rintro ⟨rfl, rfl⟩
      rw [good.tree.inj hs h, vacant] at he
      cases he
    have hj := (good.tree.parent he).1.1
    rw [userEntry, other (good.tree.frame hs).aligned hj ne, readEntry_congr hj (tables hs)]
    exact marked
  · intro g hg notTable x hx
    have ne : g ≠ t := by
      rintro rfl
      exact notTable π h
    have kept : c'.st.mem x = (st'.zeroPage d).mem x := write64_outside_page slot.1
      (pageBytes_disjoint (good.aligned hg) (good.tree.frame h).aligned ne hx)
    rw [kept]
    exact zeroed ⟨g, hg, hx⟩
  · intro j lo hi
    have ne : ¬ (root = t ∧ j = i) := by
      rintro ⟨rfl, rfl⟩
      have := slot.2 (good.tree.inj h good.tree.root)
      omega
    rw [other (good.tree.frame good.tree.root).aligned hi ne,
      readEntry_congr hi (tables good.tree.root)]
  · have blank : ∀ j < 512, readEntry c'.st.mem d j = 0 := fun j hj => by
      rw [other hd.aligned hj fun both => new π (both.1 ▸ h), empty j hj]
    calc view c'.st.mem c'.tab q = view c'.st.mem c.tab q := Tree.view_grow vacant blank q
      _ = view (st'.zeroPage d).mem c.tab q := tree.view_inner h shallow slot.1 _ q
      _ = view c.st.mem c.tab q := Tree.view_congr (fun _ _ hs => tables hs) q

/-- What a descent along a path does to the set of tables: it adds tables on the path only, and it fails
only for lack of a frame. -/
structure Descent (pages : PageAllocator A) (J : Machine A → Set Nat → Prop) (path : List Nat)
    (done : Bool) (c c' : Space A) : Prop where
  only : ∀ {ρ s}, c'.tab ρ = some s → c.tab ρ = some s ∨ ρ <+: path
  stuck : done = false → c'.tab path = none ∧
    ∃ st used, J st used ∧ pages.allocPage st = .ok (none, c'.st)

theorem Descent.refl (path : List Nat) : Descent pages J path true c c := ⟨Or.inl, nofun⟩

theorem Descent.trans {path path' : List Nat} {done : Bool} (h : Descent pages J path true c c')
    (inside : path <+: path') (h' : Descent pages J path' done c' c'') :
    Descent pages J path' done c c'' := by
  refine ⟨fun hs => ?_, h'.stuck⟩
  rcases h'.only hs with old | new
  · exact (h.only old).imp_right fun pre => pre.trans inside
  · exact Or.inr new

theorem linkFlags (flags : PageFlags) : (Machine.tableFlagsFor flags).Link := ⟨rfl, rfl, rfl, rfl⟩

/-- `ensure_table` leads to a table at the given slot or fails; nothing is mapped or unmapped. -/
theorem ensureTable_spec (law : Lawful pages J) (good : c.Good J root) (h : c.tab π = some t)
    (shallow : π.length < 3) (slot : Slot π i) (flags : PageFlags) :
    ∃ r c', c.st.ensureTable pages t i (Machine.tableFlagsFor flags) = .ok (r, c'.st) ∧
      c'.Good J root ∧ Extends root c c' ∧
      (∀ q, view c'.st.mem c'.tab q = view c.st.mem c.tab q) ∧
      Descent pages J (π ++ [i]) r.isSome c c' ∧
      ∀ d, r = some d → c'.tab (π ++ [i]) = some d ∧
        (flags.user = true → userEntry c'.st.mem t i = true) := by
  simp only [Machine.ensureTable]
  cases hd : c.tab (π ++ [i]) with
  | some d =>
    obtain ⟨f, link, word⟩ := good.tree.link h hd
    have addr := (good.tree.frame hd).pageAddr
    simp only [word, Entry.isPresent_newPage addr, link.present, if_true,
      Entry.flags_newPage addr, link.huge, Entry.physAddr_newPage addr, Bool.false_eq_true, if_false]
    by_cases patch : ((Machine.tableFlagsFor flags).user && !f.user) = true
    · have marked : ({ f with user := true } : PageFlags).Link := ⟨link.1, link.2, link.3, link.4⟩
      have tree := good.tree.setLink h hd marked fun _ => rfl
      obtain ⟨good', ext⟩ := good.writeEntry law h slot tree (Entry.newPage_lt addr)
        fun _ _ => by rw [Entry.flags_newPage addr]
      refine ⟨some d, _, ?_, good', ext, good.tree.view_inner h shallow slot.1 _, ⟨Or.inl, nofun⟩, ?_⟩
      · rw [if_pos patch, Entry.newTable_eq, link.present, link.huge]
      rintro _ ⟨⟩
      refine ⟨hd, fun _ => ?_⟩
      have here : readEntry (c.st.writeEntry t i (Entry.newPage d { f with user := true })).mem t i =
          Entry.newPage d { f with user := true } := readEntry_write64_same (Entry.newPage_lt addr)
      rw [userEntry, here, Entry.flags_newPage addr]
    · refine ⟨some d, c, by rw [if_neg patch], good, .refl c, fun _ => rfl, .refl _, ?_⟩
      rintro _ ⟨⟩
      refine ⟨hd, fun wanted => ?_⟩
      have already : f.user = true := by
        simpa [Machine.tableFlagsFor, wanted] using patch
      rw [userEntry, word, Entry.flags_newPage addr, already]
  | none =>
    simp only [good.tree.absent h shallow slot hd, Bool.false_eq_true, if_false]
    obtain ⟨r, st', run, same, held⟩ := law.alloc good.held
    simp only [run, ok_bind]
    cases r with
    | none =>
      refine ⟨none, { c with st := st' }, rfl, good.congr same held subset_rfl good.aligned,
        good.extends_of_eqOn same, Tree.view_congr fun _ _ hs => ?_,
        ⟨Or.inl, fun _ => ⟨hd, c.st, c.used, good.held, run⟩⟩, by simp⟩
      exact same.mono (pageBytes_subset (good.tables hs))
    | some d =>
      obtain ⟨frame, fresh, held⟩ := held
      have nonzero : d ≠ 0 := Nat.pos_iff_ne_zero.mp frame.pos
      have link := linkFlags flags
      obtain ⟨good', ext, sameView⟩ :=
        good.grow law h shallow slot hd same frame fresh held link
      refine ⟨some d, _, by simp [nonzero, Entry.newTable_eq], good', ext, sameView, ⟨?_, nofun⟩, ?_⟩
      · intro ρ s hs
        by_cases path : ρ = π ++ [i]
        · exact Or.inr (path ▸ List.prefix_refl _)
        · exact Or.inl (by simpa [path] using hs)
      rintro _ ⟨⟩
      refine ⟨Function.update_self .., fun wanted => ?_⟩
      rw [userEntry, Machine.writeEntry, readEntry_write64_same (Entry.newPage_lt frame.pageAddr),
        Entry.flags_newPage frame.pageAddr]
      exact wanted

/-- Descending from a table of the tree: the tables along the path exist afterwards, and they carry
the USER bit if it was asked for. -/
theorem ensurePath_spec (law : Lawful pages J) (good : c.Good J root) (path : List Nat)
    (h : c.tab π = some t) (depth : (π ++ path).length ≤ 3) (slots : ∀ j ∈ path, j < 512)
    (top : π = [] → ∀ j ∈ path.head?, j < 256) (flags : PageFlags) :
    ∃ r c', Machine.ensurePath pages (Machine.tableFlagsFor flags) path c.st t = .ok (r, c'.st) ∧
      c'.Good J root ∧ Extends root c c' ∧
      (∀ q, view c'.st.mem c'.tab q = view c.st.mem c.tab q) ∧
      Descent pages J (π ++ path) r.isSome c c' ∧
      ∀ d, r = some d → c'.tab (π ++ path) = some d ∧
        (flags.user = true → ∀ {ρ j s}, π.length ≤ ρ.length → ρ ++ [j] <+: π ++ path →
          c'.tab ρ = some s → userEntry c'.st.mem s j = true) := by
  induction path generalizing c π t with
  | nil =>
    refine ⟨some t, c, rfl, good, .refl c, fun _ => rfl, .refl _, ?_⟩
    rintro _ ⟨⟩
    refine ⟨by simpa using h, fun _ ρ j s long pre _ => ?_⟩
    have := pre.length_le
    simp only [List.length_append, List.length_singleton, List.length_nil] at this
    omega
  | cons k path ih =>
    simp only [List.length_append, List.length_cons] at depth
    have slot : Slot π k := ⟨slots k (by simp), fun hπ => top hπ k (by simp)⟩
    obtain ⟨r, c₁, run, good₁, ext₁, view₁, down₁, done₁⟩ :=
      ensureTable_spec law good h (by omega) slot flags
    have further : π ++ [k] <+: π ++ k :: path := ⟨path, by simp⟩
    simp only [Machine.ensurePath, physToVirt_ok (good.tree.frame h).window, run, ok_bind]
    cases r with
    | none =>
      obtain ⟨vacant, why⟩ := down₁.stuck rfl
      refine ⟨none, c₁, rfl, good₁, ext₁, view₁, ⟨fun hs => ?_, fun _ => ⟨?_, why⟩⟩, by simp⟩
      · exact (down₁.only hs).imp_right fun pre => pre.trans further
      · by_contra some
        obtain ⟨s, hs⟩ := Option.ne_none_iff_exists'.mp some
        obtain ⟨u, hu⟩ := good₁.tree.ancestor hs further
        rw [vacant] at hu
        cases hu
    | some d =>
      obtain ⟨hd, mark⟩ := done₁ d rfl
      obtain ⟨r, c₂, run₂, good₂, ext₂, view₂, down₂, done₂⟩ := ih good₁ hd
        (by simp only [List.length_append, List.length_singleton]; omega)
        (fun j hj => slots j (by simp [hj])) (by simp)
      have down : Descent pages J (π ++ k :: path) r.isSome c c₂ :=
        down₁.trans further (by simpa using down₂)
      refine ⟨r, c₂, run₂, good₂, ext₁.trans ext₂, fun q => (view₂ q).trans (view₁ q), down, ?_⟩
      rintro e rfl
      obtain ⟨he, marks⟩ := done₂ e rfl
      refine ⟨by simpa using he, fun wanted ρ j s long pre hs => ?_⟩
      by_cases start : ρ.length = π.length
      · -- the first step of the descent
        obtain ⟨rest, eq⟩ := pre
        obtain ⟨rfl, eq⟩ := List.append_inj (by simpa using eq) start
        obtain ⟨rfl, -⟩ : j = k ∧ rest = path := by simpa using eq
        obtain rfl : s = t := Option.some.inj (hs.symm.trans (ext₂.tab (ext₁.tab h)))
        exact ext₂.user (ext₁.tab h) hd (mark wanted)
      · exact marks wanted (by simp only [List.length_append, List.length_singleton]; omega)
          (by simpa using pre) hs

/-! ## The operations on pages -/

variable {v p : Nat}

theorem pagePath_slots (q : Nat) : ∀ j ∈ pagePath q, j < 512 := by
  simp only [pagePath, List.mem_cons, List.not_mem_nil, or_false]
  rintro j (rfl | rfl | rfl) <;> exact Nat.mod_lt _ (by omega)

theorem map_spec (law : Lawful pages J) (good : c.Good J root) (hv : LowerPage (pageOf v))
    (hp : PageAddr p) (flags : PageFlags) :
    ∃ r c', c.st.map pages root v p flags = .ok (r, c'.st) ∧ c'.Good J root ∧
      Extends root c c' ∧ Descent pages J (pagePath (pageOf v)) r.isSome c c' ∧
      ∀ q < 2 ^ 36, view c'.st.mem c'.tab q =
        if r.isSome then
          Function.update (view c.st.mem c.tab) (pageOf v) (some (p, { flags with present := true })) q
        else view c.st.mem c.tab q := by
  have root' := good.tree.root
  obtain ⟨r, c₁, run, good₁, ext₁, view₁, down, done⟩ := ensurePath_spec law good
    (pagePath (pageOf v)) root' (by simp [pagePath]) (pagePath_slots _)
    (fun _ => by simpa [pagePath] using hv.top) flags
  have path : [pageOf v / 2 ^ 27 % 512, pageOf v / 2 ^ 18 % 512, pageOf v / 2 ^ 9 % 512] =
    pagePath (pageOf v) := rfl
  simp only [Machine.map, Machine.map4kb, fromU64_eq, path, run, ok_bind]
  cases r with
  | none => exact ⟨none, c₁, rfl, good₁, ext₁, down, fun q _ => by simpa using view₁ q⟩
  | some pt =>
    obtain ⟨hpt, marks⟩ := done pt rfl
    rw [List.nil_append] at hpt
    have index := index_lt (pageOf v)
    have word := Entry.newPage_lt (f := { flags with present := true }) hp
    have tree := good₁.tree.setLeaf hpt rfl index (Or.inr ⟨p, { flags with present := true }, hp, rfl, rfl⟩)
      fun wanted ρ j s pre hs => marks (by simpa [hp] using wanted) (by simp) (by simpa using pre) hs
    obtain ⟨good₂, ext₂⟩ := good₁.writeEntry law hpt ⟨index, by simp [pagePath]⟩ tree word
      fun hd => by simpa [pagePath] using good₁.tree.depth hd
    refine ⟨some (), _, ?_, good₂, ext₁.trans ext₂, ⟨fun hs => down.only hs, fun h => by cases h⟩, fun q hq => ?_⟩
    · simp [physToVirt_ok (good₁.tree.frame hpt).window]
    · have leaf := good₁.tree.view_leaf hpt hv.lt word hq
      rw [Entry.decode_newPage hp rfl] at leaf
      simp only [Option.isSome_some, if_true]
      rw [← funext view₁]
      exact leaf

theorem unmap_spec (law : Lawful pages J) (good : c.Good J root) (hv : LowerPage (pageOf v)) :
    ∃ c' : Space A, c.st.unmap root v =
        .ok ((view c.st.mem c.tab (pageOf v)).map Prod.fst, c'.st) ∧
      c'.Good J root ∧ Extends root c c' ∧ c'.st.pool = c.st.pool ∧ c'.tab = c.tab ∧
      c'.used = c.used ∧ ∀ q < 2 ^ 36, view c'.st.mem c'.tab q =
        Function.update (view c.st.mem c.tab) (pageOf v) none q := by
  have path : [pageOf v / 2 ^ 27 % 512, pageOf v / 2 ^ 18 % 512, pageOf v / 2 ^ 9 % 512] =
    pagePath (pageOf v) := rfl
  have walk := good.tree.walkTables_ok (pagePath (pageOf v)) good.tree.root
    (by simp [pagePath]) (pagePath_slots _) (fun _ => by simpa [pagePath] using hv.top)
  simp only [Machine.unmap, fromU64_eq, path, walk, ok_bind, List.nil_append]
  cases hpt : c.tab (pagePath (pageOf v)) with
  | none =>
    have unmapped : view c.st.mem c.tab (pageOf v) = none := Tree.view_of_none hpt
    refine ⟨c, by simp [unmapped], good, .refl c, rfl, rfl, rfl, fun q _ => ?_⟩
    rw [← unmapped, Function.update_eq_self]
  | some pt =>
    have here : view c.st.mem c.tab (pageOf v) = _ := Tree.view_of_some hpt
    have index := index_lt (pageOf v)
    simp only [physToVirt_ok (good.tree.frame hpt).window, ok_bind, here, Entry.decode]
    by_cases present : Entry.isPresent (readEntry c.st.mem pt (pageOf v % 512)) = true
    · have tree := good.tree.setLeaf hpt rfl index (Or.inl rfl) (by simp [Entry.flags,
        PageFlags.fromBitsTruncate])
      obtain ⟨good', ext⟩ := good.writeEntry law hpt ⟨index, by simp [pagePath]⟩ tree (by omega)
        fun hd => by simpa [pagePath] using good.tree.depth hd
      refine ⟨_, by simp [present], good', ext, rfl, rfl, rfl, fun q hq => ?_⟩
      exact good.tree.view_leaf hpt hv.lt (by omega) hq
    · refine ⟨c, by simp [present], good, .refl c, rfl, rfl, rfl, fun q _ => ?_⟩
      have unmapped : view c.st.mem c.tab (pageOf v) = none := by
        rw [here, Entry.decode, if_neg present]
      rw [← unmapped, Function.update_eq_self]

/-- The tables of a new address space: the top-level one alone. -/
def newTables (root : Nat) : Tables := fun π => if π = [] then some root else none

theorem newTables_eq_some {root t : Nat} : newTables root π = some t ↔ π = [] ∧ t = root := by
  unfold newTables
  split <;> simp_all [eq_comm]

theorem newTables_tree {m : Memory} (table : TableFrame root)
    (empty : ∀ i < 256, readEntry m root i = 0) : Tree m root (newTables root) := by
  have child {π : List Nat} {i c} : newTables root (π ++ [i]) ≠ some c := by
    simp [newTables_eq_some]
  have top {π : List Nat} {t} (h : newTables root π = some t) : π = [] ∧ t = root :=
    newTables_eq_some.mp h
  have short {π : List Nat} {t} (h : newTables root π = some t) : π.length ≠ 3 := by
    simp [(top h).1]
  constructor
  case root => exact newTables_eq_some.mpr ⟨rfl, rfl⟩
  case frame => exact fun h => (top h).2 ▸ table
  case depth => exact fun h => by simp [(top h).1]
  case inj => exact fun h h' => (top h).1.trans (top h').1.symm
  case parent => exact fun h => absurd h child
  case link => exact fun _ h => absurd h child
  case absent =>
    intro π i t h _ slot _
    obtain ⟨rfl, rfl⟩ := top h
    rw [empty i (slot.2 rfl), Entry.isPresent_zero]
  case leaf => exact fun h deep => absurd deep (short h)
  case user => exact fun h deep => absurd deep (short h)

theorem newUser_spec {st st' : Machine A} {used : Set Nat} {kernel pid : Nat}
    (law : Lawful pages J) (held : J st used) (aligned : ∀ {f}, f ∈ used → PAGE_SIZE ∣ f)
    (run : st.newUser pages kernel pid = .ok (some root, st')) :
    Good J root ⟨st', newTables root, insert root used⟩ ∧ root ∉ used ∧
      Set.EqOn st'.mem st.mem (bytesOf used) ∧ ∀ q, view st'.mem (newTables root) q = none := by
  obtain ⟨r, st₁, alloc, same, held₁⟩ := law.alloc held
  simp only [Machine.newUser, alloc, ok_bind] at run
  cases r with
  | none => simp at run
  | some frame =>
    obtain ⟨pool, track, run⟩ := bind_eq_ok.mp run
    obtain ⟨_, _, run⟩ := bind_eq_ok.mp run
    obtain ⟨rfl, rfl⟩ : frame = root ∧ _ = st' := by simpa using run
    obtain ⟨table, fresh, held₁⟩ := held₁
    have outside {x} (hx : x ∉ pageBytes frame) :
        (Machine.copyKernelHalf (Machine.zeroPage ⟨st₁.mem, pool⟩ frame) kernel frame).mem x =
          st₁.mem x := by
      have beyond : x < frame + 8 * 256 ∨ frame + 8 * 256 + 8 * 256 ≤ x := by
        simp only [pageBytes, Set.mem_Ico, PAGE_SIZE] at hx
        omega
      exact (Memory.copy_outside beyond).trans (zeroPage_outside hx)
    have empty : ∀ i < 256, readEntry (Machine.copyKernelHalf
        (Machine.zeroPage ⟨st₁.mem, pool⟩ frame) kernel frame).mem frame i = 0 := by
      intro i hi
      have lower : readEntry (Machine.zeroPage ⟨st₁.mem, pool⟩ frame).mem frame i = 0 :=
        Memory.read64_fill_zero (by omega) (by simp only [PAGE_SIZE]; omega)
      rw [← lower]
      exact Memory.read64_congr fun x _ _ => Memory.copy_outside (by omega)
    refine ⟨⟨newTables_tree table empty, ?_, ?_, ?_⟩, fresh, ?_, fun q => ?_⟩
    · have tracked := law.track held₁ track
      have written := law.write tracked fun x hx =>
        outside fun hp => hx (pageBytes_subset (Set.mem_insert _ _) hp)
      exact written
    · intro π t h
      rw [(newTables_eq_some.mp h).2]
      exact Set.mem_insert _ _
    · rintro f (rfl | hf)
      · exact table.aligned
      · exact aligned hf
    · rintro x ⟨f, hf, hx⟩
      have ne : f ≠ frame := by
        rintro rfl
        exact fresh hf
      rw [outside (pageBytes_disjoint (aligned hf) table.aligned ne hx)]
      exact same ⟨f, hf, hx⟩
    · exact Tree.view_of_none (by simp [newTables, pagePath])

end Space
end Ferrum
