import Ferrum.Paging.Operations

/-!
# Tables with large pages

An entry of the third level may map two megabytes instead of leading to a table. `Mixed m root tab`
describes all four levels of such a tree, with both halves of the top-level table: which paths lead to
tables, and that an entry without a table is absent or, on the third level, a large page. The words of
the last level may be anything.

Every operation changes one entry at a time, so there is one lemma about changing an entry.
-/
namespace Ferrum

/-- An entry that leads to a table. -/
structure Entry.Leads (e c : Nat) : Prop where
  present : Entry.isPresent e = true
  small : (Entry.flags e).huge = false
  addr : Entry.physAddr e = c

/-- A present entry that maps a large page. -/
def Entry.Large (e : Nat) : Prop := Entry.isPresent e = true ∧ (Entry.flags e).huge = true

instance (e : Nat) : Decidable (Entry.Large e) := inferInstanceAs (Decidable (_ ∧ _))

structure Mixed (m : Memory) (root : Nat) (tab : Tables) : Prop where
  root : tab [] = some root
  frame : ∀ {π t}, tab π = some t → TableFrame t
  depth : ∀ {π t}, tab π = some t → π.length ≤ 3
  inj : ∀ {π ρ t}, tab π = some t → tab ρ = some t → π = ρ
  parent : ∀ {π i c}, tab (π ++ [i]) = some c → i < 512 ∧ ∃ t, tab π = some t
  link : ∀ {π i t c}, tab π = some t → tab (π ++ [i]) = some c → Entry.Leads (readEntry m t i) c
  vacant : ∀ {π i t}, tab π = some t → π.length < 3 → i < 512 → tab (π ++ [i]) = none →
    Entry.isPresent (readEntry m t i) = false ∨ (π.length = 2 ∧ Entry.Large (readEntry m t i))

namespace Mixed

variable {m m' : Memory} {root t i e : Nat} {tab : Tables} {π : List Nat} {x : Option Nat}

theorem congr (mixed : Mixed m root tab)
    (same : ∀ π t, tab π = some t → Set.EqOn m' m (pageBytes t)) : Mixed m' root tab := by
  refine { mixed with link := fun h hc => ?_, vacant := fun h hl hi hc => ?_ }
  · rw [readEntry_congr (mixed.parent hc).1 (same _ _ h)]
    exact mixed.link h hc
  · rw [readEntry_congr hi (same _ _ h)]
    exact mixed.vacant h hl hi hc

theorem ancestor (mixed : Mixed m root tab) (h : tab π = some t) {ρ : List Nat} (hρ : ρ <+: π) :
    ∃ s, tab ρ = some s := by
  obtain ⟨rest, rfl⟩ := hρ
  induction rest using List.reverseRecOn generalizing t with
  | nil => exact ⟨t, by simpa using h⟩
  | append_singleton rest j ih =>
    rw [← List.append_assoc] at h
    obtain ⟨-, s, hs⟩ := mixed.parent h
    exact ih hs

/-- What may stand in an entry, given the table that it leads to. -/
def Fits (π : List Nat) (e : Nat) : Option Nat → Prop
  | some c => π.length < 3 ∧ Entry.Leads e c
  | none => π.length < 3 → Entry.isPresent e = false ∨ (π.length = 2 ∧ Entry.Large e)

/-- The table behind an entry is the one that was there, or a new and empty one, or none if there are no
tables below the old one. -/
def Replaces (m : Memory) (tab : Tables) (path : List Nat) : Option Nat → Prop
  | some c => tab path = some c ∨ (tab path = none ∧ TableFrame c ∧ (∀ ρ, tab ρ ≠ some c) ∧
      ∀ j < 512, readEntry m c j = 0)
  | none => ∀ j, tab (path ++ [j]) = none

section Set

variable {ρ : List Nat} {s j d : Nat} (mixed : Mixed m root tab) (h : tab π = some t)

include mixed in
/-- The table behind the entry: it is no other, and it is the old one or empty. -/
theorem set_new {c : Nat} (replaces : Replaces m tab (π ++ [i]) (some c)) :
    TableFrame c ∧ (∀ ρ, tab ρ = some c → ρ = π ++ [i]) ∧
      (tab (π ++ [i]) = some c ∨ ∀ j < 512, readEntry m c j = 0) := by
  rcases replaces with same | ⟨-, frame, fresh, empty⟩
  · exact ⟨mixed.frame same, fun ρ hρ => mixed.inj hρ same, .inl same⟩
  · exact ⟨frame, fun ρ hρ => absurd hρ (fresh ρ), .inr empty⟩

include h in
theorem set_old : Function.update tab (π ++ [i]) x π = some t := by
  rw [Function.update_of_ne (by simp), h]

include mixed h

theorem set_other (hi : i < 512) (hs : PAGE_SIZE ∣ s) (hj : j < 512) (ne : ¬ (s = t ∧ j = i)) :
    readEntry (m.write64 (t + 8 * i) e) s j = readEntry m s j :=
  readEntry_write64 (mixed.frame h).aligned hs hi hj ne

theorem set_parent (hi : i < 512) (replaces : Replaces m tab (π ++ [i]) x)
    (hd : Function.update tab (π ++ [i]) x (ρ ++ [j]) = some d) :
    j < 512 ∧ ∃ s, Function.update tab (π ++ [i]) x ρ = some s := by
  rcases Tables.update_eq_some.mp hd with ⟨eq, -⟩ | ⟨-, before⟩
  · obtain ⟨rfl, rfl⟩ := List.append_singleton_inj.mp eq
    exact ⟨hi, t, set_old h⟩
  · obtain ⟨hj, s, hs⟩ := mixed.parent before
    refine ⟨hj, ?_⟩
    by_cases path : ρ = π ++ [i]
    -- tables below the changed entry are below the table that stays
    · subst path
      cases x with
      | some c => exact ⟨c, Function.update_self ..⟩
      | none =>
        rw [replaces j] at before
        cases before
    · exact ⟨s, by rw [Function.update_of_ne path, hs]⟩

theorem set_link (hi : i < 512) (he : e < 2 ^ 64) (fits : Fits π e x)
    (replaces : Replaces m tab (π ++ [i]) x) (hs : Function.update tab (π ++ [i]) x ρ = some s)
    (hd : Function.update tab (π ++ [i]) x (ρ ++ [j]) = some d) :
    Entry.Leads (readEntry (m.write64 (t + 8 * i) e) s j) d := by
  rcases Tables.update_eq_some.mp hd with ⟨eq, hx⟩ | ⟨ne, hd⟩
  · obtain ⟨rfl, rfl⟩ := List.append_singleton_inj.mp eq
    obtain rfl : s = t := Option.some.inj (hs.symm.trans (set_old h))
    subst hx
    rw [readEntry_write64_same he]
    exact fits.2
  · obtain ⟨hj, s', hs'⟩ := mixed.parent hd
    obtain rfl : s = s' := by
      rcases Tables.update_eq_some.mp hs with ⟨rfl, hx⟩ | ⟨-, hs⟩
      · subst hx
        rcases replaces with same | ⟨nothing, -⟩
        · exact Option.some.inj (same.symm.trans hs')
        · rw [nothing] at hs'
          cases hs'
      · exact Option.some.inj (hs.symm.trans hs')
    rw [mixed.set_other h hi (mixed.frame hs').aligned hj]
    · exact mixed.link hs' hd
    · rintro ⟨rfl, rfl⟩
      exact ne (by rw [mixed.inj h hs'])

theorem set_vacant (hi : i < 512) (he : e < 2 ^ 64) (fits : Fits π e x)
    (replaces : Replaces m tab (π ++ [i]) x) (hs : Function.update tab (π ++ [i]) x ρ = some s)
    (hl : ρ.length < 3) (hj : j < 512) (hd : Function.update tab (π ++ [i]) x (ρ ++ [j]) = none) :
    Entry.isPresent (readEntry (m.write64 (t + 8 * i) e) s j) = false ∨
      (ρ.length = 2 ∧ Entry.Large (readEntry (m.write64 (t + 8 * i) e) s j)) := by
  by_cases same : ρ ++ [j] = π ++ [i]
  · obtain ⟨rfl, rfl⟩ := List.append_singleton_inj.mp same
    obtain rfl : s = t := Option.some.inj (hs.symm.trans (set_old h))
    rw [Function.update_self] at hd
    subst hd
    rw [readEntry_write64_same he]
    exact fits hl
  · rw [Function.update_of_ne same] at hd
    rcases Tables.update_eq_some.mp hs with ⟨rfl, rfl⟩ | ⟨-, before⟩
    -- an entry of the table that the changed entry leads to
    · obtain ⟨frame, only, stays | empty⟩ := mixed.set_new replaces
      all_goals
        have ne : ¬ (s = t ∧ j = i) := by
          rintro ⟨rfl, -⟩
          exact absurd (only _ h) (by simp)
        rw [mixed.set_other h hi frame.aligned hj ne]
      · exact mixed.vacant stays hl hj hd
      · exact .inl (by rw [empty j hj, Entry.isPresent_zero])
    · rw [mixed.set_other h hi (mixed.frame before).aligned hj]
      · exact mixed.vacant before hl hj hd
      · rintro ⟨rfl, rfl⟩
        exact same (by rw [mixed.inj h before])

end Set

theorem set (mixed : Mixed m root tab) (h : tab π = some t) (hi : i < 512) (he : e < 2 ^ 64)
    (fits : Fits π e x) (replaces : Replaces m tab (π ++ [i]) x) :
    Mixed (m.write64 (t + 8 * i) e) root (Function.update tab (π ++ [i]) x) := by
  constructor
  case root =>
    rw [Function.update_of_ne (by simp)]
    exact mixed.root
  case frame =>
    intro ρ s hs
    rcases Tables.update_eq_some.mp hs with ⟨-, rfl⟩ | ⟨-, hs⟩
    · exact (mixed.set_new replaces).1
    · exact mixed.frame hs
  case depth =>
    intro ρ s hs
    rcases Tables.update_eq_some.mp hs with ⟨rfl, rfl⟩ | ⟨-, hs⟩
    · have := fits.1
      simp only [List.length_append, List.length_singleton]
      omega
    · exact mixed.depth hs
  case inj =>
    intro ρ σ s hs hs'
    rcases Tables.update_eq_some.mp hs with ⟨rfl, rfl⟩ | ⟨-, old⟩ <;>
      rcases Tables.update_eq_some.mp hs' with ⟨rfl, hx⟩ | ⟨-, old'⟩
    · rfl
    · exact ((mixed.set_new replaces).2.1 _ old').symm
    · subst hx
      exact (mixed.set_new replaces).2.1 _ old
    · exact mixed.inj old old'
  case parent => exact mixed.set_parent h hi replaces
  case link => exact mixed.set_link h hi he fits replaces
  case vacant => exact mixed.set_vacant h hi he fits replaces

end Mixed

/-! ## What the tables map -/

/-- The indices of the two tables that lead to the directory entry of a page. -/
def dirPath (q : Nat) : List Nat := [q / 2 ^ 27 % 512, q / 2 ^ 18 % 512]

theorem pagePath_eq (q : Nat) : pagePath q = dirPath q ++ [q / 2 ^ 9 % 512] := rfl

/-- The frame that an entry of the last level maps. -/
def Entry.frameOf (e : Nat) : Option Nat := if isPresent e then some (physAddr e) else none

/-- The frame behind a page, in a small or in a large page. -/
def lookup (m : Memory) (tab : Tables) (q : Nat) : Option Nat :=
  (tab (dirPath q)).bind fun pd =>
    if Entry.Large (readEntry m pd (q / 2 ^ 9 % 512)) then
      some (Entry.physAddr (readEntry m pd (q / 2 ^ 9 % 512)) + q % 512 * PAGE_SIZE)
    else (tab (pagePath q)).bind fun pt => Entry.frameOf (readEntry m pt (q % 512))

theorem Entry.Leads.notLarge {e c : Nat} (leads : Entry.Leads e c) : ¬ Entry.Large e := by
  rintro ⟨-, large⟩
  rw [leads.small] at large
  cases large

namespace Mixed

variable {m m' : Memory} {root t i e c q : Nat} {tab : Tables} {π : List Nat} {x : Option Nat}

/-- The entries that lead to a page, from the top-level table on. -/
def fullPath (q : Nat) : List Nat := pagePath q ++ [q % 512]

theorem pagePath_begins (q : Nat) : pagePath q <+: fullPath q := List.prefix_append _ _

theorem dirPath_begins (q : Nat) : dirPath q <+: fullPath q :=
  (List.prefix_append (dirPath q) [q / 2 ^ 9 % 512]).trans (pagePath_begins q)

theorem beyond (mixed : Mixed m root tab) (deep : 3 < π.length) : tab π = none := by
  by_contra some
  obtain ⟨d, hd⟩ := Option.ne_none_iff_exists'.mp some
  exact absurd (mixed.depth hd) (Nat.not_le.mpr deep)

theorem update_beyond (mixed : Mixed m root tab) (deep : 3 < π.length) :
    Function.update tab π none = tab := by
  rw [← mixed.beyond deep, Function.update_eq_self]

theorem lookup_congr (same : ∀ π t, tab π = some t → Set.EqOn m' m (pageBytes t)) (q : Nat) :
    lookup m' tab q = lookup m tab q := by
  rw [lookup, lookup]
  cases hpd : tab (dirPath q) with
  | none => rw [Option.bind_none, Option.bind_none]
  | some pd =>
    rw [Option.bind_some, Option.bind_some, readEntry_congr (index_lt _) (same _ _ hpd)]
    cases hpt : tab (pagePath q) with
    | none => rw [Option.bind_none, Option.bind_none]
    | some pt => rw [Option.bind_some, Option.bind_some, readEntry_congr (index_lt _) (same _ _ hpt)]

theorem lookup_of_none (h : tab (dirPath q) = none) : lookup m tab q = none := by
  rw [lookup, h]
  rfl

theorem lookup_of_table (mixed : Mixed m root tab) {pt : Nat} (h : tab (pagePath q) = some pt) :
    lookup m tab q = Entry.frameOf (readEntry m pt (q % 512)) := by
  obtain ⟨-, pd, hpd⟩ := mixed.parent (pagePath_eq q ▸ h)
  have leads := mixed.link hpd (pagePath_eq q ▸ h)
  rw [lookup, hpd, Option.bind_some, if_neg leads.notLarge, h, Option.bind_some]

/-- A directory that has no table for a page maps a large one or nothing. -/
theorem lookup_of_vacant {pd : Nat} (hpd : tab (dirPath q) = some pd) (h : tab (pagePath q) = none) :
    lookup m tab q = if Entry.Large (readEntry m pd (q / 2 ^ 9 % 512)) then
      some (Entry.physAddr (readEntry m pd (q / 2 ^ 9 % 512)) + q % 512 * PAGE_SIZE) else none := by
  rw [lookup, hpd, Option.bind_some, h, Option.bind_none]

theorem lookup_set_off (mixed : Mixed m root tab) (h : tab π = some t) (hi : i < 512)
    (off : ¬ π ++ [i] <+: fullPath q) :
    lookup (m.write64 (t + 8 * i) e) (Function.update tab (π ++ [i]) x) q = lookup m tab q := by
  have dir : dirPath q ≠ π ++ [i] := by
    rintro same
    exact off (same ▸ dirPath_begins q)
  have page : pagePath q ≠ π ++ [i] := by
    rintro same
    exact off (same ▸ pagePath_begins q)
  have other {ρ s j} (hs : tab ρ = some s) (hj : j < 512) (pre : ρ ++ [j] <+: fullPath q) :
      readEntry (m.write64 (t + 8 * i) e) s j = readEntry m s j := by
    refine readEntry_write64 (mixed.frame h).aligned (mixed.frame hs).aligned hi hj ?_
    rintro ⟨rfl, rfl⟩
    exact off (mixed.inj h hs ▸ pre)
  rw [lookup, lookup, Function.update_of_ne dir, Function.update_of_ne page]
  cases hpd : tab (dirPath q) with
  | none => rw [Option.bind_none, Option.bind_none]
  | some pd =>
    have dirEntry := other (j := q / 2 ^ 9 % 512) hpd (index_lt _) (pagePath_eq q ▸ pagePath_begins q)
    rw [Option.bind_some, Option.bind_some, dirEntry]
    cases hpt : tab (pagePath q) with
    | none => rw [Option.bind_none, Option.bind_none]
    | some pt =>
      have pageEntry := other (j := q % 512) hpt (index_lt _) (List.prefix_refl _)
      rw [Option.bind_some, Option.bind_some, pageEntry]

theorem set_leaf (mixed : Mixed m root tab) (h : tab (pagePath q) = some t) (he : e < 2 ^ 64) :
    Mixed (m.write64 (t + 8 * (q % 512)) e) root tab := by
  have changed := mixed.set (x := none) h (index_lt q) he (fun short => by simp [pagePath] at short)
    fun j => mixed.beyond (by simp [pagePath])
  rwa [mixed.update_beyond (by simp [pagePath])] at changed

theorem lookup_set_leaf (mixed : Mixed m root tab) (h : tab (pagePath q) = some t) (he : e < 2 ^ 64)
    {r : Nat} (hq : q < 2 ^ 36) (hr : r < 2 ^ 36) :
    lookup (m.write64 (t + 8 * (q % 512)) e) tab r =
      Function.update (lookup m tab) q (Entry.frameOf e) r := by
  by_cases here : r = q
  · subst here
    rw [Function.update_self, (mixed.set_leaf h he).lookup_of_table h, readEntry_write64_same he]
  · rw [Function.update_of_ne here]
    have off : ¬ pagePath q ++ [q % 512] <+: fullPath r := by
      intro pre
      have both : pagePath q ++ [q % 512] = pagePath r ++ [r % 512] :=
        pre.eq_of_length (by simp [fullPath, pagePath])
      obtain ⟨path, index⟩ := List.append_singleton_inj.mp both
      exact here (pagePath_inj hr hq path.symm index.symm)
    have unchanged := mixed.lookup_set_off (x := none) (e := e) h (index_lt _) off
    rwa [mixed.update_beyond (by simp [pagePath])] at unchanged

theorem prefix_cases (short : π.length < 3) (pre : π ++ [i] <+: fullPath q) :
    π ++ [i] = [q / 2 ^ 27 % 512] ∨ π ++ [i] = dirPath q ∨ π ++ [i] = pagePath q := by
  have taken := List.prefix_iff_eq_take.mp pre
  rw [List.length_append, List.length_singleton] at taken
  rcases lengths : π.length with _ | _ | _ | n
  · exact .inl (taken.trans (by rw [lengths]; rfl))
  · exact .inr (.inl (taken.trans (by rw [lengths]; rfl)))
  · exact .inr (.inr (taken.trans (by rw [lengths]; rfl)))
  · omega

theorem notLarge_zero : ¬ Entry.Large 0 := by decide

/-- A link to a table, the old one or a new and empty one, maps nothing new. -/
theorem lookup_set_link (mixed : Mixed m root tab) (h : tab π = some t) (hi : i < 512)
    (short : π.length < 3) (he : e < 2 ^ 64) (leads : Entry.Leads e c)
    (replaces : Replaces m tab (π ++ [i]) (some c))
    (unmapped : tab (π ++ [i]) = none → Entry.isPresent (readEntry m t i) = false) :
    lookup (m.write64 (t + 8 * i) e) (Function.update tab (π ++ [i]) (some c)) q = lookup m tab q := by
  by_cases on : π ++ [i] <+: fullPath q
  · have mixed' := mixed.set (x := some c) h hi he ⟨short, leads⟩ replaces
    have moved : Function.update tab (π ++ [i]) (some c) (π ++ [i]) = some c := Function.update_self ..
    have here : readEntry (m.write64 (t + 8 * i) e) t i = e := readEntry_write64_same he
    rcases replaces with same | ⟨nothing, frame, fresh, empty⟩
    -- the old table: no entry that the lookup reads has become or has been a large page
    · have unchanged : Function.update tab (π ++ [i]) (some c) = tab := by
        rw [← same, Function.update_eq_self]
      rw [unchanged] at mixed' ⊢
      cases hpt : tab (pagePath q) with
      | some pt =>
        have apart : ¬ (pt = t ∧ q % 512 = i) := by
          rintro ⟨rfl, -⟩
          rw [mixed.inj h hpt] at short
          simp [pagePath] at short
        rw [mixed'.lookup_of_table hpt, mixed.lookup_of_table hpt,
          readEntry_write64 (mixed.frame h).aligned (mixed.frame hpt).aligned hi (index_lt _) apart]
      | none =>
        cases hpd : tab (dirPath q) with
        | none => rw [lookup_of_none hpd, lookup_of_none hpd]
        | some pd =>
          have apart : ¬ (pd = t ∧ q / 2 ^ 9 % 512 = i) := by
            rintro ⟨rfl, rfl⟩
            rw [mixed.inj h hpd, ← pagePath_eq, hpt] at same
            cases same
          rw [lookup_of_vacant hpd hpt, lookup_of_vacant hpd hpt,
            readEntry_write64 (mixed.frame h).aligned (mixed.frame hpd).aligned hi (index_lt _) apart]
    -- a new table: nothing was mapped behind the entry, and nothing is
    · have blank (j : Nat) (hj : j < 512) : readEntry (m.write64 (t + 8 * i) e) c j = 0 := by
        rw [readEntry_write64 (mixed.frame h).aligned frame.aligned hi hj, empty j hj]
        rintro ⟨rfl, -⟩
        exact fresh π h
      have below {ρ : List Nat} (j : Nat) (absent : tab ρ = none) : tab (ρ ++ [j]) = none := by
        by_contra some
        obtain ⟨d, hd⟩ := Option.ne_none_iff_exists'.mp some
        obtain ⟨-, s, hs⟩ := mixed.parent hd
        rw [absent] at hs
        cases hs
      rcases prefix_cases short on with top | dir | page
      · rw [top] at nothing ⊢
        have absent : tab (dirPath q) = none := below (q / 2 ^ 18 % 512) nothing
        have still : Function.update tab [q / 2 ^ 27 % 512] (some c) (dirPath q) = none := by
          rw [Function.update_of_ne (by simp [dirPath]), absent]
        rw [lookup_of_none still, lookup_of_none absent]
      · rw [dir] at nothing moved ⊢
        have absent : tab (pagePath q) = none := below (q / 2 ^ 9 % 512) nothing
        have still : Function.update tab (dirPath q) (some c) (pagePath q) = none := by
          rw [Function.update_of_ne (by simp [dirPath, pagePath]), absent]
        rw [lookup_of_vacant moved still, blank _ (index_lt _), if_neg notLarge_zero, lookup_of_none nothing]
      · rw [page] at nothing moved mixed' ⊢
        obtain ⟨rfl, rfl⟩ := List.append_singleton_inj.mp (page.trans (pagePath_eq q))
        have hollow : ¬ Entry.Large (readEntry m t (q / 2 ^ 9 % 512)) := by
          rintro ⟨present, -⟩
          rw [unmapped nothing] at present
          cases present
        rw [mixed'.lookup_of_table moved, blank _ (index_lt _), lookup_of_vacant h nothing, if_neg hollow]
        rfl
  · exact mixed.lookup_set_off h hi on

theorem lookup_set_large (mixed : Mixed m root tab) (h : tab (dirPath q) = some t) (he : e < 2 ^ 64)
    (large : Entry.Large e) {r : Nat} (hq : q < 2 ^ 36) (hr : r < 2 ^ 36) :
    lookup (m.write64 (t + 8 * (q / 2 ^ 9 % 512)) e) (Function.update tab (pagePath q) none) r =
      if r / 512 = q / 512 then some (Entry.physAddr e + r % 512 * PAGE_SIZE) else lookup m tab r := by
  by_cases same : r / 512 = q / 512
  · have dir : dirPath r = dirPath q := by
      simp only [dirPath, List.cons.injEq, and_true]
      omega
    have index : r / 2 ^ 9 % 512 = q / 2 ^ 9 % 512 := by omega
    have page : pagePath r = pagePath q := by rw [pagePath_eq, pagePath_eq, dir, index]
    have found : Function.update tab (pagePath q) none (dirPath r) = some t := by
      rw [dir, Function.update_of_ne (by simp [dirPath, pagePath]), h]
    have gone : Function.update tab (pagePath q) none (pagePath r) = none := by
      rw [page, Function.update_self]
    rw [if_pos same, lookup_of_vacant found gone, index, readEntry_write64_same he, if_pos large]
  · rw [if_neg same, pagePath_eq q]
    refine mixed.lookup_set_off h (index_lt _) fun pre => same ?_
    have taken := List.prefix_iff_eq_take.mp pre
    simp only [dirPath, fullPath, pagePath, List.cons_append, List.nil_append, List.length_cons,
      List.length_nil, List.take_succ_cons, List.take_zero, List.cons.injEq, and_true] at taken
    omega

/-! ## Looking up -/

theorem walkTables_append (m : Memory) (path rest : List Nat) (t : Nat) :
    Machine.walkTables m (path ++ rest) t = (do
      match ← Machine.walkTables m path t with
      | none => return none
      | some t => Machine.walkTables m rest t) := by
  induction path generalizing t with
  | nil => rfl
  | cons j path ih =>
    rw [List.cons_append, Machine.walkTables, Machine.walkTables]
    cases physToVirt t with
    | error e => rfl
    | ok v =>
      simp only [ok_bind]
      split
      · exact ih _
      · rfl

/-- Following the entries of the two upper levels stays among the tables. -/
theorem walkTables_ok (mixed : Mixed m root tab) (path : List Nat) (h : tab π = some t)
    (depth : (π ++ path).length ≤ 2) (slots : ∀ j ∈ path, j < 512) :
    Machine.walkTables m path t = .ok (tab (π ++ path)) := by
  induction path generalizing π t with
  | nil => simp [Machine.walkTables, h]
  | cons j path ih =>
    have hj := slots j (by simp)
    simp only [List.length_append, List.length_cons] at depth
    have further : π ++ j :: path = π ++ [j] ++ path := by simp
    simp only [Machine.walkTables, physToVirt_ok (mixed.frame h).window, ok_bind]
    cases hc : tab (π ++ [j]) with
    | none =>
      have absent : Entry.isPresent (readEntry m t j) = false := by
        rcases mixed.vacant h (by omega) hj hc with absent | ⟨two, -⟩
        · exact absent
        · omega
      have nothing : tab (π ++ j :: path) = none := by
        by_contra some
        obtain ⟨d, hd⟩ := Option.ne_none_iff_exists'.mp some
        obtain ⟨s, hs⟩ := mixed.ancestor (further ▸ hd) (List.prefix_append _ _)
        rw [hc] at hs
        cases hs
      simp [absent, nothing]
    | some c =>
      have leads := mixed.link h hc
      simp only [leads.present, if_true, leads.addr]
      rw [further]
      exact ih hc (by simp only [List.length_append, List.length_singleton]; omega)
        (fun k hk => slots k (by simp [hk]))

theorem dirPath_slots (q : Nat) : ∀ j ∈ dirPath q, j < 512 := by
  simp only [dirPath, List.mem_cons, List.not_mem_nil, or_false]
  rintro j (rfl | rfl)
  all_goals exact index_lt _

theorem translate_eq (mixed : Mixed m root tab) (v : Nat) :
    Machine.translate m root v =
      .ok ((lookup m tab (pageOf v)).map fun frame => frame + v % PAGE_SIZE) := by
  have walk := mixed.walkTables_ok (dirPath (pageOf v)) mixed.root (Nat.le_refl 2) (dirPath_slots _)
  rw [List.nil_append, dirPath] at walk
  have offset : v &&& (SIZE_2MB - 1) = pageOf v % 512 * PAGE_SIZE + v % PAGE_SIZE := by
    have mask : v &&& (SIZE_2MB - 1) = v % 2 ^ 21 := Nat.and_two_pow_sub_one_eq_mod v 21
    rw [mask]
    simp only [pageOf, PAGE_SIZE]
    omega
  simp only [Machine.translate, fromU64_eq, walk, ok_bind]
  rw [← dirPath]
  cases hpd : tab (dirPath (pageOf v)) with
  | none => rw [lookup_of_none hpd]; rfl
  | some pd =>
    simp only [physToVirt_ok (mixed.frame hpd).window, ok_bind]
    cases hpt : tab (pagePath (pageOf v)) with
    | some pt =>
      have leads := mixed.link hpd (pagePath_eq (pageOf v) ▸ hpt)
      simp only [leads.present, leads.small, leads.addr, physToVirt_ok (mixed.frame hpt).window,
        mixed.lookup_of_table hpt, Entry.frameOf, ok_bind, Bool.not_true, Bool.false_eq_true, if_false]
      cases Entry.isPresent (readEntry m pt (pageOf v % 512)) with
      | false => rfl
      | true => rfl
    | none =>
      rw [lookup_of_vacant hpd hpt]
      rcases mixed.vacant hpd (by simp [dirPath]) (index_lt (pageOf v / 2 ^ 9))
          (pagePath_eq (pageOf v) ▸ hpt) with absent | ⟨-, large⟩
      · have hollow : ¬ Entry.Large (readEntry m pd (pageOf v / 2 ^ 9 % 512)) := by
          rintro ⟨present, -⟩
          rw [absent] at present
          cases present
        rw [if_neg hollow, absent]
        rfl
      · rw [if_pos large, large.1, large.2, offset]
        simp only [Bool.not_true, Bool.false_eq_true, if_false, if_true, Option.map_some, Nat.add_assoc,
          pure_eq_ok]

end Mixed
end Ferrum
