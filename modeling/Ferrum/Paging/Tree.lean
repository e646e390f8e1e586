import Ferrum.Paging.Entry
import Mathlib

/-!
# The tree of page tables

`Tree m root tab` describes the lower half of the tables under `root`: `tab` sends a path of
indices to the frame of the table that it leads to. Different paths lead to different frames, every
linking entry carries PRESENT and WRITABLE and neither HUGE nor NO_EXEC, and the path to a page with
the USER bit has that bit throughout.

Three changes of memory keep such a tree: a new flag on a link, a new table, a new leaf entry.
-/
namespace Ferrum

/-- The bytes of a page. -/
def pageBytes (frame : Nat) : Set Nat := Set.Ico frame (frame + PAGE_SIZE)

/-- A frame that can serve as a table: page-aligned, in the higher-half window, not page 0. -/
structure TableFrame (t : Nat) : Prop where
  aligned : PAGE_SIZE ∣ t
  pos : 0 < t
  window : t < DIRECT_MAP_END

theorem TableFrame.pageAddr {t : Nat} (h : TableFrame t) : PageAddr t :=
  ⟨h.aligned, lt_of_lt_of_le h.window (by decide)⟩

/-- Entries of one table do not overlap, nor do those of different tables. -/
theorem readEntry_write64 {m : Memory} {t t' i j e : Nat} (ht : PAGE_SIZE ∣ t) (ht' : PAGE_SIZE ∣ t')
    (hi : i < 512) (hj : j < 512) (ne : ¬ (t' = t ∧ j = i)) :
    readEntry (m.write64 (t + 8 * i) e) t' j = readEntry m t' j := by
  apply Memory.read64_write64_of_disjoint
  obtain ⟨k, rfl⟩ := ht
  obtain ⟨k', rfl⟩ := ht'
  simp only [PAGE_SIZE] at *
  omega

theorem readEntry_write64_same {m : Memory} {t i e : Nat} (he : e < 2 ^ 64) :
    readEntry (m.write64 (t + 8 * i) e) t i = e := by
  rw [readEntry, Memory.read64_write64, Nat.mod_eq_of_lt he]

theorem readEntry_congr {m m' : Memory} {t i : Nat} (hi : i < 512)
    (same : Set.EqOn m' m (pageBytes t)) : readEntry m' t i = readEntry m t i := by
  refine Memory.read64_congr fun x hl hr => same ?_
  simp only [pageBytes, Set.mem_Ico, PAGE_SIZE]
  omega

/-- Flags of an entry that leads to a table of this tree. -/
structure PageFlags.Link (f : PageFlags) : Prop where
  present : f.present = true
  writable : f.writable = true
  huge : f.huge = false
  noExec : f.noExec = false

abbrev Tables := List Nat → Option Nat

theorem Tables.update_eq_some {tab : Tables} {π ρ : List Nat} {x : Option Nat} {t : Nat} :
    Function.update tab π x ρ = some t ↔ (ρ = π ∧ x = some t) ∨ (ρ ≠ π ∧ tab ρ = some t) := by
  by_cases new : ρ = π
  · subst new
    simp
  · simp [new]

/-- An index below the table at `π`; the upper half of the top table belongs to the kernel. -/
def Slot (π : List Nat) (i : Nat) : Prop := i < 512 ∧ (π = [] → i < 256)

/-- The USER bit of an entry. -/
def userEntry (m : Memory) (t i : Nat) : Bool := (Entry.flags (readEntry m t i)).user

structure Tree (m : Memory) (root : Nat) (tab : Tables) : Prop where
  root : tab [] = some root
  frame : ∀ {π t}, tab π = some t → TableFrame t
  depth : ∀ {π t}, tab π = some t → π.length ≤ 3
  inj : ∀ {π ρ t}, tab π = some t → tab ρ = some t → π = ρ
  parent : ∀ {π i c}, tab (π ++ [i]) = some c → Slot π i ∧ ∃ t, tab π = some t
  link : ∀ {π i t c}, tab π = some t → tab (π ++ [i]) = some c →
    ∃ f : PageFlags, f.Link ∧ readEntry m t i = Entry.newPage c f
  absent : ∀ {π i t}, tab π = some t → π.length < 3 → Slot π i → tab (π ++ [i]) = none →
    Entry.isPresent (readEntry m t i) = false
  leaf : ∀ {π i t}, tab π = some t → π.length = 3 → i < 512 →
    Entry.isPresent (readEntry m t i) = false ∨
      ∃ p f, PageAddr p ∧ f.present = true ∧ readEntry m t i = Entry.newPage p f
  user : ∀ {π i t}, tab π = some t → π.length = 3 → i < 512 →
    Entry.isPresent (readEntry m t i) = true → userEntry m t i = true →
    ∀ {ρ j s}, ρ ++ [j] <+: π → tab ρ = some s → userEntry m s j = true

namespace Tree

variable {m m' : Memory} {root t c i : Nat} {tab : Tables} {π : List Nat}

theorem ancestor (tree : Tree m root tab) (h : tab π = some t) {ρ : List Nat} (hρ : ρ <+: π) :
    ∃ s, tab ρ = some s := by
  obtain ⟨rest, rfl⟩ := hρ
  induction rest using List.reverseRecOn generalizing t with
  | nil => exact ⟨t, by simpa using h⟩
  | append_singleton rest j ih =>
    rw [← List.append_assoc] at h
    obtain ⟨-, s, hs⟩ := tree.parent h
    exact ih hs

/-- The tree depends on the entries of its tables only, and not on the kernel's half of the top-level
one. -/
theorem congr_entries (tree : Tree m root tab)
    (read : ∀ {π t i}, tab π = some t → Slot π i → readEntry m' t i = readEntry m t i) :
    Tree m' root tab := by
  have deepSlot {π : List Nat} {i} (deep : π.length = 3) (hi : i < 512) : Slot π i :=
    ⟨hi, fun top => by simp [top] at deep⟩
  refine { tree with link := ?_, absent := ?_, leaf := ?_, user := ?_ }
  · intro π i t c h hc
    rw [read h (tree.parent hc).1]
    exact tree.link h hc
  · intro π i t h hl hs hc
    rw [read h hs]
    exact tree.absent h hl hs hc
  · intro π i t h hl hi
    rw [read h (deepSlot hl hi)]
    exact tree.leaf h hl hi
  · intro π i t h hl hi present marked ρ j s hρ hs
    rw [userEntry, read h (deepSlot hl hi)] at marked
    rw [read h (deepSlot hl hi)] at present
    obtain ⟨c, hc⟩ := tree.ancestor h hρ
    rw [userEntry, read hs (tree.parent hc).1]
    exact tree.user h hl hi present marked hρ hs

theorem congr (tree : Tree m root tab)
    (same : ∀ π t, tab π = some t → Set.EqOn m' m (pageBytes t)) : Tree m' root tab :=
  tree.congr_entries fun h slot => readEntry_congr slot.1 (same _ _ h)

theorem setLink (tree : Tree m root tab) (h : tab π = some t) (hc : tab (π ++ [i]) = some c)
    {f : PageFlags} (hf : f.Link) (keep : userEntry m t i = true → f.user = true) :
    Tree (m.write64 (t + 8 * i) (Entry.newPage c f)) root tab := by
  have hi := (tree.parent hc).1.1
  have addr := (tree.frame hc).pageAddr
  have here := readEntry_write64_same (m := m) (t := t) (i := i) (Entry.newPage_lt (f := f) addr)
  have shallow : π.length < 3 := by
    have := tree.depth hc
    simp only [List.length_append, List.length_singleton] at this
    omega
  have other {ρ s j} (hs : tab ρ = some s) (hj : j < 512) (ne : ¬ (s = t ∧ j = i)) :
      readEntry (m.write64 (t + 8 * i) (Entry.newPage c f)) s j = readEntry m s j :=
    readEntry_write64 (tree.frame h).aligned (tree.frame hs).aligned hi hj ne
  have leafTable {ρ s j} (hs : tab ρ = some s) (hl : ρ.length = 3) : ¬ (s = t ∧ j = i) := by
    rintro ⟨rfl, -⟩
    rw [tree.inj h hs] at shallow
    omega
  refine { tree with link := ?_, absent := ?_, leaf := ?_, user := ?_ }
  · intro ρ j s d hs hd
    by_cases same : s = t ∧ j = i
    · obtain ⟨rfl, rfl⟩ := same
      obtain rfl := tree.inj h hs
      rw [hc] at hd
      obtain rfl := Option.some.inj hd
      exact ⟨f, hf, here⟩
    · rw [other hs (tree.parent hd).1.1 same]
      exact tree.link hs hd
  · intro ρ j s hs hl slot hd
    have ne : ¬ (s = t ∧ j = i) := by
      rintro ⟨rfl, rfl⟩
      rw [tree.inj h hs, hd] at hc
      cases hc
    rw [other hs slot.1 ne]
    exact tree.absent hs hl slot hd
  · intro ρ j s hs hl hj
    rw [other hs hj (leafTable hs hl)]
    exact tree.leaf hs hl hj
  · intro ρ j s hs hl hj present marked σ k u hσ hu
    rw [other hs hj (leafTable hs hl)] at present
    rw [userEntry, other hs hj (leafTable hs hl)] at marked
    have old := tree.user hs hl hj present marked hσ hu
    by_cases same : u = t ∧ k = i
    · obtain ⟨rfl, rfl⟩ := same
      rw [userEntry, here, Entry.flags_newPage addr]
      exact keep old
    · obtain ⟨d, hd⟩ := tree.ancestor hs hσ
      rw [userEntry, other hu (tree.parent hd).1.1 same]
      exact old

section Grow

variable {f : PageFlags} {ρ : List Nat} {s j : Nat}

theorem grow_cases (hs : Function.update tab (π ++ [i]) (some c) ρ = some s) :
    (ρ = π ++ [i] ∧ s = c) ∨ (ρ ≠ π ++ [i] ∧ tab ρ = some s) := by
  rwa [Tables.update_eq_some, Option.some.injEq, eq_comm (a := c)] at hs

theorem grow_old (vacant : tab (π ++ [i]) = none) (hs : tab ρ = some s) :
    Function.update tab (π ++ [i]) (some c) ρ = some s := by
  rw [Function.update_of_ne, hs]
  rintro rfl
  rw [vacant] at hs
  cases hs

theorem not_below (tree : Tree m root tab) (vacant : tab π = none) (hs : tab ρ = some s) : ¬ π <+: ρ := by
  intro hp
  obtain ⟨d, hd⟩ := tree.ancestor hs hp
  rw [vacant] at hd
  cases hd

variable (tree : Tree m root tab) (h : tab π = some t) (slot : Slot π i)

include tree h slot

theorem grow_other (hs : PAGE_SIZE ∣ s) (hj : j < 512) (ne : ¬ (s = t ∧ j = i)) :
    readEntry (m.write64 (t + 8 * i) (Entry.newPage c f)) s j = readEntry m s j :=
  readEntry_write64 (tree.frame h).aligned hs slot.1 hj ne

theorem grow_new (hc : TableFrame c) (fresh : ∀ ρ, tab ρ ≠ some c)
    (empty : ∀ j < 512, readEntry m c j = 0) (hj : j < 512) :
    readEntry (m.write64 (t + 8 * i) (Entry.newPage c f)) c j = 0 := by
  rw [tree.grow_other h slot hc.aligned hj fun both => fresh π (both.1 ▸ h), empty j hj]

theorem grow_leaf (shallow : π.length < 3) (hs : tab ρ = some s) (hl : ρ.length = 3) (hj : j < 512) :
    readEntry (m.write64 (t + 8 * i) (Entry.newPage c f)) s j = readEntry m s j := by
  refine tree.grow_other h slot (tree.frame hs).aligned hj ?_
  rintro ⟨rfl, -⟩
  rw [tree.inj h hs] at shallow
  omega

/-- The entry leads to the new table, and the others to where they led. -/
theorem grow_link (vacant : tab (π ++ [i]) = none) (hc : TableFrame c) (hf : f.Link) {d : Nat}
    (hs : Function.update tab (π ++ [i]) (some c) ρ = some s)
    (hd : Function.update tab (π ++ [i]) (some c) (ρ ++ [j]) = some d) :
    ∃ g : PageFlags, g.Link ∧
      readEntry (m.write64 (t + 8 * i) (Entry.newPage c f)) s j = Entry.newPage d g := by
  rcases grow_cases hd with ⟨eq, rfl⟩ | ⟨ne, hd⟩
  · obtain ⟨rfl, rfl⟩ := List.append_singleton_inj.mp eq
    obtain rfl : s = t := Option.some.inj (hs.symm.trans (grow_old vacant h))
    exact ⟨f, hf, readEntry_write64_same (Entry.newPage_lt hc.pageAddr)⟩
  · obtain ⟨hslot, s', hs'⟩ := tree.parent hd
    obtain rfl : s = s' := Option.some.inj (hs.symm.trans (grow_old vacant hs'))
    rw [tree.grow_other h slot (tree.frame hs').aligned hslot.1]
    · exact tree.link hs' hd
    · rintro ⟨rfl, rfl⟩
      exact ne (by rw [tree.inj h hs'])

theorem grow_absent (hc : TableFrame c) (fresh : ∀ ρ, tab ρ ≠ some c)
    (empty : ∀ j < 512, readEntry m c j = 0)
    (hs : Function.update tab (π ++ [i]) (some c) ρ = some s) (hl : ρ.length < 3) (hslot : Slot ρ j)
    (hd : Function.update tab (π ++ [i]) (some c) (ρ ++ [j]) = none) :
    Entry.isPresent (readEntry (m.write64 (t + 8 * i) (Entry.newPage c f)) s j) = false := by
  rcases grow_cases hs with ⟨-, rfl⟩ | ⟨-, hs₀⟩
  · rw [tree.grow_new h slot hc fresh empty hslot.1, Entry.isPresent_zero]
  · have ne : ρ ++ [j] ≠ π ++ [i] := by
      intro eq
      rw [eq, Function.update_self] at hd
      cases hd
    rw [Function.update_of_ne ne] at hd
    rw [tree.grow_other h slot (tree.frame hs₀).aligned hslot.1]
    · exact tree.absent hs₀ hl hslot hd
    · rintro ⟨rfl, rfl⟩
      exact ne (by rw [tree.inj h hs₀])

/-- A leaf is not below the new table, so the USER bits above it are the old ones. -/
theorem grow_user (shallow : π.length < 3) (vacant : tab (π ++ [i]) = none) (hs : tab ρ = some s)
    (hl : ρ.length = 3) (hj : j < 512)
    (present : Entry.isPresent (readEntry (m.write64 (t + 8 * i) (Entry.newPage c f)) s j) = true)
    (marked : userEntry (m.write64 (t + 8 * i) (Entry.newPage c f)) s j = true) {σ : List Nat} {k u : Nat}
    (hσ : σ ++ [k] <+: ρ) (hu : Function.update tab (π ++ [i]) (some c) σ = some u) :
    userEntry (m.write64 (t + 8 * i) (Entry.newPage c f)) u k = true := by
  rw [tree.grow_leaf h slot shallow hs hl hj] at present
  rw [userEntry, tree.grow_leaf h slot shallow hs hl hj] at marked
  have below := tree.not_below vacant hs
  rcases grow_cases hu with ⟨rfl, -⟩ | ⟨-, hu₀⟩
  · exact absurd ((List.prefix_append _ _).trans hσ) below
  · obtain ⟨d, hd⟩ := tree.ancestor hs hσ
    rw [userEntry, tree.grow_other h slot (tree.frame hu₀).aligned (tree.parent hd).1.1]
    · exact tree.user hs hl hj present marked hσ hu₀
    · rintro ⟨rfl, rfl⟩
      rw [tree.inj hu₀ h] at hσ
      exact below hσ

end Grow

theorem grow (tree : Tree m root tab) (h : tab π = some t) (shallow : π.length < 3)
    (slot : Slot π i) (vacant : tab (π ++ [i]) = none) (hc : TableFrame c)
    (fresh : ∀ ρ, tab ρ ≠ some c) (empty : ∀ j < 512, readEntry m c j = 0)
    {f : PageFlags} (hf : f.Link) :
    Tree (m.write64 (t + 8 * i) (Entry.newPage c f)) root
      (Function.update tab (π ++ [i]) (some c)) := by
  constructor
  case root => exact grow_old vacant tree.root
  case frame =>
    intro ρ s hs
    rcases grow_cases hs with ⟨-, rfl⟩ | ⟨-, hs⟩
    · exact hc
    · exact tree.frame hs
  case depth =>
    intro ρ s hs
    rcases grow_cases hs with ⟨rfl, -⟩ | ⟨-, hs⟩
    · simp only [List.length_append, List.length_singleton]
      omega
    · exact tree.depth hs
  case inj =>
    intro ρ σ s hs hs'
    rcases grow_cases hs with ⟨rfl, rfl⟩ | ⟨-, hs⟩ <;> rcases grow_cases hs' with ⟨rfl, eq⟩ | ⟨-, hs'⟩
    · rfl
    · exact absurd hs' (fresh σ)
    · exact absurd (eq ▸ hs) (fresh ρ)
    · exact tree.inj hs hs'
  case parent =>
    intro ρ j d hd
    rcases grow_cases hd with ⟨eq, -⟩ | ⟨-, hd⟩
    · obtain ⟨rfl, rfl⟩ := List.append_singleton_inj.mp eq
      exact ⟨slot, t, grow_old vacant h⟩
    · obtain ⟨hslot, s, hs⟩ := tree.parent hd
      exact ⟨hslot, s, grow_old vacant hs⟩
  case link => exact tree.grow_link h slot vacant hc hf
  case absent => exact tree.grow_absent h slot hc fresh empty
  case leaf =>
    intro ρ j s hs hl hj
    rcases grow_cases hs with ⟨-, rfl⟩ | ⟨-, hs⟩
    · exact Or.inl (by rw [tree.grow_new h slot hc fresh empty hj, Entry.isPresent_zero])
    · rw [tree.grow_leaf h slot shallow hs hl hj]
      exact tree.leaf hs hl hj
  case user =>
    intro ρ j s hs hl hj present
    rcases grow_cases hs with ⟨-, rfl⟩ | ⟨-, hs⟩
    · rw [tree.grow_new h slot hc fresh empty hj, Entry.isPresent_zero] at present
      cases present
    · exact tree.grow_user h slot shallow vacant hs hl hj present

/-- A word that may stand in a table of the last level. -/
def LeafWord (e : Nat) : Prop :=
  e = 0 ∨ ∃ p f, PageAddr p ∧ f.present = true ∧ e = Entry.newPage p f

/-- A leaf entry may change, as long as the USER bit is only set below tables that have it. -/
theorem setLeaf (tree : Tree m root tab) (h : tab π = some t) (deep : π.length = 3) (hi : i < 512)
    {e : Nat} (he : LeafWord e)
    (marks : (Entry.flags e).user = true → ∀ {ρ j s}, ρ ++ [j] <+: π → tab ρ = some s →
      userEntry m s j = true) : Tree (m.write64 (t + 8 * i) e) root tab := by
  have small : e < 2 ^ 64 := by
    rcases he with rfl | ⟨p, f, addr, -, rfl⟩
    · omega
    · exact Entry.newPage_lt addr
  have here := readEntry_write64_same (m := m) (t := t) (i := i) small
  have other {ρ s j} (hs : tab ρ = some s) (hj : j < 512) (ne : ¬ (s = t ∧ j = i)) :
      readEntry (m.write64 (t + 8 * i) e) s j = readEntry m s j :=
    readEntry_write64 (tree.frame h).aligned (tree.frame hs).aligned hi hj ne
  have inner {ρ s j} (hs : tab ρ = some s) (hl : ρ.length < 3) : ¬ (s = t ∧ j = i) := by
    rintro ⟨rfl, -⟩
    rw [tree.inj hs h] at hl
    omega
  have upper {ρ s j σ} (hσ : ρ ++ [j] <+: σ) (hl : σ.length = 3) (hs : tab ρ = some s)
      {d} (hd : tab (ρ ++ [j]) = some d) :
      readEntry (m.write64 (t + 8 * i) e) s j = readEntry m s j := by
    have := hσ.length_le
    simp only [List.length_append, List.length_singleton] at this
    exact other hs (tree.parent hd).1.1 (inner hs (by omega))
  refine { tree with link := ?_, absent := ?_, leaf := ?_, user := ?_ }
  · intro ρ j s d hs hd
    have := tree.depth hd
    simp only [List.length_append, List.length_singleton] at this
    rw [other hs (tree.parent hd).1.1 (inner hs (by omega))]
    exact tree.link hs hd
  · intro ρ j s hs hl slot hd
    rw [other hs slot.1 (inner hs hl)]
    exact tree.absent hs hl slot hd
  · intro ρ j s hs hl hj
    by_cases same : s = t ∧ j = i
    · obtain ⟨rfl, rfl⟩ := same
      rw [here]
      rcases he with rfl | page
      · exact Or.inl Entry.isPresent_zero
      · exact Or.inr page
    · rw [other hs hj same]
      exact tree.leaf hs hl hj
  · intro ρ j s hs hl hj present marked σ k u hσ hu
    obtain ⟨d, hd⟩ := tree.ancestor hs hσ
    rw [userEntry, upper hσ hl hu hd]
    by_cases same : s = t ∧ j = i
    · obtain ⟨rfl, rfl⟩ := same
      rw [userEntry, here] at marked
      obtain rfl := tree.inj hs h
      exact marks marked hσ hu
    · rw [other hs hj same] at present
      rw [userEntry, other hs hj same] at marked
      exact tree.user hs hl hj present marked hσ hu

end Tree
end Ferrum
