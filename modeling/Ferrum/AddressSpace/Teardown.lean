import Ferrum.AddressSpace.Clearing

/-!
# Giving an address space back

`destroy` clears the pages of the areas and frees the tables from the leaves up. Each level of the
descent is specified against the tree as it was before anything was freed: the tables below a path
are still held and still hold what they held then, and afterwards exactly they are gone.
-/
namespace Ferrum

open Machine (Local PoolInv Own)

variable {S img : Set Nat} {st st' st'' : Machine Pool} {owner : Owner} {root : Nat}
  {tab : Tables} {p : Profile} {space : AddressSpace} {T T' W : Set Nat} {m : Memory} {π ρ : List Nat}

/-- The frames of `T` have been given back; what the owner still holds is as before, except for the
bytes of `W`. -/
structure Dropped (S : Set Nat) (owner : Owner) (T W : Set Nat) (st st' : Machine Pool) : Prop where
  step : Local S owner st st'
  holds : ∀ {b}, st'.holds owner b ↔ st.holds owner b ∧ ¬ (b.order = 0 ∧ b.addr ∈ T)
  mem : ∀ {x}, x ∈ Own owner st' → x ∉ W → st'.mem x = st.mem x

namespace Dropped

theorem refl (inv : PoolInv S st) : Dropped S owner ∅ W st st :=
  ⟨.refl inv, by simp, fun _ _ => rfl⟩

theorem own_subset (h : Dropped S owner T W st st') : Own owner st' ⊆ Own owner st := by
  rintro x ⟨b, hb, hx⟩
  exact ⟨b, (h.holds.mp hb).1, hx⟩

theorem trans (h : Dropped S owner T W st st') (h' : Dropped S owner T' W st' st'') :
    Dropped S owner (T ∪ T') W st st'' where
  step := h.step.trans h'.step
  holds {b} := by
    rw [h'.holds, h.holds, and_assoc, ← not_or, ← and_or_left, Set.mem_union]
  mem hx out := (h'.mem hx out).trans (h.mem (h'.own_subset hx) out)

theorem mono (h : Dropped S owner T ∅ st st') : Dropped S owner T W st st' :=
  ⟨h.step, h.holds, fun hx _ => h.mem hx (by simp)⟩

theorem freeBlock {t : Nat} (inv : PoolInv S st) (held : st.holds owner ⟨t, 0⟩) (p : Profile) :
    ∃ st', st.freeBlock p owner t 0 = .ok st' ∧ Dropped S owner {t} W st st' := by
  obtain ⟨st', run, inv', frame, -, log⟩ := Machine.freeBlock_spec inv p held
  refine ⟨st', run, .of_free inv inv' frame log, ?_, ?_⟩
  · rintro ⟨a, order⟩
    simp [Machine.holds_free inv log, and_comm]
  · rintro x ⟨b, hb, hx⟩ _
    exact frame fun _ => ⟨b, hb.mem_out, hx⟩

end Dropped

/-- The tables at a path and below it. -/
def below (tab : Tables) (π : List Nat) : Set Nat := {t | ∃ ρ, π <+: ρ ∧ tab ρ = some t}

/-- The tables below a path are held, and their bytes are those of `m`. -/
def Intact (st : Machine Pool) (owner : Owner) (m : Memory) (tab : Tables) (π : List Nat) : Prop :=
  ∀ ρ t, π <+: ρ → tab ρ = some t → st.holds owner ⟨t, 0⟩ ∧ Set.EqOn st.mem m (pageBytes t)

theorem Intact.dropped (intact : Intact st owner m tab π) (h : Dropped S owner T W st st')
    (apart : ∀ t ∈ below tab π, t ∉ T) (clear : ∀ t ∈ below tab π, Disjoint (pageBytes t) W) :
    Intact st' owner m tab π := by
  intro ρ t hρ ht
  obtain ⟨held, same⟩ := intact ρ t hρ ht
  have still : st'.holds owner ⟨t, 0⟩ := h.holds.mpr ⟨held, fun both => apart t ⟨ρ, hρ, ht⟩ both.2⟩
  refine ⟨still, fun x hx => ?_⟩
  rw [h.mem (still.page_own hx) (Set.disjoint_left.mp (clear t ⟨ρ, hρ, ht⟩) hx)]
  exact same hx

theorem Intact.child (intact : Intact st owner m tab π) (i : Nat) :
    Intact st owner m tab (π ++ [i]) :=
  fun ρ t hρ ht => intact ρ t ((List.prefix_append _ _).trans hρ) ht

theorem Tree.below_apart (tree : Tree m root tab) {i j t : Nat} (ne : i ≠ j)
    (hi : t ∈ below tab (π ++ [i])) : t ∉ below tab (π ++ [j]) := by
  rintro ⟨σ, hσ, ht'⟩
  obtain ⟨ρ, hρ, ht⟩ := hi
  obtain rfl := tree.inj ht ht'
  have same := (List.prefix_of_prefix_length_le hρ hσ (by simp)).eq_of_length (by simp)
  exact ne (by simpa using same)

theorem Tree.notBelow (tree : Tree m root tab) {i t : Nat} (ht : tab π = some t) :
    t ∉ below tab (π ++ [i]) := by
  rintro ⟨ρ, hρ, ht'⟩
  have := (tree.inj ht ht' ▸ hρ).length_le
  simp at this

/-- The tables below the first `n` entries of a table. -/
def belowFirst (tab : Tables) (π : List Nat) (n : Nat) : Set Nat :=
  {t | ∃ i < n, t ∈ below tab (π ++ [i])}

theorem belowFirst_zero : belowFirst tab π 0 = ∅ := by simp [belowFirst]

theorem belowFirst_succ (n : Nat) :
    belowFirst tab π (n + 1) = belowFirst tab π n ∪ below tab (π ++ [n]) := by
  ext t
  simp only [belowFirst, Set.mem_union, Set.mem_ofPred_eq]
  constructor
  · rintro ⟨i, hi, ht⟩
    rcases Nat.lt_succ_iff_lt_or_eq.mp hi with less | rfl
    · exact Or.inl ⟨i, less, ht⟩
    · exact Or.inr ht
  · rintro (⟨i, hi, ht⟩ | ht)
    · exact ⟨i, by omega, ht⟩
    · exact ⟨n, by omega, ht⟩

theorem Tree.belowFirst_apart (tree : Tree m root tab) {n t : Nat}
    (ht : t ∈ below tab (π ++ [n])) : t ∉ belowFirst tab π n := by
  rintro ⟨i, hi, ht'⟩
  exact tree.below_apart (by omega) ht' ht

theorem Tree.below_eq (tree : Tree m root tab) {n t : Nat} (ht : tab π = some t)
    (slots : ∀ {i}, Slot π i → i < n) : below tab π = belowFirst tab π n ∪ {t} := by
  ext s
  simp only [Set.mem_union, Set.mem_singleton_iff]
  constructor
  · rintro ⟨ρ, ⟨rest, rfl⟩, hs⟩
    cases rest with
    | nil =>
      rw [List.append_nil, ht] at hs
      exact Or.inr (Option.some.inj hs).symm
    | cons i rest =>
      have step : π ++ [i] <+: π ++ i :: rest := ⟨rest, by simp⟩
      obtain ⟨c, hc⟩ := tree.ancestor hs step
      exact Or.inl ⟨i, slots (tree.parent hc).1, _, step, hs⟩
  · rintro (⟨i, -, ρ, hρ, hs⟩ | rfl)
    · exact ⟨ρ, (List.prefix_append _ _).trans hρ, hs⟩
    · exact ⟨π, List.prefix_refl _, ht⟩

theorem Tree.link_entry (tree : Tree m root tab) {i t c : Nat} (ht : tab π = some t)
    (hc : tab (π ++ [i]) = some c) : Entry.isPresent (readEntry m t i) = true ∧
      (Entry.flags (readEntry m t i)).huge = false ∧ Entry.physAddr (readEntry m t i) = c := by
  obtain ⟨f, link, word⟩ := tree.link ht hc
  have addr := (tree.frame hc).pageAddr
  rw [word, Entry.isPresent_newPage addr, Entry.flags_newPage addr, Entry.physAddr_newPage addr]
  exact ⟨link.present, link.huge, rfl⟩

/-! ## The levels -/

/-- A function that, called on the table of a path of length `n`, frees the tables below it. -/
def Frees (S : Set Nat) (owner : Owner) (m : Memory) (tab : Tables) (n : Nat)
    (free : Machine Pool → Nat → Except Stop (Machine Pool)) : Prop :=
  ∀ {st π t}, π.length = n → tab π = some t → PoolInv S st → Intact st owner m tab π →
    ∃ st', free st t = .ok st' ∧ Dropped S owner (below tab π) ∅ st st'

theorem clearEntries_spec (st : Machine Pool) (t : Nat) (l : List Nat) (hl : ∀ i ∈ l, i < 512) :
    let cleared := l.foldl (fun st i =>
      if Entry.isPresent (readEntry st.mem t i) then st.writeEntry t i 0 else st) st
    cleared.pool = st.pool ∧ ∀ x, x ∉ pageBytes t → cleared.mem x = st.mem x := by
  induction l generalizing st with
  | nil => exact ⟨rfl, fun _ _ => rfl⟩
  | cons i l ih =>
    obtain ⟨pool, same⟩ := ih
      (if Entry.isPresent (readEntry st.mem t i) then st.writeEntry t i 0 else st)
      fun j hj => hl j (List.mem_cons_of_mem _ hj)
    refine ⟨pool.trans ?_, fun x hx => (same x hx).trans ?_⟩
    · split <;> rfl
    · split
      · exact Space.write64_outside_page (hl i List.mem_cons_self) hx
      · rfl

theorem freePt_frees (tree : Tree m root tab) (p : Profile) :
    Frees S space.owner m tab 3 (space.freePt p) := by
  intro st π t deep ht inv intact
  obtain ⟨held, -⟩ := intact π t (List.prefix_refl _) ht
  obtain ⟨pool, same⟩ := clearEntries_spec st t (List.range 512) fun i hi => List.mem_range.mp hi
  have only : below tab π = {t} := by
    rw [tree.below_eq ht (n := 512) fun slot => slot.1]
    have none : belowFirst tab π 512 = ∅ := by
      ext s
      simp only [belowFirst, below, Set.mem_ofPred_eq, Set.mem_empty_iff_false, iff_false]
      rintro ⟨i, -, ρ, hρ, hs⟩
      have := hρ.length_le
      have := tree.depth hs
      simp only [List.length_append, List.length_singleton] at *
      omega
    rw [none, Set.empty_union]
  simp only [AddressSpace.freePt, physToVirt_ok (tree.frame ht).window, ok_bind]
  generalize (List.range 512).foldl _ st = st₁ at pool same ⊢
  obtain ⟨m₁, _⟩ := st₁
  obtain rfl : _ = st.pool := pool
  have wrote : Local S space.owner st ⟨m₁, st.pool⟩ := .writePage inv held same
  have held' : Machine.holds ⟨m₁, st.pool⟩ space.owner ⟨t, 0⟩ := held
  obtain ⟨st₂, run, dropped⟩ := Dropped.freeBlock (W := ∅) wrote.inv held' p
  refine ⟨st₂, run, only ▸ ⟨wrote.trans dropped.step, dropped.holds, fun {x} hx out => ?_⟩⟩
  rw [dropped.mem hx out]
  -- what is still held does not lie in the freed table
  refine same x fun inside => ?_
  obtain ⟨b, hb, hx⟩ := hx
  obtain ⟨hb, kept⟩ := dropped.holds.mp hb
  have differ : (⟨t, 0⟩ : Block) ≠ b := by
    rintro rfl
    exact kept ⟨rfl, rfl⟩
  have hb : st.holds space.owner b := hb
  exact Set.disjoint_left.mp (inv.apart held.mem_out hb.mem_out differ).disjoint
    (by rwa [Machine.cells_page]) hx

/-- The loop over the entries of a table that is not of the last level. -/
theorem freeBelow_loop {child : Machine Pool → Nat → Except Stop (Machine Pool)} {t : Nat}
    (tree : Tree m root tab) (frees : Frees S owner m tab (π.length + 1) child) (ht : tab π = some t)
    (shallow : π.length < 3) (top : π ≠ []) (inv : PoolInv S st) (intact : Intact st owner m tab π)
    {n : Nat} (hn : n ≤ 512) :
    ∃ st', (List.range n).foldlM (fun st i =>
        let e := readEntry st.mem t i
        if Entry.isPresent e && !(Entry.flags e).huge then child st (Entry.physAddr e) else .ok st) st =
      .ok st' ∧ Dropped S owner (belowFirst tab π n) ∅ st st' := by
  induction n with
  | zero =>
    rw [belowFirst_zero]
    exact ⟨st, rfl, .refl inv⟩
  | succ n ih =>
    obtain ⟨st₁, run, dropped⟩ := ih (by omega)
    have slot : Slot π n := ⟨by omega, fun h => absurd h top⟩
    have held := (intact π t (List.prefix_refl _) ht).1
    have still : st₁.holds owner ⟨t, 0⟩ :=
      dropped.holds.mpr ⟨held, fun ⟨_, i, _, hi⟩ => tree.notBelow ht hi⟩
    have entry : readEntry st₁.mem t n = readEntry m t n := readEntry_congr slot.1 fun x hx =>
      (dropped.mem (still.page_own hx) (by simp)).trans
        ((intact π t (List.prefix_refl _) ht).2 hx)
    simp only [List.range_succ, List.foldlM_append, List.foldlM_cons, List.foldlM_nil, run, ok_bind,
      entry]
    rw [belowFirst_succ]
    cases hc : tab (π ++ [n]) with
    | none =>
      have absent := tree.absent ht shallow slot hc
      have empty : below tab (π ++ [n]) = ∅ := by
        ext s
        simp only [below, Set.mem_ofPred_eq, Set.mem_empty_iff_false, iff_false]
        rintro ⟨ρ, hρ, hs⟩
        obtain ⟨c, hc'⟩ := tree.ancestor hs hρ
        rw [hc] at hc'
        cases hc'
      exact ⟨st₁, by simp [absent], by rwa [empty, Set.union_empty]⟩
    | some c =>
      obtain ⟨present, huge, phys⟩ := tree.link_entry ht hc
      have intact' := (intact.child n).dropped dropped (fun s hs => tree.belowFirst_apart hs)
        (by simp)
      obtain ⟨st₂, freed, dropped'⟩ := frees (by simp) hc dropped.step.inv intact'
      exact ⟨st₂, by simp [present, huge, phys, freed], dropped.trans dropped'⟩

theorem freeBelow_frees {child : Machine Pool → Nat → Except Stop (Machine Pool)} {n : Nat}
    (tree : Tree m root tab) (frees : Frees S space.owner m tab (n + 1) child) (shallow : n < 3)
    (top : 0 < n) (p : Profile) : Frees S space.owner m tab n (space.freeBelow p child) := by
  rintro st π t rfl ht inv intact
  have proper : π ≠ [] := List.length_pos_iff.mp top
  obtain ⟨st₁, run, dropped⟩ :=
    freeBelow_loop tree frees ht shallow proper inv intact (Nat.le_refl 512)
  have held := (intact π t (List.prefix_refl _) ht).1
  have still : st₁.holds space.owner ⟨t, 0⟩ :=
    dropped.holds.mpr ⟨held, fun ⟨_, i, _, hi⟩ => tree.notBelow ht hi⟩
  obtain ⟨st₂, freed, dropped'⟩ := Dropped.freeBlock (W := ∅) dropped.step.inv still p
  refine ⟨st₂, ?_, ?_⟩
  · simp only [AddressSpace.freeBelow, physToVirt_ok (tree.frame ht).window, ok_bind, run]
    exact freed
  · rw [tree.below_eq ht (n := 512) fun slot => slot.1]
    exact dropped.trans dropped'

theorem freePdpt_frees (tree : Tree m root tab) (p : Profile) :
    Frees S space.owner m tab 1 (space.freePdpt p) :=
  freeBelow_frees tree (freeBelow_frees tree (freePt_frees tree p) (by omega) (by omega) p)
    (by omega) (by omega) p

/-- The loop over the lower half of the top-level table, which also clears the entries. -/
theorem freeUserTables_loop (tree : Tree m space.pml4 tab) (inv : PoolInv S st)
    (intact : Intact st space.owner m tab []) (p : Profile) {n : Nat} (hn : n ≤ 256) :
    ∃ st', (List.range n).foldlM (fun st i => do
        let e := readEntry st.mem space.pml4 i
        if Entry.isPresent e then do
          let st ← space.freePdpt p st (Entry.physAddr e)
          return st.writeEntry space.pml4 i 0
        else return st) st = .ok st' ∧
      Dropped S space.owner (belowFirst tab [] n) (pageBytes space.pml4) st st' ∧
      ∀ j, n ≤ j → j < 512 → readEntry st'.mem space.pml4 j = readEntry m space.pml4 j := by
  obtain ⟨held, same⟩ := intact [] space.pml4 (List.prefix_refl _) tree.root
  induction n with
  | zero =>
    rw [belowFirst_zero]
    exact ⟨st, rfl, .refl inv, fun j _ hj => readEntry_congr hj same⟩
  | succ n ih =>
    obtain ⟨st₁, run, dropped, entries⟩ := ih (by omega)
    have slot : Slot [] n := ⟨by omega, fun _ => by omega⟩
    simp only [List.range_succ, List.foldlM_append, List.foldlM_cons, List.foldlM_nil, run, ok_bind,
      entries n (by omega) (by omega)]
    rw [belowFirst_succ]
    cases hc : tab ([] ++ [n]) with
    | none =>
      have absent := tree.absent tree.root (by simp) slot hc
      have empty : below tab ([] ++ [n]) = ∅ := by
        ext s
        simp only [below, Set.mem_ofPred_eq, Set.mem_empty_iff_false, iff_false]
        rintro ⟨ρ, hρ, hs⟩
        obtain ⟨c, hc'⟩ := tree.ancestor hs hρ
        rw [hc] at hc'
        cases hc'
      exact ⟨st₁, by simp [absent], by rwa [empty, Set.union_empty],
        fun j hj => entries j (by omega)⟩
    | some c =>
      obtain ⟨present, -, phys⟩ := tree.link_entry tree.root hc
      have clear : ∀ t ∈ below tab ([] ++ [n]), Disjoint (pageBytes t) (pageBytes space.pml4) := by
        intro t ht
        obtain ⟨ρ, hρ, hs⟩ := id ht
        refine Set.disjoint_left.mpr fun x => Space.pageBytes_disjoint (tree.frame hs).aligned
          (tree.frame tree.root).aligned ?_
        rintro rfl
        exact tree.notBelow tree.root ht
      have intact' := (intact.child n).dropped dropped (fun s hs => tree.belowFirst_apart hs) clear
      obtain ⟨st₂, freed, dropped'⟩ := freePdpt_frees tree p rfl hc dropped.step.inv intact'
      have stays {st' : Machine Pool} {U W} {k} (h : Dropped S space.owner U W st st')
          (sub : U ⊆ belowFirst tab [] k) : st'.holds space.owner ⟨space.pml4, 0⟩ :=
        h.holds.mpr ⟨held, fun ⟨_, hu⟩ =>
          let ⟨i, _, hi⟩ := sub hu
          tree.notBelow tree.root hi⟩
      have both : Dropped S space.owner (belowFirst tab [] (n + 1)) (pageBytes space.pml4) st st₂ :=
        belowFirst_succ (π := []) n ▸ dropped.trans dropped'.mono
      have held₂ := stays both subset_rfl
      have outside {x} (hx : x ∉ pageBytes space.pml4) :
          (st₂.writeEntry space.pml4 n 0).mem x = st₂.mem x := Space.write64_outside_page slot.1 hx
      refine ⟨st₂.writeEntry space.pml4 n 0, by simp [present, phys, freed], ?_, fun j hj hj' => ?_⟩
      · rw [← belowFirst_succ]
        exact ⟨both.step.trans (.writePage dropped'.step.inv held₂ fun x => outside), both.holds,
          fun hx out => (outside out).trans (both.mem hx out)⟩
      · have aligned := (tree.frame tree.root).aligned
        have other : readEntry (st₂.writeEntry space.pml4 n 0).mem space.pml4 j =
            readEntry st₂.mem space.pml4 j :=
          readEntry_write64 aligned aligned slot.1 hj' (by omega)
        rw [other, ← entries j (by omega) hj']
        exact readEntry_congr hj' fun x hx => dropped'.mem (held₂.page_own hx) (by simp)

/-- `destroy` gives back the frames of the pages in the areas and every table. -/
theorem AddressSpace.destroy_spec (inv : PoolInv S st) (own : Owned img st space.owner space.pml4 tab)
    (user : UserAreas img space.vmas) (p : Profile) :
    ∃ st', space.destroy p st = .ok st' ∧ Local S space.owner st st' ∧
      ∀ {b}, st'.holds space.owner b ↔ st.holds space.owner b ∧ ¬ (b.order = 0 ∧
        ((∃ q ∈ areaPages space.vmas, frameAt st.mem tab q = some b.addr) ∨
          ∃ π, tab π = some b.addr)) := by
  obtain ⟨st₁, unmapped, cleared⟩ := unmapAreas_spec inv own user p
  have tree := cleared.rooted.tree
  have intact : Intact st₁ space.owner st₁.mem tab [] :=
    fun ρ t _ ht => ⟨cleared.rooted.tables ht, fun _ _ => rfl⟩
  obtain ⟨st₂, freed, dropped, -⟩ :=
    freeUserTables_loop tree cleared.step.inv intact p (Nat.le_refl 256)
  have held : st₂.holds space.owner ⟨space.pml4, 0⟩ :=
    dropped.holds.mpr ⟨cleared.rooted.tables tree.root, fun ⟨_, i, _, hi⟩ =>
      tree.notBelow tree.root hi⟩
  obtain ⟨st₃, last, dropped'⟩ := Dropped.freeBlock (W := pageBytes space.pml4) dropped.step.inv held p
  have all : below tab [] = belowFirst tab [] 256 ∪ {space.pml4} :=
    tree.below_eq tree.root fun slot => slot.2 rfl
  obtain ⟨owners, untracked⟩ := st₃.pool.untrack_owners space.pml4
  have tables := dropped.trans dropped'
  have run : space.freeUserTables p st₁ = .ok st₂ := by
    simp only [freeUserTables, physToVirt_ok (tree.frame tree.root).window, ok_bind]
    exact freed
  refine ⟨⟨st₃.mem, { st₃.pool with owners }⟩, ?_,
    cleared.step.trans (tables.step.trans (.owners dropped'.step.inv owners)), fun {b} => ?_⟩
  · simp [destroy, unmapped, run, release, last, untracked]
  · have fin : st₃.holds space.owner b ↔ _ := tables.holds
    rw [← all, cleared.holds] at fin
    refine Iff.trans fin ?_
    rw [and_assoc, ← not_or, ← and_or_left]
    simp [below]

end Ferrum
