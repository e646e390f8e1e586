import Ferrum.Allocator.Coalescing
import Ferrum.Library.Intervals

/-!
# Registering a region with exclusions

At boot every usable region of the memory map is registered except for the ranges that are in use
already. `add_region_excluding` takes the ranges out one after another, in arrays of eight slots, and
registers what is left.
-/
namespace Ferrum

open Intervals (cut cutAll covered Spaced)

/-- The slots of the arrays `remaining` and `next`. -/
def RANGE_SLOTS : Nat := 8

/-- `next[next_count] = r; next_count += 1`. -/
def putRange (next : List (Nat × Nat)) (r : Nat × Nat) : Except Stop (List (Nat × Nat)) :=
  if next.length < RANGE_SLOTS then .ok (next ++ [r]) else .error .indexOutOfBounds

/-- The body of the inner loop: what `ex` leaves of a range. -/
def excludeRange (ex : Nat × Nat) (next : List (Nat × Nat)) (r : Nat × Nat) :
    Except Stop (List (Nat × Nat)) :=
  if r.1 < ex.2 ∧ ex.1 < r.2 then do
    let next ← if r.1 < ex.1 then putRange next (r.1, ex.1) else .ok next
    if ex.2 < r.2 then putRange next (ex.2, r.2) else .ok next
  else putRange next r

/-- The two loops over the exclusions and the ranges. -/
def excludeRanges (remaining excludes : List (Nat × Nat)) : Except Stop (List (Nat × Nat)) :=
  excludes.foldlM (fun remaining ex => remaining.foldlM (excludeRange ex) []) remaining

namespace Buddy

/-- The last loop: register the ranges that are not empty. -/
def addRanges (p : Profile) (s : Buddy) (ranges : List (Nat × Nat)) : Except Stop Buddy :=
  ranges.foldlM (fun s r => if r.1 < r.2 then s.addRegion p r.1 (r.2 - r.1) else .ok s) s

def addRegionExcluding (p : Profile) (s : Buddy) (start stop : Nat) (excludes : List (Nat × Nat)) :
    Except Stop Buddy := do
  let remaining ← excludeRanges [(start, stop)] excludes
  s.addRanges p remaining

end Buddy

/-- The pages that lie in the region and meet no exclusion. -/
def pagesExcluding (start stop : Nat) (excludes : List (Nat × Nat)) : Set Nat :=
  {x | start ≤ x / PAGE_SIZE * PAGE_SIZE ∧ x / PAGE_SIZE * PAGE_SIZE + PAGE_SIZE ≤ stop ∧
    ∀ ex ∈ excludes, Disjoint (Set.Ico (x / PAGE_SIZE * PAGE_SIZE) (x / PAGE_SIZE * PAGE_SIZE + PAGE_SIZE))
      (Set.Ico ex.1 ex.2)}

/-! ## The slots -/

variable {ex : Nat × Nat} {ranges next excludes : List (Nat × Nat)} {start stop : Nat}

theorem putRange_ok {r : Nat × Nat} (room : (next ++ [r]).length ≤ RANGE_SLOTS) :
    putRange next r = .ok (next ++ [r]) := by
  rw [List.length_append, List.length_singleton] at room
  exact if_pos room

theorem excludeRange_ok {r : Nat × Nat} (room : (next ++ cut ex r).length ≤ RANGE_SLOTS) :
    excludeRange ex next r = .ok (next ++ cut ex r) := by
  unfold excludeRange
  unfold cut at room ⊢
  by_cases meets : r.1 < ex.2 ∧ ex.1 < r.2
  · simp only [if_pos meets] at room ⊢
    by_cases left : r.1 < ex.1
    · simp only [if_pos left] at room ⊢
      have first : (next ++ [(r.1, ex.1)]).length ≤ RANGE_SLOTS := by
        simp only [List.length_append] at room ⊢
        omega
      rw [putRange_ok first, ok_bind]
      by_cases right : ex.2 < r.2
      · simp only [if_pos right, ← List.append_assoc] at room ⊢
        exact putRange_ok room
      · simp only [if_neg right, List.append_nil]
    · simp only [if_neg left, List.nil_append] at room ⊢
      by_cases right : ex.2 < r.2
      · simp only [if_pos right] at room ⊢
        exact putRange_ok room
      · simp only [if_neg right, List.append_nil]
        rfl
  · simp only [if_neg meets] at room ⊢
    exact putRange_ok room

theorem foldlM_excludeRange (ex : Nat × Nat) (ranges next : List (Nat × Nat))
    (room : (next ++ cutAll ex ranges).length ≤ RANGE_SLOTS) :
    ranges.foldlM (excludeRange ex) next = .ok (next ++ cutAll ex ranges) := by
  induction ranges generalizing next with
  | nil => simp [cutAll]
  | cons r ranges ih =>
    rw [cutAll, List.flatMap_cons, ← cutAll, ← List.append_assoc] at room ⊢
    have first : (next ++ cut ex r).length ≤ RANGE_SLOTS := by
      rw [List.length_append] at room
      omega
    rw [List.foldlM_cons, excludeRange_ok first, ok_bind, ih _ room]

/-- With at most as many exclusions as there are slots left, no slot is missing. The ranges that remain
are in order with gaps, and have the points that no exclusion has. -/
theorem excludeRanges_ok (spaced : Spaced ranges) (nonempty : ∀ ex ∈ excludes, ex.1 < ex.2)
    (few : ranges.length + excludes.length ≤ RANGE_SLOTS) :
    ∃ left, excludeRanges ranges excludes = .ok left ∧ Spaced left ∧
      covered left = covered ranges \ {x | ∃ ex ∈ excludes, x ∈ Set.Ico ex.1 ex.2} := by
  induction excludes generalizing ranges with
  | nil => exact ⟨ranges, rfl, spaced, by simp⟩
  | cons ex excludes ih =>
    have some : ex.1 < ex.2 := nonempty ex List.mem_cons_self
    have one : (cutAll ex ranges).length ≤ ranges.length + 1 := spaced.length_cutAll
    rw [List.length_cons] at few
    obtain ⟨left, run, spaced', rest⟩ := ih (spaced.cutAll some)
      (fun ex mem => nonempty ex (List.mem_cons_of_mem _ mem)) (by omega)
    have first := foldlM_excludeRange ex ranges [] (by rw [List.nil_append]; omega)
    refine ⟨left, ?_, spaced', ?_⟩
    · rw [excludeRanges, List.foldlM_cons, first, ok_bind]
      exact run
    · rw [rest, Intervals.covered_cutAll]
      ext x
      simp only [Set.mem_sdiff, Set.mem_ofPred_eq, List.mem_cons, exists_eq_or_imp, not_or, and_assoc]

/-! ## The pages -/

theorem mem_pagesExcluding {left : List (Nat × Nat)} (spaced : Spaced left)
    (points : covered left = Set.Ico start stop \ {x | ∃ ex ∈ excludes, x ∈ Set.Ico ex.1 ex.2}) {x : Nat} :
    x ∈ pagesExcluding start stop excludes ↔ ∃ r ∈ left, r.1 < r.2 ∧ x ∈ wholePages r.1 (r.2 - r.1) := by
  have pos := Buddy.page_pos
  simp only [pagesExcluding, wholePages, Set.mem_ofPred_eq]
  generalize x / PAGE_SIZE * PAGE_SIZE = q
  have inside : Set.Ico q (q + PAGE_SIZE) ⊆ covered left ↔ start ≤ q ∧ q + PAGE_SIZE ≤ stop ∧
      ∀ ex ∈ excludes, Disjoint (Set.Ico q (q + PAGE_SIZE)) (Set.Ico ex.1 ex.2) := by
    rw [points, Set.subset_sdiff, Set.Ico_subset_Ico_iff (by omega), and_assoc]
    refine and_congr_right fun _ => and_congr_right fun _ => ?_
    constructor
    · intro apart ex mem
      refine Set.disjoint_of_subset_right ?_ apart
      exact fun y inside => ⟨ex, mem, inside⟩
    · intro apart
      refine Set.disjoint_right.mpr ?_
      rintro y ⟨ex, mem, inside⟩
      exact Set.disjoint_right.mp (apart ex mem) inside
  rw [← inside]
  constructor
  · intro segment
    obtain ⟨r, mem, here⟩ := segment ⟨Nat.le_refl q, by omega⟩
    have whole := spaced.mem_of_segment mem here segment
    obtain ⟨low, high⟩ := here
    exact ⟨r, mem, by omega, low, by omega⟩
  · rintro ⟨r, mem, some, low, high⟩ y ⟨hy, hy'⟩
    exact ⟨r, mem, by omega, by omega⟩

namespace Buddy

variable {s s' : Buddy} {free : Nat → List Nat} {out : List Block} {S : Set Nat} {p : Profile}

/-- The whole pages of some ranges. -/
def rangePages (ranges : List (Nat × Nat)) : Set Nat :=
  {x | ∃ r ∈ ranges, r.1 < r.2 ∧ x ∈ wholePages r.1 (r.2 - r.1)}

theorem rangePages_cons (r : Nat × Nat) (ranges : List (Nat × Nat)) : rangePages (r :: ranges) =
    (if r.1 < r.2 then wholePages r.1 (r.2 - r.1) else ∅) ∪ rangePages ranges := by
  ext x
  simp only [rangePages, Set.mem_ofPred_eq, List.mem_cons, exists_eq_or_imp, Set.mem_union]
  refine or_congr ?_ Iff.rfl
  split <;> simp [*]

theorem addRanges_spec (inv : Inv s free out S) (spaced : Spaced ranges)
    (fresh : Disjoint (rangePages ranges) S) (pos : ∀ r ∈ ranges, r.1 < r.2 → 0 < r.1)
    (word : ∀ r ∈ ranges, r.1 < r.2 → r.2 < 2 ^ 64) :
    (∀ s', s.addRanges p ranges = .ok s' → ∃ free', Inv s' free' out (rangePages ranges ∪ S)) ∧
      ((∀ r ∈ ranges, r.1 < r.2 → r.2 + PAGE_SIZE ≤ 2 ^ 64) → rangePages ranges ⊆ Set.Iio DIRECT_MAP_END →
        ∃ s', s.addRanges p ranges = .ok s') := by
  induction ranges generalizing s free S with
  | nil =>
    have none : rangePages [] ∪ S = S := by
      ext x
      simp [rangePages]
    refine ⟨fun s' run => ⟨free, ?_⟩, fun _ _ => ⟨s, rfl⟩⟩
    obtain rfl := Except.ok.inj run
    rwa [none]
  | cons r ranges ih =>
    obtain ⟨gaps, spaced⟩ := List.pairwise_cons.mp spaced
    have ih {s free S} (inv : Inv s free out S) (fresh : Disjoint (rangePages ranges) S) :=
      ih inv spaced fresh (fun r mem => pos r (List.mem_cons_of_mem _ mem))
        fun r mem => word r (List.mem_cons_of_mem _ mem)
    rw [rangePages_cons] at fresh ⊢
    rw [addRanges, List.foldlM_cons]
    by_cases some : r.1 < r.2
    · rw [if_pos some] at fresh ⊢
      rw [if_pos some]
      obtain ⟨freshFirst, freshRest⟩ := Set.disjoint_union_left.mp fresh
      have first := pos r List.mem_cons_self some
      have last := word r List.mem_cons_self some
      have page0 : ¬ (r.1 = 0 ∧ PAGE_SIZE ≤ r.2 - r.1) := fun zero => first.ne' zero.1
      have size : r.1 + (r.2 - r.1) = r.2 := by omega
      -- the ranges behind do not meet this one
      have apart : Disjoint (rangePages ranges) (wholePages r.1 (r.2 - r.1)) := by
        refine Set.disjoint_left.mpr ?_
        rintro x ⟨r', mem, -, low, -⟩ ⟨-, high⟩
        have gap := gaps r' mem
        rw [size] at high
        omega
      have freshRest' : Disjoint (rangePages ranges) (wholePages r.1 (r.2 - r.1) ∪ S) :=
        Set.disjoint_union_right.mpr ⟨apart, freshRest⟩
      refine ⟨fun s' run => ?_, fun top window => ?_⟩
      · obtain ⟨s₁, added, run⟩ := bind_eq_ok.mp run
        obtain ⟨free₁, inv₁, -⟩ := addRegion_spec inv freshFirst page0 (by omega) added
        obtain ⟨free', inv'⟩ := (ih inv₁ freshRest').1 s' run
        refine ⟨free', ?_⟩
        rwa [Set.union_comm (wholePages r.1 (r.2 - r.1)), Set.union_assoc]
      · obtain ⟨windowFirst, windowRest⟩ := Set.union_subset_iff.mp window
        have highest := top r List.mem_cons_self some
        obtain ⟨s₁, free₁, added, inv₁, -⟩ := addRegion_pages (p := p) inv freshFirst page0 (by omega)
          (by omega) (by
            intro filled
            have inside := windowFirst (a := (r.1 + (r.2 - r.1)) / PAGE_SIZE * PAGE_SIZE - 1)
            rw [wholePages_eq] at inside
            have less := inside ⟨by omega, by omega⟩
            rw [Set.mem_Iio] at less
            omega)
        rw [added, ok_bind]
        exact (ih inv₁ freshRest').2 (fun r mem => top r (List.mem_cons_of_mem _ mem)) windowRest
    · simp only [if_neg some, Set.empty_union, ok_bind] at fresh ⊢
      obtain ⟨exact, succeeds⟩ := ih inv fresh
      exact ⟨exact, fun top window => succeeds (fun r mem => top r (List.mem_cons_of_mem _ mem)) window⟩

theorem Inv.listed_cells (inv : Inv s free out S) (x : Nat) :
    (∃ b, s.Listed b ∧ x ∈ b.cells PAGE_SIZE) ↔ x ∈ S ∧ ∀ b ∈ out, x ∉ b.cells PAGE_SIZE := by
  have cover := inv.tiling.append_right.cover x
  exact Iff.trans (exists_congr fun b => and_congr_left fun _ => inv.listed_iff) cover.symm

theorem Inv.listed_once (inv : Inv s free out S) {b b' : Block} {x : Nat} (hb : s.Listed b)
    (hb' : s.Listed b') (inside : x ∈ b.cells PAGE_SIZE) (inside' : x ∈ b'.cells PAGE_SIZE) : b = b' := by
  by_contra other
  have apart := inv.tiling.apart.forall (List.mem_append_right _ (inv.listed_iff.mp hb))
    (List.mem_append_right _ (inv.listed_iff.mp hb')) other
  exact Set.disjoint_left.mp apart.disjoint inside inside'

/-- For at most seven exclusions the slots suffice. If the pages are new to the allocator, then what is
on the free lists afterwards is what was there before and exactly those pages, each once; and if they lie
in the window and the region does not end in the last page of all, nothing stops the kernel. -/
theorem add_region_excluding_exact (p : Profile) (start stop : Nat) (excludes : List (Nat × Nat))
    (pos : 0 < start) (word : stop < 2 ^ 64) (few : excludes.length ≤ 7)
    (nonempty : ∀ ex ∈ excludes, ex.1 < ex.2) :
    (∃ left, excludeRanges [(start, stop)] excludes = .ok left) ∧
    ∀ s free out S, Inv s free out S → Disjoint (pagesExcluding start stop excludes) S →
      (stop + PAGE_SIZE ≤ 2 ^ 64 → pagesExcluding start stop excludes ⊆ Set.Iio DIRECT_MAP_END →
        ∃ s', s.addRegionExcluding p start stop excludes = .ok s') ∧
      ∀ s', s.addRegionExcluding p start stop excludes = .ok s' →
        (∃ free', Inv s' free' out (pagesExcluding start stop excludes ∪ S)) ∧
        (∀ x, (∃ b, s'.Listed b ∧ x ∈ b.cells PAGE_SIZE) ↔
          x ∈ pagesExcluding start stop excludes ∨ ∃ b, s.Listed b ∧ x ∈ b.cells PAGE_SIZE) ∧
        ∀ b b' x, s'.Listed b → s'.Listed b' → x ∈ b.cells PAGE_SIZE → x ∈ b'.cells PAGE_SIZE → b = b' := by
  obtain ⟨left, run, spaced, points⟩ := excludeRanges_ok (List.pairwise_singleton _ (start, stop))
    nonempty (by simp only [List.length_singleton, RANGE_SLOTS]; omega)
  have whole : covered [(start, stop)] = Set.Ico start stop := by
    ext x
    simp [covered]
  rw [whole] at points
  have pages : pagesExcluding start stop excludes = rangePages left := by
    ext x
    exact mem_pagesExcluding spaced points
  -- the ranges that are not empty lie in the region
  have inside {r : Nat × Nat} (mem : r ∈ left) (some : r.1 < r.2) : start ≤ r.1 ∧ r.2 ≤ stop := by
    have first : r.1 ∈ covered left := ⟨r, mem, Nat.le_refl _, some⟩
    have last : r.2 - 1 ∈ covered left := ⟨r, mem, by omega, by omega⟩
    rw [points] at first last
    have low := first.1.1
    have high := last.1.2
    exact ⟨low, by omega⟩
  refine ⟨⟨left, run⟩, fun s free out S inv fresh => ?_⟩
  rw [pages] at fresh ⊢
  have registers : s.addRegionExcluding p start stop excludes = s.addRanges p left := by
    rw [addRegionExcluding, run, ok_bind]
  obtain ⟨exact, succeeds⟩ := addRanges_spec (p := p) inv spaced fresh
    (fun r mem some => pos.trans_le (inside mem some).1)
    (fun r mem some => (inside mem some).2.trans_lt word)
  rw [registers]
  refine ⟨fun top window => succeeds (fun r mem some => ?_) window, fun s' done => ?_⟩
  · have high := (inside mem some).2
    omega
  · obtain ⟨free', inv'⟩ := exact s' done
    refine ⟨⟨free', inv'⟩, fun x => ?_, fun b b' x hb hb' => inv'.listed_once hb hb'⟩
    rw [inv'.listed_cells, inv.listed_cells, Set.mem_union]
    -- what is out was registered before
    have old : x ∈ rangePages left → ∀ b ∈ out, x ∉ b.cells PAGE_SIZE := by
      intro new b mem cell
      exact Set.disjoint_left.mp fresh new (inv.tiling.cells_subset (List.mem_append_left _ mem) cell)
    tauto

/-- Two pages of the kernel image and an unaligned stack in a region of eight pages. -/
theorem add_region_excluding_boot :
    pagesExcluding 0x10000 0x18000 [(0x11000, 0x13000), (0x14800, 0x15001)] ⊆ Set.Iio DIRECT_MAP_END ∧
    ∃ s', addRegionExcluding .release ⟨fun _ => 0, .new⟩ 0x10000 0x18000
        [(0x11000, 0x13000), (0x14800, 0x15001)] = .ok s' ∧
      ∀ x, (∃ b, s'.Listed b ∧ x ∈ b.cells PAGE_SIZE) ↔
        x ∈ pagesExcluding 0x10000 0x18000 [(0x11000, 0x13000), (0x14800, 0x15001)] ∨
          ∃ b, Listed ⟨fun _ => 0, .new⟩ b ∧ x ∈ b.cells PAGE_SIZE := by
  have window : pagesExcluding 0x10000 0x18000 [(0x11000, 0x13000), (0x14800, 0x15001)] ⊆
      Set.Iio DIRECT_MAP_END := by
    rintro x ⟨-, high, -⟩
    simp only [PAGE_SIZE, DIRECT_MAP_END, Set.mem_Iio] at *
    omega
  obtain ⟨succeeds, exact⟩ := (add_region_excluding_exact .release 0x10000 0x18000
    [(0x11000, 0x13000), (0x14800, 0x15001)] (by decide) (by decide) (by decide) (by decide)).2 _ _ _ _
    (inv_new fun _ => 0) (Set.disjoint_empty _)
  obtain ⟨s', run⟩ := succeeds (by decide) window
  exact ⟨window, s', run, (exact s' run).2.1⟩

/-- A region that begins where the window ends stops the kernel, in both profiles. -/
theorem add_region_above_window :
    addRegionExcluding .dev ⟨fun _ => 0, .new⟩ DIRECT_MAP_END (DIRECT_MAP_END + PAGE_SIZE) [] =
      .error (.physToVirt DIRECT_MAP_END) ∧
    addRegionExcluding .release ⟨fun _ => 0, .new⟩ DIRECT_MAP_END (DIRECT_MAP_END + PAGE_SIZE) [] =
      .error (.physToVirt DIRECT_MAP_END) := by
  have failed {x : Except Stop Buddy} {e : Stop} (h : x.map (fun _ => ()) = .error e) : x = .error e := by
    cases x with
    | error e' => exact congrArg Except.error (Except.error.inj h)
    | ok s => cases h
  exact ⟨failed (by decide +kernel), failed (by decide +kernel)⟩

end Buddy
end Ferrum
