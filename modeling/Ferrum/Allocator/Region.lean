import Ferrum.Allocator.Operations
import Mathlib

/-!
# Registering memory

`add_region` rounds a region inwards to whole pages and cuts them into the largest blocks that
alignment and the remaining length allow. Afterwards the registered set has grown by exactly the
whole pages of the region.
-/
namespace Ferrum

/-- The bytes of the whole pages that lie inside a region. -/
def wholePages (base size : Nat) : Set Nat :=
  {x | base ≤ x / PAGE_SIZE * PAGE_SIZE ∧ x / PAGE_SIZE * PAGE_SIZE + PAGE_SIZE ≤ base + size}

/-- The chosen order fits the remaining bytes and the alignment of the address. -/
theorem maxOrderFor_spec {addr remaining : Nat} (page : PAGE_SIZE ∣ addr)
    (room : PAGE_SIZE ≤ remaining) :
    maxOrderFor addr remaining < MAX_ORDER ∧
      blockSize PAGE_SIZE (maxOrderFor addr remaining) ≤ remaining ∧
      Block.Aligned PAGE_SIZE ⟨addr, maxOrderFor addr remaining⟩ := by
  unfold maxOrderFor
  cases search : (List.range MAX_ORDER).reverse.find? fun o =>
      orderToSize o ≤ remaining && (addr / PAGE_SIZE) &&& (1 <<< o - 1) == 0 with
  | none =>
    -- order 0 always qualifies
    have zero := List.find?_eq_none.mp search 0 (by decide)
    simp [orderToSize, room] at zero
  | some o =>
    have mem := List.mem_of_find?_eq_some search
    have fits := List.find?_some search
    simp only [Bool.and_eq_true, decide_eq_true_eq, beq_iff_eq, Nat.one_shiftLeft,
      Nat.and_two_pow_sub_one_eq_mod] at fits
    refine ⟨by simpa using mem, Buddy.orderToSize_eq o ▸ fits.1, ?_⟩
    obtain ⟨k, rfl⟩ := page
    rw [Nat.mul_div_cancel_left k Buddy.page_pos] at fits
    exact Nat.mul_dvd_mul_left _ (Nat.dvd_of_mod_eq_zero fits.2)

theorem maxOrderFor_max {addr remaining o : Nat} (page : PAGE_SIZE ∣ addr)
    (large : maxOrderFor addr remaining < o) (ho : o < MAX_ORDER)
    (fits : blockSize PAGE_SIZE o ≤ remaining) : ¬ Block.Aligned PAGE_SIZE ⟨addr, o⟩ := by
  intro align
  have qualifies : (decide (orderToSize o ≤ remaining) &&
      (addr / PAGE_SIZE) &&& (1 <<< o - 1) == 0) = true := by
    obtain ⟨k, rfl⟩ := page
    have number : 2 ^ o ∣ k := Nat.dvd_of_mul_dvd_mul_left Buddy.page_pos align
    simp only [Bool.and_eq_true, decide_eq_true_eq, beq_iff_eq, Nat.one_shiftLeft,
      Nat.and_two_pow_sub_one_eq_mod, Buddy.orderToSize_eq, Nat.mul_div_cancel_left k Buddy.page_pos]
    exact ⟨fits, Nat.mod_eq_zero_of_dvd number⟩
  unfold maxOrderFor at large
  cases search : (List.range MAX_ORDER).reverse.find? fun o =>
      orderToSize o ≤ remaining && (addr / PAGE_SIZE) &&& (1 <<< o - 1) == 0 with
  | none => exact List.find?_eq_none.mp search o (by simpa using ho) qualifies
  | some found =>
    rw [search, Option.getD_some] at large
    -- whatever comes before the order that was found was tried and did not qualify
    obtain ⟨-, before, after, split, tried⟩ := List.find?_eq_some_iff_append.mp search
    have sorted : (List.range MAX_ORDER).reverse.Pairwise (· > ·) :=
      List.pairwise_reverse.mpr List.pairwise_lt_range
    have mem : o ∈ (List.range MAX_ORDER).reverse := by simpa using ho
    rw [split] at sorted mem
    rcases List.mem_append.mp mem with early | late
    · simpa [qualifies] using tried o early
    · rcases List.mem_cons.mp late with rfl | late
      · omega
      · have := (List.pairwise_cons.mp (List.pairwise_append.mp sorted).2.1).1 o late
        omega

namespace Buddy

/-- No block of the largest order or below lies partly in one set and partly in the other. -/
def Parted (R S : Set Nat) : Prop := ∀ a o, o < MAX_ORDER → Block.Aligned PAGE_SIZE ⟨a, o⟩ →
  Block.cells PAGE_SIZE ⟨a, o⟩ ⊆ R ∪ S → Block.cells PAGE_SIZE ⟨a, o⟩ ⊆ R ∨
    Block.cells PAGE_SIZE ⟨a, o⟩ ⊆ S

/-- No free block has its buddy in the interval. -/
def Sealed (free : Nat → List Nat) (addr stop : Nat) : Prop :=
  ∀ o < MAX_ORDER - 1, ∀ a ∈ free o,
    ¬ Block.cells PAGE_SIZE ⟨buddyOf a o, o⟩ ⊆ Set.Ico addr stop

variable {s s' : Buddy} {free : Nat → List Nat} {out : List Block} {S : Set Nat}
  {p : Profile} {addr stop fuel : Nat}

theorem Sealed.buddy_notMem {o : Nat} (closed : Sealed free addr stop) (page : PAGE_SIZE ∣ addr)
    (fits : blockSize PAGE_SIZE o ≤ stop - addr) :
    o < MAX_ORDER - 1 → buddyOf addr o ∉ free o := by
  intro ho mem
  refine closed o ho _ mem ?_
  rw [buddyOf_buddyOf page]
  have := page_le_blockSize o
  intro x hx
  simp only [Block.cells, Block.stop, Set.mem_Ico, PAGE_SIZE] at *
  omega

theorem Sealed.push {o : Nat} (closed : Sealed free addr stop)
    (align : Block.Aligned PAGE_SIZE ⟨addr, o⟩)
    (largest : o + 1 < MAX_ORDER → blockSize PAGE_SIZE (o + 1) ≤ stop - addr →
      ¬ Block.Aligned PAGE_SIZE ⟨addr, o + 1⟩) :
    Sealed (Function.update free o (addr :: free o)) (addr + blockSize PAGE_SIZE o) stop := by
  intro k hk a mem inside
  have shrink : Set.Ico (addr + blockSize PAGE_SIZE o) stop ⊆ Set.Ico addr stop :=
    Set.Ico_subset_Ico_left (Nat.le_add_right _ _)
  by_cases same : k = o
  · subst same
    rw [Function.update_self] at mem
    rcases List.mem_cons.mp mem with rfl | old
    · -- its buddy comes before it, or the two would have been one block
      have first := inside (Block.addr_mem_cells page_pos _)
      have last : buddyOf a k + blockSize PAGE_SIZE k - 1 ∈ Set.Ico (a + blockSize PAGE_SIZE k) stop := by
        refine inside ?_
        have := blockSize_pos page_pos k
        simp only [Block.cells, Block.stop, Set.mem_Ico]
        omega
      rw [buddyOf_eq] at first last
      have size := blockSize_succ PAGE_SIZE k
      have pos := blockSize_pos page_pos k
      rcases align.buddy_cases page_pos with ⟨right, parent⟩ | ⟨left, -⟩
      · rw [right] at last
        simp only [Set.mem_Ico] at last
        exact largest (by omega) (by omega) parent
      · simp only [Set.mem_Ico] at first
        omega
    · exact closed k hk a old (inside.trans shrink)
  · rw [Function.update_of_ne same] at mem
    exact closed k hk a mem (inside.trans shrink)

theorem addBlocks_spec (inv : Inv s free out S) (pageAddr : PAGE_SIZE ∣ addr)
    (pageStop : PAGE_SIZE ∣ stop) (fresh : Disjoint (Set.Ico addr stop) S) (lo : PAGE_SIZE ≤ addr)
    (hi : stop ≤ DIRECT_MAP_END) (hf : stop - addr < fuel * PAGE_SIZE) :
    ∃ s' free', addBlocks fuel s addr stop = .ok s' ∧ Inv s' free' out (Set.Ico addr stop ∪ S) ∧
      Set.EqOn s'.mem s.mem (Held out (Set.Ico addr stop ∪ S)) ∧
      (Merged free → Sealed free addr stop → Merged free') := by
  induction fuel generalizing s free addr S with
  | zero => omega
  | succ fuel ih =>
    by_cases more : addr + PAGE_SIZE ≤ stop
    · have room : PAGE_SIZE ≤ stop - addr := by omega
      obtain ⟨bound, fits, align⟩ := maxOrderFor_spec pageAddr room
      have largest {k : Nat} (large : maxOrderFor addr (stop - addr) < k) := maxOrderFor_max pageAddr large
      generalize order : maxOrderFor addr (stop - addr) = o at bound fits align largest
      have page := page_le_blockSize o
      have cells : Block.cells PAGE_SIZE ⟨addr, o⟩ = Set.Ico addr (addr + blockSize PAGE_SIZE o) :=
        rfl
      have cut : Set.Ico addr stop = Block.cells PAGE_SIZE ⟨addr, o⟩ ∪
          Set.Ico (addr + blockSize PAGE_SIZE o) stop := by
        rw [cells, Set.Ico_union_Ico_eq_Ico (by omega) (by omega)]
      have registered := inv.register bound align
        (fresh.mono_left (cut ▸ Set.subset_union_left))
        (cells ▸ Set.Ico_subset_Ico lo (by omega))
      obtain ⟨s₁, push, inv₁, frame₁⟩ := pushBlock_spec registered
      have ahead : Disjoint (Set.Ico (addr + blockSize PAGE_SIZE o) stop)
          (Block.cells PAGE_SIZE ⟨addr, o⟩ ∪ S) := by
        refine Set.disjoint_union_right.mpr ⟨?_, fresh.mono_left (cut ▸ Set.subset_union_right)⟩
        rw [cells]
        exact (Set.Ico_disjoint_Ico_same).symm
      have pages : PAGE_SIZE ∣ blockSize PAGE_SIZE o := Nat.dvd_mul_right _ _
      obtain ⟨s₂, free₂, rest, inv₂, frame₂, merged₂⟩ := ih inv₁ (Nat.dvd_add pageAddr pages) ahead
        (by omega) (by rw [Nat.succ_mul] at hf; omega)
      have grown : Set.Ico (addr + blockSize PAGE_SIZE o) stop ∪
          (Block.cells PAGE_SIZE ⟨addr, o⟩ ∪ S) = Set.Ico addr stop ∪ S := by
        rw [cut, ← Set.union_assoc, Set.union_comm (Set.Ico _ stop)]
      rw [grown] at inv₂ frame₂
      have older : Held out (Set.Ico addr stop ∪ S) ⊆
          Held out (Block.cells PAGE_SIZE ⟨addr, o⟩ ∪ S) :=
        fun x hx hS => hx (grown ▸ Or.inr hS)
      refine ⟨s₂, free₂, ?_, inv₂, frame₂.trans (frame₁.mono older), fun merged closed => ?_⟩
      · simp only [addBlocks, more, if_true, order, push, ok_bind, orderToSize_eq, rest]
      · exact merged₂ (merged.push inv (closed.buddy_notMem pageAddr fits))
          (closed.push align fun ho => largest (Nat.lt_succ_self o) ho)
    · obtain ⟨i, rfl⟩ := pageAddr
      obtain ⟨j, rfl⟩ := pageStop
      have empty : Set.Ico (PAGE_SIZE * i) (PAGE_SIZE * j) = ∅ := by
        simp only [PAGE_SIZE] at *
        exact Set.Ico_eq_empty (by omega)
      refine ⟨s, free, by simp [addBlocks, more], ?_, fun _ _ => rfl, fun merged _ => merged⟩
      simpa [empty] using inv

/-- The loop only ends well inside the higher-half window: a block that starts in the window ends in
it, and the first block past it cannot be linked. -/
theorem addBlocks_bound (pageAddr : PAGE_SIZE ∣ addr) (pageStop : PAGE_SIZE ∣ stop)
    (room : addr < stop) (h : addBlocks fuel s addr stop = .ok s') : stop ≤ DIRECT_MAP_END := by
  induction fuel generalizing s addr with
  | zero => simp [addBlocks] at h
  | succ fuel ih =>
    have more : addr + PAGE_SIZE ≤ stop := by
      obtain ⟨i, rfl⟩ := pageAddr
      obtain ⟨j, rfl⟩ := pageStop
      simp only [PAGE_SIZE] at *
      omega
    have left : PAGE_SIZE ≤ stop - addr := by omega
    obtain ⟨bound, fits, align⟩ := maxOrderFor_spec pageAddr left
    simp only [addBlocks, more, if_true, orderToSize_eq] at h
    generalize maxOrderFor addr (stop - addr) = o at bound fits align h
    obtain ⟨s₁, push, rest⟩ := bind_eq_ok.mp h
    -- the end of the window is a multiple of every block size
    have inside : addr + blockSize PAGE_SIZE o ≤ DIRECT_MAP_END := by
      have top : blockSize PAGE_SIZE o ∣ DIRECT_MAP_END := by
        have size : blockSize PAGE_SIZE o = 2 ^ (12 + o) := by rw [Nat.pow_add]; rfl
        rw [size]
        exact Nat.pow_dvd_pow 2 (by simp only [MAX_ORDER] at bound; omega)
      obtain ⟨i, hi⟩ := align
      obtain ⟨j, hj⟩ := top
      have start := lt_of_pushBlock_ok push
      simp only at hi
      rw [hi, hj] at start ⊢
      have := Nat.lt_of_mul_lt_mul_left start
      calc blockSize PAGE_SIZE o * i + blockSize PAGE_SIZE o
          = blockSize PAGE_SIZE o * (i + 1) := by rw [Nat.mul_succ]
        _ ≤ blockSize PAGE_SIZE o * j := Nat.mul_le_mul_left _ this
    by_cases last : addr + blockSize PAGE_SIZE o < stop
    · exact ih (Nat.dvd_add pageAddr (Nat.dvd_mul_right _ _)) last rest
    · omega

/-! ## A whole region -/

variable {base size : Nat}

theorem wholePages_eq : wholePages base size =
    Set.Ico ((base + (PAGE_SIZE - 1)) / PAGE_SIZE * PAGE_SIZE)
      ((base + size) / PAGE_SIZE * PAGE_SIZE) := by
  ext x
  simp only [wholePages, Set.mem_ofPred_eq, Set.mem_Ico, PAGE_SIZE]
  omega

/-- A free block has no buddy in a new region from which its own pages are parted. -/
theorem Parted.sealed {lo stop : Nat} (inv : Inv s free out S) (fresh : Disjoint (Set.Ico lo stop) S)
    (parted : Parted (Set.Ico lo stop) S) : Sealed free lo stop := by
  intro o ho a mem inside
  have listed : (⟨a, o⟩ : Block) ∈ blocks free out := Inv.mem_free (by omega) mem
  have old : Block.cells PAGE_SIZE ⟨a, o⟩ ⊆ S := inv.tiling.cells_subset listed
  have align := inv.tiling.aligned _ listed
  have size := blockSize_succ PAGE_SIZE o
  have mine := Block.addr_mem_cells page_pos ⟨a, o⟩
  have other := Block.addr_mem_cells page_pos ⟨buddyOf a o, o⟩
  -- the parent of the two would be half new and half old
  have split (x y : Nat) (parent : Block.Aligned PAGE_SIZE ⟨x, o + 1⟩)
      (next : y = x + blockSize PAGE_SIZE o)
      (both : Block.cells PAGE_SIZE ⟨x, o⟩ ⊆ Set.Ico lo stop ∪ S ∧
        Block.cells PAGE_SIZE ⟨y, o⟩ ⊆ Set.Ico lo stop ∪ S)
      (ma : a ∈ Block.cells PAGE_SIZE ⟨x, o + 1⟩)
      (mb : buddyOf a o ∈ Block.cells PAGE_SIZE ⟨x, o + 1⟩) : False := by
    have whole : Block.cells PAGE_SIZE ⟨x, o + 1⟩ ⊆ Set.Ico lo stop ∪ S := by
      intro z hz
      by_cases low : z < y
      · exact both.1 (by simp only [Block.cells, Block.stop, Set.mem_Ico] at hz ⊢; omega)
      · exact both.2 (by simp only [Block.cells, Block.stop, Set.mem_Ico] at hz ⊢; omega)
    rcases parted x (o + 1) (by omega) parent whole with new | older
    · exact Set.disjoint_left.mp fresh (new ma) (old mine)
    · exact Set.disjoint_left.mp fresh (inside other) (older mb)
  have pos := blockSize_pos page_pos o
  have old' := old.trans (Set.subset_union_right (s := Set.Ico lo stop))
  have inside' := inside.trans (Set.subset_union_left (t := S))
  rcases align.buddy_cases page_pos with ⟨right, parent⟩ | ⟨left, parent⟩
  · rw [← buddyOf_eq] at right
    refine split a (buddyOf a o) parent right ⟨old', inside'⟩ ?_ ?_ <;>
      simp only [Block.cells, Block.stop, Set.mem_Ico] <;> omega
  · rw [← buddyOf_eq] at left parent
    refine split (buddyOf a o) a parent left ⟨inside', old'⟩ ?_ ?_ <;>
      simp only [Block.cells, Block.stop, Set.mem_Ico] <;> omega

/-- The region's whole pages end inside the window, so that every block can be linked. -/
theorem addRegion_pages (inv : Inv s free out S) (fresh : Disjoint (wholePages base size) S)
    (page0 : ¬ (base = 0 ∧ PAGE_SIZE ≤ size)) (room : base + PAGE_SIZE < 2 ^ 64)
    (fits : base + size < 2 ^ 64)
    (hi : (base + (PAGE_SIZE - 1)) / PAGE_SIZE * PAGE_SIZE < (base + size) / PAGE_SIZE * PAGE_SIZE →
      (base + size) / PAGE_SIZE * PAGE_SIZE ≤ DIRECT_MAP_END) :
    ∃ s' free', s.addRegion p base size = .ok s' ∧
      Inv s' free' out (wholePages base size ∪ S) ∧
      Set.EqOn s'.mem s.mem (Held out (wholePages base size ∪ S)) ∧
      (Merged free → Parted (wholePages base size) S → Merged free') := by
  simp only [addRegion, alignUp_page p room, p.add_ok fits, alignDown_page fits, ok_bind]
  rw [wholePages_eq] at fresh ⊢
  generalize start : (base + (PAGE_SIZE - 1)) / PAGE_SIZE * PAGE_SIZE = lo at *
  generalize past : (base + size) / PAGE_SIZE * PAGE_SIZE = stop at *
  by_cases empty : stop ≤ lo
  · refine ⟨s, free, by simp [empty], ?_, fun _ _ => rfl, fun merged _ => merged⟩
    simpa [Set.Ico_eq_empty (Nat.not_lt.mpr empty)] using inv
  · have first : PAGE_SIZE ≤ lo := by
      subst start past
      simp only [PAGE_SIZE] at *
      omega
    have fuel : stop - lo < ((stop - lo) / PAGE_SIZE + 1) * PAGE_SIZE := by
      simp only [PAGE_SIZE]
      omega
    obtain ⟨s', free', run, inv', frame, merges⟩ := addBlocks_spec inv
      (start ▸ Nat.dvd_mul_left _ _) (past ▸ Nat.dvd_mul_left _ _) fresh first (hi (by omega)) fuel
    refine ⟨s', free', ?_, inv', frame, fun merged parted =>
      merges merged (Parted.sealed inv fresh parted)⟩
    simp [empty, run, checkMetadataIntegrity_ok inv']

theorem addRegion_ok (p : Profile) (inv : Inv s free out S)
    (fresh : Disjoint (wholePages base size) S) (page0 : ¬ (base = 0 ∧ PAGE_SIZE ≤ size))
    (window : base + size ≤ DIRECT_MAP_END) : ∃ s', s.addRegion p base size = .ok s' := by
  simp only [DIRECT_MAP_END] at window
  obtain ⟨s', -, run, -⟩ := addRegion_pages (p := p) inv fresh page0
    (by simp only [PAGE_SIZE]; omega) (by omega)
    (fun _ => by simp only [PAGE_SIZE, DIRECT_MAP_END]; omega)
  exact ⟨s', run⟩

/-- `add_region` extends the registered set by the region's whole pages. -/
theorem addRegion_spec (inv : Inv s free out S) (fresh : Disjoint (wholePages base size) S)
    (page0 : ¬ (base = 0 ∧ PAGE_SIZE ≤ size)) (fits : base + size < 2 ^ 64)
    (h : s.addRegion p base size = .ok s') :
    ∃ free', Inv s' free' out (wholePages base size ∪ S) ∧
      Set.EqOn s'.mem s.mem (Held out (wholePages base size ∪ S)) ∧
      (Merged free → Parted (wholePages base size) S → Merged free') := by
  by_cases room : base + PAGE_SIZE < 2 ^ 64
  · have hi : (base + (PAGE_SIZE - 1)) / PAGE_SIZE * PAGE_SIZE <
        (base + size) / PAGE_SIZE * PAGE_SIZE →
        (base + size) / PAGE_SIZE * PAGE_SIZE ≤ DIRECT_MAP_END := by
      intro filled
      simp only [addRegion, alignUp_page p room, p.add_ok fits, alignDown_page fits, ok_bind,
        Nat.not_le.mpr filled, if_false] at h
      obtain ⟨s₁, run, -⟩ := bind_eq_ok.mp h
      exact addBlocks_bound (Nat.dvd_mul_left _ _) (Nat.dvd_mul_left _ _) filled run
    obtain ⟨s₁, free', run, inv', frame, merges⟩ :=
      addRegion_pages (p := p) inv fresh page0 room fits hi
    obtain rfl : s' = s₁ := by
      rw [run] at h
      exact (Except.ok.inj h).symm
    exact ⟨free', inv', frame, merges⟩
  · -- within a page of the top: the dev profile aborts, the release profile wraps
    cases p with
    | dev =>
      rw [addRegion, alignUp_dev_error (Nat.not_lt.mp room), error_bind] at h
      cases h
    | release =>
      simp only [addRegion, alignUp_release, Profile.release.add_ok fits, alignDown_page fits,
        ok_bind] at h
      by_cases edge : base + PAGE_SIZE = 2 ^ 64
      · have none : (base + size) / PAGE_SIZE * PAGE_SIZE ≤
            (base + (PAGE_SIZE - 1)) / PAGE_SIZE * PAGE_SIZE := by
          simp only [PAGE_SIZE] at *
          omega
        have same : (base + (PAGE_SIZE - 1)) % 2 ^ 64 = base + (PAGE_SIZE - 1) := by
          simp only [PAGE_SIZE] at *
          omega
        rw [same, if_pos none] at h
        obtain rfl : s = s' := Except.ok.inj h
        refine ⟨free, ?_, fun _ _ => rfl, fun merged _ => merged⟩
        simpa [wholePages_eq, Set.Ico_eq_empty (Nat.not_lt.mpr none)] using inv
      · have start : (base + (PAGE_SIZE - 1)) % 2 ^ 64 / PAGE_SIZE * PAGE_SIZE = 0 := by
          simp only [PAGE_SIZE] at *
          omega
        have stop : 0 + PAGE_SIZE ≤ (base + size) / PAGE_SIZE * PAGE_SIZE := by
          simp only [PAGE_SIZE] at *
          omega
        have some : ¬ (base + size) / PAGE_SIZE * PAGE_SIZE ≤ 0 := by
          simp only [PAGE_SIZE] at *
          omega
        rw [start, if_neg some, addBlocks, if_pos stop] at h
        simp [pushBlock] at h

end Buddy
end Ferrum
