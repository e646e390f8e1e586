import Ferrum.Allocator.Invariant

/-!
# What each allocator operation does to the invariant

One specification for each function of the source, by its effect on the ghost lists: which block
changes sides, and that memory held by others keeps its contents. The operations never stop
abnormally in a state that satisfies the invariant.
-/
namespace Ferrum.Buddy

variable {s : Buddy} {free : Nat → List Nat} {out : List Block} {S : Set Nat} {a o : Nat}

theorem readNext_ok (h : a < DIRECT_MAP_END) : s.readNext a = .ok (s.mem.read64 a) := by
  simp [readNext, physToVirt_ok h]

theorem writeNext_ok {v : Nat} (h : a < DIRECT_MAP_END) :
    s.writeNext a v = .ok { s with mem := s.mem.write64 a v } := by
  simp [writeNext, physToVirt_ok h]

/-! ## Blocks change sides -/

/-- The state after a push. -/
def pushed (s : Buddy) (a o : Nat) : Buddy where
  mem := s.mem.write64 a (s.pool.freeHeads o)
  pool := ⟨Function.update s.pool.freeHeads o a,
    Function.update s.pool.freeCounts o (s.pool.freeCounts o + 1)⟩

theorem pushBlock_ok (h0 : a ≠ 0) (ho : o < MAX_ORDER) (ha : a < DIRECT_MAP_END) :
    s.pushBlock a o = .ok (s.pushed a o) := by
  simp [pushBlock, h0, Nat.not_le.mpr ho, writeNext_ok ha, pushed, setHead, setCount]

theorem lt_of_pushBlock_ok {s' : Buddy} (h : s.pushBlock a o = .ok s') : a < DIRECT_MAP_END := by
  simp only [pushBlock, writeNext] at h
  split at h
  case isTrue => cases h
  case isFalse =>
    split at h
    case isTrue => cases h
    case isFalse =>
      obtain ⟨_, hw, _⟩ := bind_eq_ok.mp h
      obtain ⟨_, hv, _⟩ := bind_eq_ok.mp hw
      exact lt_of_physToVirt_ok hv

/-- A word of one block is untouched by a write to the first word of another. -/
theorem read64_other {m : Memory} {b c : Block} {v : Nat} (h : b.Apart PAGE_SIZE c) :
    (m.write64 b.addr v).read64 c.addr = m.read64 c.addr := by
  have hb := page_le_blockSize b.order
  have hc := page_le_blockSize c.order
  apply Memory.read64_write64_of_disjoint
  simp only [Block.Apart, Block.stop, PAGE_SIZE] at *
  omega

theorem Inv.push (inv : Inv s free (⟨a, o⟩ :: out) S) :
    Inv (s.pushed a o) (Function.update free o (a :: free o)) out S where
  tiling := by
    have ho : o < MAX_ORDER := inv.bound _ List.mem_cons_self
    refine inv.tiling.perm ?_
    have onList : (Function.update free o (a :: free o) o).Perm (a :: free o) := by simp
    have back := freeBlocks_take ho onList
    simp only [Function.update_idem, Function.update_eq_self] at back
    exact (List.perm_middle.symm.trans (back.symm.append_left out))
  bound b hb := inv.bound b (List.mem_cons_of_mem _ hb)
  lists k hk := by
    have apart := fun c (hc : c ∈ free k) =>
      read64_other (m := s.mem) (v := s.pool.freeHeads o)
        (inv.out_apart_free List.mem_cons_self hk hc)
    have old : Chain (s.mem.write64 a (s.pool.freeHeads o)).read64 (s.pool.freeHeads k) (free k) :=
      (inv.lists k hk).congr apart
    by_cases same : k = o
    · subst same
      have nonzero : a ≠ 0 := by
        have := (inv.addr_window (b := ⟨a, k⟩) List.mem_cons_self).1
        simp only [PAGE_SIZE] at this
        omega
      have small : s.pool.freeHeads k < 2 ^ 64 := by
        cases hl : free k with
        | nil => rw [((inv.lists k hk).head_eq_zero).mpr hl]; omega
        | cons c l =>
          have chain := inv.lists k hk
          have mem : c ∈ free k := by simp [hl]
          rw [hl] at chain
          have := (inv.addr_window (mem_free hk mem)).2
          simp only [DIRECT_MAP_END] at this
          rw [chain.1]
          omega
      have link : (s.mem.write64 a (s.pool.freeHeads k)).read64 a = s.pool.freeHeads k := by
        rw [Memory.read64_write64, Nat.mod_eq_of_lt small]
      simp only [pushed, Function.update_self, Chain, link]
      exact ⟨trivial, nonzero, old⟩
    · simp only [pushed, Function.update_of_ne same]
      exact old
  counts k hk := by
    by_cases same : k = o
    · subst same
      simp [pushed, inv.counts k hk]
    · simp [pushed, same, inv.counts k hk]
  window := inv.window

theorem pushed_eqOn (inv : Inv s free (⟨a, o⟩ :: out) S) :
    Set.EqOn (s.pushed a o).mem s.mem (Held out S) := by
  intro x hx
  refine Memory.write64_outside (m := s.mem) ?_
  by_contra near
  have size := page_le_blockSize o
  have inside : x ∈ Block.cells PAGE_SIZE ⟨a, o⟩ := by
    simp only [Block.cells, Block.stop, PAGE_SIZE, Set.mem_Ico] at *
    omega
  -- the block in hand is apart from the blocks that stay out
  obtain ⟨b, hb, hc⟩ := hx (inv.tiling.cells_subset (b := ⟨a, o⟩) List.mem_cons_self inside)
  have apart := inv.tiling.head_apart b (List.mem_append_left _ hb)
  exact Set.disjoint_left.mp apart.disjoint inside hc

theorem pushBlock_spec (inv : Inv s free (⟨a, o⟩ :: out) S) :
    ∃ s', s.pushBlock a o = .ok s' ∧ Inv s' (Function.update free o (a :: free o)) out S ∧
      Set.EqOn s'.mem s.mem (Held out S) := by
  have ⟨lo, hi⟩ := inv.addr_window (b := ⟨a, o⟩) List.mem_cons_self
  refine ⟨_, pushBlock_ok ?_ (inv.bound _ List.mem_cons_self) hi, inv.push, pushed_eqOn inv⟩
  simp only [PAGE_SIZE] at lo
  omega

theorem Inv.free_apart (inv : Inv s free out S) {b c : Block} (hb : b ∈ freeBlocks free MAX_ORDER)
    (hc : c ∈ freeBlocks free MAX_ORDER) (ne : b ≠ c) : b.Apart PAGE_SIZE c :=
  (List.pairwise_append.mp inv.tiling.apart).2.1.forall hb hc ne

/-- A node leaves the list of order `o`, once its links have been adjusted. -/
theorem Inv.take {s' : Buddy} {l : List Nat} (inv : Inv s free out S) (ho : o < MAX_ORDER)
    (leaves : (free o).Perm (a :: l)) (list : Chain s'.mem.read64 (s'.pool.freeHeads o) l)
    (count : s'.pool.freeCounts o = l.length)
    (lists : ∀ k < MAX_ORDER, k ≠ o → Chain s'.mem.read64 (s'.pool.freeHeads k) (free k))
    (counts : ∀ k, k ≠ o → s'.pool.freeCounts k = s.pool.freeCounts k) :
    Inv s' (Function.update free o l) (⟨a, o⟩ :: out) S where
  tiling := by
    refine inv.tiling.perm ?_
    exact ((freeBlocks_take ho leaves).append_left out).trans List.perm_middle
  bound := by
    simp only [List.mem_cons, forall_eq_or_imp]
    exact ⟨ho, inv.bound⟩
  lists k hk := by
    by_cases same : k = o
    · subst same
      simpa using list
    · rw [Function.update_of_ne same]
      exact lists k hk same
  counts k hk := by
    by_cases same : k = o
    · subst same
      simpa using count
    · rw [Function.update_of_ne same, counts k same, inv.counts k hk]
  window := inv.window

/-- The first node leaves: the head takes over its link, memory stays as it is. -/
theorem Inv.takeHead {l : List Nat} (inv : Inv s free out S) (ho : o < MAX_ORDER)
    (list : free o = a :: l) :
    Inv ((s.setHead o (s.mem.read64 a)).setCount o (s.pool.freeCounts o - 1))
      (Function.update free o l) (⟨a, o⟩ :: out) S := by
  have chain := inv.lists o ho
  rw [list] at chain
  refine inv.take ho (list ▸ List.Perm.refl _) ?_ ?_ (fun k hk same => ?_) fun k same => ?_
  · simpa [setHead, setCount] using chain.2.2
  · simp [setHead, setCount, inv.counts o ho, list]
  · simpa [setHead, setCount, same] using inv.lists k hk
  · simp [setHead, setCount, same]

/-- The state after the successor `a` of `link` has left the list of order `o`. -/
def unlinked (s : Buddy) (link a o : Nat) : Buddy where
  mem := s.mem.write64 link (s.mem.read64 a)
  pool := ⟨s.pool.freeHeads, Function.update s.pool.freeCounts o (s.pool.freeCounts o - 1)⟩

theorem Inv.takeAfter {link : Nat} {xs ys : List Nat} (inv : Inv s free out S) (ho : o < MAX_ORDER)
    (list : free o = xs ++ link :: a :: ys) :
    Inv (s.unlinked link a o) (Function.update free o (xs ++ link :: ys)) (⟨a, o⟩ :: out) S := by
  have mem : (⟨link, o⟩ : Block) ∈ freeBlocks free MAX_ORDER :=
    mem_freeBlocks.mpr ⟨ho, by simp [list]⟩
  -- the only link that changes is the predecessor's
  have reads : ∀ k < MAX_ORDER, ∀ c ∈ free k, (⟨link, o⟩ : Block) ≠ ⟨c, k⟩ →
      (s.unlinked link a o).mem.read64 c = s.mem.read64 c := fun k hk c hc ne =>
    read64_other (b := ⟨link, o⟩) (c := ⟨c, k⟩)
      (inv.free_apart mem (mem_freeBlocks.mpr ⟨hk, hc⟩) ne)
  have chain := inv.lists o ho
  rw [list] at chain
  refine inv.take ho ?_ ?_ ?_ (fun k hk same => ?_) fun k same => ?_
  · have front : (xs ++ [link] ++ a :: ys).Perm (a :: (xs ++ [link] ++ ys)) := List.perm_middle
    simpa [list] using front
  · refine chain.unlink.congr fun c hc => ?_
    by_cases same : c = link
    · subst same
      simp only [unlinked, Function.update_self, Memory.read64_write64,
        Nat.mod_eq_of_lt (s.mem.read64_lt a)]
    · rw [Function.update_of_ne same]
      refine reads o ho c ?_ (by simpa using Ne.symm same)
      simp only [list, List.mem_append, List.mem_cons] at hc ⊢
      tauto
  · have count := inv.counts o ho
    simp only [list, List.length_append, List.length_cons] at count
    simp only [unlinked, Function.update_self, count, List.length_append, List.length_cons]
    omega
  · exact (inv.lists k hk).congr fun c hc => reads k hk c hc (by simp [Ne.symm same])
  · simp [unlinked, same]

theorem unlinked_eqOn {link : Nat} (inv : Inv s free out S) (ho : o < MAX_ORDER)
    (hl : link ∈ free o) : Set.EqOn (s.unlinked link a o).mem s.mem (Held out S) := by
  intro x hx
  refine Memory.write64_outside (m := s.mem) ?_
  by_contra near
  have size := page_le_blockSize o
  refine inv.free_notHeld ho hl ?_ hx
  simp only [Block.cells, Block.stop, PAGE_SIZE, Set.mem_Ico] at *
  omega

/-- A free list that is not empty has a count that can be decremented. -/
theorem count_sub_ok (p : Profile) (inv : Inv s free out S) (ho : o < MAX_ORDER) (ha : a ∈ free o) :
    p.sub (s.pool.freeCounts o) 1 = .ok (s.pool.freeCounts o - 1) := by
  have pos := List.length_pos_of_mem ha
  have small := inv.length_lt ho
  rw [← inv.counts o ho] at pos small
  exact p.sub_ok pos small

theorem popBlock_spec (p : Profile) {l : List Nat} (inv : Inv s free out S) (ho : o < MAX_ORDER)
    (list : free o = a :: l) :
    ∃ s', s.popBlock p o = .ok (a, s') ∧ Inv s' (Function.update free o l) (⟨a, o⟩ :: out) S ∧
      s'.mem = s.mem := by
  have mem : a ∈ free o := by simp [list]
  have chain := inv.lists o ho
  rw [list] at chain
  obtain ⟨head, nonzero, -⟩ := chain
  refine ⟨_, ?_, inv.takeHead ho list, rfl⟩
  have window := (inv.addr_window (Inv.mem_free ho mem)).2
  simp [popBlock, head, nonzero, readNext_ok window, count_sub_ok p inv ho mem]

/-! ## Removal from the middle of a list -/

/-- The loop of `remove_from_list` after the nodes `xs`: it finds `a` among the rest or not. -/
theorem removeLoop_found (p : Profile) (inv : Inv s free out S) (ho : o < MAX_ORDER) {fuel : Nat}
    (xs : List Nat) {ys : List Nat} (list : free o = xs ++ ys) (mem : a ∈ ys) (hf : ys.length < fuel)
    {cur : Nat} (rest : Chain s.mem.read64 cur ys) :
    ∃ s', s.removeLoop p a o fuel xs.getLast? cur = .ok (true, s') ∧
      Inv s' (Function.update free o ((free o).erase a)) (⟨a, o⟩ :: out) S ∧
      Set.EqOn s'.mem s.mem (Held out S) := by
  induction ys generalizing xs fuel cur with
  | nil => simp at mem
  | cons c ys ih =>
    obtain ⟨rfl, nonzero, tail⟩ := rest
    obtain ⟨fuel, rfl⟩ : ∃ n, fuel = n + 1 := ⟨fuel - 1, by simp at hf; omega⟩
    have node : cur ∈ free o := by simp [list]
    have window := (inv.addr_window (Inv.mem_free ho node)).2
    have distinct := (inv.lists o ho).nodup
    simp only [removeLoop, nonzero, if_false, readNext_ok window, ok_bind]
    by_cases found : cur = a
    · subst found
      have sub := count_sub_ok p inv ho node
      have erased : (free o).erase cur = xs ++ ys := by
        rw [list] at distinct ⊢
        have before : cur ∉ xs := by
          intro h
          exact (List.nodup_append.mp distinct).2.2 cur h cur (by simp) rfl
        rw [List.erase_append_right _ before, List.erase_cons_head]
      rw [erased]
      rcases List.eq_nil_or_concat xs with rfl | ⟨front, link, rfl⟩
      · refine ⟨_, ?_, inv.takeHead ho list, fun _ _ => rfl⟩
        simp [setHead, sub]
      · have linked : link ∈ free o := by simp [list]
        have window := (inv.addr_window (Inv.mem_free ho linked)).2
        rw [List.concat_eq_append, List.append_assoc] at list ⊢
        refine ⟨s.unlinked link cur o, ?_, inv.takeAfter ho list, unlinked_eqOn inv ho linked⟩
        simp [writeNext_ok window, sub, unlinked, setCount]
    · simp only [found, if_false]
      have next := ih (xs ++ [cur]) (by simpa using list) (by simpa [Ne.symm found] using mem)
        (by simpa using hf) tail
      simpa using next

theorem removeLoop_missing (p : Profile) (inv : Inv s free out S) (ho : o < MAX_ORDER) {fuel : Nat}
    {ys : List Nat} (sub : ys ⊆ free o) (miss : a ∉ ys) (hf : ys.length < fuel)
    {cur : Nat} (rest : Chain s.mem.read64 cur ys) (prev : Option Nat) :
    s.removeLoop p a o fuel prev cur = .ok (false, s) := by
  induction ys generalizing fuel cur prev with
  | nil =>
    obtain ⟨fuel, rfl⟩ : ∃ n, fuel = n + 1 := ⟨fuel - 1, by simp at hf; omega⟩
    simp [removeLoop, show cur = 0 from rest]
  | cons c ys ih =>
    obtain ⟨rfl, nonzero, tail⟩ := rest
    obtain ⟨fuel, rfl⟩ : ∃ n, fuel = n + 1 := ⟨fuel - 1, by simp at hf; omega⟩
    have window := (inv.addr_window (Inv.mem_free ho (sub List.mem_cons_self))).2
    have other : cur ≠ a := fun h => miss (by simp [h])
    simp only [removeLoop, nonzero, if_false, readNext_ok window, ok_bind, other]
    exact ih (List.subset_of_cons_subset sub) (fun h => miss (by simp [h])) (by simpa using hf)
      tail _

theorem removeFromList_found (p : Profile) (inv : Inv s free out S) (ho : o < MAX_ORDER)
    (mem : a ∈ free o) :
    ∃ s', s.removeFromList p a o = .ok (true, s') ∧
      Inv s' (Function.update free o ((free o).erase a)) (⟨a, o⟩ :: out) S ∧
      Set.EqOn s'.mem s.mem (Held out S) :=
  removeLoop_found p inv ho [] rfl mem (inv.length_lt ho) (inv.lists o ho)

theorem removeFromList_missing (p : Profile) (inv : Inv s free out S) (ho : o < MAX_ORDER)
    (miss : a ∉ free o) : s.removeFromList p a o = .ok (false, s) :=
  removeLoop_missing p inv ho (List.Subset.refl _) miss (inv.length_lt ho) (inv.lists o ho) none

/-! ## Integrity checks -/

theorem walk_ok (inv : Inv s free out S) (ho : o < MAX_ORDER) (caller : String)
    {limit fuel seen cur : Nat} {ys : List Nat} (sub : ys ⊆ free o)
    (rest : Chain s.mem.read64 cur ys) (hl : seen + ys.length ≤ limit) (hf : ys.length < fuel) :
    s.walk caller o limit fuel seen cur = .ok (seen + ys.length) := by
  induction ys generalizing fuel seen cur with
  | nil =>
    obtain ⟨fuel, rfl⟩ : ∃ n, fuel = n + 1 := ⟨fuel - 1, by simp at hf; omega⟩
    simp [walk, show cur = 0 from rest]
  | cons c ys ih =>
    obtain ⟨rfl, nonzero, tail⟩ := rest
    obtain ⟨fuel, rfl⟩ : ∃ n, fuel = n + 1 := ⟨fuel - 1, by simp at hf; omega⟩
    have window := (inv.addr_window (Inv.mem_free ho (sub List.mem_cons_self))).2
    simp only [List.length_cons] at hl hf ⊢
    simp only [walk, nonzero, if_false, show ¬ limit < seen + 1 by omega, readNext_ok window,
      ok_bind]
    rw [ih (List.subset_of_cons_subset sub) tail (by omega) (by omega)]
    congr 1
    omega

theorem checkOrder_ok (inv : Inv s free out S) (ho : o < MAX_ORDER) (caller : String) :
    s.checkOrder caller o = .ok () := by
  have count := inv.counts o ho
  have walked : s.walk caller o (s.pool.freeCounts o + 1) (s.pool.freeCounts o + 3) 0
      (s.pool.freeHeads o) = .ok (0 + (free o).length) :=
    walk_ok inv ho caller (List.Subset.refl _) (inv.lists o ho) (by omega) (by omega)
  rw [Nat.zero_add, ← count] at walked
  simp [checkOrder, walked]

theorem checkMetadataIntegrity_ok (inv : Inv s free out S) (caller : String) :
    s.checkMetadataIntegrity caller = .ok () :=
  forM_ok fun _ ho => checkOrder_ok inv (List.mem_range.mp ho) caller

theorem debugCheck_ok (p : Profile) (inv : Inv s free out S) (caller : String) :
    s.debugCheck p caller = .ok () := by
  cases p with
  | dev => exact checkMetadataIntegrity_ok inv caller
  | release => rfl

/-! ## Allocation and release -/

theorem held_shrink {n : Nat} : Held (⟨a, o⟩ :: out) S ⊆ Held (⟨a, o + n⟩ :: out) S := by
  intro x hx hS
  obtain ⟨b, hb, hc⟩ := hx hS
  rcases List.mem_cons.mp hb with rfl | hb
  · refine ⟨⟨a, o + n⟩, List.mem_cons_self, hc.1, lt_of_lt_of_le hc.2 ?_⟩
    exact Nat.add_le_add_left (Nat.mul_le_mul_left _ (Nat.pow_le_pow_right (by omega) (by simp))) _
  · exact ⟨b, List.mem_cons_of_mem _ hb, hc⟩

/-- Splitting keeps the first block of the wanted order in hand and frees the rest. -/
theorem splitDown_spec {n : Nat} (inv : Inv s free (⟨a, o + n⟩ :: out) S) :
    ∃ s' free', s.splitDown a o n = .ok s' ∧ Inv s' free' (⟨a, o⟩ :: out) S ∧
      Set.EqOn s'.mem s.mem (Held (⟨a, o⟩ :: out) S) ∧ (Merged free → Merged free') := by
  induction n generalizing s free with
  | zero => exact ⟨s, free, rfl, inv, fun _ _ => rfl, id⟩
  | succ n ih =>
    have parent : Block.Aligned PAGE_SIZE ⟨a, o + n + 1⟩ := inv.tiling.aligned _ List.mem_cons_self
    have halves := Inv.split (o := o + n) inv
    obtain ⟨s₁, push, inv₁, frame₁⟩ := pushBlock_spec halves
    obtain ⟨s₂, free₂, rest, inv₂, frame₂, merged₂⟩ := ih inv₁
    refine ⟨s₂, free₂, ?_, inv₂, frame₂.trans (frame₁.mono held_shrink), fun merged => ?_⟩
    · simp only [splitDown, orderToSize_eq, push, ok_bind, rest]
    · -- the buddy of the half that is freed is the half in hand
      have parent_page : PAGE_SIZE ∣ a := inv.out_page_dvd
      refine merged₂ (merged.push halves fun top mem => ?_)
      rw [← buddyOf_half parent, buddyOf_buddyOf parent_page] at mem
      have apart := halves.out_apart_free (b := ⟨a, o + n⟩) (by simp) (by omega) mem
      have := blockSize_pos page_pos (o + n)
      simp only [Block.Apart, Block.stop] at apart
      omega

/-- `alloc` takes a block of the wanted order out of the free memory, or fails with no effect if no
block is large enough. -/
theorem alloc_spec (p : Profile) (inv : Inv s free out S) (order : Nat) :
    (s.alloc p order = .ok (none, s) ∧ ∀ o, order ≤ o → o < MAX_ORDER → free o = []) ∨
      ∃ a s' free', s.alloc p order = .ok (some a, s') ∧ Inv s' free' (⟨a, order⟩ :: out) S ∧
        Set.EqOn s'.mem s.mem (Held (⟨a, order⟩ :: out) S) ∧ (Merged free → Merged free') := by
  simp only [alloc, debugCheck_ok p inv, ok_bind]
  cases search : (List.range' order (MAX_ORDER - order)).find?
      fun o => 0 < s.pool.freeCounts o with
  | none =>
    refine Or.inl ⟨rfl, fun o low high => ?_⟩
    have none := List.find?_eq_none.mp search o (by simp only [List.mem_range'_1]; omega)
    rw [inv.counts o high] at none
    exact List.eq_nil_of_length_eq_zero (by simpa using none)
  | some found =>
    right
    have bounds : order ≤ found ∧ found < MAX_ORDER := by
      have := List.mem_of_find?_eq_some search
      simp only [List.mem_range'_1] at this
      omega
    have filled : 0 < (free found).length := by
      rw [← inv.counts found bounds.2]
      simpa using List.find?_some search
    obtain ⟨a, l, list⟩ := List.exists_cons_of_length_pos filled
    obtain ⟨s₁, pop, inv₁, frame₁⟩ := popBlock_spec p inv bounds.2 list
    rw [show found = order + (found - order) by omega] at inv₁
    obtain ⟨s₂, free₂, split, inv₂, frame₂, merged₂⟩ := splitDown_spec inv₁
    refine ⟨a, s₂, free₂, ?_, inv₂, frame₁ ▸ frame₂, fun merged => merged₂ (merged.take ?_)⟩
    · simp [pop, split, debugCheck_ok p inv₂]
    · rw [show order + (found - order) = found by omega, list]
      exact List.subset_cons_self _ _

/-- Merging keeps one block in hand, which grows while its buddy is free. -/
theorem mergeUp_spec (p : Profile) {n : Nat} (inv : Inv s free (⟨a, o⟩ :: out) S)
    (ho : o + n < MAX_ORDER) :
    ∃ a' o' s' free', s.mergeUp p n a o = .ok (a', o', s') ∧ Inv s' free' (⟨a', o'⟩ :: out) S ∧
      Set.EqOn s'.mem s.mem (Held out S) ∧ (Merged free → Merged free') ∧
      (o' < o + n → buddyOf a' o' ∉ free' o') := by
  induction n generalizing s free a o with
  | zero => exact ⟨a, o, s, free, rfl, inv, fun _ _ => rfl, id, fun more => absurd more (by simp)⟩
  | succ n ih =>
    by_cases mem : buddyOf a o ∈ free o
    · obtain ⟨s₁, remove, inv₁, frame₁⟩ := removeFromList_found p inv (by omega) mem
      obtain ⟨a₂, o₂, s₂, free₂, rest, inv₂, frame₂, merged₂, alone₂⟩ :=
        ih (inv₁.merge (by omega)) (by omega)
      have larger : Held out S ⊆ Held (⟨a, o⟩ :: out) S := held_mono (List.subset_cons_self _ _)
      refine ⟨a₂, o₂, s₂, free₂, ?_, inv₂, frame₂.trans (frame₁.mono larger),
        fun merged => merged₂ (merged.take (List.erase_subset)), fun more => alone₂ (by omega)⟩
      simp [mergeUp, remove, rest]
    · refine ⟨a, o, s, free, ?_, inv, fun _ _ => rfl, id, fun _ => mem⟩
      simp [mergeUp, removeFromList_missing p inv (by omega) mem]

theorem free_spec (p : Profile) (inv : Inv s free (⟨a, o⟩ :: out) S) :
    ∃ s' free', s.free p a o = .ok s' ∧ Inv s' free' out S ∧
      Set.EqOn s'.mem s.mem (Held out S) ∧ (Merged free → Merged free') := by
  have ho : o < MAX_ORDER := inv.bound _ List.mem_cons_self
  obtain ⟨a₁, o₁, s₁, free₁, merge, inv₁, frame₁, merged₁, alone⟩ :=
    mergeUp_spec p (n := MAX_ORDER - 1 - o) inv (by omega)
  obtain ⟨s₂, push, inv₂, frame₂⟩ := pushBlock_spec inv₁
  refine ⟨s₂, _, ?_, inv₂, frame₂.trans frame₁,
    fun merged => (merged₁ merged).push inv₁ fun low => alone (by omega)⟩
  simp [Buddy.free, debugCheck_ok p inv, merge, push, debugCheck_ok p inv₂]

end Ferrum.Buddy
