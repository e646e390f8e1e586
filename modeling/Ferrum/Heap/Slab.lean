import Ferrum.Heap.Model
import Ferrum.Library.Chain
import Ferrum.Library.Parcels
import Mathlib

/-!
# Size classes and free lists

Which class serves a layout, and what the loops of the heap compute: the order of a large block, and
the list that `grow` threads through a new page.
-/
namespace Ferrum

/-! ## Size classes -/

/-- The number of slab caches. -/
def SLABS : Nat := 10

def slabSize (i : Nat) : Nat := SLAB_SIZES.getD i 0

theorem slabSize_eq {i : Nat} (hi : i < SLABS) : slabSize i = 2 ^ (i + 3) := by
  simp only [SLABS] at hi
  interval_cases i <;> rfl

theorem slabSize_none {i : Nat} (hi : SLABS ≤ i) : slabSize i = 0 :=
  List.getD_eq_default _ _ hi

theorem slabSize_page {i : Nat} (hi : i < SLABS) : PAGE_SIZE / slabSize i * slabSize i = PAGE_SIZE := by
  simp only [SLABS] at hi
  interval_cases i <;> rfl

theorem slabSize_le (i : Nat) : slabSize i ≤ PAGE_SIZE := by
  by_cases hi : i < SLABS
  · rw [← slabSize_page hi]
    refine Nat.le_mul_of_pos_left _ (Nat.div_pos ?_ ?_)
    · rw [slabSize_eq hi]
      exact Nat.pow_le_pow_right (by omega) (show i + 3 ≤ 12 by simp only [SLABS] at hi; omega)
    · rw [slabSize_eq hi]
      exact Nat.two_pow_pos _
  · rw [slabSize_none (Nat.le_of_not_lt hi)]
    exact Nat.zero_le _

theorem le_slabSize {i : Nat} (hi : i < SLABS) : 8 ≤ slabSize i := by
  rw [slabSize_eq hi]
  exact Nat.pow_le_pow_right (show 0 < 2 by decide) (show 3 ≤ i + 3 by omega)

theorem sizeToSlab_some {size i : Nat} (h : sizeToSlab size = some i) :
    i < SLABS ∧ size ≤ slabSize i := by
  obtain ⟨inside, fits, -⟩ := List.findIdx?_eq_some_iff_getElem.mp h
  refine ⟨inside, ?_⟩
  rw [slabSize, List.getD_eq_getElem _ _ inside]
  simpa using fits

theorem sizeToSlab_none {size : Nat} (h : sizeToSlab size = none) : PAGE_SIZE < size := by
  have last := List.findIdx?_eq_none_iff.mp h 4096 (by decide)
  simpa [PAGE_SIZE] using last

/-! ## Large blocks -/

theorem orderLoop_ok {pages fuel order : Nat} (low : order ≤ Nat.clog 2 pages)
    (high : Nat.clog 2 pages ≤ 63) (enough : Nat.clog 2 pages < order + fuel) :
    orderLoop pages fuel (2 ^ order) order = .ok (Nat.clog 2 pages) := by
  induction fuel generalizing order with
  | zero => omega
  | succ fuel ih =>
    rw [orderLoop]
    split
    · rename_i small
      have more : order < Nat.clog 2 pages := (Nat.lt_clog_iff_pow_lt (by decide)).mpr small
      have word : 2 ^ (order + 1) < 2 ^ 64 := Nat.pow_lt_pow_right (by decide) (by omega)
      rw [Nat.shiftLeft_eq, Nat.pow_one, ← Nat.pow_succ, Nat.mod_eq_of_lt word]
      exact ih (by omega) (by omega)
    · rename_i enough
      have := Nat.clog_le_of_le_pow (Nat.le_of_not_lt enough)
      rw [Nat.le_antisymm low this]

namespace Layout

variable (layout : Layout)

/-- The order of the block that serves a large layout. -/
def order : Nat := Nat.clog 2 layout.pages

/-- The bytes that a layout is served with. -/
def extent : Nat :=
  match sizeToSlab layout.request with
  | some i => slabSize i
  | none => orderToSize layout.order

theorem request_bounded : layout.request ≤ 2 ^ 63 := by
  have := layout.bounded
  simp only [request]
  omega

theorem pagesToOrder_ok : pagesToOrder layout.pages = .ok layout.order := by
  have bounded := layout.request_bounded
  have : layout.pages ≤ 2 ^ 63 := by
    simp only [pages, PAGE_SIZE]
    omega
  have := Nat.clog_le_of_le_pow this
  exact orderLoop_ok (Nat.zero_le _) this (by omega)

theorem request_le_extent : layout.request ≤ layout.extent := by
  unfold extent
  split
  · rename_i found
    exact (sizeToSlab_some found).2
  · have := Nat.le_pow_clog (b := 2) (by decide) layout.pages
    have enough : PAGE_SIZE * layout.pages ≤ orderToSize layout.order := by
      rw [orderToSize, Nat.shiftLeft_eq]
      exact Nat.mul_le_mul_left _ this
    refine Nat.le_trans ?_ enough
    simp only [pages, PAGE_SIZE]
    omega

theorem size_le_extent : layout.size ≤ layout.extent :=
  Nat.le_trans (Nat.le_trans (Nat.le_max_left _ _) (Nat.le_max_left _ _)) layout.request_le_extent

theorem extent_pos : 0 < layout.extent :=
  Nat.lt_of_lt_of_le (Nat.lt_of_lt_of_le (by decide) (Nat.le_max_right _ 8)) layout.request_le_extent

theorem extent_power : ∃ k, layout.extent = 2 ^ k := by
  unfold extent
  split
  · rename_i found
    exact ⟨_, slabSize_eq (sizeToSlab_some found).1⟩
  · refine ⟨12 + layout.order, ?_⟩
    rw [orderToSize, Nat.shiftLeft_eq, Nat.pow_add]
    rfl

/-- What starts at a multiple of its extent is aligned as the layout asks. -/
theorem align_dvd_extent : layout.align ∣ layout.extent := by
  obtain ⟨j, align⟩ := layout.power
  obtain ⟨k, extent⟩ := layout.extent_power
  have le : layout.align ≤ layout.extent :=
    Nat.le_trans (Nat.le_trans (Nat.le_max_right _ _) (Nat.le_max_left _ _)) layout.request_le_extent
  rw [align, extent] at le ⊢
  exact Nat.pow_dvd_pow 2 ((Nat.pow_le_pow_iff_right (by decide)).mp le)

end Layout

/-! ## Free lists -/

/-- The pointer to a physical address. -/
def toVirt (phys : Nat) : Nat := KERNEL_VIRT_BASE + phys

theorem toVirt_sub (phys : Nat) : toVirt phys - KERNEL_VIRT_BASE = phys :=
  Nat.add_sub_cancel_left _ _

theorem toVirt_lt {phys : Nat} (h : phys < DIRECT_MAP_END) : toVirt phys < 2 ^ 64 := by
  simp only [toVirt, KERNEL_VIRT_BASE, DIRECT_MAP_END] at *
  omega

theorem deref_toVirt {phys : Nat} (h : phys < DIRECT_MAP_END) : deref (toVirt phys) = .ok phys := by
  rw [deref, if_pos ⟨Nat.le_add_right _ _, toVirt_lt h⟩, toVirt_sub]

theorem virtToPhys_toVirt (p : Profile) {phys : Nat} (h : phys < DIRECT_MAP_END) :
    virtToPhys p (toVirt phys) = .ok phys := by
  have above : KERNEL_VIRT_BASE ≤ toVirt phys := Nat.le_add_right _ _
  rw [virtToPhys, p.sub_ok above (toVirt_lt h), toVirt_sub]

/-- The free list of a cache, as the physical addresses of its nodes. -/
def FreeList (m : Memory) (head : Nat) (l : List Nat) : Prop :=
  Chain (fun ptr => m.read64 (ptr - KERNEL_VIRT_BASE)) head (l.map toVirt)

namespace FreeList

variable {m m' : Memory} {head a : Nat} {l : List Nat}

theorem congr (h : FreeList m head l) (same : ∀ a ∈ l, m'.read64 a = m.read64 a) :
    FreeList m' head l := by
  refine Chain.congr h fun ptr hp => ?_
  obtain ⟨a, ha, rfl⟩ := List.mem_map.mp hp
  rw [toVirt_sub]
  exact same a ha

theorem empty (m : Memory) : FreeList m 0 [] := rfl

theorem push (h : FreeList m head l) (small : head < 2 ^ 64)
    (apart : ∀ b ∈ l, b + 8 ≤ a ∨ a + 8 ≤ b) : FreeList (m.write64 a head) (toVirt a) (a :: l) := by
  refine ⟨rfl, ?_, ?_⟩
  · simp only [toVirt, KERNEL_VIRT_BASE]
    omega
  · change FreeList _ ((m.write64 a head).read64 (toVirt a - KERNEL_VIRT_BASE)) l
    rw [toVirt_sub, Memory.read64_write64, Nat.mod_eq_of_lt small]
    exact h.congr fun b hb => Memory.read64_write64_of_disjoint (apart b hb)

/-- A list that is not empty starts with a node, and its link leads to the rest. -/
theorem uncons (h : FreeList m head l) (some : head ≠ 0) :
    ∃ a l', l = a :: l' ∧ head = toVirt a ∧ FreeList m (m.read64 a) l' := by
  cases l with
  | nil => exact absurd h some
  | cons a l =>
    obtain ⟨rfl, -, rest⟩ := h
    change FreeList m (m.read64 (toVirt a - KERNEL_VIRT_BASE)) l at rest
    rw [toVirt_sub] at rest
    exact ⟨a, l, rfl, rfl, rest⟩

theorem head_lt (h : FreeList m head l) (window : ∀ a ∈ l, a < DIRECT_MAP_END) : head < 2 ^ 64 := by
  cases l with
  | nil =>
    obtain rfl : head = 0 := h
    decide
  | cons a l =>
    obtain ⟨rfl, -⟩ := h
    exact toVirt_lt (window a List.mem_cons_self)

end FreeList

namespace SlabCache

/-- The objects of a page from the `k`-th on. -/
def objects (a size k r : Nat) : List Nat := (List.range' k r).map fun j => a + j * size

theorem cut_objects (a size r : Nat) : Parcel.cut a size (r + 1) =
    ⟨a, size⟩ :: (objects a size 1 r).map fun b => ⟨b, size⟩ := by
  rw [Parcel.cut, List.range_eq_range', List.range'_succ, List.map_cons, objects, List.map_map,
    Nat.zero_mul, Nat.add_zero]
  rfl

theorem free_ok (cache : SlabCache) (m : Memory) {a : Nat} (window : a < DIRECT_MAP_END) :
    cache.free m (toVirt a) = .ok ({ cache with freeList := toVirt a }, m.write64 a cache.freeList) := by
  rw [free, deref_toVirt window]
  rfl

/-- The loop over the last `r` objects of a page puts them on the list and writes nowhere else. -/
theorem thread_spec (p : Profile) {a k r fuel : Nat} {cache : SlabCache} {m : Memory} {l : List Nat}
    (link : 8 ≤ cache.objectSize) (page : (k + r) * cache.objectSize = PAGE_SIZE) (enough : r < fuel)
    (window : a + PAGE_SIZE ≤ DIRECT_MAP_END) (list : FreeList m cache.freeList l)
    (inside : ∀ b ∈ l, b < DIRECT_MAP_END)
    (apart : ∀ b ∈ l, b + 8 ≤ a + k * cache.objectSize ∨ a + PAGE_SIZE ≤ b) :
    ∃ head m', thread p (toVirt a) fuel (k * cache.objectSize) cache m =
        .ok ({ cache with freeList := head }, m') ∧
      FreeList m' head ((objects a cache.objectSize k r).reverse ++ l) ∧
      ∀ x, x ∉ Set.Ico a (a + PAGE_SIZE) → m' x = m x := by
  induction r generalizing k fuel cache m l with
  | zero =>
    obtain ⟨fuel, rfl⟩ := Nat.exists_eq_add_of_lt enough
    have past : ¬ k * cache.objectSize + cache.objectSize ≤ PAGE_SIZE := by
      rw [Nat.add_zero] at page
      omega
    have small : cache.objectSize ≤ PAGE_SIZE :=
      Nat.le_of_dvd (by decide) (page ▸ Nat.dvd_mul_left _ _)
    have word : k * cache.objectSize + cache.objectSize < 2 ^ 64 := by
      rw [Nat.add_zero] at page
      rw [page]
      simp only [PAGE_SIZE] at small ⊢
      omega
    refine ⟨cache.freeList, m, ?_, list, fun _ _ => rfl⟩
    rw [thread, p.add_ok word, ok_bind, if_neg past]
    rfl
  | succ r ih =>
    obtain ⟨fuel, rfl⟩ : ∃ n, fuel = n + 1 := ⟨fuel - 1, by omega⟩
    have next : k * cache.objectSize + cache.objectSize = (k + 1) * cache.objectSize :=
      (Nat.succ_mul _ _).symm
    have rest : (k + 1) * cache.objectSize ≤ PAGE_SIZE := by
      rw [← page]
      exact Nat.mul_le_mul_right _ (by omega)
    simp only [DIRECT_MAP_END, PAGE_SIZE] at window rest
    have node : p.add (toVirt a) (k * cache.objectSize) = .ok (toVirt (a + k * cache.objectSize)) := by
      rw [p.add_ok (by simp only [toVirt, KERNEL_VIRT_BASE]; omega), toVirt, toVirt, Nat.add_assoc]
    have here : a + k * cache.objectSize < DIRECT_MAP_END := by
      simp only [DIRECT_MAP_END]
      omega
    have pushed := list.push (a := a + k * cache.objectSize) (list.head_lt inside) fun b hb => by
      have := apart b hb
      simp only [PAGE_SIZE] at this
      omega
    have inside' : ∀ b ∈ (a + k * cache.objectSize) :: l, b < DIRECT_MAP_END := by
      simpa [here] using inside
    have apart' : ∀ b ∈ (a + k * cache.objectSize) :: l,
        b + 8 ≤ a + (k + 1) * cache.objectSize ∨ a + PAGE_SIZE ≤ b := by
      intro b hb
      rcases List.mem_cons.mp hb with rfl | hb
      · omega
      · have := apart b hb
        omega
    obtain ⟨head, m', run, list', frame⟩ := @ih (k + 1) fuel
      { cache with freeList := toVirt (a + k * cache.objectSize) } _ _ link
      (by rw [← page, Nat.add_right_comm, Nat.add_assoc]) (by omega) pushed inside' apart'
    refine ⟨head, m', ?_, ?_, fun x hx => ?_⟩
    · rw [thread, p.add_ok (by omega), ok_bind, if_pos (by simp only [PAGE_SIZE]; omega), node,
        ok_bind, free_ok _ _ here, ok_bind, next]
      exact run
    · rw [objects, List.range'_succ, List.map_cons, List.reverse_cons, List.append_assoc]
      exact list'
    · rw [frame x hx]
      refine Memory.write64_outside ?_
      simp only [Set.mem_Ico, PAGE_SIZE] at hx
      omega

theorem thread_page (p : Profile) {cache : SlabCache} {i a : Nat} (hi : i < SLABS)
    (size : cache.objectSize = slabSize i) (none : cache.freeList = 0)
    (window : a + PAGE_SIZE ≤ DIRECT_MAP_END) (m : Memory) :
    ∃ head m' l, thread p (toVirt a) PAGE_SIZE cache.objectSize cache m =
        .ok ({ cache with freeList := head }, m') ∧ FreeList m' head l ∧
      (Parcel.cut a (slabSize i) (PAGE_SIZE / slabSize i)).Perm
        (⟨a, slabSize i⟩ :: l.map fun b => ⟨b, slabSize i⟩) ∧
      ∀ x, x ∉ Set.Ico a (a + PAGE_SIZE) → m' x = m x := by
  have link := le_slabSize hi
  obtain ⟨r, count⟩ : ∃ r, PAGE_SIZE / slabSize i = 1 + r :=
    Nat.exists_eq_add_of_le (Nat.div_pos (slabSize_le i) (by omega))
  have page : (1 + r) * cache.objectSize = PAGE_SIZE := by rw [size, ← count, slabSize_page hi]
  have enough : r < PAGE_SIZE := by
    have := Nat.le_mul_of_pos_right (1 + r) (show 0 < cache.objectSize by omega)
    omega
  have list : FreeList m cache.freeList [] := none
  obtain ⟨head, m', run, list', frame⟩ :=
    thread_spec p (size ▸ link) page enough window list nofun nofun
  refine ⟨head, m', _, by rwa [Nat.one_mul] at run, list', ?_, frame⟩
  rw [count, Nat.add_comm, cut_objects, List.append_nil, size]
  exact ((List.reverse_perm _).symm.map _).cons _

end SlabCache
end Ferrum
