import Ferrum.Kernel.Guard
import Ferrum.Vma.Areas

/-!
# When the frame allocator is locked twice

A vector that is full asks for a buffer of twice its capacity, from the slab class above that of the old
one, and gives the old one back. So three things decide whether a section of `Ferrum.Kernel.Guard` waits
for its own guard: the numbers of areas that its vectors come to hold, the capacities they start with, and
the number of free objects in each class.
-/
namespace Ferrum

/-! ## Capacities and classes -/

/-- The capacities of a vector that grows. -/
def growth (cap : Nat) : Nat → Nat
  | 0 => cap
  | j + 1 => max 4 (2 * growth cap j)

theorem growth_strictMono (cap : Nat) : StrictMono (growth cap) :=
  strictMono_nat_of_lt_succ fun j => by
    rw [growth]
    omega

theorem two_mul_growth_le (cap : Nat) {j k : Nat} (lt : j < k) : 2 * growth cap j ≤ growth cap k := by
  have next : 2 * growth cap j ≤ growth cap (j + 1) := by
    rw [growth]
    exact Nat.le_max_right _ _
  exact next.trans ((growth_strictMono cap).monotone lt)

/-- The slab class of the buffer of a vector. -/
def areaClass (cap : Nat) : Option Nat := sizeToSlab (VMA_SIZE * cap)

theorem sizeToSlab_bounds {size i : Nat} (found : sizeToSlab size = some i) :
    size ≤ 2 ^ (i + 3) ∧ (i = 0 ∨ 2 ^ (i + 2) < size) := by
  obtain ⟨inside, fits, before⟩ := List.findIdx?_eq_some_iff_getElem.mp found
  have small : i < 10 := inside
  refine ⟨?_, ?_⟩
  · have := (sizeToSlab_some found).2
    rwa [slabSize_eq inside] at this
  · rcases Nat.eq_zero_or_pos i with rfl | pos
    · exact .inl rfl
    · have past := of_decide_eq_false (Bool.eq_false_iff.mpr (before (i - 1) (by omega)))
      right
      interval_cases i <;> exact Nat.lt_of_not_le past

theorem areaClass_apart {a b i : Nat} (pos : 0 < a) (twice : 2 * a ≤ b) (found : areaClass a = some i) :
    areaClass b ≠ some i := by
  intro same
  obtain ⟨-, low⟩ := sizeToSlab_bounds found
  obtain ⟨high, -⟩ := sizeToSlab_bounds same
  simp only [VMA_SIZE] at low high
  rcases low with rfl | low
  · omega
  · rw [pow_succ] at high
    omega

/-- A buffer of a vector takes an object of its class. -/
def own (cap i : Nat) : Nat := if cap ≠ 0 ∧ areaClass cap = some i then 1 else 0

theorem own_eq_zero {a b i : Nat} (twice : 2 * a ≤ b) (found : areaClass b = some i) : own a i = 0 := by
  refine if_neg ?_
  rintro ⟨some, same⟩
  exact areaClass_apart (Nat.pos_of_ne_zero some) twice same found

/-- The heap has no object for the buffer: its class is empty, or it is larger than a page. -/
def Lacks (free : Nat → Nat) (cap : Nat) : Prop := ∀ i, areaClass cap = some i → free i = 0

/-- On its way to `n` areas, a vector that starts with a capacity asks for a buffer that is lacking. -/
def Short (free : Nat → Nat) (cap n : Nat) : Prop :=
  ∃ j, growth cap j < n ∧ Lacks free (growth cap (j + 1))

/-! ## Heaps by their counts -/

/-- A heap whose answers under the guard depend on the numbers of free objects only. `Stock` says how
many are free, and which buffers are in use. -/
structure GlobalAlloc.ByCount {σ : Type} (H : GlobalAlloc σ)
    (Stock : σ → (Nat → Nat) → List Live → Prop) : Prop where
  perm : ∀ {s free l l'}, Stock s free l → l'.Perm l → Stock s free l'
  relocks : ∀ {s free l layout}, Stock s free l →
    (∀ i, sizeToSlab layout.request = some i → free i = 0) → H.alloc s layout = .error .relocked
  alloc : ∀ {s free l layout i}, Stock s free l → sizeToSlab layout.request = some i → free i ≠ 0 →
    ∃ ptr s', H.alloc s layout = .ok (ptr, s') ∧
      Stock s' (Function.update free i (free i - 1)) (⟨ptr, layout⟩ :: l)
  dealloc : ∀ {s free b l i}, Stock s free (b :: l) → sizeToSlab b.layout.request = some i →
    ∃ s', H.dealloc s b.ptr b.layout = .ok s' ∧ Stock s' (Function.update free i (free i + 1)) l

/-- The counts are those of the slab lists in memory, and the buffers are in use. -/
structure Stocked (h : HeapState) (free : Nat → Nat) (buffers : List Live) : Prop where
  lists : ∃ nodes held, h.Inv nodes held ∧ ∀ i < SLABS, free i = (nodes i).length
  live : buffers.Subperm h.live

theorem guardedHeap_byCount (p : Profile) : (guardedHeap p).ByCount Stocked where
  perm stocked order := ⟨stocked.lists, order.subperm.trans stocked.live⟩
  relocks {h free l layout} stocked none := by
    obtain ⟨⟨nodes, held, inv, counts⟩, -⟩ := stocked
    refine if_pos ?_
    unfold KernelHeap.locks
    split
    · rename_i i found
      have hi := (sizeToSlab_some found).1
      have empty : nodes i = [] := List.eq_nil_of_length_eq_zero ((counts i hi).symm.trans (none i found))
      have list := inv.lists i hi
      rw [empty] at list
      exact decide_eq_true list
    · rfl
  alloc {h free l layout i} stocked found some := by
    obtain ⟨⟨nodes, held, inv, counts⟩, live⟩ := stocked
    have hi := (sizeToSlab_some found).1
    have full : (h.heap.slabs i).freeList ≠ 0 := by
      intro empty
      refine some ((counts i hi).trans ?_)
      cases list : nodes i with
      | nil => rfl
      | cons a l =>
        have lists := inv.lists i hi
        rw [list, empty] at lists
        exact absurd lists.1.symm (HeapState.toVirt_ne_zero a)
    obtain ⟨a, rest, list, -, run, inv'⟩ := inv.pop hi (Layout.of_slab found).2 p full
    refine ⟨_, _, ?_, ⟨⟨_, held, inv', fun j hj => ?_⟩, (List.subperm_cons _).mpr live⟩⟩
    · simp only [guardedHeap, KernelHeap.locks, KernelHeap.alloc, found, full, run, decide_false,
        Bool.false_eq_true, if_false, ok_bind, pure_eq_ok, Halt.lift, HeapState.toVirt_ne_zero]
      rfl
    · by_cases same : j = i
      · subst same
        simp only [Function.update_self, counts j hj, list, List.length_cons, Nat.add_sub_cancel]
      · simp only [Function.update_of_ne same, counts j hj]
  dealloc {h free b l i} stocked found := by
    obtain ⟨⟨nodes, held, inv, counts⟩, live⟩ := stocked
    have hi := (sizeToSlab_some found).1
    obtain ⟨a, -, run, inv'⟩ := inv.push (live.subset List.mem_cons_self) hi (Layout.of_slab found).2
    refine ⟨_, ?_, ⟨⟨_, held, inv', fun j hj => ?_⟩, ?_⟩⟩
    · simp only [guardedHeap, KernelHeap.dealloc, found, Option.isNone_some, Bool.false_eq_true,
        if_false, run, ok_bind, pure_eq_ok, Halt.lift]
      rfl
    · by_cases same : j = i
      · subst same
        simp only [Function.update_self, counts j hj, List.length_cons]
      · simp only [Function.update_of_ne same, counts j hj]
    · have erased := live.erase b
      rwa [List.erase_cons_head] at erased

/-! ## Vectors -/

section Vectors

variable {σ : Type} {H : GlobalAlloc σ} {Stock : σ → (Nat → Nat) → List Live → Prop}
  {free : Nat → Nat} {start : Nat} {rest : List Live} {v : AreaVec} {s : σ} {p : Profile} {work : PageWork}

/-- A vector that started with a capacity when so many objects were free. -/
structure Stretched (Stock : σ → (Nat → Nat) → List Live → Prop) (free : Nat → Nat) (start : Nat)
    (rest : List Live) (v : AreaVec) (s : σ) : Prop where
  fits : v.areas.length ≤ v.cap
  room : VMA_SIZE * (2 * v.cap) + 8 ≤ 2 ^ 63
  steps : ∃ j, v.cap = growth start j ∧ ∀ k < j, ¬ Lacks free (growth start (k + 1))
  stock : ∃ free', Stock s free' (v.buffer ++ rest) ∧ ∀ i, free' i + own v.cap i = free i + own start i

/-- A part of a section locks `ALLOCATOR` again if and only if `bad`, and otherwise ends with `Q`. -/
structure Traced {α : Type} (bad : Prop) (Q : Except Halt α → Prop) (x : Except Halt α) : Prop where
  relocks : x = .error .relocked ↔ bad
  post : x ≠ .error .relocked → Q x

variable {α : Type} {Q : Except Halt α → Prop} {bad : Prop}

theorem Traced.ok {a : α} (q : Q (.ok a)) : Traced False Q (.ok a) :=
  ⟨by simp, fun _ => q⟩

theorem Traced.congr {bad' : Prop} {x : Except Halt α} (t : Traced bad Q x) (same : bad ↔ bad') :
    Traced bad' Q x :=
  ⟨t.relocks.trans same, t.post⟩

theorem Traced.stop (why : Stop) : Traced False (fun _ => True) (.error (.stop why) : Except Halt α) :=
  ⟨by simp, fun _ => trivial⟩

theorem Stretched.init (stock : Stock s free (v.buffer ++ rest)) (fits : v.areas.length ≤ v.cap)
    (room : VMA_SIZE * (2 * v.cap) + 8 ≤ 2 ^ 63) : Stretched Stock free v.cap rest v s :=
  ⟨fits, room, ⟨0, rfl, by simp⟩, free, stock, fun _ => rfl⟩

theorem Stretched.with_areas (stretched : Stretched Stock free start rest v s) {areas : List VMA}
    (fits : areas.length ≤ v.cap) : Stretched Stock free start rest { v with areas } s :=
  ⟨fits, stretched.room, stretched.steps, stretched.stock⟩

theorem Stretched.not_short (stretched : Stretched Stock free start rest v s) {n : Nat} (le : n ≤ v.cap) :
    ¬ Short free start n := by
  obtain ⟨j, cap, had⟩ := stretched.steps
  rintro ⟨k, needed, lacks⟩
  exact had k ((growth_strictMono start).lt_iff_lt.mp (by omega)) lacks

theorem areas_request {cap : Nat} (positive : 0 < cap) (bounded : VMA_SIZE * cap + 8 ≤ 2 ^ 63) :
    Layout.request ⟨VMA_SIZE * cap, 8, word_align, bounded⟩ = VMA_SIZE * cap := by
  simp only [Layout.request, VMA_SIZE]
  omega

theorem AreaVec.drop_counts (counts : H.ByCount Stock) {free' : Nat → Nat}
    (stock : Stock s free' (v.buffer ++ rest)) (small : VMA_SIZE * v.cap ≤ PAGE_SIZE) :
    ∃ s' free'', v.drop H s = .ok s' ∧ Stock s' free'' rest ∧ ∀ i, free'' i = free' i + own v.cap i := by
  unfold AreaVec.drop
  unfold AreaVec.buffer at stock
  split
  · rename_i none
    rw [if_pos none] at stock
    exact ⟨s, free', rfl, stock, fun i => by simp [own, none]⟩
  · rename_i buffered
    rw [if_neg buffered] at stock
    cases found : areaClass v.cap with
    | none => exact absurd small (Nat.not_le.mpr (sizeToSlab_none found))
    | some i =>
      have slab : sizeToSlab v.layout.request = some i := by
        rw [AreaVec.layout, areas_request (Nat.pos_of_ne_zero buffered)]
        exact found
      obtain ⟨s', run, stock'⟩ := counts.dealloc stock slab
      refine ⟨s', _, run, stock', fun x => ?_⟩
      by_cases same : x = i
      · subst same
        simp [own, buffered, found]
      · have other : own v.cap x = 0 := if_neg fun own => same (Option.some.inj (own.2.symm.trans found))
        rw [Function.update_of_ne same, other, Nat.add_zero]

/-- The capacity of a vector that has made room for one area more. -/
def roomier (cap len : Nat) : Nat := if len < cap then cap else max 4 (2 * cap)

/-- Room for one area more: the vector locks `ALLOCATOR` again if and only if the new length is too
much. -/
theorem Stretched.growOne (counts : H.ByCount Stock) (stretched : Stretched Stock free start rest v s) {len : Nat}
    (le : len ≤ v.cap) {f : AreaVec × σ → Except Halt α}
    (next : ∀ v' s', v'.areas = v.areas → v'.cap = roomier v.cap len →
      Stretched Stock free start rest v' s' → Traced bad Q (f (v', s'))) :
    Traced (Short free start (len + 1) ∨ bad) Q (v.growOne H len s >>= f) := by
  obtain ⟨fits, bound, ⟨j, cap, had⟩, free', stock, balance⟩ := id stretched
  -- what comes after a length that is not too much decides
  have later {x : Except Halt α} (t : Traced bad Q x) (enough : ¬ Short free start (len + 1)) :
      Traced (Short free start (len + 1) ∨ bad) Q x :=
    t.congr (or_iff_right enough).symm
  by_cases room : len < v.cap
  · rw [AreaVec.growOne, if_pos room, ok_bind]
    exact later (next v s rfl (if_pos room).symm stretched) (stretched.not_short room)
  have full : len = growth start j := by omega
  have size : max 4 (max (2 * v.cap) (len + 1)) = growth start (j + 1) := by
    rw [growth]
    omega
  have bounded : VMA_SIZE * growth start (j + 1) + 8 ≤ 2 ^ 63 := by
    rw [growth, ← cap]
    simp only [VMA_SIZE] at *
    omega
  simp only [AreaVec.growOne, if_neg room, size, dif_pos bounded]
  by_cases lack : Lacks free (growth start (j + 1))
  · have none : H.alloc s ⟨VMA_SIZE * growth start (j + 1), 8, word_align, bounded⟩ = .error .relocked := by
      refine counts.relocks stock fun i found => ?_
      rw [areas_request (by rw [growth]; omega)] at found
      have own₀ : own start i = 0 := own_eq_zero (two_mul_growth_le start (Nat.succ_pos j)) found
      have := balance i
      have := lack i found
      omega
    rw [none]
    exact ⟨iff_of_true rfl (.inl ⟨j, by omega, lack⟩), fun other => absurd rfl other⟩
  · obtain ⟨i, found, objects⟩ : ∃ i, areaClass (growth start (j + 1)) = some i ∧ free i ≠ 0 := by
      by_contra none
      exact lack fun i found => by_contra fun objects => none ⟨i, found, objects⟩
    have own₀ : own start i = 0 := own_eq_zero (two_mul_growth_le start (Nat.succ_pos j)) found
    have own₁ : own v.cap i = 0 := by
      rw [cap]
      exact own_eq_zero (two_mul_growth_le start (Nat.lt_succ_self j)) found
    have left : free' i ≠ 0 := by
      have := balance i
      omega
    have slab : sizeToSlab (Layout.request ⟨VMA_SIZE * growth start (j + 1), 8, word_align, bounded⟩) =
        some i := by
      rw [areas_request (by rw [growth]; omega)]
      exact found
    obtain ⟨ptr, s₁, taken, stock₁⟩ := counts.alloc stock slab left
    have small : VMA_SIZE * growth start (j + 1) ≤ PAGE_SIZE :=
      (sizeToSlab_some found).2.trans (slabSize_le i)
    have twice := two_mul_growth_le start (Nat.lt_succ_self j)
    obtain ⟨s₂, free₂, dropped, stock₂, returned⟩ := AreaVec.drop_counts counts
      (counts.perm stock₁ List.perm_middle) (by simp only [VMA_SIZE] at *; omega)
    rw [taken, ok_bind, dropped, ok_bind, pure_eq_ok, ok_bind]
    have stretched' : Stretched Stock free start rest ⟨v.areas, ptr, growth start (j + 1), bounded⟩ s₂ := ?_
    refine later (next _ s₂ rfl ?_ stretched') (stretched'.not_short ?_)
    · show growth start (j + 1) = roomier v.cap len
      rw [roomier, if_neg room, cap, growth]
    · show len + 1 ≤ growth start (j + 1)
      rw [growth]
      omega
    refine ⟨?_, ?_, ⟨j + 1, rfl, fun k hk => ?_⟩, free₂, ?_, fun x => ?_⟩
    · show v.areas.length ≤ growth start (j + 1)
      omega
    · simp only [VMA_SIZE, PAGE_SIZE] at *
      omega
    · rcases Nat.lt_succ_iff_lt_or_eq.mp hk with lower | rfl
      · exact had k lower
      · exact lack
    · rw [AreaVec.buffer, if_neg (by simp only [growth]; omega)]
      exact stock₂
    · have := balance x
      rw [returned x]
      by_cases same : x = i
      · subst same
        have mine : own (growth start (j + 1)) x = 1 := if_pos ⟨by rw [growth]; omega, found⟩
        rw [Function.update_self]
        simp only [mine]
        omega
      · have other : own (growth start (j + 1)) x = 0 :=
          if_neg fun mine => same (Option.some.inj (mine.2.symm.trans found))
        rw [Function.update_of_ne same]
        simp only [other]
        omega

/-! ## Edits of a list of areas -/

/-- What a section does to a vector of areas, and where its work on pages may end it. -/
inductive Edit where
  | insert (vma : VMA)
  | remove (start : Nat)
  | work (done : Bool)

/-- As far as the section comes, an insertion makes the list too long; after all of them, `tail` decides. -/
def Outgrows (short : Nat → Prop) (tail : List VMA → Prop) : List Edit → List VMA → Prop
  | [], areas => tail areas
  | .insert vma :: edits, areas =>
    match Vmas.addVma areas vma with
    | .error _ => False
    | .ok areas => short areas.length ∨ Outgrows short tail edits areas
  | .remove start :: edits, areas =>
    Outgrows short tail edits (((Vmas.removeVma areas start).map Prod.snd).getD areas)
  | .work done :: edits, areas => done = true ∧ Outgrows short tail edits areas

variable {short : Nat → Prop} {tail : List VMA → Prop} {edits : List Edit}

theorem outgrows_append (edits' : List Edit) (areas : List VMA) :
    Outgrows short tail (edits ++ edits') areas ↔ Outgrows short (Outgrows short tail edits') edits areas := by
  induction edits generalizing areas with
  | nil => rfl
  | cons edit edits ih =>
    cases edit with
    | insert vma =>
      simp only [List.cons_append, Outgrows]
      split
      · rfl
      · rw [ih]
    | remove start => exact ih _
    | work done => exact and_congr_right fun _ => ih _

theorem Traced.lift {β : Type} {x : Except Stop β} {f : β → Except Halt α} {areas : List VMA}
    (rest : ∀ b, x = .ok b → Traced (Outgrows short tail edits areas) (fun _ => True) (f b)) :
    Traced (Outgrows short tail (.work x.isOk :: edits) areas) (fun _ => True) (Halt.lift x >>= f) := by
  cases x with
  | error why => exact (Traced.stop why).congr (iff_of_false id fun running => nomatch running.1)
  | ok b => exact (rest b rfl).congr (and_iff_right rfl).symm

theorem Vmas.length_addVma {l l' : List VMA} {vma : VMA} (ok : Vmas.addVma l vma = .ok l') :
    0 < l'.length ∧ l'.length ≤ l.length + 1 := by
  obtain ⟨-, -, inserted⟩ := Vmas.addVma_eq_ok ok
  rw [← Vmas.below_append_above l vma.start, List.length_append]
  cases inserted <;> simp_all <;> omega

theorem Stretched.addVma (counts : H.ByCount Stock) (stretched : Stretched Stock free start rest v s) (vma : VMA)
    {f : Except String Unit × AreaVec × σ → Except Halt α}
    (refused : ∀ e, Vmas.addVma v.areas vma = .error e → Traced False Q (f (.error e, v, s)))
    (added : ∀ v' s', Vmas.addVma v.areas vma = .ok v'.areas → Stretched Stock free start rest v' s' →
      Traced (Outgrows (Short free start) tail edits v'.areas) Q (f (.ok (), v', s'))) :
    Traced (Outgrows (Short free start) tail (.insert vma :: edits) v.areas) Q
      (v.addVma H s vma >>= f) := by
  rw [AreaVec.addVma, Outgrows]
  cases ok : Vmas.addVma v.areas vma with
  | error e => exact refused e ok
  | ok areas =>
    obtain ⟨pos, le⟩ := Vmas.length_addVma ok
    have fits := stretched.fits
    obtain ⟨n, length⟩ : ∃ n, areas.length = n + 1 := ⟨areas.length - 1, by omega⟩
    simp only [length, Nat.add_sub_cancel, bind_assoc, pure_eq_ok, ok_bind]
    refine stretched.growOne counts (by omega) fun v' s' same room stretched' => ?_
    refine added _ s' ok (stretched'.with_areas ?_)
    rw [room, roomier]
    split <;> omega

theorem Stretched.removeVma (stretched : Stretched Stock free start rest v s) (first : Nat) :
    Stretched Stock free start rest (v.removeVma first) s := by
  refine stretched.with_areas (le_trans ?_ stretched.fits)
  cases found : Vmas.removeVma v.areas first with
  | none => exact Nat.le_refl _
  | some out =>
    obtain ⟨-, before, after, split, same⟩ := Vmas.removeVma_eq_some found
    simp only [Option.map_some, Option.getD_some, same, split, List.length_append, List.length_cons]
    omega

/-! ## Sections -/

section Sections

variable {f : Except String Unit × AreaVec × σ → Except Halt α}

def forkEdits (work : PageWork) (areas : List VMA) : List Edit :=
  areas.flatMap fun vma => [.insert vma, .work (work.copy vma).isOk]

theorem Stretched.forkAreas (counts : H.ByCount Stock) (areas : List VMA)
    (stretched : Stretched Stock free start rest v s) :
    Traced (Outgrows (Short free start) (fun _ => False) (forkEdits work areas) v.areas) (fun _ => True)
      (Guarded.forkAreas H work areas v s) := by
  induction areas generalizing v s with
  | nil => exact .ok trivial
  | cons vma areas ih =>
    rw [Guarded.forkAreas]
    exact stretched.addVma counts vma (fun _ _ => .ok trivial) fun v' s' _ stretched' =>
      .lift fun _ _ => ih stretched'

/-- The areas of the loadable headers, as far as the checks pass. -/
def loadEdits (p : Profile) (work : PageWork) (data : List UInt8) : Nat → Nat → List Edit
  | 0, _ => []
  | n + 1, i =>
    let ph := Elf.header data i
    if !ph.isLoad then loadEdits p work data n (i + 1)
    else if 2 ^ 64 ≤ ph.offset + ph.filesz ∨ data.length < ph.offset + ph.filesz then [.work false]
    else match Elf.segmentRange p ph with
    | .error _ => [.work false]
    | .ok (start, stop, _) => .insert ⟨start, stop, Elf.pflagsToVma ph.flags, .anonymous⟩ ::
        .work (work.fill ph).isOk :: .work ((work.fill ph).toOption.any Except.isOk) ::
        loadEdits p work data n (i + 1)

theorem Traced.ended {x : Except Halt α} {areas : List VMA} (t : Traced False (fun _ => True) x) :
    Traced (Outgrows short tail (.work false :: edits) areas) (fun _ => True) x :=
  t.congr (iff_of_false id fun running => Bool.false_ne_true running.1)

variable (failed : ∀ e v' s', Stretched Stock free start rest v' s' → Traced False (fun _ => True) (f (.error e, v', s')))
  (done : ∀ v' s', Stretched Stock free start rest v' s' → Traced (tail v'.areas) (fun _ => True) (f (.ok (), v', s')))

include failed done

theorem Stretched.loadHeaders (counts : H.ByCount Stock) (data : List UInt8) (n i : Nat)
    (stretched : Stretched Stock free start rest v s) :
    Traced (Outgrows (Short free start) tail (loadEdits p work data n i) v.areas) (fun _ => True)
      (Guarded.loadHeaders H p work data n i v s >>= f) := by
  induction n generalizing i v s with
  | zero => exact done v s stretched
  | succ n ih =>
    rw [Guarded.loadHeaders, loadEdits]
    generalize Elf.header data i = ph
    cases ph.isLoad with
    | false => exact ih _ stretched
    | true =>
      simp only [Guarded.loadSegment, Bool.not_true, Bool.false_eq_true, if_false]
      by_cases wide : 2 ^ 64 ≤ ph.offset + ph.filesz
      · rw [if_pos (.inl wide), if_pos wide]
        exact (failed _ v s stretched).ended
      by_cases outside : data.length < ph.offset + ph.filesz
      · rw [if_pos (.inr outside), if_neg wide, if_pos outside]
        exact (failed _ v s stretched).ended
      rw [if_neg (not_or_intro wide outside), if_neg wide, if_neg outside]
      cases Elf.segmentRange p ph with
      | error why => exact (Traced.stop why).ended
      | ok range =>
        obtain ⟨first, past, bytes⟩ := range
        simp only [Halt.lift, ok_bind, bind_assoc]
        refine stretched.addVma counts _ (fun e _ => failed _ v s stretched) fun v' s' _ stretched' => ?_
        simp only [bind_assoc, pure_eq_ok, ok_bind]
        refine .lift fun r filled => ?_
        rw [filled]
        cases r with
        | error e => exact (failed e v' s' stretched').ended
        | ok u =>
          exact (ih (i + 1) stretched').congr (and_iff_right rfl).symm

/-- The insertions of `ElfLoader::load`. -/
def fileEdits (p : Profile) (work : PageWork) (data : List UInt8) : List Edit :=
  match Elf.validate data with
  | .error _ => [.work false]
  | .ok () => loadEdits p work data (Elf.ePhnum data) 0

theorem Stretched.load (counts : H.ByCount Stock) (data : List UInt8)
    (stretched : Stretched Stock free start rest v s) :
    Traced (Outgrows (Short free start) tail (fileEdits p work data) v.areas) (fun _ => True)
      (Guarded.load H p work data v s >>= f) := by
  rw [Guarded.load, fileEdits]
  cases Elf.validate data with
  | error e => exact (failed e v s stretched).ended
  | ok u => exact stretched.loadHeaders failed done counts data _ _

def pieceEdits (vma : VMA) (start stop : Nat) : List Edit :=
  if start < stop then [.insert { vma with start, stop }] else []

theorem Stretched.keepPiece (counts : H.ByCount Stock) (vma : VMA) (first past : Nat)
    (stretched : Stretched Stock free start rest v s) :
    Traced (Outgrows (Short free start) tail (pieceEdits vma first past) v.areas) (fun _ => True)
      (v.keepPiece H s vma first past >>= f) := by
  rw [AreaVec.keepPiece, pieceEdits]
  split
  · exact stretched.addVma counts _ (fun e _ => failed e v s stretched) fun v' s' _ => done v' s'
  · exact done v s stretched

/-- The hole of `punch_hole`, area by area. -/
def punchEdits (work : PageWork) (holeStart holeEnd : Nat) (areas : List VMA) : List Edit :=
  areas.flatMap fun vma => .work (work.unmap (max vma.start holeStart) (min vma.stop holeEnd)).isOk ::
    .remove vma.start :: (pieceEdits vma vma.start holeStart ++ pieceEdits vma holeEnd vma.stop)

theorem Stretched.punchAll (counts : H.ByCount Stock) (holeStart holeEnd : Nat) (areas : List VMA)
    (stretched : Stretched Stock free start rest v s) :
    Traced (Outgrows (Short free start) tail (punchEdits work holeStart holeEnd areas) v.areas) (fun _ => True)
      (Guarded.punchAll H work holeStart holeEnd areas v s >>= f) := by
  induction areas generalizing v s with
  | nil => exact done v s stretched
  | cons vma areas ih =>
    simp only [Guarded.punchAll, Guarded.punchOne, bind_assoc]
    refine .lift fun _ _ => ?_
    refine Traced.congr ?_ (outgrows_append _ _).symm
    refine Traced.congr ?_ (outgrows_append _ _).symm
    refine Stretched.keepPiece ?_ (fun v' s' stretched' => ?_) counts vma _ _ (stretched.removeVma vma.start)
    · exact failed
    · refine Stretched.keepPiece ?_ (fun v'' s'' stretched'' => ?_) counts vma _ _ stretched'
      · exact failed
      · exact ih stretched''

end Sections

/-! ## The hole of a fixed mapping -/

/-- The capacity of a new vector after `n` pushes. -/
def capAfter : Nat → Nat
  | 0 => 0
  | n + 1 => roomier (capAfter n) n

theorem Short.mono {n m : Nat} (short : Short free start n) (le : n ≤ m) : Short free start m := by
  obtain ⟨j, needed, lacks⟩ := short
  exact ⟨j, needed.trans_le le, lacks⟩

theorem Stretched.collect (counts : H.ByCount Stock) (areas : List VMA)
    (stretched : Stretched Stock free 0 rest v s) (cap : v.cap = capAfter v.areas.length)
    {f : AreaVec × σ → Except Halt α}
    (done : ∀ v' s', Stretched Stock free 0 rest v' s' → v'.cap = capAfter (v.areas.length + areas.length) →
      Traced bad Q (f (v', s'))) :
    Traced (Short free 0 (v.areas.length + areas.length) ∨ bad) Q
      (Guarded.collect H areas v s >>= f) := by
  induction areas generalizing v s with
  | nil => exact (done v s stretched cap).congr (or_iff_right (stretched.not_short stretched.fits)).symm
  | cons vma areas ih =>
    simp only [Guarded.collect, AreaVec.push, bind_assoc, pure_eq_ok, ok_bind]
    have longer : v.areas.length + (vma :: areas).length = v.areas.length + 1 + areas.length := by
      simp only [List.length_cons]
      omega
    rw [longer] at done ⊢
    have step : Traced (Short free 0 (v.areas.length + 1) ∨ Short free 0 (v.areas.length + 1 + areas.length) ∨
        bad) Q (v.growOne H v.areas.length s >>= fun x =>
          Guarded.collect H areas { x.1 with areas := x.1.areas ++ [vma] } x.2 >>= f) := by
      refine stretched.growOne counts stretched.fits fun v' s' same room stretched' => ?_
      have length : (v'.areas ++ [vma]).length = v.areas.length + 1 := by simp [same]
      have fits := stretched.fits
      rw [← length] at done ⊢
      refine ih (stretched'.with_areas ?_) ?_ done
      · rw [length, room, roomier]
        split <;> omega
      · rw [length, capAfter, ← cap, ← room]
    refine step.congr ?_
    rw [← or_assoc]
    exact or_congr_left (or_iff_right_of_imp fun short => short.mono (Nat.le_add_right _ _))

/-- The free objects while a buffer of a capacity is in use. -/
def lend (free : Nat → Nat) (cap i : Nat) : Nat := free i - own cap i

theorem Stretched.small (stretched : Stretched Stock free 0 rest v s) : VMA_SIZE * v.cap ≤ PAGE_SIZE := by
  obtain ⟨j, cap, had⟩ := stretched.steps
  cases j with
  | zero =>
    rw [cap]
    exact Nat.zero_le _
  | succ j =>
    by_contra large
    refine had j (Nat.lt_succ_self j) fun i found => absurd ?_ large
    rw [cap]
    exact (sizeToSlab_some found).2.trans (slabSize_le i)

/-- The list of the areas in the way, the hole and the insertion: while the hole is made, the list has
a buffer of its own. -/
def FixedShort (work : PageWork) (free : Nat → Nat) (v : AreaVec) (vma : VMA) : Prop :=
  let areas := AddressSpace.overlapping v.areas vma.start vma.stop
  Short free 0 areas.length ∨
    Outgrows (Short (lend free (capAfter areas.length)) v.cap)
      (Outgrows (Short free v.cap) (fun _ => False) [.insert vma])
      (punchEdits work vma.start vma.stop areas) v.areas

/-- After the list of the areas in the way has gone, the vector has stretched on all the free objects. -/
theorem Stretched.returned (counts : H.ByCount Stock) {found : AreaVec} {free₁ : Nat → Nat}
    (lent : ∀ i, free₁ i + own found.cap i = free i) (small : VMA_SIZE * found.cap ≤ PAGE_SIZE)
    (stretched : Stretched Stock free₁ start (found.buffer ++ rest) v s) :
    ∃ s', found.drop H s = .ok s' ∧ Stretched Stock free start rest v s' := by
  obtain ⟨fits, room, ⟨j, cap, had⟩, free₂, stock, balance⟩ := stretched
  obtain ⟨s', free₃, dropped, stock', returned⟩ :=
    AreaVec.drop_counts counts (counts.perm stock (List.perm_append_comm_assoc _ _ _)) small
  refine ⟨s', dropped, fits, room, ⟨j, cap, fun k hk lacks => had k hk fun i class_ => ?_⟩, free₃, stock',
    fun i => ?_⟩
  · have := lent i
    have := lacks i class_
    omega
  · have := lent i
    have := balance i
    have := returned i
    omega

theorem Stretched.mmapFixed (counts : H.ByCount Stock) (stretched : Stretched Stock free v.cap rest v s)
    (stock : Stock s free (v.buffer ++ rest)) (addr size : Nat) (flags : VMAFlags) (kind : VMAKind) :
    Traced (∃ first past, Vmas.range p addr size = .ok (first, past) ∧
        FixedShort work free v ⟨first, past, flags, kind⟩) (fun _ => True)
      (Guarded.mmapFixed H p work addr size flags kind v s) := by
  rw [Guarded.mmapFixed]
  cases Vmas.range p addr size with
  | error why => exact (Traced.stop why).congr (by simp)
  | ok range =>
    obtain ⟨first, past⟩ := range
    suffices t : Traced (FixedShort work free v ⟨first, past, flags, kind⟩) (fun _ => True) _ from
      t.congr (by simp)
    simp only [Halt.lift, ok_bind]
    have new : Stretched Stock free 0 (v.buffer ++ rest) .new s :=
      Stretched.init (v := .new) stock (Nat.le_refl 0) (by decide)
    refine Traced.congr (new.collect counts _ rfl fun found s₁ stretched₁ cap => ?_)
      (by rw [FixedShort]; simp only [AreaVec.new, List.length_nil, Nat.zero_add]; rfl)
    obtain ⟨-, -, -, free₁, stock₁, balance⟩ := id stretched₁
    have lent : ∀ i, free₁ i + own found.cap i = free i := fun i => (balance i).trans (by simp [own])
    have lends : lend free (capAfter (AddressSpace.overlapping v.areas first past).length) = free₁ := by
      funext i
      rw [AreaVec.new, List.length_nil, Nat.zero_add] at cap
      rw [← cap, lend, ← lent i, Nat.add_sub_cancel]
    rw [lends]
    have own₁ : Stretched Stock free₁ v.cap (found.buffer ++ rest) v s₁ :=
      .init (counts.perm stock₁ (List.perm_append_comm_assoc _ _ _)) stretched.fits stretched.room
    refine own₁.punchAll (fun e v' s' stretched' => ?_) (fun v' s' stretched' => ?_) counts first past _
    · obtain ⟨s'', dropped, -⟩ := stretched'.returned counts lent stretched₁.small
      rw [dropped]
      exact .ok trivial
    · obtain ⟨s'', dropped, left⟩ := stretched'.returned counts lent stretched₁.small
      rw [dropped]
      exact left.addVma counts _ (fun _ _ => .ok trivial) fun _ _ _ _ => .ok trivial

theorem Stretched.execve (counts : H.ByCount Stock) (stretched : Stretched Stock free start rest v s)
    (data : List UInt8) :
    Traced (Outgrows (Short free start) (Outgrows (Short free start) (fun _ => False)
        [.work work.stack.isOk, .insert ⟨USTACK_BASE, USTACK_VIRT + 0x1000, .rw, .stack⟩])
        (fileEdits p work data) []) (fun _ => True)
      (Guarded.execve H p work data v s) := by
  have emptied : Stretched Stock free start rest { v with areas := [] } s := stretched.with_areas (Nat.zero_le _)
  refine Stretched.load (fun e v' s' _ => ?_) (fun v' s' stretched' => ?_) counts data emptied
  · exact .ok trivial
  · refine .lift fun _ _ => ?_
    exact stretched'.addVma counts _ (fun _ _ => .ok trivial) fun _ _ _ _ => .ok trivial

end Vectors

/-! ## Every call -/

/-- The call locks `ALLOCATOR` while it holds the guard. -/
def GuardedCall.Relocks (call : GuardedCall) (p : Profile) (work : PageWork) (v : AreaVec)
    (h : HeapState) : Prop :=
  call.run (guardedHeap p) p work v h = .error .relocked

/-- One of the vectors of the call comes to hold more areas than the free objects allow. The child of a
`fork` and the first process start with a vector of no capacity, `execve` and `mmap_fixed` with that of
the process. -/
def GuardedCall.TooLong (p : Profile) (work : PageWork) (v : AreaVec) (free : Nat → Nat) :
    GuardedCall → Prop
  | .fork => Outgrows (Short free 0) (fun _ => False) (forkEdits work v.areas) []
  | .execve data =>
    Outgrows (Short free v.cap) (Outgrows (Short free v.cap) (fun _ => False)
      [.work work.stack.isOk, .insert ⟨USTACK_BASE, USTACK_VIRT + 0x1000, .rw, .stack⟩])
      (fileEdits p work data) []
  | .mmapFixed addr size flags kind => ∃ start stop, Vmas.range p addr size = .ok (start, stop) ∧
      FixedShort work free v ⟨start, stop, flags, kind⟩
  | .startScheduler data => Outgrows (Short free 0) (fun _ => False) (fileEdits p work data) []

/-- A buffer in use lies in memory, so twice its size is still a size. -/
theorem Stocked.room {h : HeapState} {free : Nat → Nat} {v : AreaVec} (stocked : Stocked h free v.buffer) :
    VMA_SIZE * (2 * v.cap) + 8 ≤ 2 ^ 63 := by
  obtain ⟨⟨nodes, held, inv, -⟩, live⟩ := stocked
  by_cases none : v.cap = 0
  · rw [none]
    decide
  · have buffer : ⟨v.ptr, v.layout⟩ ∈ h.live := live.subset (by simp [AreaVec.buffer, none])
    have window := inv.piece_window (List.mem_append_right _ (List.mem_map_of_mem buffer))
    have size := v.layout.size_le_extent
    have last : v.ptr - KERNEL_VIRT_BASE + v.layout.extent - 1 ∈
        (Live.parcel ⟨v.ptr, v.layout⟩).cells := by
      have := v.layout.extent_pos
      simp only [Live.parcel, Parcel.cells, Set.mem_Ico]
      omega
    have below := (window last).2
    change VMA_SIZE * v.cap ≤ v.layout.extent at size
    simp only [VMA_SIZE, DIRECT_MAP_END] at *
    omega

/-- On the slab lists in memory, a call locks `ALLOCATOR` again exactly when, by the areas it inserts, the
capacities and the numbers of free objects of each class, one of its vectors gets too long. -/
theorem allocator_relocked_iff {h : HeapState} {free : Nat → Nat} {v : AreaVec} (p : Profile)
    (work : PageWork) (stocked : Stocked h free v.buffer) (fits : v.areas.length ≤ v.cap)
    (call : GuardedCall) : call.Relocks p work v h ↔ call.TooLong p work v free := by
  have counts := guardedHeap_byCount p
  have stock : Stocked h free (v.buffer ++ []) := by rwa [List.append_nil]
  have own : Stretched Stocked free v.cap [] v h := .init stock fits stocked.room
  have fresh : Stretched Stocked free 0 v.buffer .new h :=
    .init (v := .new) stocked (Nat.le_refl 0) (by decide)
  cases call with
  | fork => exact (fresh.forkAreas counts v.areas).relocks
  | execve data => exact (own.execve counts data).relocks
  | mmapFixed addr size flags kind => exact (own.mmapFixed counts stock addr size flags kind).relocks
  | startScheduler data =>
    have t : Traced (Outgrows (Short free 0) (fun _ => False) (fileEdits p work data) []) (fun _ => True)
        (Guarded.load (guardedHeap p) p work data .new h >>= fun x => .ok x.2) := by
      refine Stretched.load (fun e v' s' _ => ?_) (fun v' s' _ => ?_) counts data fresh
      · exact .ok trivial
      · exact .ok trivial
    exact t.relocks

/-- The buffer of four areas. -/
def fourAreas : Layout := ⟨VMA_SIZE * 4, 8, word_align, by decide⟩

/-- The heap after `n` requests for a layout. -/
def HeapState.fill (p : Profile) (layout : Layout) : Nat → HeapState → Except Stop HeapState
  | 0, h => .ok h
  | n + 1, h => do
    let (ptr, heap, buddy) ← h.heap.alloc p h.buddy layout
    fill p layout n { h with heap, buddy, live := enlist h.live ptr layout }

theorem HeapState.fill_reachable {p : Profile} {layout : Layout} {n : Nat} {h h' : HeapState}
    (start : Reachable Initial (Step p) h) (run : fill p layout n h = .ok h') :
    Reachable Initial (Step p) h' := by
  induction n generalizing h with
  | zero =>
    cases run
    exact start
  | succ n ih =>
    obtain ⟨⟨ptr, heap, buddy⟩, taken, rest⟩ := bind_eq_ok.mp run
    exact ih (start.next (.alloc taken)) rest

/-- In a state that the heap reaches, the counts are the lengths of its lists. -/
theorem HeapState.reachable_stocked {p : Profile} {h : HeapState} {buffers : List Live}
    (run : Reachable Initial (Step p) h) (live : buffers.Subperm h.live) :
    ∃ free, Stocked h free buffers ∧
      ∀ i < SLABS, (h.heap.slabs i).freeList ≠ 0 → free i ≠ 0 := by
  obtain ⟨nodes, held, inv⟩ := run.invariant (P := fun h => ∃ nodes held, Inv h nodes held)
    (fun _ start => ⟨_, _, start.inv⟩) fun _ _ ⟨_, _, inv⟩ step => step.inv inv
  refine ⟨fun i => (nodes i).length, ⟨⟨nodes, held, inv, fun _ _ => rfl⟩, live⟩, fun i hi some => ?_⟩
  obtain ⟨a, l, list, -⟩ := (inv.lists i hi).uncons some
  simp only [list, List.length_cons, ne_eq, Nat.add_one_ne_zero, not_false_eq_true]

/-- Four pages of memory, of which nothing is in use. -/
def fourPages (s : Buddy) : HeapState := ⟨s, [], [(0x10000, 0x4000)], .new, []⟩

theorem fourPages_reachable {s : Buddy}
    (seed : Buddy.addRegion .dev ⟨fun _ => 0, .new⟩ 0x10000 0x4000 = .ok s) :
    Reachable HeapState.Initial (HeapState.Step .dev) (fourPages s) := by
  have start : Reachable HeapState.Initial (HeapState.Step .dev) ⟨⟨fun _ => 0, .new⟩, [], [], .new, []⟩ :=
    .start ⟨⟨_, rfl⟩, rfl, rfl⟩
  have seeded := start.next (.beside (.addRegion (by decide) (by decide) (by simp) seed))
  exact seeded

/-- A process with one area, in a buffer of four. -/
def oneArea (ptr : Nat) : AreaVec := ⟨[⟨0x400000, 0x401000, .rw, .anonymous⟩], ptr, 4, by decide⟩

/-- Page work that always succeeds. -/
def PageWork.done : PageWork :=
  ⟨fun _ => .ok (), fun _ => .ok (.ok ()), fun _ _ => .ok (), .ok ()⟩

theorem not_short_one {free : Nat → Nat} (four : free 4 ≠ 0) : ¬ Short free 0 1 := by
  rintro ⟨j, needed, lacks⟩
  cases j with
  | zero => exact four (lacks 4 (by decide))
  | succ j =>
    rw [growth] at needed
    omega

/-- With one buffer of four areas in use the class has free objects, and the process that owns the
buffer forks. -/
theorem fork_with_objects_left : ∃ h free v, Reachable HeapState.Initial (HeapState.Step .dev) h ∧
    Stocked h free v.buffer ∧ v.areas.length = 1 ∧ ¬ GuardedCall.fork.Relocks .dev .done v h := by
  have evaluates : (do
      let s ← Buddy.addRegion .dev ⟨fun _ => 0, .new⟩ 0x10000 0x4000
      let h ← HeapState.fill .dev fourAreas 1 (fourPages s)
      return (decide ((h.heap.slabs 4).freeList = 0), h.live)) =
        Except.ok (false, [⟨0xffff_8000_0001_0000, fourAreas⟩]) := by decide +kernel
  obtain ⟨s, seed, rest⟩ := bind_eq_ok.mp evaluates
  obtain ⟨h, fill, result⟩ := bind_eq_ok.mp rest
  obtain ⟨ready, live⟩ := Prod.mk.inj (Except.ok.inj result)
  have reached := HeapState.fill_reachable (fourPages_reachable seed) fill
  have buffer : (oneArea 0xffff_8000_0001_0000).buffer.Subperm h.live := by
    rw [live]
    exact List.Subperm.refl _
  obtain ⟨free, stocked, left⟩ := HeapState.reachable_stocked reached buffer
  refine ⟨h, free, _, reached, stocked, rfl, ?_⟩
  rw [allocator_relocked_iff .dev .done stocked (by decide)]
  have four : free 4 ≠ 0 := left 4 (by decide) (of_decide_eq_false ready)
  rintro (short | ⟨-, ⟨⟩⟩)
  exact not_short_one four short

/-- A `fork` of any process that has an area locks `ALLOCATOR` again if the objects of 128 bytes are
used up: the first area of the child needs a buffer of four. -/
theorem fork_relocks {h : HeapState} {v : AreaVec} {vma : VMA} {areas : List VMA} (p : Profile)
    (work : PageWork) (first : v.areas = vma :: areas) (empty : (h.heap.slabs 4).freeList = 0) :
    GuardedCall.fork.Relocks p work v h := by
  have stretched : AreaVec.new.growOne (guardedHeap p) 0 h = .error .relocked := by
    rw [AreaVec.growOne, if_neg (by decide), dif_pos (by decide), guardedHeap]
    have slab : sizeToSlab 96 = some 4 := by decide
    have locks : h.heap.locks ⟨96, 8, word_align, by decide⟩ = true := by
      have request : Layout.request ⟨96, 8, word_align, by decide⟩ = 96 := by decide
      simp only [KernelHeap.locks, request, slab]
      exact decide_eq_true empty
    change (if h.heap.locks ⟨96, 8, word_align, by decide⟩ then _ else _) >>= _ = _
    rw [if_pos locks]
    rfl
  have added : AreaVec.new.addVma (guardedHeap p) h vma = .error .relocked := by
    change (AreaVec.new.growOne (guardedHeap p) 0 h >>= _) = _
    rw [stretched]
    rfl
  rw [GuardedCall.Relocks, GuardedCall.run, first, Guarded.forkAreas, added]
  rfl

/-- A heap in which the 32 objects of a page of the class are in use, one of them by the areas of a
process: when that process forks, the kernel waits for its own guard. -/
theorem fork_waits_for_itself : ∃ h v, Reachable HeapState.Initial (HeapState.Step .dev) h ∧
    v.buffer.Subperm h.live ∧ v.areas.length = 1 ∧ GuardedCall.fork.Relocks .dev .done v h := by
  have evaluates : (do
      let s ← Buddy.addRegion .dev ⟨fun _ => 0, .new⟩ 0x10000 0x4000
      let h ← HeapState.fill .dev fourAreas 32 (fourPages s)
      return (decide ((h.heap.slabs 4).freeList = 0),
        decide (⟨0xffff_8000_0001_0000, fourAreas⟩ ∈ h.live))) =
        Except.ok (true, true) := by decide +kernel
  obtain ⟨s, seed, rest⟩ := bind_eq_ok.mp evaluates
  obtain ⟨h, fill, result⟩ := bind_eq_ok.mp rest
  obtain ⟨empty, live⟩ := Prod.mk.inj (Except.ok.inj result)
  have reached := HeapState.fill_reachable (fourPages_reachable seed) fill
  refine ⟨h, oneArea 0xffff_8000_0001_0000, reached, ?_, rfl, ?_⟩
  · exact List.singleton_subperm_iff.mpr (of_decide_eq_true live)
  · exact fork_relocks .dev .done rfl (of_decide_eq_true empty)

end Ferrum
