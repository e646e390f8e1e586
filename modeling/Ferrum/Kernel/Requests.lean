import Ferrum.Kernel.Layout
import Ferrum.Vma.Search

/-!
# What `mmap` and `brk` promise

Both calls compute addresses from a user register without checks. `mmap` rounds the length up, twice;
`brk` rounds the new break up and takes the last heap area out before it inserts the longer one.
-/
namespace Ferrum

open Vmas

variable {p : Profile} {image image' : Image} {st : Machine Pool} {addr len prot flags : Nat}

/-! ## mmap -/

/-- The call returns; an error changes nothing, and otherwise every byte asked for was free and is now
in an area with the flags asked for. -/
def MmapCovers (p : Profile) (image : Image) (addr len prot flags : Nat) (st : Machine Pool) : Prop :=
  ∃ r image' st', mmapImage p image addr len prot flags st = .ok (r, image', st') ∧
    match r with
    | .error _ => image' = image ∧ st' = st
    | .ok a => 0 < len ∧ a + len ≤ 2 ^ 64 ∧ ∀ b, a ≤ b → b < a + len →
        attr image.space.vmas b = none ∧ ∃ kind, attr image'.space.vmas b = some (protToVma prot, kind)

section Search

variable (search : ¬ (addr ≠ 0 ∧ flags &&& MAP_FIXED ≠ 0))
include search

/-- Without `MAP_FIXED` the call is a search; if it fails, nothing changes. -/
theorem mmapImage_error {e : String}
    (run : Vmas.mmap p image.space.vmas 0 len (protToVma prot) .anonymous = .ok (.error e)) :
    mmapImage p image addr len prot flags st = .ok (.error e, image, st) := by
  rw [mmapImage, if_neg search, AddressSpace.mmap, run]
  rfl

theorem mmapImage_ok {a : Nat} {vmas : List VMA}
    (run : Vmas.mmap p image.space.vmas 0 len (protToVma prot) .anonymous = .ok (.ok (a, vmas))) :
    mmapImage p image addr len prot flags st =
      .ok (.ok a, { image with space := { image.space with vmas } }, st) := by
  rw [mmapImage, if_neg search, AddressSpace.mmap, run]
  rfl

theorem mmapCovers_of_insertion (vma : VMA)
    (run : Vmas.mmap p image.space.vmas 0 len (protToVma prot) .anonymous =
      .ok ((addVma image.space.vmas vma).map fun vmas => (vma.start, vmas))) :
    MmapCovers p image addr len prot flags st ↔ ∀ l', addVma image.space.vmas vma = .ok l' →
      0 < len ∧ vma.start + len ≤ 2 ^ 64 ∧ ∀ b, vma.start ≤ b → b < vma.start + len →
        attr image.space.vmas b = none ∧ ∃ kind, attr l' b = some (protToVma prot, kind) := by
  cases added : addVma image.space.vmas vma with
  | error e =>
    rw [added] at run
    exact ⟨nofun, fun _ => ⟨_, _, _, mmapImage_error search run, rfl, rfl⟩⟩
  | ok l' =>
    rw [added] at run
    have runs : mmapImage p image addr len prot flags st = _ := mmapImage_ok search run
    constructor
    · rintro ⟨r, image', st', run', holds⟩ l'' same
      cases runs.symm.trans run'
      cases same
      exact holds
    · exact fun holds => ⟨_, _, _, runs, holds l' rfl⟩

/-- A length that rounds to zero breaks the promise, unless the empty area is refused. -/
theorem mmapCovers_zero (h : Laid image.space.vmas) (word : len < 2 ^ 64)
    (rounds : alignUp p len PAGE_SIZE = .ok 0) :
    MmapCovers p image addr len prot flags st ↔
      ∃ v ∈ image.space.vmas, v.start < MMAP_ZONE_START ∧ MMAP_ZONE_START < v.stop := by
  have short : ¬ (0 < len ∧ MMAP_ZONE_START + len ≤ 2 ^ 64) := by
    rcases alignUp_cases p word with ⟨-, -, stops⟩ | ⟨-, -, rounds'⟩ | ⟨-, wraps, -⟩
    · rw [rounds] at stops
      cases stops
    · have none : roundUp len = 0 := Except.ok.inj (rounds'.symm.trans rounds)
      have := le_roundUp len
      omega
    · simp only [PAGE_SIZE, MMAP_ZONE_START] at *
      omega
  let empty : VMA := ⟨MMAP_ZONE_START, MMAP_ZONE_START, protToVma prot, .anonymous⟩
  have refused := addVma_empty_error_iff empty h (Nat.le_refl _)
  rw [mmapCovers_of_insertion search empty (mmap_zero word rounds), ← refused]
  cases addVma image.space.vmas empty with
  | error e => simp
  | ok l' =>
    simp only [reduceCtorEq, exists_false, iff_false]
    exact fun holds => short ⟨(holds l' rfl).1, (holds l' rfl).2.1⟩

/-- A length that rounds to at least a page gets what it asks for, or nothing. -/
theorem mmapCovers_pos (h : Laid image.space.vmas) (pos : 0 < len)
    (rounds : alignUp p len PAGE_SIZE = .ok (roundUp len)) :
    MmapCovers p image addr len prot flags st := by
  rcases findFreeArea_least h (roundUp_pos pos) with ⟨a, found, ⟨-, fits, -⟩, -⟩ | ⟨none, -⟩
  · rw [mmapCovers_of_insertion search ⟨a, roundUp (a + len), _, _⟩ (mmap_found rounds found fits)]
    intro l' added
    have size_le := le_roundUp len
    have reaches := le_roundUp (a + len)
    have new : a < roundUp (a + len) := by omega
    have apart := (h.addVma new added).2.1
    refine ⟨pos, by simp only [MMAP_ZONE_END] at fits; simp only; omega, fun b low high => ⟨?_, .anonymous, ?_⟩⟩
    · refine (attr_eq_none h).mpr fun v hv inside => ?_
      have := apart v hv
      grind
    · rw [attr_addVma h new added, if_pos ⟨low, by simp only at high ⊢; omega⟩]
  · refine ⟨.error "No free area for mmap", image, st, mmapImage_error search ?_, rfl, rfl⟩
    simp only [Vmas.mmap, place, rounds, ok_bind, if_true, pure_eq_ok, none]

end Search

/-- `mmap` keeps its promise for lengths that round up to at least a page. For the others it either
stops the kernel or reports an empty area, unless an area lies across the start of the zone. -/
theorem mmap_covers_iff (h : Laid image.space.vmas) (word : len < 2 ^ 64)
    (search : ¬ (addr ≠ 0 ∧ flags &&& MAP_FIXED ≠ 0)) :
    MmapCovers p image addr len prot flags st ↔
      (p = .dev → len + PAGE_SIZE < 2 ^ 64) ∧
        ((0 < len ∧ len + (PAGE_SIZE - 1) < 2 ^ 64) ∨
          ∃ v ∈ image.space.vmas, v.start < MMAP_ZONE_START ∧ MMAP_ZONE_START < v.stop) := by
  rcases alignUp_cases p word with ⟨rfl, large, stops⟩ | ⟨fits, small, rounds⟩ | ⟨rfl, wraps, rounds⟩
  · -- the first rounding stops the kernel
    constructor
    · rintro ⟨r, image', st', run, -⟩
      rw [mmapImage, if_neg search, AddressSpace.mmap, Vmas.mmap, place, stops] at run
      cases run
    · rintro ⟨small, -⟩
      have := small rfl
      omega
  · rcases Nat.eq_zero_or_pos len with rfl | pos
    · rw [mmapCovers_zero search h word rounds]
      simp [PAGE_SIZE]
    · simp only [mmapCovers_pos search h pos rounds, true_iff]
      exact ⟨fits, .inl ⟨pos, small⟩⟩
  · rw [mmapCovers_zero search h word rounds]
    constructor
    · exact fun across => ⟨(fun h => by cases h), .inr across⟩
    · rintro ⟨-, ⟨-, small⟩ | across⟩
      · omega
      · exact across

theorem Kernel.bareImage_laid : Laid Kernel.bareImage.space.vmas := by
  constructor <;> simp [Kernel.bareImage]

/-- A page for an image without areas. -/
theorem mmap_covers_page :
    MmapCovers .dev Kernel.bareImage 0 0x1000 3 0 ⟨fun _ => 0, ⟨.new, [], []⟩⟩ :=
  (mmap_covers_iff Kernel.bareImage_laid (by decide) (by decide)).mpr
    ⟨fun _ => by decide, .inl ⟨by decide, by decide⟩⟩

/-- Almost the whole address space is reported as granted, or stops the kernel. -/
theorem mmap_huge_granted :
    ¬ MmapCovers .release Kernel.bareImage 0 (2 ^ 64 - 1) 3 0 ⟨fun _ => 0, ⟨.new, [], []⟩⟩ ∧
    Vmas.mmap .release [] 0 (2 ^ 64 - 1) (protToVma 3) .anonymous =
      .ok (.ok (MMAP_ZONE_START, [⟨MMAP_ZONE_START, MMAP_ZONE_START, protToVma 3, .anonymous⟩])) ∧
    Vmas.mmap .dev [] 0 (2 ^ 64 - 1) (protToVma 3) .anonymous = .error .overflow := by
  refine ⟨fun covers => ?_, by decide, by decide⟩
  rw [mmapCovers_zero (by decide) Kernel.bareImage_laid (by decide) (by decide)] at covers
  obtain ⟨v, hv, -⟩ := covers
  cases hv

/-! ## brk -/

/-- The break has moved up to `n`: the last heap area, or a new one, ends there, and no heap address is
lost. -/
structure BrkGrown (image : Image) (requested n : Nat) (image' : Image) : Prop where
  reaches : requested ≤ n
  aligned : PAGE_SIZE ∣ n
  grows : image.brkCurrent < n
  current : image'.brkCurrent = n
  heap : ∃ v ∈ image'.space.vmas, v.kind = .heap ∧ v.stop = n ∧
    match lastHeap image.space.vmas with
    | some best => v.start ≤ best.start
    | none => v.start = image.brkStart
  kept : ∀ v ∈ image.space.vmas, v.kind = .heap → ∀ a, v.start ≤ a → a < v.stop →
    ∃ w ∈ image'.space.vmas, w.kind = .heap ∧ w.start ≤ a ∧ a < w.stop

/-- The call returns, and it has moved the break or changed nothing. -/
def BrkHolds (p : Profile) (image : Image) (requested : Nat) : Prop :=
  ∃ n image', brkImage p image requested = .ok (n, image') ∧
    (BrkGrown image requested n image' ∨ n = image.brkCurrent ∧ image' = image)

variable {requested n : Nat}

/-- What `brk` does with a larger break: the last heap area goes, and the longer one comes or not. -/
theorem brkImage_cases (h : Laid image.space.vmas) (past : image.brkCurrent < requested)
    (rounds : (p.add requested 0xfff).map (alignDown · PAGE_SIZE) = .ok n) :
    ∃ rest, ((rest = image.space.vmas ∧ lastHeap image.space.vmas = none) ∨
        ∃ best, lastHeap image.space.vmas = some best ∧
          removeVma image.space.vmas best.start = some (best, rest)) ∧
      ((∃ e, addVma rest (heapArea image.space.vmas image.brkStart n) = .error e ∧
          brkImage p image requested =
            .ok (image.brkCurrent, { image with space := { image.space with vmas := rest } })) ∨
        ∃ l', addVma rest (heapArea image.space.vmas image.brkStart n) = .ok l' ∧
          brkImage p image requested =
            .ok (n, { image with space := { image.space with vmas := l' }, brkCurrent := n })) := by
  have more : ¬ (requested = 0 ∨ requested ≤ image.brkCurrent) := by omega
  obtain ⟨rest, kept, made⟩ := extendHeap_cases h image.brkStart n
  refine ⟨rest, kept, ?_⟩
  cases sum : p.add requested 0xfff with
  | error stop =>
    rw [sum] at rounds
    cases rounds
  | ok past =>
    rw [sum] at rounds
    have rounds : alignDown past PAGE_SIZE = n := Except.ok.inj rounds
    rcases made with ⟨e, refused, made⟩ | ⟨l', added, made⟩
    · refine .inl ⟨e, refused, ?_⟩
      simp only [brkImage, if_neg more, sum, ok_bind, rounds, AddressSpace.extendHeap, made, pure_eq_ok]
    · refine .inr ⟨l', added, ?_⟩
      simp only [brkImage, if_neg more, sum, ok_bind, rounds, AddressSpace.extendHeap, made, pure_eq_ok]

theorem addVma_outside {l l' : List VMA} {vma : VMA} {a : Nat} (ok : addVma l vma = .ok l')
    (new : ¬ (vma.start ≤ a ∧ a < vma.stop)) (old : ∀ v ∈ l, ¬ (v.start ≤ a ∧ a < v.stop)) :
    ∀ v ∈ l', ¬ (v.start ≤ a ∧ a < v.stop) := by
  refine forall_addVma ok new old fun u w hu hw touch _ inside => ?_
  simp only [join] at inside
  omega

theorem removeVma_outside {l rest : List VMA} {best : VMA} {a : Nat} (h : Laid l)
    (removed : removeVma l best.start = some (best, rest)) (inside : best.start ≤ a ∧ a < best.stop) :
    ∀ v ∈ rest, ¬ (v.start ≤ a ∧ a < v.stop) := by
  intro v hv there
  obtain ⟨mem, other⟩ := (mem_of_removeVma h removed).mp hv
  obtain ⟨-, before, after, split, -⟩ := removeVma_eq_some removed
  exact other (h.eq_of_mem mem (by simp [split]) there inside)

theorem brk_rounds (p : Profile) (room : requested + 0xfff < 2 ^ 64) :
    (p.add requested 0xfff).map (alignDown · PAGE_SIZE) = .ok (roundUp requested) := by
  rw [p.add_ok room]
  exact congrArg Except.ok (alignDown_page room)

theorem brk_wraps (word : requested < 2 ^ 64) (large : 2 ^ 64 ≤ requested + 0xfff) :
    (Profile.release.add requested 0xfff).map (alignDown · PAGE_SIZE) = .ok 0 := by
  have small : (requested + 0xfff) % 2 ^ 64 < PAGE_SIZE := by
    simp only [PAGE_SIZE]
    omega
  have zero : alignDown ((requested + 0xfff) % 2 ^ 64) PAGE_SIZE = 0 := by
    rw [alignDown_page (Nat.mod_lt _ (by decide)), Nat.div_eq_of_lt small, Nat.zero_mul]
  exact congrArg Except.ok zero

theorem lastHeap_none {l : List VMA} (h : Laid l) (none : lastHeap l = none) :
    ∀ v ∈ l, v.kind ≠ .heap := by
  intro v hv heap
  obtain ⟨best, last, -⟩ := lastHeap_max h hv heap
  rw [none] at last
  cases last

/-- Without a heap area, `brk` inserts one from the initial break on, or leaves everything as it is. -/
theorem brkHolds_first (h : Laid image.space.vmas) (past : image.brkCurrent < requested)
    (room : requested + 0xfff < 2 ^ 64) (none : lastHeap image.space.vmas = none) :
    BrkHolds p image requested := by
  have noHeap := lastHeap_none h none
  obtain ⟨rest, ⟨rfl, -⟩ | ⟨best, last, -⟩, made⟩ := brkImage_cases h past (brk_rounds p room)
  · rcases made with ⟨e, -, run⟩ | ⟨l', added, run⟩
    · exact ⟨_, _, run, .inr ⟨rfl, rfl⟩⟩
    · have up := le_roundUp requested
      have area : heapArea image.space.vmas image.brkStart (roundUp requested) =
          ⟨image.brkStart, roundUp requested, .rw, .heap⟩ := by
        simp only [heapArea, none]
      rw [area] at added
      obtain ⟨u, hu, heap, stop, start⟩ := addVma_area h added
      refine ⟨_, _, run, .inl ⟨up, dvd_roundUp _, by omega, rfl, ⟨u, hu, heap, ?_, ?_⟩, ?_⟩⟩
      · rcases stop with stop | ⟨v, hv, heap, -⟩
        · exact stop
        · exact absurd heap (noHeap v hv)
      · rw [none]
        rcases start with start | ⟨-, v, hv, heap⟩
        · exact start
        · exact absurd heap (noHeap v hv)
      · exact fun v hv heap => absurd heap (noHeap v hv)
  · rw [none] at last
    cases last

section Extend

variable {best : VMA} (h : Laid image.space.vmas) (past : image.brkCurrent < requested)
  (last : lastHeap image.space.vmas = some best)
include h past last

theorem brkHolds_extend (room : requested + 0xfff < 2 ^ 64) (longer : best.stop ≤ roundUp requested)
    (free : ∀ v ∈ image.space.vmas, v ≠ best → v.stop ≤ best.start ∨ roundUp requested ≤ v.start) :
    BrkHolds p image requested := by
  have up := le_roundUp requested
  obtain ⟨mem, isHeap⟩ := lastHeap_mem last
  have nonempty := h.nonempty best mem
  obtain ⟨rest, ⟨-, none⟩ | ⟨best', last', removed⟩, made⟩ := brkImage_cases h past (brk_rounds p room)
  · rw [last] at none
    cases none
  obtain rfl := Option.some.inj (last.symm.trans last')
  have area : heapArea image.space.vmas image.brkStart (roundUp requested) =
      { best with stop := roundUp requested } := by
    simp only [heapArea, last]
  rw [area] at made
  have members := fun v => mem_of_removeVma (w := v) h removed
  obtain ⟨-, before, after, split, rfl⟩ := removeVma_eq_some removed
  have laid : Laid (before ++ after) :=
    h.sublist (split ▸ List.Sublist.append_left (List.sublist_cons_self best after) before)
  rcases made with ⟨e, refused, -⟩ | ⟨l', added, run⟩
  · obtain ⟨w, hw, meets⟩ := (addVma_error_iff laid (by simp only; omega)).mp ⟨e, refused⟩
    have := free w ((members w).mp hw).1 ((members w).mp hw).2
    grind [VMA.Meets]
  · obtain ⟨-, -, has⟩ := laid.addVma (by simp only; omega) added
    obtain ⟨u, hu, heap, stop, start⟩ := addVma_area laid added
    refine ⟨_, _, run, .inl ⟨up, dvd_roundUp _, by omega, rfl, ⟨u, hu, heap.trans isHeap, ?_, ?_⟩, ?_⟩⟩
    · rcases stop with stop | ⟨v, hv, heap, touch⟩
      · exact stop
      · -- a heap area above would end after the last one
        have there := ((members v).mp hv).1
        obtain ⟨best', last', bound⟩ := lastHeap_max h there (heap.trans isHeap)
        obtain rfl := Option.some.inj (last.symm.trans last')
        have := h.nonempty v there
        simp only at touch
        omega
    · rw [last]
      simp only at start ⊢
      omega
    · intro v hv heap a low high
      have inside : Has l' a v.flags v.kind := by
        refine (has _ _ _).mpr ?_
        by_cases same : v = best
        · subst same
          exact .inr ⟨low, by simp only; omega, rfl, rfl⟩
        · exact .inl ⟨v, (members v).mpr ⟨hv, same⟩, low, high, rfl, rfl⟩
      obtain ⟨w, hw, low, high, -, kind⟩ := inside
      exact ⟨w, hw, kind.trans heap, low, high⟩

/-- If the promise is kept, the area was not cut short, and nothing was in its way. -/
theorem free_of_brkHolds (rounds : (p.add requested 0xfff).map (alignDown · PAGE_SIZE) = .ok n)
    (up : requested ≤ n ∨ n = 0) (holds : BrkHolds p image requested) : requested ≤ n ∧ best.stop ≤ n ∧
      ∀ v ∈ image.space.vmas, v ≠ best → v.stop ≤ best.start ∨ n ≤ v.start := by
  obtain ⟨mem, isHeap⟩ := lastHeap_mem last
  have nonempty := h.nonempty best mem
  obtain ⟨rest, ⟨-, none⟩ | ⟨best', last', removed⟩, made⟩ := brkImage_cases h past rounds
  · rw [last] at none
    cases none
  obtain rfl := Option.some.inj (last.symm.trans last')
  have area : heapArea image.space.vmas image.brkStart n = { best with stop := n } := by
    simp only [heapArea, last]
  rw [area] at made
  obtain ⟨n', image', run, outcome⟩ := holds
  rcases made with ⟨e, -, run'⟩ | ⟨l', added, run'⟩
  · -- the old heap area is gone, although the break has not moved
    cases run.symm.trans run'
    rcases outcome with grown | ⟨-, same⟩
    · exact absurd grown.grows (Nat.lt_irrefl _)
    · have gone := removeVma_outside h removed ⟨Nat.le_refl _, nonempty⟩
      have left : rest = image.space.vmas := congrArg (·.space.vmas) same
      exact absurd ⟨Nat.le_refl _, nonempty⟩ (gone best (left ▸ mem))
  · cases run.symm.trans run'
    have lost : ∀ a, best.start ≤ a → a < best.stop → n ≤ a → ∀ v ∈ l', ¬ (v.start ≤ a ∧ a < v.stop) := by
      intro a low high out
      exact addVma_outside added (by simp only; omega) (removeVma_outside h removed ⟨low, high⟩)
    have kept : requested ≤ n ∧ ∀ a, best.start ≤ a → a < best.stop → ∃ v ∈ l', v.start ≤ a ∧ a < v.stop := by
      rcases outcome with grown | ⟨same, unchanged⟩
      · refine ⟨grown.reaches, fun a low high => ?_⟩
        obtain ⟨w, hw, -, inside⟩ := grown.kept best mem isHeap a low high
        exact ⟨w, hw, inside⟩
      · -- only an area of no length could have been put back
        have zero : n = 0 := by omega
        have there : l' = image.space.vmas := congrArg (·.space.vmas) unchanged
        exact absurd ⟨Nat.le_refl _, nonempty⟩
          (lost best.start (Nat.le_refl _) nonempty (by omega) best (there ▸ mem))
    have longer : best.stop ≤ n := by
      by_contra short
      obtain ⟨v, hv, inside⟩ := kept.2 (max n best.start) (Nat.le_max_right _ _) (by omega)
      exact lost _ (Nat.le_max_right _ _) (by omega) (Nat.le_max_left _ _) v hv inside
    have members := fun v => mem_of_removeVma (w := v) h removed
    obtain ⟨-, before, after, split, rfl⟩ := removeVma_eq_some removed
    have laid : Laid (before ++ after) :=
      h.sublist (split ▸ List.Sublist.append_left (List.sublist_cons_self best after) before)
    obtain ⟨-, apart, -⟩ := laid.addVma (by simp only; omega) added
    exact ⟨kept.1, longer, fun v hv other => apart v ((members v).mpr ⟨hv, other⟩)⟩

end Extend

/-- Without a heap area and with a break that wraps, the call changes the list unless it is refused. -/
theorem brkHolds_wraps_iff (h : Laid image.space.vmas) (past : image.brkCurrent < requested)
    (none : lastHeap image.space.vmas = none)
    (wraps : (p.add requested 0xfff).map (alignDown · PAGE_SIZE) = .ok 0) :
    BrkHolds p image requested ↔
      ∃ v ∈ image.space.vmas, v.start < image.brkStart ∧ image.brkStart < v.stop := by
  have area : heapArea image.space.vmas image.brkStart 0 = ⟨image.brkStart, 0, .rw, .heap⟩ := by
    simp only [heapArea, none]
  have refusal := addVma_empty_error_iff ⟨image.brkStart, 0, .rw, .heap⟩ h (Nat.zero_le _)
  rw [← refusal]
  obtain ⟨rest, ⟨rfl, -⟩ | ⟨best, last, -⟩, made⟩ := brkImage_cases h past wraps
  · rw [area] at made
    rcases made with ⟨e, refused, run⟩ | ⟨l', added, run⟩
    · exact ⟨fun _ => ⟨e, refused⟩, fun _ => ⟨_, _, run, .inr ⟨rfl, rfl⟩⟩⟩
    · simp only [added, reduceCtorEq, exists_false, iff_false]
      rintro ⟨n, image', run', outcome⟩
      cases run.symm.trans run'
      rcases outcome with grown | ⟨-, unchanged⟩
      · have := grown.reaches
        omega
      · obtain ⟨u, hu, heap, -⟩ := addVma_area h added
        have there : l' = image.space.vmas := congrArg (·.space.vmas) unchanged
        exact lastHeap_none h none u (there ▸ hu) heap
  · rw [none] at last
    cases last

/-- When `brk` keeps its promise. -/
def BrkFits (p : Profile) (image : Image) (requested : Nat) : Prop :=
  requested ≤ image.brkCurrent ∨
  (requested + 0xfff < 2 ^ 64 ∧ ∀ best, lastHeap image.space.vmas = some best →
    best.stop ≤ roundUp requested ∧
      ∀ v ∈ image.space.vmas, v ≠ best → v.stop ≤ best.start ∨ roundUp requested ≤ v.start) ∨
  (p = .release ∧ lastHeap image.space.vmas = none ∧
    ∃ v ∈ image.space.vmas, v.start < image.brkStart ∧ image.brkStart < v.stop)

/-- `brk` moves the break or changes nothing, exactly if the request does not wrap and the last heap
area has the way to its new end free. -/
theorem brk_grows_or_keeps_iff (h : Laid image.space.vmas) (word : requested < 2 ^ 64) :
    BrkHolds p image requested ↔ BrkFits p image requested := by
  by_cases past : image.brkCurrent < requested
  swap
  · have low : requested ≤ image.brkCurrent := by omega
    refine ⟨fun _ => .inl low, fun _ => ⟨image.brkCurrent, image, ?_, .inr ⟨rfl, rfl⟩⟩⟩
    rw [brkImage, if_pos (.inr low)]
  by_cases room : requested + 0xfff < 2 ^ 64
  · cases last : lastHeap image.space.vmas with
    | none =>
      refine ⟨fun _ => .inr (.inl ⟨room, ?_⟩), fun _ => brkHolds_first h past room last⟩
      rw [last]
      nofun
    | some best =>
      constructor
      · intro holds
        obtain ⟨-, longer, free⟩ := free_of_brkHolds h past last (brk_rounds p room)
          (.inl (le_roundUp requested)) holds
        refine .inr (.inl ⟨room, fun best' last' => ?_⟩)
        obtain rfl := Option.some.inj (last.symm.trans last')
        exact ⟨longer, free⟩
      · rintro (low | ⟨-, free⟩ | ⟨-, none, -⟩)
        · omega
        · exact brkHolds_extend h past last room (free best last).1 (free best last).2
        · rw [last] at none
          cases none
  · cases p with
    | dev =>
      constructor
      · rintro ⟨n, image', run, -⟩
        rw [brkImage, if_neg (by omega), Profile.add, if_neg room] at run
        cases run
      · rintro (low | ⟨small, -⟩ | ⟨other, -⟩)
        · omega
        · omega
        · cases other
    | release =>
      have wraps := brk_wraps word (by omega)
      cases last : lastHeap image.space.vmas with
      | none =>
        rw [brkHolds_wraps_iff h past last wraps]
        constructor
        · exact fun across => .inr (.inr ⟨rfl, last, across⟩)
        · rintro (low | ⟨small, -⟩ | ⟨-, -, across⟩)
          · omega
          · omega
          · exact across
      | some best =>
        constructor
        · intro holds
          have := (free_of_brkHolds h past last wraps (.inr rfl) holds).1
          omega
        · rintro (low | ⟨small, -⟩ | ⟨-, none, -⟩)
          · omega
          · omega
          · rw [last] at none
            cases none

/-- The first heap area. -/
theorem brk_grows_first : BrkHolds .dev Kernel.bareImage 0x400001 :=
  (brk_grows_or_keeps_iff Kernel.bareImage_laid (by decide)).mpr (.inr (.inl ⟨by decide, nofun⟩))

/-- A heap area with a mapping right above it. -/
def crampedImage : Image :=
  ⟨⟨0x1000, [⟨0x400000, 0x401000, .rw, .heap⟩, ⟨0x401000, 0x402000, .rw, .anonymous⟩], 1, 0⟩,
    none, 0, 0x400000, 0x401000⟩

/-- The call reports the old break, and the heap area is gone. -/
theorem brk_drops_heap : ¬ BrkHolds .dev crampedImage 0x401001 ∧
    brkImage .dev crampedImage 0x401001 = .ok (0x401000, { crampedImage with
      space := { crampedImage.space with vmas := [⟨0x401000, 0x402000, .rw, .anonymous⟩] } }) := by
  have run : brkImage .dev crampedImage 0x401001 = .ok (0x401000, { crampedImage with
      space := { crampedImage.space with vmas := [⟨0x401000, 0x402000, .rw, .anonymous⟩] } }) := by
    rfl
  refine ⟨?_, run⟩
  rintro ⟨n, image', run', outcome⟩
  cases run.symm.trans run'
  rcases outcome with grown | ⟨-, same⟩
  · exact absurd grown.grows (Nat.lt_irrefl _)
  · have shorter := congrArg (·.space.vmas.length) same
    simp [crampedImage] at shorter

end Ferrum
