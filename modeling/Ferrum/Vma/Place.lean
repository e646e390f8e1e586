import Ferrum.Vma.Areas

/-!
# Where areas go

The addresses that `mmap`, `mmap_fixed`, `munmap` and `brk` compute, away from the top of the address
space, and what the changes they make to the list preserve.
-/
namespace Ferrum

/-- The next multiple of the page size. -/
def roundUp (a : Nat) : Nat := (a + (PAGE_SIZE - 1)) / PAGE_SIZE * PAGE_SIZE

theorem dvd_roundUp (a : Nat) : PAGE_SIZE ∣ roundUp a := Nat.dvd_mul_left _ _

theorem le_roundUp (a : Nat) : a ≤ roundUp a := by
  simp only [roundUp, PAGE_SIZE]
  omega

theorem roundUp_lt (a : Nat) : roundUp a < a + PAGE_SIZE := by
  simp only [roundUp, PAGE_SIZE]
  omega

theorem roundUp_of_dvd {a : Nat} (h : PAGE_SIZE ∣ a) : roundUp a = a := by
  obtain ⟨k, rfl⟩ := h
  simp only [roundUp, PAGE_SIZE]
  omega

theorem roundUp_add {a b : Nat} (h : PAGE_SIZE ∣ a) : roundUp (a + b) = a + roundUp b := by
  obtain ⟨k, rfl⟩ := h
  simp only [roundUp, PAGE_SIZE]
  omega

theorem roundUp_pos {a : Nat} (h : 0 < a) : 0 < roundUp a := by
  have := le_roundUp a
  omega

theorem alignUp_ok (p : Profile) {a : Nat} (h : a + PAGE_SIZE < 2 ^ 64) :
    alignUp p a PAGE_SIZE = .ok (roundUp a) := alignUp_page p h

theorem dvd_alignDown {a : Nat} (h : a < 2 ^ 64) : PAGE_SIZE ∣ alignDown a PAGE_SIZE := by
  rw [alignDown_page h]
  exact Nat.dvd_mul_left _ _

namespace Vmas

variable {p : Profile} {l l' : List VMA} {addr size start stop : Nat}

theorem range_ok (p : Profile) (low : addr + PAGE_SIZE < 2 ^ 64)
    (high : roundUp addr + size + PAGE_SIZE < 2 ^ 64) :
    range p addr size = .ok (roundUp addr, roundUp addr + roundUp size) := by
  rw [range, alignUp_ok p low, ok_bind, p.add_ok (by omega), ok_bind, alignUp_ok p high, ok_bind,
    roundUp_add (dvd_roundUp addr)]
  rfl

theorem freeAreaFrom_spec {cursor c : Nat} (h : Wf l) (pos : 0 < size)
    (aligned : PAGE_SIZE ∣ cursor) (low : MMAP_ZONE_START ≤ cursor)
    (found : freeAreaFrom size l cursor = some c) :
    PAGE_SIZE ∣ c ∧ MMAP_ZONE_START ≤ c ∧ c + size ≤ MMAP_ZONE_END := by
  induction l generalizing cursor with
  | nil =>
    obtain ⟨fits, same⟩ := Option.ite_none_right_eq_some.mp found
    cases same
    exact ⟨aligned, low, by omega⟩
  | cons v l ih =>
    have proper := h.proper v List.mem_cons_self
    have rest := h.sublist (List.sublist_cons_self v l)
    rw [freeAreaFrom] at found
    split at found
    · obtain ⟨fits, same⟩ := Option.ite_none_right_eq_some.mp found
      cases same
      exact ⟨aligned, low, by omega⟩
    split at found
    · exact ih rest aligned low found
    split at found
    · cases found
      exact ⟨aligned, low, by omega⟩
    · refine ih rest ?_ (Nat.le_trans low (Nat.le_max_left _ _)) found
      rw [Nat.max_def]
      split
      · exact proper.stop
      · exact aligned

/-- Without an address, `mmap` chooses a place in the zone or finds none. -/
theorem place_ok (p : Profile) (h : Wf l) (pos : 0 < size) (fits : size + PAGE_SIZE < 2 ^ 64) :
    place p l 0 size = .ok none ∨ ∃ start, place p l 0 size = .ok (some (start, start + roundUp size)) ∧
      PAGE_SIZE ∣ start ∧ MMAP_ZONE_START ≤ start ∧ start + roundUp size ≤ MMAP_ZONE_END := by
  have size_le := le_roundUp size
  simp only [place, alignUp_ok p fits, ok_bind, if_true, pure_eq_ok]
  cases found : findFreeArea l (roundUp size) with
  | none => exact .inl rfl
  | some start =>
    obtain ⟨aligned, low, high⟩ := freeAreaFrom_spec h (roundUp_pos pos) (by decide) (Nat.le_refl _)
      found
    have top : start + size + PAGE_SIZE < 2 ^ 64 := by
      simp only [MMAP_ZONE_END, PAGE_SIZE] at *
      omega
    refine .inr ⟨start, ?_, aligned, low, high⟩
    simp only [p.add_ok (show start + size < 2 ^ 64 by omega), ok_bind, alignUp_ok p top,
      roundUp_add aligned]

/-! ## What the changes preserve -/

/-- The part of an area from `s` to `e`. -/
def piece (v : VMA) (s e : Nat) : VMA := { v with start := s, stop := e }

theorem proper_piece {v : VMA} (h : v.Proper) {s e : Nat} (hs : PAGE_SIZE ∣ s) (he : PAGE_SIZE ∣ e)
    (order : s < e) (inside : e ≤ v.stop) : (piece v s e).Proper :=
  ⟨order, hs, he, by have := h.bound; simp only [piece]; omega⟩

/-- `I` is a property of lists that survives removal and the insertion of areas that satisfy `Q`. -/
structure Closed (Q : VMA → Prop) (I : List VMA → Prop) : Prop where
  remove : ∀ {l s v l'}, I l → removeVma l s = some (v, l') → I l'
  add : ∀ {l v l'}, I l → Q v → addVma l v = .ok l' → I l'

theorem closed_wf : Closed VMA.Proper Wf :=
  ⟨fun h found => wf_of_removeVma h found, fun h new ok => (addVma_spec h new ok).1⟩

theorem mem_of_remove {s : Nat} {v w : VMA} (found : removeVma l s = some (v, l')) (hw : w ∈ l') :
    w ∈ l := by
  obtain ⟨-, before, after, rfl, rfl⟩ := removeVma_eq_some found
  simp only [List.mem_append, List.mem_cons] at hw ⊢
  tauto

theorem closed_forall {P : VMA → Prop}
    (joins : ∀ u w, P u → P w → u.stop = w.start → u.mergeableWith w → P (join u w)) :
    Closed P fun l => ∀ v ∈ l, P v :=
  ⟨fun h found w hw => h w (mem_of_remove found hw), fun h new ok => forall_addVma ok new h joins⟩

theorem Closed.and {Q : VMA → Prop} {I J : List VMA → Prop} (h : Closed Q I) (g : Closed Q J) :
    Closed Q fun l => I l ∧ J l :=
  ⟨fun both found => ⟨h.remove both.1 found, g.remove both.2 found⟩,
    fun both new ok => ⟨h.add both.1 new ok, g.add both.2 new ok⟩⟩

theorem Closed.mono {Q Q' : VMA → Prop} {I : List VMA → Prop} (h : Closed Q I)
    (imp : ∀ v, Q' v → Q v) : Closed Q' I :=
  ⟨h.remove, fun hl new ok => h.add hl (imp _ new) ok⟩

/-- The area of the new list that holds the one added; joined on the right only with one of its kind. -/
theorem addVma_area (h : Laid l) {vma : VMA} (ok : addVma l vma = .ok l') :
    ∃ u ∈ l', u.kind = vma.kind ∧ (u.stop = vma.stop ∨ ∃ v ∈ l, v.kind = vma.kind ∧ v.start = vma.stop) ∧
      (u.start = vma.start ∨ u.start < vma.start ∧ ∃ v ∈ l, v.kind = vma.kind) := by
  obtain ⟨-, -, inserted⟩ := addVma_eq_ok ok
  have low : ∀ v ∈ below l vma.start, v ∈ l ∧ v.start < v.stop := fun v hv =>
    ⟨(mem_below hv).1, h.nonempty v (mem_below hv).1⟩
  have high : ∀ v ∈ above l vma.start, v ∈ l := fun v hv => (mem_above h hv).1
  generalize below l vma.start = before at *
  generalize above l vma.start = after at *
  cases inserted with
  | plain => exact ⟨vma, by simp, rfl, .inl rfl, .inl rfl⟩
  | @left init prev last touch agree =>
    have := low prev (by simp [last])
    refine ⟨join prev vma, by simp, rfl, .inl rfl, .inr ?_⟩
    grind [join, mergeableWith_iff]
  | @right next rest first touch agree =>
    have := high next (by simp [first])
    refine ⟨join vma next, by simp, ?_⟩
    grind [join, mergeableWith_iff]
  | @both init prev next rest last touch agree first touch' agree' =>
    have := low prev (by simp [last])
    have := high next (by simp [first])
    refine ⟨join (join prev vma) next, by simp, ?_⟩
    grind [join, mergeableWith_iff]

theorem lastHeap_mem {v : VMA} (found : lastHeap l = some v) : v ∈ l ∧ v.kind = .heap := by
  have loop : ∀ (l : List VMA) (best : Option VMA),
      (∀ w ∈ best, w.kind = .heap) → ∀ v, l.foldl (fun best v =>
        if v.kind = .heap ∧ (best.map VMA.stop).getD 0 < v.stop then some v else best) best = some v →
      (best = some v ∨ v ∈ l) ∧ v.kind = .heap := by
    intro l
    induction l with
    | nil => exact fun best heap v found => ⟨.inl found, heap v found⟩
    | cons w l ih =>
      intro best heap v found
      rw [List.foldl_cons] at found
      split at found
      · rename_i better
        obtain ⟨mem, isHeap⟩ := ih (some w) (by simpa using better.1) v found
        refine ⟨.inr ?_, isHeap⟩
        rcases mem with same | later
        · cases same
          exact List.mem_cons_self
        · exact List.mem_cons_of_mem _ later
      · obtain ⟨mem, isHeap⟩ := ih best heap v found
        exact ⟨mem.imp_right (List.mem_cons_of_mem _), isHeap⟩
  obtain ⟨mem, heap⟩ := loop l none (by simp) v found
  exact ⟨mem.resolve_left (by simp), heap⟩

theorem lastHeap_max (h : Laid l) {v : VMA} (hv : v ∈ l) (heap : v.kind = .heap) :
    ∃ best, lastHeap l = some best ∧ v.stop ≤ best.stop := by
  have loop : ∀ (l : List VMA) (best : Option VMA), ∀ best', l.foldl (fun best v =>
        if v.kind = .heap ∧ (best.map VMA.stop).getD 0 < v.stop then some v else best) best = best' →
      (best.map VMA.stop).getD 0 ≤ (best'.map VMA.stop).getD 0 ∧
        ∀ w ∈ l, w.kind = .heap → w.stop ≤ (best'.map VMA.stop).getD 0 := by
    intro l
    induction l with
    | nil => simp
    | cons u l ih =>
      intro best best' run
      rw [List.foldl_cons] at run
      obtain ⟨older, rest⟩ := ih _ best' run
      by_cases better : u.kind = .heap ∧ (best.map VMA.stop).getD 0 < u.stop
      · rw [if_pos better] at older
        grind
      · rw [if_neg better] at older
        grind
  have nonempty := h.nonempty v hv
  have bound := (loop l none _ rfl).2 v hv heap
  change v.stop ≤ ((lastHeap l).map VMA.stop).getD 0 at bound
  cases last : lastHeap l with
  | none => simp [last] at bound; omega
  | some best => exact ⟨best, rfl, by simpa [last] using bound⟩

/-- The area that `extend_heap` inserts. -/
def heapArea (l : List VMA) (brkStart newEnd : Nat) : VMA :=
  match lastHeap l with
  | some best => { best with stop := newEnd }
  | none => ⟨brkStart, newEnd, .rw, .heap⟩

theorem removeVma_lastHeap (h : Laid l) {best : VMA} (last : lastHeap l = some best) :
    ∃ rest, removeVma l best.start = some (best, rest) := by
  obtain ⟨mem, -⟩ := lastHeap_mem last
  cases removed : removeVma l best.start with
  | none => exact absurd rfl ((removeVma_eq_none h).mp removed best mem)
  | some out =>
    obtain ⟨existing, rest⟩ := out
    obtain ⟨start, before, after, split, -⟩ := removeVma_eq_some removed
    have there : existing ∈ l := by rw [split]; simp
    have := h.nonempty best mem
    have := h.nonempty existing there
    have same : existing = best := h.eq_of_mem (a := best.start) there mem (by omega) (by omega)
    exact ⟨rest, by rw [same]⟩

/-- `extend_heap` takes the last heap area out, if there is one, and inserts one up to the new end. It
does not stop on a list in order. -/
theorem extendHeap_cases (h : Laid l) (brkStart newEnd : Nat) :
    ∃ rest, ((rest = l ∧ lastHeap l = none) ∨
        ∃ best, lastHeap l = some best ∧ removeVma l best.start = some (best, rest)) ∧
      ((∃ e, addVma rest (heapArea l brkStart newEnd) = .error e ∧
          extendHeap l brkStart newEnd = .ok (.error e, rest)) ∨
        ∃ l', addVma rest (heapArea l brkStart newEnd) = .ok l' ∧
          extendHeap l brkStart newEnd = .ok (.ok (), l')) := by
  unfold extendHeap heapArea
  cases last : lastHeap l with
  | none =>
    refine ⟨l, .inl ⟨rfl, rfl⟩, ?_⟩
    cases added : addVma l ⟨brkStart, newEnd, .rw, .heap⟩ with
    | error e => exact .inl ⟨e, rfl, by simp only [added]⟩
    | ok l' => exact .inr ⟨l', rfl, by simp only [added]⟩
  | some best =>
    obtain ⟨rest, removed⟩ := removeVma_lastHeap h last
    refine ⟨rest, .inr ⟨best, rfl, removed⟩, ?_⟩
    cases added : addVma rest { best with stop := newEnd } with
    | error e => exact .inl ⟨e, rfl, by simp only [removed, added]⟩
    | ok l' => exact .inr ⟨l', rfl, by simp only [removed, added]⟩

end Vmas
end Ferrum
