import Ferrum.Vma.Canonical
import Mathlib

/-!
# The search for a free place

`find_free_area` walks the areas with one cursor. Below the cursor no place is large enough, so the
first gap that is large enough is the lowest one. `mmap` then rounds once more, after an addition.
-/
namespace Ferrum
namespace Vmas

variable {p : Profile} {l l' : List VMA} {v w vma : VMA} {a c cursor size len start stop : Nat}
  {flags : VMAFlags} {kind : VMAKind}

/-- The addresses of the zone at which `size` bytes lie free. -/
def places (l : List VMA) (size : Nat) : Set Nat :=
  {a | MMAP_ZONE_START ≤ a ∧ a + size ≤ MMAP_ZONE_END ∧ ∀ v ∈ l, ¬ (v.start < a + size ∧ a < v.stop)}

/-- The scan finds the lowest place that is not below the cursor, or there is none. -/
theorem freeAreaFrom_least (h : Laid l) (pos : 0 < size) (low : MMAP_ZONE_START ≤ cursor) :
    (∃ c, freeAreaFrom size l cursor = some c ∧ IsLeast {a ∈ places l size | cursor ≤ a} c) ∨
      freeAreaFrom size l cursor = none ∧ {a ∈ places l size | cursor ≤ a} = ∅ := by
  fun_induction freeAreaFrom size l cursor with
  | case1 cursor fits =>
    refine .inl ⟨cursor, rfl, ⟨⟨low, by omega, by simp⟩, Nat.le_refl _⟩, fun a ha => ha.2⟩
  | case2 cursor full =>
    refine .inr ⟨rfl, Set.eq_empty_of_forall_notMem fun a ha => ?_⟩
    have := ha.1.2.1
    have := ha.2
    omega
  | case3 v rest cursor past fits =>
    have order := (List.pairwise_cons.mp h.sorted).1
    have nonempty := h.nonempty v List.mem_cons_self
    refine .inl ⟨cursor, rfl, ⟨⟨low, by omega, fun w hw => ?_⟩, Nat.le_refl _⟩, fun a ha => ha.2⟩
    grind
  | case4 v rest cursor past full =>
    refine .inr ⟨rfl, Set.eq_empty_of_forall_notMem fun a ha => ?_⟩
    have := ha.1.2.1
    have := ha.2
    omega
  | case5 v rest cursor inside before ih =>
    have same : {a ∈ places (v :: rest) size | cursor ≤ a} = {a ∈ places rest size | cursor ≤ a} := by
      grind [places]
    rw [same]
    exact ih (h.sublist (List.sublist_cons_self v rest)) low
  | case6 v rest cursor inside reaches fits =>
    have order := (List.pairwise_cons.mp h.sorted).1
    have nonempty := h.nonempty v List.mem_cons_self
    refine .inl ⟨cursor, rfl, ⟨⟨low, by omega, fun w hw => ?_⟩, Nat.le_refl _⟩, fun a ha => ha.2⟩
    grind
  | case7 v rest cursor inside reaches full ih =>
    have same : {a ∈ places (v :: rest) size | cursor ≤ a} =
        {a ∈ places rest size | max cursor v.stop ≤ a} := by
      grind [places]
    rw [same]
    exact ih (h.sublist (List.sublist_cons_self v rest)) (low.trans (Nat.le_max_left _ _))

theorem findFreeArea_least (h : Laid l) (pos : 0 < size) :
    (∃ c, findFreeArea l size = some c ∧ IsLeast (places l size) c) ∨
      findFreeArea l size = none ∧ places l size = ∅ := by
  have whole : {a ∈ places l size | MMAP_ZONE_START ≤ a} = places l size := by grind [places]
  have least := freeAreaFrom_least h pos (Nat.le_refl MMAP_ZONE_START)
  rwa [whole] at least

/-! ## From the place to the area -/

/-- Rounding up aborts, gives the next page boundary, or wraps to zero. -/
theorem alignUp_cases (p : Profile) (word : len < 2 ^ 64) :
    (p = .dev ∧ 2 ^ 64 ≤ len + PAGE_SIZE ∧ alignUp p len PAGE_SIZE = .error .overflow) ∨
    ((p = .dev → len + PAGE_SIZE < 2 ^ 64) ∧ len + (PAGE_SIZE - 1) < 2 ^ 64 ∧
      alignUp p len PAGE_SIZE = .ok (roundUp len)) ∨
    (p = .release ∧ 2 ^ 64 ≤ len + (PAGE_SIZE - 1) ∧ alignUp p len PAGE_SIZE = .ok 0) := by
  cases p with
  | dev =>
    by_cases fits : len + PAGE_SIZE < 2 ^ 64
    · exact .inr (.inl ⟨fun _ => fits, by omega, alignUp_ok _ fits⟩)
    · exact .inl ⟨rfl, by omega, alignUp_dev_error (by omega)⟩
  | release =>
    rw [alignUp_release]
    by_cases fits : len + (PAGE_SIZE - 1) < 2 ^ 64
    · refine .inr (.inl ⟨nofun, fits, ?_⟩)
      rw [Nat.mod_eq_of_lt fits, roundUp]
    · refine .inr (.inr ⟨rfl, by omega, ?_⟩)
      simp only [PAGE_SIZE] at fits ⊢
      rw [show (len + (4096 - 1)) % 2 ^ 64 / 4096 * 4096 = 0 by omega]

theorem mmap_found (rounds : alignUp p len PAGE_SIZE = .ok (roundUp len))
    (found : findFreeArea l (roundUp len) = some a) (fits : a + roundUp len ≤ MMAP_ZONE_END) :
    mmap p l 0 len flags kind =
      .ok ((addVma l ⟨a, roundUp (a + len), flags, kind⟩).map fun vmas => (a, vmas)) := by
  have size_le := le_roundUp len
  have top : a + len + PAGE_SIZE < 2 ^ 64 := by
    simp only [MMAP_ZONE_END, PAGE_SIZE] at *
    omega
  simp only [mmap, place, rounds, ok_bind, if_true, pure_eq_ok, found,
    p.add_ok (show a + len < 2 ^ 64 by omega), alignUp_ok p top]

/-- The search finds the lowest free place if there is one. On areas of whole pages `mmap` then
succeeds. -/
theorem first_fit (h : Laid l) :
    (∀ size, 0 < size → (∀ a, findFreeArea l size = some a ↔ IsLeast (places l size) a) ∧
      (findFreeArea l size = none ↔ places l size = ∅)) ∧
    (Wf l → ∀ p len size a flags kind, len < 2 ^ 64 → alignUp p len PAGE_SIZE = .ok size → 0 < size →
      findFreeArea l size = some a → ∃ l', mmap p l 0 len flags kind = .ok (.ok (a, l'))) := by
  constructor
  · intro size pos
    rcases findFreeArea_least h pos with ⟨c, found, least⟩ | ⟨none, empty⟩
    · rw [found]
      refine ⟨fun a => ?_, ?_⟩
      · rw [Option.some_inj]
        exact ⟨fun same => same ▸ least, fun least' => least.unique least'⟩
      · simpa using least.nonempty.ne_empty
    · rw [none, empty]
      refine ⟨fun a => ?_, by simp⟩
      simp [IsLeast]
  · intro wf p len size a flags kind word rounds pos found
    rcases alignUp_cases p word with ⟨-, -, stops⟩ | ⟨-, -, rounds'⟩ | ⟨-, -, rounds'⟩
    · rw [rounds] at stops
      cases stops
    · obtain rfl := Except.ok.inj (rounds.symm.trans rounds')
      obtain ⟨aligned, -, fits⟩ := freeAreaFrom_spec wf pos (by decide) (Nat.le_refl _) found
      have free : a ∈ places l (roundUp len) := by
        rcases findFreeArea_least h pos with ⟨c, found', least⟩ | ⟨none, -⟩
        · obtain rfl := Option.some.inj (found.symm.trans found')
          exact least.1
        · rw [found] at none
          cases none
      have apart : ∀ v ∈ l, v.stop ≤ a ∨ a + roundUp len ≤ v.start := by grind [places]
      rw [mmap_found rounds found fits, roundUp_add aligned]
      have added : ∃ l', addVma l ⟨a, a + roundUp len, flags, kind⟩ = .ok l' :=
        addVma_ok apart h (Nat.lt_add_of_pos_right pos)
      obtain ⟨l', added⟩ := added
      exact ⟨l', by rw [added]; rfl⟩
    · obtain rfl := Except.ok.inj (rounds.symm.trans rounds')
      cases pos

/-- The page behind the only area. -/
theorem first_fit_behind_one :
    IsLeast (places [⟨MMAP_ZONE_START, MMAP_ZONE_START + 0x1000, .rw, .anonymous⟩] 0x1000)
      (MMAP_ZONE_START + 0x1000) ∧
    ∃ l', mmap .dev [⟨MMAP_ZONE_START, MMAP_ZONE_START + 0x1000, .rw, .anonymous⟩] 0 1 .rw .anonymous =
      .ok (.ok (MMAP_ZONE_START + 0x1000, l')) := by
  have wf : Wf [⟨MMAP_ZONE_START, MMAP_ZONE_START + 0x1000, .rw, .anonymous⟩] :=
    ⟨by simpa using ⟨by decide, by decide, by decide, by decide⟩, by simp⟩
  have fit := first_fit wf.laid
  exact ⟨((fit.1 0x1000 (by decide)).1 _).mp (by decide),
    fit.2 wf .dev 1 0x1000 _ .rw .anonymous (by decide) (by decide) (by decide) (by decide)⟩

/-- Between areas that are not whole pages, the place found is not a page boundary. The area is
rounded up past it, and overlaps the next one. -/
theorem mmap_overlap_after_search :
    Laid [⟨MMAP_ZONE_START, MMAP_ZONE_START + 1, .rw, .anonymous⟩,
      ⟨MMAP_ZONE_START + 0x1001, MMAP_ZONE_START + 0x2000, .rw, .anonymous⟩] ∧
    findFreeArea [⟨MMAP_ZONE_START, MMAP_ZONE_START + 1, .rw, .anonymous⟩,
      ⟨MMAP_ZONE_START + 0x1001, MMAP_ZONE_START + 0x2000, .rw, .anonymous⟩] 0x1000 =
      some (MMAP_ZONE_START + 1) ∧
    mmap .dev [⟨MMAP_ZONE_START, MMAP_ZONE_START + 1, .rw, .anonymous⟩,
      ⟨MMAP_ZONE_START + 0x1001, MMAP_ZONE_START + 0x2000, .rw, .anonymous⟩] 0 0x1000 .rw .anonymous =
      .ok (.error "VMA overlap") :=
  ⟨⟨by simp, by simp⟩, by decide, by decide⟩

/-! ## The empty area -/

/-- An area that does not end after its start is refused only inside another one. -/
theorem addVma_empty_error_iff (vma : VMA) (h : Laid l) (empty : vma.stop ≤ vma.start) :
    (∃ e, addVma l vma = .error e) ↔ ∃ v ∈ l, v.start < vma.start ∧ vma.start < v.stop := by
  constructor
  · rintro ⟨e, refused⟩
    by_contra outside
    have left : (below l vma.start).getLast?.any (fun prev => decide (vma.start < prev.stop)) = false := by
      cases last : (below l vma.start).getLast? with
      | none => rfl
      | some prev =>
        have := mem_below (List.mem_of_getLast? last)
        grind
    have right : (above l vma.start).head?.any (fun next => decide (next.start < vma.stop)) = false := by
      cases first : (above l vma.start).head? with
      | none => rfl
      | some next =>
        have := mem_above h (List.mem_of_head? first)
        grind
    simp [addVma, left, right] at refused
  · rintro ⟨v, hv, low, high⟩
    cases added : addVma l vma with
    | error e => exact ⟨e, rfl⟩
    | ok l' =>
      obtain ⟨left, -, -⟩ := addVma_eq_ok added
      rw [← below_append_above l vma.start] at hv
      rcases List.mem_append.mp hv with under | upper
      · have := below_bounded h left under
        omega
      · have := (mem_above h upper).2
        omega

theorem findFreeArea_zero (l : List VMA) : findFreeArea l 0 = some MMAP_ZONE_START := by
  have first : ∀ cursor, freeAreaFrom 0 l cursor = some cursor := by
    induction l with
    | nil => simp [freeAreaFrom]
    | cons v l ih => grind [freeAreaFrom]
  exact first MMAP_ZONE_START

/-- A length that rounds to zero gets an empty area at the start of the zone. -/
theorem mmap_zero (word : len < 2 ^ 64) (rounds : alignUp p len PAGE_SIZE = .ok 0) :
    mmap p l 0 len flags kind = .ok ((addVma l ⟨MMAP_ZONE_START, MMAP_ZONE_START, flags, kind⟩).map
      fun vmas => (MMAP_ZONE_START, vmas)) := by
  have last : (p.add MMAP_ZONE_START len >>= fun past => alignUp p past PAGE_SIZE) =
      .ok MMAP_ZONE_START := by
    rcases alignUp_cases p word with ⟨-, -, stops⟩ | ⟨-, -, rounds'⟩ | ⟨rfl, wraps, -⟩
    · rw [rounds] at stops
      cases stops
    · have none : roundUp len = 0 := Except.ok.inj (rounds'.symm.trans rounds)
      obtain rfl : len = 0 := Nat.le_zero.mp (none ▸ le_roundUp len)
      cases p <;> decide
    · simp only [Profile.add, ok_bind, alignUp_release]
      simp only [PAGE_SIZE, MMAP_ZONE_START] at *
      rw [Except.ok.injEq]
      omega
  obtain ⟨past, adds, rounds'⟩ := bind_eq_ok.mp last
  simp only [mmap, place, rounds, ok_bind, if_true, pure_eq_ok, findFreeArea_zero, adds, rounds']

end Vmas
end Ferrum
