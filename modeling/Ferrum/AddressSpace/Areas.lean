import Ferrum.Elf.Model
import Ferrum.Vma.Place

/-!
# Areas of an address space

What the operations of an address space do to the list of areas, whatever they do to the machine, and
the rule for the loops over the pages of a range.
-/
namespace Ferrum

/-! ## Loops over pages -/

section Loop

variable {σ : Type} {p : Profile} {body : σ → Nat → Except Stop σ} {start stop : Nat} {s : σ}

private theorem pageLoop_spec (I : Nat → σ → Prop) (aligned : PAGE_SIZE ∣ stop) (top : stop < 2 ^ 64)
    (step : ∀ addr s, PAGE_SIZE ∣ addr → start ≤ addr → addr < stop → I addr s →
      ∃ s', body s addr = .ok s' ∧ I (addr + PAGE_SIZE) s') {fuel addr : Nat} :
    ∀ s, PAGE_SIZE ∣ addr → start ≤ addr → addr ≤ stop → stop - addr < fuel * PAGE_SIZE → I addr s →
      ∃ s', pageLoop p body fuel s addr stop = .ok s' ∧ I stop s' := by
  induction fuel generalizing addr with
  | zero =>
    intro s _ _ _ enough
    omega
  | succ fuel ih =>
    intro s page low high enough inv
    unfold pageLoop
    split
    · rename_i more
      obtain ⟨s', ran, inv'⟩ := step addr s page low more inv
      have next : addr + PAGE_SIZE ≤ stop := by
        obtain ⟨a, rfl⟩ := page
        obtain ⟨b, rfl⟩ := aligned
        simp only [PAGE_SIZE] at *
        omega
      rw [ran, ok_bind, p.add_ok (by omega), ok_bind]
      refine ih s' (Nat.dvd_add page (Nat.dvd_refl _)) (by omega) next ?_ inv'
      rw [Nat.succ_mul] at enough
      simp only [PAGE_SIZE] at *
      omega
    · obtain rfl : addr = stop := by omega
      exact ⟨s, rfl, inv⟩

theorem forPages_spec (I : Nat → σ → Prop) (first : PAGE_SIZE ∣ start) (last : PAGE_SIZE ∣ stop)
    (order : start ≤ stop) (top : stop < 2 ^ 64)
    (step : ∀ addr s, PAGE_SIZE ∣ addr → start ≤ addr → addr < stop → I addr s →
      ∃ s', body s addr = .ok s' ∧ I (addr + PAGE_SIZE) s') (base : I start s) :
    ∃ s', forPages p body s start stop = .ok s' ∧ I stop s' := by
  refine pageLoop_spec I last top step s first (Nat.le_refl _) order ?_ base
  simp only [PAGE_SIZE]
  omega

private theorem pageLoop_run (I : Nat → σ → Prop) (last : PAGE_SIZE ∣ stop) (top : stop < 2 ^ 64)
    (step : ∀ addr s s', PAGE_SIZE ∣ addr → start ≤ addr → addr < stop → I addr s →
      body s addr = .ok s' → I (addr + PAGE_SIZE) s') {fuel addr : Nat} :
    ∀ s s', PAGE_SIZE ∣ addr → start ≤ addr → addr ≤ stop →
      pageLoop p body fuel s addr stop = .ok s' → I addr s → I stop s' := by
  induction fuel generalizing addr with
  | zero =>
    intro s s' _ _ high run inv
    unfold pageLoop at run
    split at run
    · cases run
    · cases run
      exact (show addr = stop by omega) ▸ inv
  | succ fuel ih =>
    intro s s' page low high run inv
    unfold pageLoop at run
    split at run
    · rename_i more
      obtain ⟨t, ran, run⟩ := bind_eq_ok.mp run
      have next : addr + PAGE_SIZE ≤ stop := by
        obtain ⟨a, rfl⟩ := page
        obtain ⟨b, rfl⟩ := last
        simp only [PAGE_SIZE] at *
        omega
      rw [p.add_ok (by omega), ok_bind] at run
      exact ih t s' (Nat.dvd_add page (Nat.dvd_refl _)) (by omega) next run
        (step addr s t page low more inv ran)
    · cases run
      exact (show addr = stop by omega) ▸ inv

/-- A loop over whole pages that comes to an end has visited each of them once, in order. -/
theorem forPages_run (I : Nat → σ → Prop) (first : PAGE_SIZE ∣ start) (last : PAGE_SIZE ∣ stop)
    (order : start ≤ stop) (top : stop < 2 ^ 64)
    (step : ∀ addr s s', PAGE_SIZE ∣ addr → start ≤ addr → addr < stop → I addr s →
      body s addr = .ok s' → I (addr + PAGE_SIZE) s') {s' : σ}
    (run : forPages p body s start stop = .ok s') (base : I start s) : I stop s' :=
  pageLoop_run I last top step s s' first (Nat.le_refl _) order run base

end Loop

/-! ## Lists of areas -/

open Vmas (Closed Wf)

variable {p : Profile} {Q : VMA → Prop} {I : List VMA → Prop} {space space' : AddressSpace}
  {st st' : Machine Pool} {addr size : Nat} {flags : VMAFlags} {kind : VMAKind}

namespace AddressSpace

theorem mmap_areas (closed : Closed Q I) {r : Except String Nat}
    (run : space.mmap p addr size flags kind = .ok (r, space')) (h : I space.vmas)
    (new : ∀ start stop, Vmas.place p space.vmas addr size = .ok (some (start, stop)) →
      Q ⟨start, stop, flags, kind⟩) : ∃ vmas, space' = { space with vmas } ∧ I vmas := by
  unfold mmap Vmas.mmap at run
  obtain ⟨made, placed, run⟩ := bind_eq_ok.mp run
  obtain ⟨place, chosen, placed⟩ := bind_eq_ok.mp placed
  cases place with
  | none =>
    cases placed
    cases run
    exact ⟨_, rfl, h⟩
  | some range =>
    obtain ⟨start, stop⟩ := range
    cases added : Vmas.addVma space.vmas ⟨start, stop, flags, kind⟩ with
    | error e =>
      simp only [added] at placed
      cases placed
      cases run
      exact ⟨_, rfl, h⟩
    | ok vmas =>
      simp only [added] at placed
      cases placed
      cases run
      exact ⟨_, rfl, closed.add h (new start stop chosen) added⟩

theorem munmap_areas (closed : Closed Q I) {r : Except String Unit}
    (run : space.munmap p st addr size = .ok (r, space', st')) (h : I space.vmas) :
    ∃ vmas, space' = { space with vmas } ∧ I vmas := by
  unfold munmap at run
  obtain ⟨⟨start, stop⟩, -, run⟩ := bind_eq_ok.mp run
  cases removed : Vmas.removeVma space.vmas start with
  | none =>
    simp only [removed] at run
    cases run
    exact ⟨_, rfl, h⟩
  | some out =>
    obtain ⟨v, vmas⟩ := out
    simp only [removed] at run
    obtain ⟨st'', -, run⟩ := bind_eq_ok.mp run
    cases run
    exact ⟨_, rfl, closed.remove h removed⟩

theorem mem_overlapping {l : List VMA} {v : VMA} {s e : Nat} (wf : Wf l)
    (hv : v ∈ overlapping l s e) : v ∈ l ∧ v.start < e ∧ s < v.stop := by
  unfold overlapping at hv
  have mem := (List.takeWhile_prefix _).subset hv
  refine ⟨?_, by simpa using List.mem_takeWhile_imp hv, ?_⟩
  · rcases List.mem_append.mp mem with prev | later
    · obtain ⟨last, -⟩ := Option.filter_eq_some_iff.mp (Option.mem_toList.mp prev)
      exact (Vmas.mem_below (List.mem_of_getLast? last)).1
    · exact (Vmas.mem_above wf later).1
  · rcases List.mem_append.mp mem with prev | later
    · obtain ⟨-, meets⟩ := Option.filter_eq_some_iff.mp (Option.mem_toList.mp prev)
      simpa using meets
    · have := (Vmas.mem_above wf later).2
      have := (wf.proper v (Vmas.mem_above wf later).1).nonempty
      omega

/-- The pieces of an area that a hole leaves are acceptable. -/
def Leaves (Q : VMA → Prop) (s e : Nat) (v : VMA) : Prop :=
  (v.start < s → Q (Vmas.piece v v.start s)) ∧ (e < v.stop → Q (Vmas.piece v e v.stop))

theorem keepPiece_areas (closed : Closed Q I) {l l' : List VMA} {v : VMA} {s e : Nat} (h : I l)
    (new : s < e → Q (Vmas.piece v s e)) (ok : keepPiece l v s e = .ok l') : I l' := by
  unfold keepPiece at ok
  split at ok
  · exact closed.add h (new (by assumption)) ok
  · cases ok
    exact h

theorem punchOne_areas (closed : Closed Q I) {l l' : List VMA} {v : VMA} {s e : Nat}
    {r : Except String Unit} (h : I l) (leaves : Leaves Q s e v)
    (run : space.punchOne p s e l st v = .ok (r, l', st')) : I l' := by
  unfold punchOne at run
  simp only at run
  obtain ⟨st'', -, run⟩ := bind_eq_ok.mp run
  have removed : I (((Vmas.removeVma l v.start).map Prod.snd).getD l) := by
    cases found : Vmas.removeVma l v.start with
    | none => exact h
    | some out => exact closed.remove h found
  generalize ((Vmas.removeVma l v.start).map Prod.snd).getD l = m at run removed
  split at run
  · cases run
    exact removed
  · rename_i left leftOk
    have hleft := keepPiece_areas closed removed leaves.1 leftOk
    split at run
    · cases run
      exact hleft
    · rename_i right rightOk
      cases run
      exact keepPiece_areas closed hleft leaves.2 rightOk

theorem punchAll_areas (closed : Closed Q I) {areas l l' : List VMA} {s e : Nat}
    {r : Except String Unit} (h : I l) (leaves : ∀ v ∈ areas, Leaves Q s e v)
    (run : space.punchAll p s e areas l st = .ok (r, l', st')) : I l' := by
  induction areas generalizing l st with
  | nil =>
    cases run
    exact h
  | cons v areas ih =>
    rw [punchAll] at run
    obtain ⟨⟨r', m, st''⟩, one, run⟩ := bind_eq_ok.mp run
    have hm := punchOne_areas closed h (leaves v List.mem_cons_self) one
    cases r' with
    | error message =>
      cases run
      exact hm
    | ok => exact ih hm (fun w hw => leaves w (List.mem_cons_of_mem _ hw)) run

theorem mmapFixed_areas (closed : Closed Q I) {r : Except String Nat}
    (run : space.mmapFixed p st addr size flags kind = .ok (r, space', st')) (h : I space.vmas)
    (new : ∀ start stop, Vmas.range p addr size = .ok (start, stop) → Q ⟨start, stop, flags, kind⟩ ∧
      ∀ v ∈ overlapping space.vmas start stop, Leaves Q start stop v) :
    ∃ vmas, space' = { space with vmas } ∧ I vmas := by
  unfold mmapFixed at run
  obtain ⟨⟨start, stop⟩, ranged, run⟩ := bind_eq_ok.mp run
  obtain ⟨hnew, leaves⟩ := new start stop ranged
  obtain ⟨⟨r', vmas, st''⟩, punched, run⟩ := bind_eq_ok.mp run
  have rest := punchAll_areas closed h leaves punched
  cases r' with
  | error message =>
    cases run
    exact ⟨_, rfl, rest⟩
  | ok =>
    simp only at run
    split at run
    · cases run
      exact ⟨_, rfl, rest⟩
    · rename_i added
      cases run
      exact ⟨_, rfl, closed.add rest hnew added⟩

end AddressSpace

namespace Elf

variable {data : List UInt8}

/-- Where the first page of a segment starts and where its last page ends. -/
def Phdr.first (ph : Phdr) : Nat := ph.vaddr / PAGE_SIZE * PAGE_SIZE

def Phdr.past (ph : Phdr) : Nat := roundUp (ph.vaddr + ph.memsz)

theorem Phdr.memsz_pos {ph : Phdr} (load : ph.isLoad) : 0 < ph.memsz := by
  simp only [Phdr.isLoad, Bool.and_eq_true, decide_eq_true_eq] at load
  exact Nat.pos_of_ne_zero load.2

/-- A segment that stays away from the top lies in the pages from its first to its last. -/
theorem Phdr.bounds {ph : Phdr} (load : ph.isLoad) :
    PAGE_SIZE ∣ ph.first ∧ PAGE_SIZE ∣ ph.past ∧ ph.first ≤ ph.vaddr ∧
      ph.vaddr + ph.memsz ≤ ph.past ∧ ph.first < ph.past ∧
      ph.past < ph.vaddr + ph.memsz + PAGE_SIZE := by
  have nonzero := Phdr.memsz_pos load
  have down : ph.first ≤ ph.vaddr := Nat.div_mul_le_self _ _
  have up : ph.vaddr + ph.memsz ≤ ph.past := le_roundUp _
  exact ⟨Nat.dvd_mul_left _ _, dvd_roundUp _, down, up, by omega, roundUp_lt _⟩

theorem segmentRange_eq {ph : Phdr} (load : ph.isLoad)
    (fits : ph.vaddr + ph.memsz + PAGE_SIZE < 2 ^ 64) :
    segmentRange p ph = .ok (ph.first, ph.past, ph.past - ph.first) := by
  obtain ⟨-, -, -, -, order, top⟩ := Phdr.bounds load
  have down : alignDown ph.vaddr PAGE_SIZE = ph.first := alignDown_page (by omega)
  have up : alignUp p (ph.vaddr + ph.memsz) PAGE_SIZE = .ok ph.past := alignUp_ok p fits
  simp only [segmentRange, p.add_ok (show ph.vaddr + ph.memsz < 2 ^ 64 by omega), ok_bind, up, down,
    p.sub_ok order.le (by omega), pure_eq_ok]

theorem loadSegment_areas (closed : Closed Q I) {ph : Phdr} {r : Except String Unit}
    (run : loadSegment p space st data ph = .ok (r, space', st')) (h : I space.vmas)
    (new : ∀ start stop bytes, segmentRange p ph = .ok (start, stop, bytes) →
      Q ⟨start, stop, pflagsToVma ph.flags, .anonymous⟩) :
    ∃ vmas, space' = { space with vmas } ∧ I vmas := by
  unfold loadSegment at run
  split at run
  · cases run
    exact ⟨_, rfl, h⟩
  split at run
  · cases run
    exact ⟨_, rfl, h⟩
  obtain ⟨⟨start, stop, bytes⟩, ranged, run⟩ := bind_eq_ok.mp run
  simp only at run
  split at run
  · cases run
    exact ⟨_, rfl, h⟩
  · rename_i added
    obtain ⟨⟨r', st''⟩, -, run⟩ := bind_eq_ok.mp run
    cases run
    exact ⟨_, rfl, closed.add h (new start stop bytes ranged) added⟩

theorem loadHeaders_areas (closed : Closed Q I) {n i : Nat} {r : Except String Unit}
    (run : loadHeaders p data n i space st = .ok (r, space', st')) (h : I space.vmas)
    (new : ∀ j, j < i + n → (header data j).isLoad → ∀ start stop bytes,
      segmentRange p (header data j) = .ok (start, stop, bytes) →
      Q ⟨start, stop, pflagsToVma (header data j).flags, .anonymous⟩) :
    ∃ vmas, space' = { space with vmas } ∧ I vmas := by
  induction n generalizing i space st with
  | zero =>
    cases run
    exact ⟨_, rfl, h⟩
  | succ n ih =>
    rw [loadHeaders] at run
    split at run
    · exact ih run h fun j hj => new j (by omega)
    · rename_i load
      obtain ⟨⟨r', space'', st''⟩, one, run⟩ := bind_eq_ok.mp run
      obtain ⟨vmas, rfl, hv⟩ := loadSegment_areas closed one h (new i (by omega) (by simpa using load))
      cases r' with
      | error message =>
        cases run
        exact ⟨_, rfl, hv⟩
      | ok =>
        have rest : loadHeaders p data n (i + 1) { space with vmas } st'' = .ok (r, space', st') := run
        obtain ⟨vmas', rfl, hv'⟩ := ih rest hv fun j hj => new j (by omega)
        exact ⟨vmas', rfl, hv'⟩

theorem load_areas (closed : Closed Q I) {r : Except String Nat}
    (run : load p space st data = .ok (r, space', st')) (h : I space.vmas)
    (new : ∀ j, j < ePhnum data → (header data j).isLoad → ∀ start stop bytes,
      segmentRange p (header data j) = .ok (start, stop, bytes) →
      Q ⟨start, stop, pflagsToVma (header data j).flags, .anonymous⟩) :
    ∃ vmas, space' = { space with vmas } ∧ I vmas := by
  unfold load at run
  split at run
  · cases run
    exact ⟨_, rfl, h⟩
  · obtain ⟨⟨r', space'', st''⟩, loaded, run⟩ := bind_eq_ok.mp run
    cases run
    exact loadHeaders_areas closed loaded h fun j hj => new j (by omega)

end Elf
end Ferrum
