import Ferrum.Paging.Range

/-!
# `unmap` and `translate`

The two walks differ in one point: `translate` stops at a large page, `unmap` takes the large page for a
table. So they agree at an address exactly if no large page covers it, up to one more case: the table
that `unmap` changes may itself be mapped.
-/
namespace Ferrum

/-- A large page covers the address. -/
def InLarge (m : Memory) (root v : Nat) : Prop :=
  ∃ pd, Machine.walkTables m (dirPath (pageOf v)) root = .ok (some pd) ∧
    Entry.Large (readEntry m pd (pageOf v / 2 ^ 9 % 512))

/-- The table with the entry of a page is itself mapped somewhere. -/
def TableMapped (m : Memory) (root v : Nat) : Prop :=
  ∃ pt w p, Machine.walkTables m (pagePath (pageOf v)) root = .ok (some pt) ∧
    Machine.translate m root w = .ok (some p) ∧ p / PAGE_SIZE * PAGE_SIZE = pt

/-- The address is not in the page of `v`, nor in its large page if that is what covers it. -/
def Outside (m : Memory) (root v w : Nat) : Prop :=
  pageOf w ≠ pageOf v ∧ (InLarge m root v → pageOf w / 512 ≠ pageOf v / 512)

/-- `unmap` returns what `translate` finds, removes it, and changes nothing else: no other translation
and no byte of a frame that is mapped. -/
def UnmapAgrees {A : Type} (st : Machine A) (root v : Nat) : Prop :=
  ∃ r st', st.unmap root v = .ok (r, st') ∧ Machine.translate st.mem root v = .ok r ∧
    (r ≠ none → Machine.translate st'.mem root v = .ok none) ∧
    (∀ w, Outside st.mem root v w →
      Machine.translate st'.mem root w = Machine.translate st.mem root w) ∧
    ∀ w p, Machine.translate st.mem root w = .ok (some p) →
      Set.EqOn st'.mem st.mem (pageBytes (p / PAGE_SIZE * PAGE_SIZE))

/-! ## Bytes of entries -/

theorem physAddr_aligned (e : Nat) : PAGE_SIZE ∣ Entry.physAddr e := by
  refine Nat.dvd_of_mod_eq_zero ?_
  have low : Entry.physAddr e % 2 ^ 12 = e % 2 ^ 12 &&& PHYS_ADDR_MASK % 2 ^ 12 := Nat.and_mod_two_pow ..
  rw [show PHYS_ADDR_MASK % 2 ^ 12 = 0 by decide, Nat.and_zero] at low
  exact low

theorem byte_cleared {m : Memory} {t i : Nat} (present : Entry.isPresent (readEntry m t i) = true) :
    m.write64 (t + 8 * i) 0 (t + 8 * i) ≠ m (t + 8 * i) := by
  have cleared : m.write64 (t + 8 * i) 0 (t + 8 * i) = 0 := by
    simp [Memory.write64, Memory.writeLe]
  rw [cleared]
  intro zero
  have even : readEntry m t i % 2 = 0 := by
    rw [readEntry, Memory.read64, Memory.readLe, ← zero]
    simp only [UInt8.toNat_zero]
    omega
  rw [Entry.isPresent_eq, Nat.testBit_zero, even] at present
  cases present

theorem mem_pageBytes {t i : Nat} (hi : i < 512) : t + 8 * i ∈ pageBytes t := by
  simp only [pageBytes, Set.mem_Ico, PAGE_SIZE]
  omega

theorem frame_eq {s t x : Nat} (hs : PAGE_SIZE ∣ s) (ht : PAGE_SIZE ∣ t) (h : x ∈ pageBytes s)
    (h' : x ∈ pageBytes t) : s = t := by
  by_contra ne
  exact Space.pageBytes_disjoint hs ht ne h h'

namespace Mixed

variable {A : Type} {st : Machine A} {m : Memory} {root v : Nat} {tab : Tables}

/-! ## The two walks -/

theorem walk_dir (mixed : Mixed m root tab) (q : Nat) :
    Machine.walkTables m (dirPath q) root = .ok (tab (dirPath q)) :=
  mixed.walkTables_ok (dirPath q) mixed.root (Nat.le_refl 2) (dirPath_slots q)

theorem inLarge_iff (mixed : Mixed m root tab) : InLarge m root v ↔
    ∃ pd, tab (dirPath (pageOf v)) = some pd ∧
      Entry.Large (readEntry m pd (pageOf v / 2 ^ 9 % 512)) := by
  simp only [InLarge, mixed.walk_dir, Except.ok.injEq]

theorem walk_page (mixed : Mixed m root tab) (q : Nat) :
    Machine.walkTables m (pagePath q) root = .ok ((tab (dirPath q)).bind fun pd =>
      if Entry.isPresent (readEntry m pd (q / 2 ^ 9 % 512)) then
        some (Entry.physAddr (readEntry m pd (q / 2 ^ 9 % 512))) else none) := by
  rw [pagePath_eq, walkTables_append, mixed.walk_dir, ok_bind]
  cases hpd : tab (dirPath q) with
  | none => rfl
  | some pd =>
    simp only [Machine.walkTables, physToVirt_ok (mixed.frame hpd).window, ok_bind, Option.bind_some]
    split
    · rfl
    · rfl

/-- Away from large pages the walk of `unmap` ends at the table of the page. -/
theorem walk_table (mixed : Mixed m root tab) (small : ¬ InLarge m root v) :
    Machine.walkTables m (pagePath (pageOf v)) root = .ok (tab (pagePath (pageOf v))) := by
  rw [mixed.walk_page]
  cases hpt : tab (pagePath (pageOf v)) with
  | some pt =>
    obtain ⟨-, pd, hpd⟩ := mixed.parent (pagePath_eq (pageOf v) ▸ hpt)
    have leads := mixed.link hpd (pagePath_eq (pageOf v) ▸ hpt)
    rw [hpd, Option.bind_some, if_pos leads.present, leads.addr]
  | none =>
    cases hpd : tab (dirPath (pageOf v)) with
    | none => rfl
    | some pd =>
      rcases mixed.vacant hpd (by simp [dirPath]) (index_lt (pageOf v / 2 ^ 9))
          (pagePath_eq (pageOf v) ▸ hpt) with absent | ⟨-, large⟩
      · rw [Option.bind_some, absent]
        rfl
      · exact absurd (mixed.inLarge_iff.mpr ⟨pd, hpd, large⟩) small

theorem unmap_eq (st : Machine A) (root v : Nat) : st.unmap root v = (do
    match ← Machine.walkTables st.mem (pagePath (pageOf v)) root with
    | none => return (none, st)
    | some pt => do
      let _ ← physToVirt pt
      if Entry.isPresent (readEntry st.mem pt (pageOf v % 512)) then
        return (some (Entry.physAddr (readEntry st.mem pt (pageOf v % 512))),
          st.writeEntry pt (pageOf v % 512) 0)
      else return (none, st)) := by
  rw [Machine.unmap, fromU64_eq]
  rfl

theorem physAddr_page (e : Nat) : Entry.physAddr e / PAGE_SIZE * PAGE_SIZE = Entry.physAddr e :=
  Nat.div_mul_cancel (physAddr_aligned e)

/-! ## Large pages -/

theorem not_agrees_of_large (mixed : Mixed st.mem root tab) (covered : InLarge st.mem root v) :
    ¬ UnmapAgrees st root v := by
  obtain ⟨pd, hpd, large⟩ := mixed.inLarge_iff.mp covered
  rintro ⟨r, st', run, found, -, -, kept⟩
  -- the address and the beginning of its large page are both mapped
  have here : lookup st.mem tab (pageOf v) ≠ none := by
    rw [lookup, hpd, Option.bind_some, if_pos large]
    exact Option.some_ne_none _
  have first : Machine.translate st.mem root (pageOf v / 512 * 512 * PAGE_SIZE) =
      .ok (some (Entry.physAddr (readEntry st.mem pd (pageOf v / 2 ^ 9 % 512)))) := by
    have bound := Space.pageOf_lt v
    have page : pageOf (pageOf v / 512 * 512 * PAGE_SIZE) = pageOf v / 512 * 512 := by
      simp only [pageOf, PAGE_SIZE] at *
      omega
    have dir : dirPath (pageOf v / 512 * 512) = dirPath (pageOf v) := by
      simp only [dirPath, List.cons.injEq, and_true]
      omega
    have index : pageOf v / 512 * 512 / 2 ^ 9 % 512 = pageOf v / 2 ^ 9 % 512 := by omega
    rw [mixed.translate_eq, page, lookup, dir, index, hpd, Option.bind_some, if_pos large,
      Nat.mul_mod_left, Nat.mul_mod_left]
    rfl
  have same := kept _ _ first
  rw [physAddr_page] at same
  simp only [unmap_eq, mixed.walk_page, hpd, Option.bind_some, if_pos large.1, ok_bind] at run
  obtain ⟨_, -, run⟩ := bind_eq_ok.mp run
  split at run
  next present =>
    cases run
    exact byte_cleared present (same (mem_pageBytes (index_lt _)))
  next =>
    cases run
    rw [mixed.translate_eq, Except.ok.injEq, Option.map_eq_none_iff] at found
    exact here found

/-! ## Small pages -/

theorem agrees_of_none (nothing : Machine.translate st.mem root v = .ok none)
    (idle : st.unmap root v = .ok (none, st)) : UnmapAgrees st root v :=
  ⟨none, st, idle, nothing, fun some => absurd rfl some, fun _ _ => rfl, fun _ _ _ _ _ => rfl⟩

theorem agrees_iff_of_present (mixed : Mixed st.mem root tab) (small : ¬ InLarge st.mem root v)
    (aligned : PAGE_SIZE ∣ v) {pt : Nat} (hpt : tab (pagePath (pageOf v)) = some pt)
    (present : Entry.isPresent (readEntry st.mem pt (pageOf v % 512)) = true) :
    UnmapAgrees st root v ↔ ¬ TableMapped st.mem root v := by
  have walk := mixed.walk_table small
  rw [hpt] at walk
  have found : Machine.translate st.mem root v =
      .ok (some (Entry.physAddr (readEntry st.mem pt (pageOf v % 512)))) := by
    rw [mixed.translate_eq, mixed.lookup_of_table hpt, Nat.mod_eq_zero_of_dvd aligned, Entry.frameOf,
      if_pos present]
    rfl
  have run : st.unmap root v = .ok (some (Entry.physAddr (readEntry st.mem pt (pageOf v % 512))),
      st.writeEntry pt (pageOf v % 512) 0) := by
    simp only [unmap_eq, walk, ok_bind, physToVirt_ok (mixed.frame hpt).window, if_pos present,
      pure_eq_ok]
  constructor
  · rintro ⟨r, st', run', -, -, -, kept⟩ ⟨pt', w, p, walk', mapped, same⟩
    rw [run] at run'
    cases run'
    rw [walk] at walk'
    cases walk'
    have unchanged := kept w p mapped
    rw [same] at unchanged
    exact byte_cleared present (unchanged (mem_pageBytes (index_lt _)))
  · intro unmapped
    have after (w : Nat) : Machine.translate (st.writeEntry pt (pageOf v % 512) 0).mem root w =
        .ok ((Function.update (lookup st.mem tab) (pageOf v) none (pageOf w)).map
          fun frame => frame + w % PAGE_SIZE) := by
      refine ((mixed.set_leaf hpt (show 0 < 2 ^ 64 by decide)).translate_eq w).trans ?_
      exact congrArg (fun r => Except.ok (Option.map (fun frame => frame + w % PAGE_SIZE) r))
        (mixed.lookup_set_leaf hpt (by decide) (Space.pageOf_lt v) (Space.pageOf_lt w))
    refine ⟨_, _, run, found, fun _ => ?_, fun w outside => ?_, fun w p mapped x inside => ?_⟩
    · rw [after, Function.update_self]
      rfl
    · rw [after, Function.update_of_ne outside.1, mixed.translate_eq]
    · refine Space.write64_outside_page (index_lt _) fun own => unmapped ⟨pt, w, p, walk, mapped, ?_⟩
      exact frame_eq (Nat.dvd_mul_left _ _) (mixed.frame hpt).aligned inside own

theorem agrees_iff_of_small (mixed : Mixed st.mem root tab) (small : ¬ InLarge st.mem root v)
    (aligned : PAGE_SIZE ∣ v) : UnmapAgrees st root v ↔
      (Machine.translate st.mem root v = .ok none ∨ ¬ TableMapped st.mem root v) := by
  have walk := mixed.walk_table small
  cases hpt : tab (pagePath (pageOf v)) with
  | none =>
    have nothing : lookup st.mem tab (pageOf v) = none := by
      cases hpd : tab (dirPath (pageOf v)) with
      | none => exact lookup_of_none hpd
      | some pd =>
        rw [lookup_of_vacant hpd hpt, if_neg fun large => small (mixed.inLarge_iff.mpr ⟨pd, hpd, large⟩)]
    have found : Machine.translate st.mem root v = .ok none := by
      rw [mixed.translate_eq, nothing]
      rfl
    refine iff_of_true (agrees_of_none found ?_) (.inl found)
    simp only [unmap_eq, walk, hpt, ok_bind, pure_eq_ok]
  | some pt =>
    rw [hpt] at walk
    by_cases present : Entry.isPresent (readEntry st.mem pt (pageOf v % 512)) = true
    · rw [mixed.agrees_iff_of_present small aligned hpt present]
      refine ⟨.inr, fun either => either.resolve_left fun nothing => ?_⟩
      rw [mixed.translate_eq, mixed.lookup_of_table hpt, Entry.frameOf, if_pos present] at nothing
      cases nothing
    · have found : Machine.translate st.mem root v = .ok none := by
        rw [mixed.translate_eq, mixed.lookup_of_table hpt, Entry.frameOf, if_neg present]
        rfl
      refine iff_of_true (agrees_of_none found ?_) (.inl found)
      simp only [unmap_eq, walk, ok_bind, physToVirt_ok (mixed.frame hpt).window, if_neg present,
        pure_eq_ok]

end Mixed

/-! ## Runs -/

/-- The calls that build a page table; addresses are words. -/
inductive MapCall where
  | map (virt : Nat) (phys : UInt64) (flags : PageFlags)
  | mapRange (virtStart : Nat) (physStart : UInt64) (size : Nat) (flags : PageFlags)

namespace MapCall

variable {A : Type} {pages : PageAllocator A} {J : Machine A → Set Nat → Prop} {root : Nat}

def step (p : Profile) (pages : PageAllocator A) (root : Nat) (st : Machine A) :
    MapCall → Except Stop (Option Unit × Machine A)
  | .map virt phys flags => st.map pages root virt phys.toNat flags
  | .mapRange virtStart physStart size flags =>
    st.mapRange p pages root virtStart physStart.toNat size flags

/-- The machine after some calls, each of which may have failed. -/
def run (p : Profile) (pages : PageAllocator A) (root : Nat) :
    List MapCall → Machine A → Except Stop (Machine A)
  | [], st => .ok st
  | call :: calls, st => do
    let (_, st) ← call.step p pages root st
    run p pages root calls st

end MapCall

namespace Space

variable {A : Type} {pages : PageAllocator A} {J : Machine A → Set Nat → Prop} {root : Nat}
  {c : Space A}

theorem mapLoop_sound (p : Profile) (law : Lawful pages J) {flags : PageFlags} {fuel v phys stop : Nat}
    (sound : c.Sound J root) (word : phys < 2 ^ 64) {r : Option Unit} {st' : Machine A}
    (run : Machine.mapLoop p pages root stop flags fuel v phys c.st = .ok (r, st')) :
    ∃ c' : Space A, c'.st = st' ∧ c'.Sound J root := by
  induction fuel generalizing c v phys with
  | zero => cases run
  | succ fuel ih =>
    rw [Machine.mapLoop] at run
    split at run
    next =>
      obtain ⟨size, r', c₁, one, sound₁⟩ := mapOne_sound law sound word v stop flags
      rw [one, ok_bind] at run
      cases r' with
      | none =>
        cases run
        exact ⟨c₁, rfl, sound₁⟩
      | some =>
        obtain ⟨_, -, run⟩ := bind_eq_ok.mp run
        obtain ⟨phys', sum, run⟩ := bind_eq_ok.mp run
        exact ih sound₁ (Profile.add_lt sum) run
    next =>
      cases run
      exact ⟨c, rfl, sound⟩

theorem step_sound (p : Profile) (law : Lawful pages J) (sound : c.Sound J root) {call : MapCall}
    {r : Option Unit} {st' : Machine A} (run : call.step p pages root c.st = .ok (r, st')) :
    ∃ c' : Space A, c'.st = st' ∧ c'.Sound J root := by
  cases call with
  | map virt phys flags =>
    obtain ⟨r', c', run', sound', -⟩ := map4kb_maps law sound phys.toNat_lt virt flags
    have same : (r, st') = (r', c'.st) := Except.ok.inj (run.symm.trans run')
    cases same
    exact ⟨c', rfl, sound'⟩
  | mapRange virtStart physStart size flags =>
    rw [MapCall.step, Machine.mapRange] at run
    split at run
    next =>
      cases run
      exact ⟨c, rfl, sound⟩
    next =>
      split at run
      next =>
        cases run
        exact ⟨c, rfl, sound⟩
      next => exact mapLoop_sound p law sound physStart.toNat_lt run

theorem run_sound (p : Profile) (law : Lawful pages J) (sound : c.Sound J root) {calls : List MapCall}
    {st' : Machine A} (run : MapCall.run p pages root calls c.st = .ok st') :
    ∃ c' : Space A, c'.st = st' ∧ c'.Sound J root := by
  induction calls generalizing c with
  | nil =>
    cases run
    exact ⟨c, rfl, sound⟩
  | cons call calls ih =>
    obtain ⟨⟨r, st₁⟩, step, run⟩ := bind_eq_ok.mp run
    obtain ⟨c₁, rfl, sound₁⟩ := step_sound p law sound step
    exact ih sound₁ run

end Space

/-- On a table that `map` and `map_range` have built, `unmap` and `translate` agree at an address exactly
if no large page covers it and, if it is mapped, the table with its entry is not. -/
theorem unmap_agrees_iff {A : Type} {pages : PageAllocator A} {J : Machine A → Set Nat → Prop}
    (p : Profile) (law : Lawful pages J) {root : Nat} {st : Machine A} {used : Set Nat}
    (table : TableFrame root) (empty : ∀ i < 512, readEntry st.mem root i = 0) (held : J st used)
    (mem : root ∈ used) (aligned : ∀ {f}, f ∈ used → PAGE_SIZE ∣ f) (calls : List MapCall)
    {st' : Machine A} (run : MapCall.run p pages root calls st = .ok st') (v : Nat)
    (page : PAGE_SIZE ∣ v) : UnmapAgrees st' root v ↔
      ¬ InLarge st'.mem root v ∧
        (Machine.translate st'.mem root v = .ok none ∨ ¬ TableMapped st'.mem root v) := by
  obtain ⟨c, rfl, sound⟩ := Space.run_sound p law (Space.sound_new table empty held mem aligned) run
  by_cases large : InLarge c.st.mem root v
  · exact iff_of_false (sound.mixed.not_agrees_of_large large) fun both => both.1 large
  · rw [sound.mixed.agrees_iff_of_small large page]
    exact ⟨fun either => ⟨large, either⟩, fun both => both.2⟩

/-- A large page. With zeros in its frame, `unmap` finds nothing to unmap. With a word there that looks
like an entry, it returns the address in that word, clears the word, and the page stays mapped. -/
theorem unmap_misses_large :
    (∃ st, MapCall.run .dev bump 0x1000 [.mapRange 0x200000 0x600000 0x200000 .none] blank = .ok st ∧
      Machine.translate st.mem 0x1000 0x200000 = .ok (some 0x600000) ∧
      ∃ st', st.unmap 0x1000 0x200000 = .ok (none, st')) ∧
    ∃ st, MapCall.run .dev bump 0x1000 [.mapRange 0x200000 0x600000 0x200000 .none]
        { blank with mem := blank.mem.write64 0x600000 0x7001 } = .ok st ∧
      Machine.translate st.mem 0x1000 0x200000 = .ok (some 0x600000) ∧
      ∃ st', st.unmap 0x1000 0x200000 = .ok (some 0x7000, st') ∧
        Machine.translate st'.mem 0x1000 0x200000 = .ok (some 0x600000) ∧
        st.mem 0x600000 = 1 ∧ st'.mem 0x600000 = 0 :=
  ⟨⟨_, rfl, by decide +kernel, _, rfl⟩,
    ⟨_, rfl, by decide +kernel, _, rfl, by decide +kernel, by decide +kernel, by decide +kernel⟩⟩

/-- A small page, in a table that is not mapped. -/
theorem unmap_small_page : ∃ st, MapCall.run .dev bump 0x1000 [.map 0x5000 0x600000 .none] blank = .ok st ∧
    Machine.translate st.mem 0x1000 0x5000 = .ok (some 0x600000) ∧ UnmapAgrees st 0x1000 0x5000 := by
  have evaluates : ∃ st, blank.map4kb bump 0x1000 0x5000 0x600000 .none = .ok (some (), st) ∧
      Machine.walkTables st.mem (dirPath (pageOf 0x5000)) 0x1000 = .ok (some 0x3000) ∧
      ¬ Entry.Large (readEntry st.mem 0x3000 (pageOf 0x5000 / 2 ^ 9 % 512)) ∧
      Machine.walkTables st.mem (pagePath (pageOf 0x5000)) 0x1000 = .ok (some 0x4000) ∧
      Machine.translate st.mem 0x1000 0x5000 = .ok (some 0x600000) :=
    ⟨_, rfl, by decide +kernel, by decide +kernel, by decide +kernel, by decide +kernel⟩
  obtain ⟨st, maps, dir, small, walk, found⟩ := evaluates
  have run : MapCall.run .dev bump 0x1000 [.map 0x5000 0x600000 .none] blank = .ok st := by
    rw [MapCall.run, MapCall.step]
    exact bind_eq_ok.mpr ⟨_, maps, rfl⟩
  obtain ⟨c', rfl, sound', one⟩ :=
    Space.map4kb_consecutive bump_lawful blank_sound (by decide) maps
  refine ⟨c'.st, run, found, ?_⟩
  have zero (i : Nat) (_ : i < 512) : readEntry blank.mem 0x1000 i = 0 :=
    Memory.readLe_zero fun _ _ _ => rfl
  refine (unmap_agrees_iff .dev bump_lawful ⟨by decide, by decide, by decide⟩ zero
    blank_sound.held rfl blank_sound.aligned _ run 0x5000 (by decide)).mpr ⟨?_, .inr ?_⟩
  · rintro ⟨pd, walks, large⟩
    rw [dir] at walks
    cases walks
    exact small large
  -- the only frame that is mapped is not the one of the table
  · rintro ⟨pt, w, p, walks, mapped, same⟩
    rw [walk] at walks
    cases walks
    have nothing : Space.maps ⟨blank, Space.newTables 0x1000, {0x1000}⟩ (pageOf w) = none :=
      Mixed.lookup_of_none (by simp [Space.newTables, dirPath])
    rw [sound'.translate, one _ (Space.pageOf_lt w), nothing] at mapped
    split at mapped
    next here =>
      have page : pageOf w - pageOf 0x5000 = 0 := by omega
      rw [page] at mapped
      cases mapped
      have := Nat.mod_lt w (show 0 < PAGE_SIZE by decide)
      simp only [PAGE_SIZE] at *
      omega
    next => cases mapped

end Ferrum
