import Ferrum.Paging.Mixed

/-!
# Mapping ranges

`map_range` maps a range of pages with large pages where the alignment and the length allow it, and with
small ones otherwise. What it does to the tables is said once for each of the two kinds of entry; the
translation of the whole range follows by induction over the loop, and it is the one that the range has
when each of its pages is mapped on its own.
-/
namespace Ferrum

namespace Machine

variable {A : Type}

def map2mb (pages : PageAllocator A) (st : Machine A) (pml4 virt phys : Nat) (flags : PageFlags) :
    Except Stop (Option Unit × Machine A) := do
  let parts := VirtAddrParts.fromU64 virt
  let (pd, st) ← ensurePath pages (tableFlagsFor flags) [parts.pml4, parts.pdpt] st pml4
  match pd with
  | none => return (none, st)
  | some pd => do
    let _ ← physToVirt pd
    return (some (), st.writeEntry pd parts.pd
      (Entry.newPage phys { flags with present := true, huge := true }))

/-- The condition under which the loop of `map_range` takes a large page. -/
def takesLarge (virt phys stop : Nat) : Prop :=
  virt % SIZE_2MB = 0 ∧ phys % SIZE_2MB = 0 ∧ SIZE_2MB ≤ stop - virt

instance (virt phys stop : Nat) : Decidable (takesLarge virt phys stop) :=
  inferInstanceAs (Decidable (_ ∧ _ ∧ _))

/-- One iteration of `map_range`: what is mapped, and how far the loop advances. -/
def mapOne (pages : PageAllocator A) (st : Machine A) (pml4 virt phys stop : Nat) (flags : PageFlags) :
    Except Stop (Nat × Option Unit × Machine A) :=
  if takesLarge virt phys stop then
    (fun r => (SIZE_2MB, r)) <$> st.map2mb pages pml4 virt phys flags
  else (fun r => (PAGE_SIZE, r)) <$> st.map4kb pages pml4 virt phys flags

/-- The loop of `map_range`; every iteration advances by a page at least. -/
def mapLoop (p : Profile) (pages : PageAllocator A) (pml4 stop : Nat) (flags : PageFlags) :
    Nat → Nat → Nat → Machine A → Except Stop (Option Unit × Machine A)
  | 0, _, _, _ => .error .diverges
  | fuel + 1, virt, phys, st =>
    if virt < stop then do
      let (size, r, st) ← st.mapOne pages pml4 virt phys stop flags
      match r with
      | none => return (none, st)
      | some () => do
        let virt ← p.add virt size
        let phys ← p.add phys size
        mapLoop p pages pml4 stop flags fuel virt phys st
    else return (some (), st)

def mapRange (p : Profile) (pages : PageAllocator A) (st : Machine A) (pml4 virtStart physStart size : Nat)
    (flags : PageFlags) : Except Stop (Option Unit × Machine A) :=
  if size = 0 then .ok (some (), st)
  -- `checked_add`
  else if 2 ^ 64 ≤ virtStart + size then .ok (none, st)
  else mapLoop p pages pml4 (virtStart + size) flags (size / PAGE_SIZE + 2) virtStart physStart st

/-- The same range, mapped by one `map` for each of its pages. -/
def mapEach (pages : PageAllocator A) (pml4 : Nat) (flags : PageFlags) :
    Nat → Nat → Nat → Machine A → Except Stop (Option Unit × Machine A)
  | 0, _, _, st => .ok (some (), st)
  | n + 1, virt, phys, st => do
    let (r, st) ← st.map pages pml4 virt phys flags
    match r with
    | none => return (none, st)
    | some () => mapEach pages pml4 flags n (virt + PAGE_SIZE) (phys + PAGE_SIZE) st

end Machine

/-! ## Words -/

namespace Entry

variable {p : Nat} {f : PageFlags}

theorem isPresent_or (present : f.present = true) : isPresent (newPage p f) = true := by
  rw [isPresent_eq, newPage, Nat.testBit_or, PageFlags.testBit_bits]
  simp [present]

theorem huge_or (huge : f.huge = true) : (flags (newPage p f)).huge = true := by
  change (newPage p f).testBit 7 = true
  rw [newPage, Nat.testBit_or, PageFlags.testBit_bits]
  simp [huge]

theorem newPage_lt_word (h : p < 2 ^ 64) : newPage p f < 2 ^ 64 := Nat.or_lt_two_pow h f.bits_lt

end Entry

namespace Space

variable {A : Type} {pages : PageAllocator A} {J : Machine A → Set Nat → Prop} {root : Nat}
  {c c' : Space A} {π : List Nat} {t i e : Nat} {x : Option Nat}

/-- The tables of a space are a tree, and the allocator leaves them alone. -/
structure Sound (J : Machine A → Set Nat → Prop) (root : Nat) (c : Space A) : Prop where
  mixed : Mixed c.st.mem root c.tab
  held : J c.st c.used
  tables : ∀ {π t}, c.tab π = some t → t ∈ c.used
  aligned : ∀ {f}, f ∈ c.used → PAGE_SIZE ∣ f

/-- What the space maps. -/
def maps (c : Space A) (q : Nat) : Option Nat := lookup c.st.mem c.tab q

theorem Sound.set (law : Lawful pages J) (sound : c.Sound J root) (h : c.tab π = some t) (hi : i < 512)
    (he : e < 2 ^ 64) (fits : Mixed.Fits π e x) (replaces : Mixed.Replaces c.st.mem c.tab (π ++ [i]) x)
    (known : ∀ d, x = some d → d ∈ c.used) :
    Sound J root ⟨c.st.writeEntry t i e, Function.update c.tab (π ++ [i]) x, c.used⟩ where
  mixed := sound.mixed.set h hi he fits replaces
  held := law.write sound.held fun _ hx =>
    write64_outside_page hi fun hp => hx (pageBytes_subset (sound.tables h) hp)
  tables {ρ s} hs := by
    rcases Tables.update_eq_some.mp hs with ⟨-, new⟩ | ⟨-, old⟩
    · exact known s new
    · exact sound.tables old
  aligned := sound.aligned

theorem Sound.congr {st' : Machine A} {used' : Set Nat} (sound : c.Sound J root)
    (same : Set.EqOn st'.mem c.st.mem (bytesOf c.used)) (held : J st' used')
    (more : c.used ⊆ used') (aligned : ∀ {f}, f ∈ used' → PAGE_SIZE ∣ f) :
    Sound J root ⟨st', c.tab, used'⟩ ∧ ∀ q, maps ⟨st', c.tab, used'⟩ q = c.maps q := by
  have tables (π : List Nat) (t : Nat) (h : c.tab π = some t) : Set.EqOn st'.mem c.st.mem (pageBytes t) :=
    same.mono (pageBytes_subset (sound.tables h))
  exact ⟨⟨sound.mixed.congr tables, held, fun h => more (sound.tables h), aligned⟩,
    Mixed.lookup_congr tables⟩

theorem Sound.zeroed {st' : Machine A} {d : Nat} (law : Lawful pages J) (sound : c.Sound J root)
    (same : Set.EqOn st'.mem c.st.mem (bytesOf c.used)) (frame : TableFrame d) (fresh : d ∉ c.used)
    (held : J st' (insert d c.used)) :
    Sound J root ⟨st'.zeroPage d, c.tab, insert d c.used⟩ ∧
      (∀ q, maps ⟨st'.zeroPage d, c.tab, insert d c.used⟩ q = c.maps q) ∧
      ∀ {π t j}, c.tab π = some t → j < 512 →
        readEntry (st'.zeroPage d).mem t j = readEntry c.st.mem t j := by
  have zeroed : Set.EqOn (st'.zeroPage d).mem c.st.mem (bytesOf c.used) := by
    rintro x ⟨g, hg, hx⟩
    have ne : g ≠ d := by
      rintro rfl
      exact fresh hg
    rw [zeroPage_outside (pageBytes_disjoint (sound.aligned hg) frame.aligned ne hx)]
    exact same ⟨g, hg, hx⟩
  have still : J (st'.zeroPage d) (insert d c.used) := law.write held fun x hx =>
    zeroPage_outside fun hp => hx (pageBytes_subset (Set.mem_insert d c.used) hp)
  obtain ⟨sound', sameMaps⟩ := sound.congr zeroed still (Set.subset_insert _ _) (by
    rintro g (rfl | hg)
    · exact frame.aligned
    · exact sound.aligned hg)
  exact ⟨sound', sameMaps, fun h hj =>
    readEntry_congr hj (zeroed.mono (pageBytes_subset (sound.tables h)))⟩

theorem leads_newPage {d : Nat} {f : PageFlags} (addr : PageAddr d) (present : f.present = true)
    (small : f.huge = false) : Entry.Leads (Entry.newPage d f) d :=
  ⟨by rw [Entry.isPresent_newPage addr, present], by rw [Entry.flags_newPage addr, small],
    Entry.physAddr_newPage addr⟩

theorem ensureTable_maps (law : Lawful pages J) (sound : c.Sound J root) (h : c.tab π = some t)
    (short : π.length < 3) (hi : i < 512) (flags : PageFlags) :
    ∃ r, ∃ c' : Space A, c.st.ensureTable pages t i (Machine.tableFlagsFor flags) = .ok (r, c'.st) ∧
      c'.Sound J root ∧ (∀ q, c'.maps q = c.maps q) ∧
      ∀ d, r = some d → c'.tab (π ++ [i]) = some d := by
  simp only [Machine.ensureTable]
  cases hd : c.tab (π ++ [i]) with
  | some d =>
    have leads := sound.mixed.link h hd
    have addr := (sound.mixed.frame hd).pageAddr
    simp only [leads.present, leads.small, leads.addr, if_true, Bool.false_eq_true, if_false]
    by_cases patch : ((Machine.tableFlagsFor flags).user &&
        !(Entry.flags (readEntry c.st.mem t i)).user) = true
    · have leads' : Entry.Leads (Entry.newPage d
          { Entry.flags (readEntry c.st.mem t i) with user := true }) d :=
        leads_newPage addr (by rw [← leads.present, ← Entry.flags_present]) leads.small
      have sound' := sound.set law h hi (Entry.newPage_lt addr) (x := some d) ⟨short, leads'⟩ (.inl hd)
        (by rintro _ ⟨⟩; exact sound.tables hd)
      refine ⟨some d, _, ?_, sound', fun q => ?_, ?_⟩
      · rw [if_pos patch, Entry.newTable_eq]
        simp only [leads.small]
      · exact sound.mixed.lookup_set_link h hi short (Entry.newPage_lt addr) leads' (.inl hd)
          fun nothing => by rw [hd] at nothing; cases nothing
      · rintro _ ⟨⟩
        exact Function.update_self ..
    · refine ⟨some d, c, by rw [if_neg patch], sound, fun _ => rfl, ?_⟩
      rintro _ ⟨⟩
      exact hd
  | none =>
    rcases sound.mixed.vacant h short hi hd with absent | ⟨-, large⟩
    · simp only [absent, Bool.false_eq_true, if_false]
      obtain ⟨r, st', run, same, held⟩ := law.alloc sound.held
      simp only [run, ok_bind]
      cases r with
      | none =>
        obtain ⟨sound', sameMaps⟩ := sound.congr same held subset_rfl sound.aligned
        exact ⟨none, _, rfl, sound', sameMaps, fun _ h => by cases h⟩
      | some d =>
        obtain ⟨frame, fresh, held⟩ := held
        obtain ⟨sound₁, maps₁, entries⟩ := sound.zeroed law same frame fresh held
        have nonzero : d ≠ 0 := Nat.pos_iff_ne_zero.mp frame.pos
        have word : Entry.newPage d (Machine.tableFlagsFor flags) < 2 ^ 64 :=
          Entry.newPage_lt frame.pageAddr
        have leads := leads_newPage (f := Machine.tableFlagsFor flags) frame.pageAddr rfl rfl
        have empty (j : Nat) (hj : j < 512) : readEntry (st'.zeroPage d).mem d j = 0 :=
          Memory.read64_fill_zero (by omega) (by simp only [PAGE_SIZE]; omega)
        have replaces : Mixed.Replaces (st'.zeroPage d).mem c.tab (π ++ [i]) (some d) :=
          .inr ⟨hd, frame, fun ρ hρ => fresh (sound.tables hρ), empty⟩
        have unmapped : Entry.isPresent (readEntry (st'.zeroPage d).mem t i) = false := by
          rw [entries h hi, absent]
        refine ⟨some d, ⟨(st'.zeroPage d).writeEntry t i (Entry.newPage d (Machine.tableFlagsFor flags)),
            Function.update c.tab (π ++ [i]) (some d), insert d c.used⟩, ?_, ?_, fun q => ?_, ?_⟩
        · simp [nonzero, Entry.newTable_eq]
        · exact sound₁.set law h hi word (x := some d) ⟨short, leads⟩ replaces
            (by rintro _ ⟨⟩; exact Set.mem_insert _ _)
        · exact (sound₁.mixed.lookup_set_link h hi short word leads replaces fun _ => unmapped).trans
            (maps₁ q)
        · rintro _ ⟨⟩
          exact Function.update_self ..
    · simp only [large.1, large.2, if_true]
      exact ⟨none, c, rfl, sound, fun _ => rfl, fun _ h => by cases h⟩

theorem ensurePath_maps (law : Lawful pages J) (sound : c.Sound J root) (path : List Nat)
    (h : c.tab π = some t) (depth : (π ++ path).length ≤ 3) (slots : ∀ j ∈ path, j < 512)
    (flags : PageFlags) :
    ∃ r, ∃ c' : Space A,
      Machine.ensurePath pages (Machine.tableFlagsFor flags) path c.st t = .ok (r, c'.st) ∧
      c'.Sound J root ∧ (∀ q, c'.maps q = c.maps q) ∧
      ∀ d, r = some d → c'.tab (π ++ path) = some d := by
  induction path generalizing c π t with
  | nil =>
    refine ⟨some t, c, rfl, sound, fun _ => rfl, ?_⟩
    rintro _ ⟨⟩
    rw [List.append_nil, h]
  | cons k path ih =>
    simp only [List.length_append, List.length_cons] at depth
    obtain ⟨r, c₁, run, sound₁, maps₁, done₁⟩ :=
      ensureTable_maps law sound h (by omega) (slots k (by simp)) flags
    simp only [Machine.ensurePath, physToVirt_ok (sound.mixed.frame h).window, run, ok_bind]
    cases r with
    | none => exact ⟨none, c₁, rfl, sound₁, maps₁, fun _ h => by cases h⟩
    | some d =>
      obtain ⟨r, c₂, run₂, sound₂, maps₂, done₂⟩ := ih sound₁ (done₁ d rfl)
        (by simp only [List.length_append, List.length_singleton]; omega)
        (fun j hj => slots j (by simp [hj]))
      refine ⟨r, c₂, run₂, sound₂, fun q => (maps₂ q).trans (maps₁ q), fun e he => ?_⟩
      simpa using done₂ e he

/-! ## One entry -/

variable {v phys : Nat}

theorem pageOf_lt (v : Nat) : pageOf v < 2 ^ 36 := Nat.mod_lt _ (by omega)

theorem map4kb_maps (law : Lawful pages J) (sound : c.Sound J root) (word : phys < 2 ^ 64) (v : Nat)
    (flags : PageFlags) :
    ∃ r, ∃ c' : Space A, c.st.map4kb pages root v phys flags = .ok (r, c'.st) ∧ c'.Sound J root ∧
      ∀ q < 2 ^ 36, c'.maps q = if r.isSome ∧ q = pageOf v then
        some (Entry.physAddr (Entry.newPage phys { flags with present := true })) else c.maps q := by
  obtain ⟨r, c₁, run, sound₁, maps₁, done⟩ := ensurePath_maps law sound (pagePath (pageOf v))
    sound.mixed.root (by simp [pagePath]) (pagePath_slots _) flags
  rw [pagePath] at run
  simp only [Machine.map4kb, fromU64_eq, run, ok_bind]
  cases r with
  | none => exact ⟨none, c₁, rfl, sound₁, fun q _ => by simpa using maps₁ q⟩
  | some pt =>
    have hpt : c₁.tab (pagePath (pageOf v)) = some pt := done pt rfl
    have small := Entry.newPage_lt_word (f := { flags with present := true }) word
    have deep (j : Nat) : c₁.tab (pagePath (pageOf v) ++ [pageOf v % 512] ++ [j]) = none :=
      sound₁.mixed.beyond (by simp [pagePath])
    have sound₂ := sound₁.set law hpt (index_lt (pageOf v)) small (x := none)
      (fun short => by simp [pagePath] at short) deep (fun _ h => by cases h)
    rw [sound₁.mixed.update_beyond (by simp [pagePath])] at sound₂
    refine ⟨some (), _, ?_, sound₂, fun q hq => ?_⟩
    · simp [physToVirt_ok (sound₁.mixed.frame hpt).window]
    · have leaf := sound₁.mixed.lookup_set_leaf hpt small (pageOf_lt v) hq
      rw [Entry.frameOf, if_pos (Entry.isPresent_or rfl)] at leaf
      refine leaf.trans ?_
      by_cases here : q = pageOf v
      · rw [if_pos ⟨rfl, here⟩, here, Function.update_self]
      · rw [if_neg fun both => here both.2, Function.update_of_ne here]
        exact maps₁ q

/-- `map_2mb` maps the 512 pages of a directory entry or fails without mapping anything. -/
theorem map2mb_maps (law : Lawful pages J) (sound : c.Sound J root) (word : phys < 2 ^ 64) (v : Nat)
    (flags : PageFlags) :
    ∃ r, ∃ c' : Space A, c.st.map2mb pages root v phys flags = .ok (r, c'.st) ∧ c'.Sound J root ∧
      ∀ q < 2 ^ 36, c'.maps q = if r.isSome ∧ q / 512 = pageOf v / 512 then
        some (Entry.physAddr (Entry.newPage phys { flags with present := true, huge := true }) +
          q % 512 * PAGE_SIZE) else c.maps q := by
  obtain ⟨r, c₁, run, sound₁, maps₁, done⟩ := ensurePath_maps law sound (dirPath (pageOf v))
    sound.mixed.root (by simp [dirPath]) (Mixed.dirPath_slots _) flags
  rw [dirPath] at run
  simp only [Machine.map2mb, fromU64_eq, run, ok_bind]
  cases r with
  | none => exact ⟨none, c₁, rfl, sound₁, fun q _ => by simpa using maps₁ q⟩
  | some pd =>
    have hpd : c₁.tab (dirPath (pageOf v)) = some pd := done pd rfl
    have small := Entry.newPage_lt_word (f := { flags with present := true, huge := true }) word
    have large : Entry.Large (Entry.newPage phys { flags with present := true, huge := true }) :=
      ⟨Entry.isPresent_or rfl, Entry.huge_or rfl⟩
    have deep (j : Nat) : c₁.tab (dirPath (pageOf v) ++ [pageOf v / 2 ^ 9 % 512] ++ [j]) = none :=
      sound₁.mixed.beyond (by simp [dirPath])
    have sound₂ := sound₁.set law hpd (index_lt (pageOf v / 2 ^ 9)) small (x := none)
      (fun _ => .inr ⟨rfl, large⟩) deep (fun _ h => by cases h)
    refine ⟨some (), _, ?_, sound₂, fun q hq => ?_⟩
    · simp [physToVirt_ok (sound₁.mixed.frame hpd).window]
    · refine (sound₁.mixed.lookup_set_large hpd small large (pageOf_lt v) hq).trans ?_
      by_cases here : q / 512 = pageOf v / 512
      · rw [if_pos here, if_pos ⟨rfl, here⟩]
      · rw [if_neg here, if_neg fun both => here both.2]
        exact maps₁ q

/-! ## Ranges -/

/-- The pages from `q` on are mapped to consecutive frames from `phys` on, and the others as before. -/
def Consecutive (c c' : Space A) (q n phys : Nat) : Prop :=
  ∀ r < 2 ^ 36, c'.maps r = if q ≤ r ∧ r < q + n then some (phys + (r - q) * PAGE_SIZE) else c.maps r

theorem Consecutive.refl (c : Space A) (q phys : Nat) : Consecutive c c q 0 phys :=
  fun r _ => by rw [if_neg (by omega)]

theorem Consecutive.trans {c₁ c₂ c₃ : Space A} {q n k : Nat} (first : Consecutive c₁ c₂ q n phys)
    (rest : Consecutive c₂ c₃ (q + n) k (phys + n * PAGE_SIZE)) :
    Consecutive c₁ c₃ q (n + k) phys := by
  intro r hr
  rw [rest r hr, first r hr]
  by_cases later : q + n ≤ r ∧ r < q + n + k
  · rw [if_pos later, if_pos (by omega), Option.some.injEq, Nat.add_assoc, ← Nat.add_mul]
    congr 2
    omega
  · rw [if_neg later]
    by_cases early : q ≤ r ∧ r < q + n
    · rw [if_pos early, if_pos (by omega)]
    · rw [if_neg early, if_neg (by omega)]

theorem map4kb_consecutive (law : Lawful pages J) (sound : c.Sound J root) (addr : PageAddr phys)
    {st' : Machine A} {flags : PageFlags}
    (run : c.st.map4kb pages root v phys flags = .ok (some (), st')) :
    ∃ c' : Space A, c'.st = st' ∧ c'.Sound J root ∧ Consecutive c c' (pageOf v) 1 phys := by
  obtain ⟨r, c', run', sound', maps⟩ := map4kb_maps law sound (Nat.lt_trans addr.2 (by decide)) v flags
  rw [run] at run'
  cases run'
  refine ⟨c', rfl, sound', fun q hq => ?_⟩
  rw [maps q hq, Entry.physAddr_newPage addr]
  by_cases here : q = pageOf v
  · rw [if_pos ⟨rfl, here⟩, if_pos (by omega), here, Nat.sub_self, Nat.zero_mul, Nat.add_zero]
  · rw [if_neg fun both => here both.2, if_neg (by omega)]

theorem map2mb_consecutive (law : Lawful pages J) (sound : c.Sound J root) (addr : PageAddr phys)
    (large : v % SIZE_2MB = 0) {st' : Machine A} {flags : PageFlags}
    (run : c.st.map2mb pages root v phys flags = .ok (some (), st')) :
    ∃ c' : Space A, c'.st = st' ∧ c'.Sound J root ∧ Consecutive c c' (pageOf v) 512 phys := by
  obtain ⟨r, c', run', sound', maps⟩ := map2mb_maps law sound (Nat.lt_trans addr.2 (by decide)) v flags
  rw [run] at run'
  cases run'
  have whole : pageOf v % 512 = 0 := by
    simp only [pageOf, PAGE_SIZE, SIZE_2MB] at *
    omega
  refine ⟨c', rfl, sound', fun q hq => ?_⟩
  rw [maps q hq, Entry.physAddr_newPage addr]
  by_cases here : q / 512 = pageOf v / 512
  · rw [if_pos ⟨rfl, here⟩, if_pos (by omega), show q % 512 = q - pageOf v by omega]
  · rw [if_neg fun both => here both.2, if_neg (by omega)]

/-- One iteration of `map_range` returns and leaves a sound space, whatever the frame is. -/
theorem mapOne_sound (law : Lawful pages J) (sound : c.Sound J root) (word : phys < 2 ^ 64)
    (v stop : Nat) (flags : PageFlags) :
    ∃ size r, ∃ c' : Space A, c.st.mapOne pages root v phys stop flags = .ok (size, r, c'.st) ∧
      c'.Sound J root := by
  rw [Machine.mapOne]
  split
  next =>
    obtain ⟨r, c', run, sound', -⟩ := map2mb_maps law sound word v flags
    exact ⟨SIZE_2MB, r, c', by rw [run]; rfl, sound'⟩
  next =>
    obtain ⟨r, c', run, sound', -⟩ := map4kb_maps law sound word v flags
    exact ⟨PAGE_SIZE, r, c', by rw [run]; rfl, sound'⟩

/-- One iteration of `map_range` maps the pages that the loop then skips. -/
theorem mapOne_consecutive (law : Lawful pages J) (sound : c.Sound J root) (addr : PageAddr phys)
    {stop size : Nat} {st' : Machine A} {flags : PageFlags}
    (run : c.st.mapOne pages root v phys stop flags = .ok (size, some (), st')) :
    ∃ n, size = n * PAGE_SIZE ∧ (n = 1 ∨ (0 < n ∧ size ≤ stop - v)) ∧
      ∃ c' : Space A, c'.st = st' ∧ c'.Sound J root ∧ Consecutive c c' (pageOf v) n phys := by
  rw [Machine.mapOne] at run
  split at run
  next large =>
    obtain ⟨r, run, same⟩ := map_eq_ok.mp run
    cases same
    exact ⟨512, rfl, .inr ⟨by decide, large.2.2⟩, map2mb_consecutive law sound addr large.1 run⟩
  next =>
    obtain ⟨r, run, same⟩ := map_eq_ok.mp run
    cases same
    exact ⟨1, rfl, .inl rfl, map4kb_consecutive law sound addr run⟩

theorem pageOf_add {n : Nat} (h : pageOf v + n < 2 ^ 36) : pageOf (v + n * PAGE_SIZE) = pageOf v + n := by
  simp only [pageOf, PAGE_SIZE] at *
  omega

/-- How a loop over `n` pages ends: it returns, and if it has not failed the pages are mapped. -/
def Ranged (J : Machine A → Set Nat → Prop) (root : Nat) (c : Space A) (q n phys : Nat)
    (out : Except Stop (Option Unit × Machine A)) : Prop :=
  ∃ r, ∃ c' : Space A, out = .ok (r, c'.st) ∧ c'.Sound J root ∧
    (r = some () → Consecutive c c' q n phys)

theorem mapLoop_ranged (p : Profile) (law : Lawful pages J) {flags : PageFlags} {fuel n : Nat}
    (sound : c.Sound J root) (aligned : PAGE_SIZE ∣ phys) (below : phys + n * PAGE_SIZE ≤ 2 ^ 52)
    (word : v + n * PAGE_SIZE < 2 ^ 64) (inside : pageOf v + n ≤ 2 ^ 36) (enough : n < fuel) :
    Ranged J root c (pageOf v) n phys
      (Machine.mapLoop p pages root (v + n * PAGE_SIZE) flags fuel v phys c.st) := by
  induction fuel generalizing c v phys n with
  | zero => omega
  | succ fuel ih =>
    rw [Machine.mapLoop]
    rcases Nat.eq_zero_or_pos n with rfl | pos
    · rw [if_neg (by omega)]
      exact ⟨some (), c, rfl, sound, fun _ => .refl c _ _⟩
    · have more : v < v + n * PAGE_SIZE := Nat.lt_add_of_pos_right (Nat.mul_pos pos (by decide))
      have addr : PageAddr phys := ⟨aligned, by simp only [PAGE_SIZE] at below; omega⟩
      obtain ⟨size, r, c₁, one, sound₁⟩ :=
        mapOne_sound law sound (Nat.lt_trans addr.2 (by decide)) v (v + n * PAGE_SIZE) flags
      rw [if_pos more, one, ok_bind]
      cases r with
      | none => exact ⟨none, c₁, rfl, sound₁, fun h => by cases h⟩
      | some =>
        obtain ⟨k, rfl, most, c₂, same, sound₂, first⟩ := mapOne_consecutive law sound addr one
        have few : 0 < k ∧ k ≤ n := by
          rcases most with rfl | ⟨pos', fits⟩
          · exact ⟨Nat.one_pos, pos⟩
          · simp only [PAGE_SIZE] at fits
            omega
        obtain ⟨j, rfl⟩ := Nat.exists_eq_add_of_le few.2
        have virt : v + (k + j) * PAGE_SIZE = v + k * PAGE_SIZE + j * PAGE_SIZE := by
          rw [Nat.add_mul, Nat.add_assoc]
        have frames : phys + (k + j) * PAGE_SIZE = phys + k * PAGE_SIZE + j * PAGE_SIZE := by
          rw [Nat.add_mul, Nat.add_assoc]
        rw [virt] at word ⊢
        rw [frames] at below
        simp only [← same, p.add_ok (show v + k * PAGE_SIZE < 2 ^ 64 by omega),
          p.add_ok (show phys + k * PAGE_SIZE < 2 ^ 64 by omega), ok_bind]
        have aligned' : PAGE_SIZE ∣ phys + k * PAGE_SIZE := Nat.dvd_add aligned (Nat.dvd_mul_left _ _)
        -- the page numbers may wrap only after the last page
        have next : j = 0 ∨ pageOf (v + k * PAGE_SIZE) = pageOf v + k := by
          rcases Nat.eq_zero_or_pos j with last | further
          · exact .inl last
          · exact .inr (pageOf_add (by omega))
        have inside' : pageOf (v + k * PAGE_SIZE) + j ≤ 2 ^ 36 := by
          have := pageOf_lt (v + k * PAGE_SIZE)
          omega
        obtain ⟨r, c', run, sound', rest⟩ := ih sound₂ aligned' below word inside' (by omega)
        refine ⟨r, c', run, sound', fun done => first.trans ?_⟩
        rcases next with rfl | next
        · intro q hq
          rw [rest done q hq, if_neg (by omega), if_neg (by omega)]
        · rw [← next]
          exact rest done

theorem mapEach_consecutive (law : Lawful pages J) {flags : PageFlags} {n : Nat}
    (sound : c.Sound J root) (aligned : PAGE_SIZE ∣ phys) (below : phys + n * PAGE_SIZE ≤ 2 ^ 52)
    (inside : pageOf v + n ≤ 2 ^ 36) {st' : Machine A}
    (run : Machine.mapEach pages root flags n v phys c.st = .ok (some (), st')) :
    ∃ c' : Space A, c'.st = st' ∧ c'.Sound J root ∧ Consecutive c c' (pageOf v) n phys := by
  induction n generalizing c v phys with
  | zero =>
    cases run
    exact ⟨c, rfl, sound, .refl c _ _⟩
  | succ n ih =>
    rw [Machine.mapEach] at run
    obtain ⟨⟨r, st₁⟩, one, run⟩ := bind_eq_ok.mp run
    cases r with
    | none => cases run
    | some =>
      have addr : PageAddr phys := ⟨aligned, by simp only [PAGE_SIZE] at below; omega⟩
      obtain ⟨c₁, rfl, sound₁, first⟩ := map4kb_consecutive law sound addr one
      have frames : phys + (n + 1) * PAGE_SIZE = phys + PAGE_SIZE + n * PAGE_SIZE := by
        rw [Nat.add_mul, Nat.one_mul]
        omega
      rw [frames] at below
      have step : 1 * PAGE_SIZE = PAGE_SIZE := Nat.one_mul _
      rcases Nat.eq_zero_or_pos n with rfl | further
      · cases run
        exact ⟨c₁, rfl, sound₁, first⟩
      · have next := pageOf_add (v := v) (n := 1) (by omega)
        rw [step] at next
        obtain ⟨c', same, sound', rest⟩ := ih sound₁ (Nat.dvd_add aligned (Nat.dvd_refl _)) below
          (by omega) run
        rw [next, ← step] at rest
        rw [Nat.add_comm n 1]
        exact ⟨c', same, sound', first.trans rest⟩

/-! ## Addresses -/

/-- An address of one of the two halves. -/
def Canonical (v : Nat) : Prop := v < 2 ^ 47 ∨ (2 ^ 64 - 2 ^ 47 ≤ v ∧ v < 2 ^ 64)

/-- A range that lies in one half. -/
def InHalf (v size : Nat) : Prop := v + size ≤ 2 ^ 47 ∨ (2 ^ 64 - 2 ^ 47 ≤ v ∧ v + size ≤ 2 ^ 64)

theorem InHalf.pageOf_le {n : Nat} (half : InHalf v (n * PAGE_SIZE)) (aligned : PAGE_SIZE ∣ v) :
    pageOf v + n ≤ 2 ^ 36 := by
  simp only [InHalf, pageOf, PAGE_SIZE] at *
  omega

theorem InHalf.page_mem {n w : Nat} (half : InHalf v (n * PAGE_SIZE)) (aligned : PAGE_SIZE ∣ v)
    (canonical : Canonical w) : (pageOf v ≤ pageOf w ∧ pageOf w < pageOf v + n) ↔
      (v ≤ w ∧ w < v + n * PAGE_SIZE) := by
  simp only [InHalf, Canonical, pageOf, PAGE_SIZE] at *
  omega

theorem InHalf.page_add {n k : Nat} (half : InHalf v (n * PAGE_SIZE)) (aligned : PAGE_SIZE ∣ v)
    (inside : k < n * PAGE_SIZE) :
    (pageOf (v + k) - pageOf v) * PAGE_SIZE + (v + k) % PAGE_SIZE = k := by
  simp only [InHalf, pageOf, PAGE_SIZE] at *
  omega

theorem Sound.translate (sound : c.Sound J root) (v : Nat) : Machine.translate c.st.mem root v =
    .ok ((c.maps (pageOf v)).map fun frame => frame + v % PAGE_SIZE) :=
  sound.mixed.translate_eq v

theorem Consecutive.translate {n : Nat} (h : Consecutive c c' (pageOf v) n phys)
    (sound : c.Sound J root) (sound' : c'.Sound J root) (half : InHalf v (n * PAGE_SIZE))
    (aligned : PAGE_SIZE ∣ v) :
    (∀ k < n * PAGE_SIZE, Machine.translate c'.st.mem root (v + k) = .ok (some (phys + k))) ∧
      ∀ w, Canonical w → ¬ (v ≤ w ∧ w < v + n * PAGE_SIZE) →
        Machine.translate c'.st.mem root w = Machine.translate c.st.mem root w := by
  constructor
  · intro k inside
    have canonical : Canonical (v + k) := by
      simp only [InHalf, Canonical] at *
      omega
    have page := (half.page_mem aligned canonical).mpr ⟨Nat.le_add_right _ _, by omega⟩
    rw [sound'.translate, h _ (pageOf_lt _), if_pos page, Option.map_some, Nat.add_assoc,
      half.page_add aligned inside]
  · intro w canonical outside
    have page : ¬ (pageOf v ≤ pageOf w ∧ pageOf w < pageOf v + n) := fun inside =>
      outside ((half.page_mem aligned canonical).mp inside)
    rw [sound'.translate, h _ (pageOf_lt _), if_neg page, sound.translate]

theorem Consecutive.same {c₁ c₂ : Space A} {n q : Nat} (h₁ : Consecutive c c₁ q n phys)
    (h₂ : Consecutive c c₂ q n phys) (sound₁ : c₁.Sound J root) (sound₂ : c₂.Sound J root) (w : Nat) :
    Machine.translate c₂.st.mem root w = Machine.translate c₁.st.mem root w := by
  rw [sound₁.translate, sound₂.translate, h₁ _ (pageOf_lt _), h₂ _ (pageOf_lt _)]

theorem mapRange_ranged (p : Profile) (law : Lawful pages J) (sound : c.Sound J root)
    (flags : PageFlags) {n : Nat} (aligned : PAGE_SIZE ∣ v) (alignedPhys : PAGE_SIZE ∣ phys)
    (half : InHalf v (n * PAGE_SIZE)) (below : phys + n * PAGE_SIZE ≤ 2 ^ 52) :
    Ranged J root c (pageOf v) n phys (c.st.mapRange p pages root v phys (n * PAGE_SIZE) flags) := by
  rw [Machine.mapRange]
  split
  next empty =>
    obtain rfl : n = 0 := by
      simp only [PAGE_SIZE] at empty
      omega
    exact ⟨some (), c, rfl, sound, fun _ => .refl c _ _⟩
  next =>
    split
    next => exact ⟨none, c, rfl, sound, fun h => by cases h⟩
    next fits =>
      refine mapLoop_ranged p law sound alignedPhys below (Nat.lt_of_not_le fits)
        (half.pageOf_le aligned) ?_
      rw [Nat.mul_div_cancel _ (by decide)]
      omega

end Space

/-- A range whose frames an entry can hold: `map_range` returns, and unless it fails the range is mapped
as if each of its pages had been mapped on its own. -/
theorem map_range_agrees {A : Type} {pages : PageAllocator A} {J : Machine A → Set Nat → Prop}
    (p : Profile) (law : Lawful pages J) {root : Nat} {c : Space A} (sound : c.Sound J root)
    (virtStart physStart size : Nat) (flags : PageFlags) (virtAligned : PAGE_SIZE ∣ virtStart)
    (physAligned : PAGE_SIZE ∣ physStart) (sizeAligned : PAGE_SIZE ∣ size)
    (half : Space.InHalf virtStart size) (below : physStart + size ≤ 2 ^ 52) :
    ∃ r st', c.st.mapRange p pages root virtStart physStart size flags = .ok (r, st') ∧
      (r = some () →
        (∀ k < size, Machine.translate st'.mem root (virtStart + k) = .ok (some (physStart + k))) ∧
        (∀ v, Space.Canonical v → ¬ (virtStart ≤ v ∧ v < virtStart + size) →
          Machine.translate st'.mem root v = Machine.translate c.st.mem root v) ∧
        ∀ st'', Machine.mapEach pages root flags (size / PAGE_SIZE) virtStart physStart c.st =
            .ok (some (), st'') →
          ∀ v, Machine.translate st''.mem root v = Machine.translate st'.mem root v) := by
  obtain ⟨n, rfl⟩ := sizeAligned
  rw [Nat.mul_comm] at half below ⊢
  obtain ⟨r, c', run, sound', ranged⟩ :=
    Space.mapRange_ranged p law sound flags virtAligned physAligned half below
  refine ⟨r, c'.st, run, fun done => ?_⟩
  obtain ⟨inside, outside⟩ := (ranged done).translate sound sound' half virtAligned
  refine ⟨inside, outside, fun st'' each => ?_⟩
  rw [Nat.mul_div_cancel _ (by decide)] at each
  obtain ⟨c'', rfl, sound'', single⟩ := Space.mapEach_consecutive law sound physAligned below
    (half.pageOf_le virtAligned) each
  exact (ranged done).same single sound' sound''

/-! ## The smallest allocator -/

/-- Frames one after the other, to the end of the higher-half window. -/
def bump : PageAllocator Nat where
  allocPage st :=
    if st.pool + PAGE_SIZE ≤ DIRECT_MAP_END then .ok (some st.pool, { st with pool := st.pool + PAGE_SIZE })
    else .ok (none, st)
  freePage st _ := .ok st
  track pool _ _ := .ok pool
  untrack pool _ := pool

structure BumpInv (st : Machine Nat) (used : Set Nat) : Prop where
  aligned : PAGE_SIZE ∣ st.pool
  pos : 0 < st.pool
  below : ∀ f ∈ used, f < st.pool

theorem bump_lawful : Lawful bump BumpInv where
  alloc {st used} inv := by
    by_cases room : st.pool + PAGE_SIZE ≤ DIRECT_MAP_END
    · have run : bump.allocPage st = .ok (some st.pool, { st with pool := st.pool + PAGE_SIZE }) := by
        simp only [bump, if_pos room]
      refine ⟨some st.pool, _, run, fun _ _ => rfl, ⟨inv.aligned, inv.pos, ?_⟩, ?_, ?_⟩
      · simp only [PAGE_SIZE] at room
        omega
      · exact fun mem => Nat.lt_irrefl _ (inv.below _ mem)
      · refine ⟨Nat.dvd_add inv.aligned (Nat.dvd_refl _), Nat.add_pos_left inv.pos _, ?_⟩
        rintro f (rfl | hf)
        · exact Nat.lt_add_of_pos_right (by decide)
        · exact Nat.lt_add_right _ (inv.below f hf)
    · have run : bump.allocPage st = .ok (none, st) := by simp only [bump, if_neg room]
      exact ⟨none, st, run, fun _ _ => rfl, inv⟩
  write inv _ := ⟨inv.aligned, inv.pos, inv.below⟩
  track inv run := by
    cases run
    exact inv

theorem Space.sound_new {A : Type} {J : Machine A → Set Nat → Prop} {root : Nat} {st : Machine A}
    {used : Set Nat} (table : TableFrame root) (empty : ∀ i < 512, readEntry st.mem root i = 0)
    (held : J st used) (mem : root ∈ used) (aligned : ∀ {f}, f ∈ used → PAGE_SIZE ∣ f) :
    Space.Sound J root ⟨st, Space.newTables root, used⟩ := by
  have top {π : List Nat} {t} (h : Space.newTables root π = some t) : π = [] ∧ t = root :=
    Space.newTables_eq_some.mp h
  have child {π : List Nat} {i c} : Space.newTables root (π ++ [i]) ≠ some c := fun h => by
    simpa using (top h).1
  refine ⟨?_, held, fun h => (top h).2 ▸ mem, aligned⟩
  constructor
  case root => exact Space.newTables_eq_some.mpr ⟨rfl, rfl⟩
  case frame => exact fun h => (top h).2 ▸ table
  case depth => exact fun h => by simp [(top h).1]
  case inj => exact fun h h' => (top h).1.trans (top h').1.symm
  case parent => exact fun h => absurd h child
  case link => exact fun _ h => absurd h child
  case vacant =>
    intro π i t h _ hi _
    obtain ⟨rfl, rfl⟩ := top h
    exact .inl (by rw [empty i hi, Entry.isPresent_zero])

/-- A machine with nothing in memory, whose frames from `0x2000` on are free. -/
def blank : Machine Nat := ⟨fun _ => 0, 0x2000⟩

theorem blank_sound : Space.Sound BumpInv 0x1000 ⟨blank, Space.newTables 0x1000, {0x1000}⟩ := by
  have zero (i : Nat) (_ : i < 512) : readEntry blank.mem 0x1000 i = 0 :=
    Memory.readLe_zero fun _ _ _ => rfl
  refine Space.sound_new ⟨by decide, by decide, by decide⟩ zero ⟨by decide, by decide, ?_⟩ rfl ?_
  · rintro f rfl
    decide
  · rintro f rfl
    decide

/-- A frame that an entry cannot hold: the page is mapped to another frame. -/
theorem map_range_truncates : ∃ st', blank.mapRange .dev bump 0x1000 0 (2 ^ 52) PAGE_SIZE .none =
    .ok (some (), st') ∧ Machine.translate blank.mem 0x1000 0 = .ok none ∧
    Machine.translate st'.mem 0x1000 0 = .ok (some 0) :=
  ⟨_, rfl, by decide +kernel, by decide +kernel⟩

/-- A small page, a large one and another small one. -/
theorem map_range_mixed : ∃ st',
    blank.mapRange .dev bump 0x1000 0x1ff000 0x5ff000 0x202000 .none = .ok (some (), st') ∧
    ∀ k < 0x202000, Machine.translate st'.mem 0x1000 (0x1ff000 + k) = .ok (some (0x5ff000 + k)) := by
  obtain ⟨r, st', run, done⟩ := map_range_agrees .dev bump_lawful blank_sound 0x1ff000 0x5ff000 0x202000
    .none (by decide) (by decide) (by decide) (.inl (by decide)) (by decide)
  have maps : (blank.mapRange .dev bump 0x1000 0x1ff000 0x5ff000 0x202000 .none).toOption.map Prod.fst =
      some (some ()) := by decide +kernel
  rw [run] at maps
  obtain rfl : r = some () := Option.some.inj maps
  exact ⟨st', run, (done rfl).1⟩

end Ferrum
