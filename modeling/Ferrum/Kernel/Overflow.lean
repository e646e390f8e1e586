import Ferrum.AddressSpace.Areas
import Ferrum.Kernel.Model

/-!
# Arithmetic that does not overflow

In the debug build an addition or a subtraction that leaves the machine word stops the kernel. The calls
that change the layout of an address space do many of them: on the counts of the frame allocator, on the
counters of loops over pages, on the bounds of ranges, segments and the kernel image. Each function is
shown not to stop that way under the bounds of its own arguments, whatever the state of the memory.
-/
namespace Ferrum

/-- A computation does not end in an overflow. -/
structure NoOverflow {α : Type} (x : Except Stop α) : Prop where
  ne : x ≠ .error .overflow

namespace NoOverflow

variable {α β : Type} {x : Except Stop α} {f : α → Except Stop β}

theorem ok (a : α) : NoOverflow (.ok a : Except Stop α) := ⟨fun h => nomatch h⟩

theorem stop {why : Stop} (other : why ≠ .overflow) : NoOverflow (.error why : Except Stop α) :=
  ⟨fun h => other (Except.error.inj h)⟩

theorem bind (first : NoOverflow x) (rest : ∀ a, x = .ok a → NoOverflow (f a)) : NoOverflow (x >>= f) := by
  cases x with
  | error e => exact .stop fun same => first.ne (congrArg Except.error same)
  | ok a => exact rest a rfl

theorem foldlM {l : List α} {f : β → α → Except Stop β} (step : ∀ b, ∀ a ∈ l, NoOverflow (f b a)) (b : β) :
    NoOverflow (l.foldlM f b) := by
  induction l generalizing b with
  | nil => exact .ok b
  | cons a l ih =>
    rw [List.foldlM_cons]
    exact (step b a List.mem_cons_self).bind fun b' _ => ih (fun b a ha => step b a (List.mem_cons_of_mem _ ha)) b'

theorem forM {l : List α} {f : α → Except Stop Unit} (step : ∀ a, NoOverflow (f a)) :
    NoOverflow (l.forM f) := by
  induction l with
  | nil => exact .ok ()
  | cons a l ih => exact (step a).bind fun _ _ => ih

theorem add {p : Profile} {a b : Nat} (fits : p = .dev → a + b < 2 ^ 64) : NoOverflow (p.add a b) := by
  cases p with
  | dev =>
    rw [Profile.add, if_pos (fits rfl)]
    exact .ok _
  | release => exact .ok _

theorem sub {p : Profile} {a b : Nat} (fits : p = .dev → b ≤ a) : NoOverflow (p.sub a b) := by
  cases p with
  | dev =>
    rw [Profile.sub, if_pos (fits rfl)]
    exact .ok _
  | release => exact .ok _

theorem physToVirt (phys : Nat) : NoOverflow (Ferrum.physToVirt phys) := by
  unfold Ferrum.physToVirt
  split
  · exact .ok _
  · exact .stop (by simp)

end NoOverflow

theorem forM_eq_ok {α : Type} {l : List α} {f : α → Except Stop Unit} (run : l.forM f = .ok ()) :
    ∀ a ∈ l, f a = .ok () := by
  induction l with
  | nil => exact fun _ none => nomatch none
  | cons b l ih =>
    obtain ⟨_, first, rest⟩ := bind_eq_ok.mp run
    exact List.forall_mem_cons.mpr ⟨first, ih rest⟩

/-! ## The frame allocator -/

namespace Buddy

variable {p : Profile} {s : Buddy}

theorem noOverflow_writeNext (s : Buddy) (addr next : Nat) : NoOverflow (s.writeNext addr next) :=
  .bind (.physToVirt _) fun _ _ => .ok _

theorem noOverflow_readNext (s : Buddy) (addr : Nat) : NoOverflow (s.readNext addr) :=
  .bind (.physToVirt _) fun _ _ => .ok _

theorem noOverflow_walk (s : Buddy) (caller : String) (order limit fuel seen addr : Nat) :
    NoOverflow (s.walk caller order limit fuel seen addr) := by
  induction fuel generalizing seen addr with
  | zero => exact .stop (by simp)
  | succ fuel ih =>
    rw [walk]
    split
    · exact .ok _
    split
    · exact .stop (by simp)
    · exact .bind (noOverflow_readNext s addr) fun next _ => ih _ _

theorem noOverflow_checkMetadataIntegrity (s : Buddy) (caller : String) :
    NoOverflow (s.checkMetadataIntegrity caller) := by
  refine .forM fun order => .bind (noOverflow_walk ..) fun seen _ => ?_
  split
  · exact .ok _
  · exact .stop (by simp)

theorem noOverflow_debugCheck (p : Profile) (s : Buddy) (caller : String) :
    NoOverflow (s.debugCheck p caller) := by
  cases p with
  | dev => exact noOverflow_checkMetadataIntegrity s caller
  | release => exact .ok _

theorem noOverflow_pushBlock (s : Buddy) (addr order : Nat) : NoOverflow (s.pushBlock addr order) := by
  unfold pushBlock
  split
  · exact .stop (by simp)
  split
  · exact .stop (by simp)
  · exact .bind (noOverflow_writeNext ..) fun _ _ => .ok _

theorem noOverflow_splitDown (s : Buddy) (block order n : Nat) : NoOverflow (s.splitDown block order n) := by
  induction n generalizing s with
  | zero => exact .ok _
  | succ n ih => exact .bind (noOverflow_pushBlock ..) fun s _ => ih s

theorem noOverflow_alloc (p : Profile) (s : Buddy) (order : Nat) : NoOverflow (s.alloc p order) := by
  refine .bind (noOverflow_debugCheck ..) fun _ _ => ?_
  split
  · exact .ok _
  · rename_i found chosen
    have counted : 0 < s.pool.freeCounts found := by simpa using List.find?_some chosen
    refine .bind ?_ fun out _ => .bind (noOverflow_splitDown ..) fun s' _ =>
      .bind (noOverflow_debugCheck ..) fun _ _ => .ok _
    unfold popBlock
    dsimp only
    split
    · exact .stop (by simp)
    · exact .bind (noOverflow_readNext ..) fun next _ => .bind (.sub fun _ => counted) fun _ _ => .ok _

/-- A list that is not empty is counted, as the debug build checks. -/
def Counted (p : Profile) (s : Buddy) (order : Nat) : Prop :=
  p = .dev → s.pool.freeHeads order ≠ 0 → 0 < s.pool.freeCounts order

theorem le_of_walk {caller : String} {order limit fuel seen addr n : Nat}
    (run : s.walk caller order limit fuel seen addr = .ok n) : seen ≤ n ∧ (addr ≠ 0 → seen < n) := by
  induction fuel generalizing seen addr with
  | zero => cases run
  | succ fuel ih =>
    rw [walk] at run
    split at run
    · rename_i ended
      cases run
      exact ⟨Nat.le_refl _, fun some => absurd ended some⟩
    split at run
    · cases run
    · obtain ⟨next, -, run⟩ := bind_eq_ok.mp run
      have := (ih run).1
      exact ⟨by omega, fun _ => by omega⟩

theorem counted_of_debugCheck {caller : String} (run : s.debugCheck p caller = .ok ()) {order : Nat}
    (small : order < MAX_ORDER) : Counted p s order := by
  rintro rfl some
  have checked : s.checkOrder caller order = .ok () :=
    forM_eq_ok run _ (List.mem_range.mpr small)
  obtain ⟨seen, walked, same⟩ := bind_eq_ok.mp checked
  split at same
  · rename_i equal
    have := (le_of_walk walked).2 some
    omega
  · cases same

theorem removeLoop_spec {target order fuel : Nat} {prev : Option Nat} {cur : Nat}
    (counted : p = .dev → 0 < s.pool.freeCounts order) :
    NoOverflow (s.removeLoop p target order fuel prev cur) ∧
      ∀ found s', s.removeLoop p target order fuel prev cur = .ok (found, s') → ∀ o, o ≠ order →
        s'.pool.freeHeads o = s.pool.freeHeads o ∧ s'.pool.freeCounts o = s.pool.freeCounts o := by
  induction fuel generalizing prev cur with
  | zero => exact ⟨.stop (by simp), fun _ _ run => nomatch run⟩
  | succ fuel ih =>
    rw [removeLoop]
    split
    · refine ⟨.ok _, fun found s' run o _ => ?_⟩
      cases run
      exact ⟨rfl, rfl⟩
    constructor
    · refine .bind (noOverflow_readNext ..) fun next _ => ?_
      split
      · cases prev with
        | none =>
          refine .bind (.ok _) fun t link => .bind (.sub fun dev => ?_) fun _ _ => .ok _
          cases link
          exact counted dev
        | some before =>
          refine .bind (noOverflow_writeNext ..) fun t link => .bind (.sub fun dev => ?_) fun _ _ => .ok _
          obtain ⟨_, -, link⟩ := bind_eq_ok.mp link
          cases link
          exact counted dev
      · exact ih.1
    · intro found s' run o other
      obtain ⟨next, -, run⟩ := bind_eq_ok.mp run
      split at run
      · cases prev with
        | none =>
          obtain ⟨t, link, run⟩ := bind_eq_ok.mp run
          cases link
          obtain ⟨count, -, run⟩ := bind_eq_ok.mp run
          cases run
          exact ⟨Function.update_of_ne other _ _, Function.update_of_ne other _ _⟩
        | some before =>
          obtain ⟨t, link, run⟩ := bind_eq_ok.mp run
          obtain ⟨_, -, link⟩ := bind_eq_ok.mp link
          cases link
          obtain ⟨count, -, run⟩ := bind_eq_ok.mp run
          cases run
          exact ⟨rfl, Function.update_of_ne other _ _⟩
      · exact ih.2 _ _ run o other

theorem removeFromList_spec (addr : Nat) {order : Nat} (counted : Counted p s order) :
    NoOverflow (s.removeFromList p addr order) ∧
      ∀ found s', s.removeFromList p addr order = .ok (found, s') → ∀ o, o ≠ order →
        s'.pool.freeHeads o = s.pool.freeHeads o ∧ s'.pool.freeCounts o = s.pool.freeCounts o := by
  by_cases empty : s.pool.freeHeads order = 0
  · have none : s.removeFromList p addr order = .ok (false, s) := by
      unfold removeFromList
      generalize enough : 2 ^ 64 = fuel
      rw [empty]
      cases fuel with
      | zero => exact absurd enough (by decide)
      | succ fuel => rw [removeLoop, if_pos rfl]
    rw [none]
    refine ⟨.ok _, fun found s' run o _ => ?_⟩
    cases run
    exact ⟨rfl, rfl⟩
  · exact removeLoop_spec fun dev => counted dev empty

theorem noOverflow_mergeUp {n addr order : Nat}
    (counted : ∀ o, order ≤ o → o < order + n → Counted p s o) : NoOverflow (s.mergeUp p n addr order) := by
  induction n generalizing s addr order with
  | zero => exact .ok _
  | succ n ih =>
    obtain ⟨quiet, others⟩ := removeFromList_spec (buddyOf addr order)
      (counted order (Nat.le_refl _) (by omega))
    refine .bind quiet ?_
    rintro ⟨found, s'⟩ run
    cases found with
    | false => exact .ok _
    | true =>
      refine ih fun o low high => ?_
      obtain ⟨heads, counts⟩ := others _ _ run o (by omega)
      rw [Counted, heads, counts]
      exact counted o (by omega) (by omega)

theorem noOverflow_free (p : Profile) (s : Buddy) (addr order : Nat) : NoOverflow (s.free p addr order) := by
  refine .bind (noOverflow_debugCheck ..) fun _ checked => .bind ?_ fun out _ =>
    .bind (noOverflow_pushBlock ..) fun s' _ => .bind (noOverflow_debugCheck ..) fun _ _ => .ok _
  refine noOverflow_mergeUp fun o low high => counted_of_debugCheck checked ?_
  simp only [MAX_ORDER] at *
  omega

end Buddy

/-! ## Frames and tables -/

namespace Machine

theorem noOverflow_track (pool : Pool) (phys : Nat) (owner : PageOwner) :
    NoOverflow (pool.track phys owner) := by
  unfold Pool.track
  split
  · exact .stop (by simp)
  · exact .ok _

theorem noOverflow_allocBlock (p : Profile) (owner : Owner) (st : Machine Pool) (order : Nat) :
    NoOverflow (st.allocBlock p owner order) :=
  .bind (Buddy.noOverflow_alloc ..) fun _ _ => .ok _

theorem noOverflow_freeBlock (p : Profile) (owner : Owner) (st : Machine Pool) (addr order : Nat) :
    NoOverflow (st.freeBlock p owner addr order) :=
  .bind (Buddy.noOverflow_free ..) fun _ _ => .ok _

theorem noOverflow_allocPage (p : Profile) (owner : Owner) (st : Machine Pool) :
    NoOverflow (st.allocPage p owner) := by
  refine .bind (noOverflow_allocBlock ..) ?_
  rintro ⟨_ | phys, st'⟩ -
  · exact .ok _
  · exact .bind (.physToVirt _) fun _ _ => .ok _

theorem noOverflow_ensureTable (p : Profile) (owner : Owner) (st : Machine Pool) (table index : Nat)
    (flags : PageFlags) : NoOverflow (st.ensureTable (poolPages p owner) table index flags) := by
  unfold ensureTable
  simp only
  split
  · split
    · exact .ok _
    split <;> exact .ok _
  · refine .bind (noOverflow_allocPage ..) ?_
    rintro ⟨_ | phys, st'⟩ -
    · exact .ok _
    · dsimp only
      split
      · exact .stop (by simp)
      · exact .ok _

theorem noOverflow_ensurePath (p : Profile) (owner : Owner) (flags : PageFlags) (path : List Nat)
    (st : Machine Pool) (table : Nat) :
    NoOverflow (ensurePath (poolPages p owner) flags path st table) := by
  induction path generalizing st table with
  | nil => exact .ok _
  | cons index path ih =>
    refine .bind (.physToVirt _) fun _ _ => .bind (noOverflow_ensureTable ..) ?_
    rintro ⟨_ | phys, st'⟩ -
    · exact .ok _
    · exact ih _ _

theorem noOverflow_map (p : Profile) (owner : Owner) (st : Machine Pool) (pml4 virt phys : Nat)
    (flags : PageFlags) : NoOverflow (st.map (poolPages p owner) pml4 virt phys flags) := by
  refine .bind (noOverflow_ensurePath ..) ?_
  rintro ⟨_ | phys, st'⟩ -
  · exact .ok _
  · exact .bind (.physToVirt _) fun _ _ => .ok _

theorem noOverflow_walkTables (m : Memory) (path : List Nat) (table : Nat) :
    NoOverflow (walkTables m path table) := by
  induction path generalizing table with
  | nil => exact .ok _
  | cons index path ih =>
    refine .bind (.physToVirt _) fun _ _ => ?_
    dsimp only
    split
    · exact ih _
    · exact .ok _

theorem noOverflow_translate (m : Memory) (pml4 virt : Nat) : NoOverflow (translate m pml4 virt) := by
  refine .bind (noOverflow_walkTables ..) ?_
  rintro (_ | pd) -
  · exact .ok _
  refine .bind (.physToVirt _) fun _ _ => ?_
  dsimp only
  split
  · exact .ok _
  split
  · exact .ok _
  refine .bind (.physToVirt _) fun _ _ => ?_
  split <;> exact .ok _

theorem noOverflow_unmap (st : Machine Pool) (pml4 virt : Nat) : NoOverflow (st.unmap pml4 virt) := by
  refine .bind (noOverflow_walkTables ..) ?_
  rintro (_ | pt) -
  · exact .ok _
  refine .bind (.physToVirt _) fun _ _ => ?_
  dsimp only
  split <;> exact .ok _

theorem noOverflow_newUser (p : Profile) (owner : Owner) (st : Machine Pool) (kernelPml4 pid : Nat) :
    NoOverflow (st.newUser (poolPages p owner) kernelPml4 pid) := by
  refine .bind (noOverflow_allocPage ..) ?_
  rintro ⟨_ | phys, st'⟩ -
  · exact .ok _
  · exact .bind (noOverflow_track ..) fun _ _ => .bind (.physToVirt _) fun _ _ => .ok _

end Machine

open Machine (noOverflow_track noOverflow_allocBlock noOverflow_allocPage noOverflow_freeBlock noOverflow_map
  noOverflow_translate noOverflow_unmap)

/-! ## Loops over pages -/

variable {p : Profile}

/-- A loop over whole pages below the top ends before its counter overflows. -/
theorem noOverflow_forPages {σ : Type} {body : σ → Nat → Except Stop σ}
    (quiet : ∀ s addr, NoOverflow (body s addr)) {addr stop : Nat}
    (first : PAGE_SIZE ∣ addr) (last : PAGE_SIZE ∣ stop) (top : stop < 2 ^ 64) (s : σ) :
    NoOverflow (forPages p body s addr stop) := by
  unfold forPages
  generalize (stop - addr) / PAGE_SIZE + 1 = fuel
  induction fuel generalizing s addr with
  | zero =>
    rw [pageLoop]
    split
    · exact .stop (by simp)
    · exact .ok _
  | succ fuel ih =>
    rw [pageLoop]
    split
    · have room : addr + PAGE_SIZE < 2 ^ 64 := by
        simp only [PAGE_SIZE] at *
        omega
      refine .bind (quiet s addr) fun s' _ => ?_
      rw [p.add_ok room, ok_bind]
      exact ih (Nat.dvd_add first (Nat.dvd_refl _)) s'
    · exact .ok _

namespace AddressSpace

variable {space : AddressSpace} {st : Machine Pool}

theorem noOverflow_release (space : AddressSpace) (st : Machine Pool) (phys : Nat) :
    NoOverflow (space.release p st phys) :=
  .bind (noOverflow_freeBlock ..) fun _ _ => .ok _

theorem noOverflow_unmapPage (space : AddressSpace) (st : Machine Pool) (addr : Nat) :
    NoOverflow (space.unmapPage p st addr) := by
  refine .bind (noOverflow_unmap ..) ?_
  rintro ⟨_ | phys, st'⟩ -
  · exact .ok _
  · exact noOverflow_release ..

theorem noOverflow_clearPage (space : AddressSpace) (st : Machine Pool) (addr : Nat) :
    NoOverflow (space.clearPage p st addr) := by
  refine .bind (noOverflow_translate ..) ?_
  rintro (_ | phys) -
  · exact .ok _
  · exact .bind (noOverflow_release ..) fun _ _ => .bind (noOverflow_unmap ..) fun _ _ => .ok _

theorem noOverflow_clearUser (wf : Vmas.Wf space.vmas) : NoOverflow (space.clearUser p st) :=
  .bind (.foldlM (fun st v hv => noOverflow_forPages (fun s a => noOverflow_clearPage space s a)
    (wf.proper v hv).start (wf.proper v hv).stop (wf.proper v hv).bound st) st) fun _ _ => .ok _

theorem noOverflow_munmap {addr size start stop : Nat} (range : Vmas.range p addr size = .ok (start, stop))
    (first : PAGE_SIZE ∣ start) (last : PAGE_SIZE ∣ stop) (top : stop < 2 ^ 64) :
    NoOverflow (space.munmap p st addr size) := by
  rw [AddressSpace.munmap, range, ok_bind]
  dsimp only
  split
  · exact .ok _
  · exact .bind (noOverflow_forPages (fun s a => noOverflow_unmapPage space s a) first last top st)
      fun _ _ => .ok _

theorem noOverflow_punchAll {holeStart holeEnd : Nat} {areas vmas : List VMA}
    (proper : ∀ v ∈ areas, v.Proper) (first : PAGE_SIZE ∣ holeStart) (last : PAGE_SIZE ∣ holeEnd)
    (st : Machine Pool) : NoOverflow (space.punchAll p holeStart holeEnd areas vmas st) := by
  induction areas generalizing vmas st with
  | nil => exact .ok _
  | cons v areas ih =>
    have ok := proper v List.mem_cons_self
    refine .bind ?_ ?_
    · refine .bind (noOverflow_forPages (fun s a => noOverflow_unmapPage space s a) ?_ ?_ ?_ st) fun st' _ => ?_
      · rcases Nat.le_total v.start holeStart with le | le
        · rwa [Nat.max_eq_right le]
        · rw [Nat.max_eq_left le]
          exact ok.start
      · rcases Nat.le_total v.stop holeEnd with le | le
        · rw [Nat.min_eq_left le]
          exact ok.stop
        · rwa [Nat.min_eq_right le]
      · exact Nat.lt_of_le_of_lt (Nat.min_le_left _ _) ok.bound
      · split
        · exact .ok _
        split <;> exact .ok _
    · rintro ⟨e | _, vmas', st'⟩ -
      · exact .ok _
      · exact ih (fun w hw => proper w (List.mem_cons_of_mem _ hw)) _

theorem noOverflow_mmapFixed {addr size start stop : Nat} {flags : VMAFlags} {kind : VMAKind}
    (wf : Vmas.Wf space.vmas) (range : Vmas.range p addr size = .ok (start, stop))
    (first : PAGE_SIZE ∣ start) (last : PAGE_SIZE ∣ stop) :
    NoOverflow (space.mmapFixed p st addr size flags kind) := by
  rw [AddressSpace.mmapFixed, range, ok_bind]
  refine .bind (noOverflow_punchAll
    (fun v hv => wf.proper v (AddressSpace.mem_overlapping wf hv).1) first last st) ?_
  rintro ⟨e | _, vmas', st'⟩ -
  · exact .ok _
  dsimp only
  split <;> exact .ok _

end AddressSpace

/-! ## Programs -/

namespace Elf

theorem noOverflow_copyFileBytes {data : List UInt8} {ph : Phdr} {pageVaddr phys : Nat} {st : Machine Pool}
    (page : pageVaddr + PAGE_SIZE < 2 ^ 64) (bytes : ph.vaddr + ph.filesz < 2 ^ 64)
    (file : ph.offset + ph.filesz < 2 ^ 64) : NoOverflow (copyFileBytes p data ph pageVaddr phys st) := by
  rw [copyFileBytes, p.add_ok page, ok_bind, p.add_ok bytes, ok_bind]
  dsimp only
  split
  · rw [p.add_ok (by omega), ok_bind]
    split
    · exact .stop (by simp)
    · exact .ok _
  · exact .ok _

theorem noOverflow_loadPages {space : AddressSpace} {data : List UInt8} {ph : Phdr} {mapStart n idx : Nat}
    (pages : mapStart + (idx + n) * PAGE_SIZE < 2 ^ 64) (bytes : ph.vaddr + ph.filesz < 2 ^ 64)
    (file : ph.offset + ph.filesz < 2 ^ 64) (st : Machine Pool) :
    NoOverflow (loadPages p space data ph mapStart n idx st) := by
  induction n generalizing idx st with
  | zero => exact .ok _
  | succ n ih =>
    have page : mapStart + idx * PAGE_SIZE + PAGE_SIZE < 2 ^ 64 := by
      simp only [PAGE_SIZE] at *
      omega
    rw [loadPages, p.add_ok (by omega), ok_bind]
    refine .bind (noOverflow_allocBlock ..) ?_
    rintro ⟨_ | phys, st'⟩ -
    · exact .ok _
    refine .bind (noOverflow_track ..) fun _ _ => .bind (.physToVirt _) fun _ _ =>
      .bind (noOverflow_copyFileBytes page bytes file) fun _ _ => .bind (noOverflow_map ..) ?_
    rintro ⟨_ | phys, st'⟩ -
    · exact .ok _
    · exact ih (by rwa [Nat.add_right_comm]) _

theorem noOverflow_loadSegment {space : AddressSpace} {data : List UInt8} {ph : Phdr} (load : ph.isLoad)
    (memory : ph.vaddr + ph.memsz + PAGE_SIZE < 2 ^ 64) (bytes : ph.vaddr + ph.filesz < 2 ^ 64)
    (st : Machine Pool) : NoOverflow (loadSegment p space st data ph) := by
  obtain ⟨hs, he, -, -, order, top⟩ := Phdr.bounds load
  unfold loadSegment
  split
  · exact .ok _
  split
  · exact .ok _
  rename_i file _
  rw [segmentRange_eq load memory, ok_bind]
  dsimp only
  split
  · exact .ok _
  · refine .bind (noOverflow_loadPages ?_ bytes (by omega) st) fun _ _ => .ok _
    have whole := Nat.div_mul_le_self (ph.past - ph.first) PAGE_SIZE
    rw [Nat.zero_add]
    omega

theorem noOverflow_load {space : AddressSpace} {data : List UInt8}
    (fits : ∀ i < ePhnum data, (header data i).isLoad →
      (header data i).vaddr + (header data i).memsz + PAGE_SIZE < 2 ^ 64 ∧
      (header data i).vaddr + (header data i).filesz < 2 ^ 64) (st : Machine Pool) :
    NoOverflow (load p space st data) := by
  unfold load
  split
  · exact .ok _
  refine .bind ?_ fun _ _ => .ok _
  have headers (n i : Nat) (inside : i + n ≤ ePhnum data) (space : AddressSpace) (st : Machine Pool) :
      NoOverflow (loadHeaders p data n i space st) := by
    induction n generalizing i space st with
    | zero => exact .ok _
    | succ n ih =>
      rw [loadHeaders]
      split
      · exact ih _ (by omega) _ _
      · rename_i load
        have load : (header data i).isLoad := by simpa using load
        obtain ⟨memory, bytes⟩ := fits i (by omega) load
        refine .bind (noOverflow_loadSegment load memory bytes st) ?_
        rintro ⟨_ | phys, st'⟩ -
        · exact .ok _
        · exact ih _ (by omega) _ _
  exact headers _ 0 (by omega) space st

end Elf

/-! ## Images -/

theorem noOverflow_writeViaPt {pml4 n vaddr : Nat} {data : List UInt8} (fits : vaddr + data.length < 2 ^ 64)
    (st : Machine Pool) : NoOverflow (writeViaPt p pml4 n st vaddr data) := by
  induction n generalizing vaddr data st with
  | zero => exact .ok _
  | succ n ih =>
    rw [writeViaPt]
    split
    · exact .ok _
    refine .bind (noOverflow_translate ..) ?_
    rintro (_ | phys) -
    · exact .ok _
    refine .bind (.physToVirt _) fun _ _ => ?_
    dsimp only
    split
    · rename_i more
      rw [p.add_ok (by omega), ok_bind]
      exact ih (by rw [List.length_drop]; omega) _
    · exact .ok _

theorem noOverflow_buildStack {space : AddressSpace} {stores : List (Nat × List UInt8)}
    (fits : ∀ store ∈ stores, store.1 + store.2.length < 2 ^ 64) (st : Machine Pool) :
    NoOverflow (buildStack p space stores st) := by
  refine .foldlM (fun st store member => .bind (noOverflow_writeViaPt (fits store member) st) ?_) st
  rintro ⟨_ | _, st'⟩ -
  · exact .stop (by simp)
  · exact .ok _

theorem noOverflow_mapFresh (space : AddressSpace) (noFrame noMap : String) (st : Machine Pool) (addr : Nat) :
    NoOverflow (mapFresh p space noFrame noMap st addr) := by
  refine .bind (noOverflow_allocPage ..) ?_
  rintro ⟨_ | phys, st'⟩ -
  · exact .stop (by simp)
  refine .bind (noOverflow_map ..) ?_
  rintro ⟨_ | phys, st'⟩ -
  · exact .stop (by simp)
  · exact .ok _

theorem noOverflow_mapTcb (image : Image) (canary : Nat) (st : Machine Pool) :
    NoOverflow (mapTcb p image canary st) := by
  refine .bind (noOverflow_allocPage ..) ?_
  rintro ⟨_ | phys, st'⟩ -
  · exact .ok _
  refine .bind (.physToVirt _) fun _ _ => .bind (noOverflow_map ..) ?_
  rintro ⟨_ | phys, st'⟩ -
  · exact .stop (by simp)
  · exact .ok _

/-- The kernel image, rounded to pages, ends below the top. -/
def ImageRange.Fits (image : ImageRange) : Prop := image.base + image.size + 0xfff < 2 ^ 64

theorem noOverflow_mapIdentity (space : AddressSpace) (st : Machine Pool) (addr : Nat) :
    NoOverflow (mapIdentity p space st addr) := by
  refine .bind (noOverflow_map ..) ?_
  rintro ⟨_ | _, st'⟩ -
  · exact .stop (by simp)
  · exact .ok _

theorem noOverflow_mapKernelImage {image : ImageRange} (fits : image.Fits) (space : AddressSpace)
    (st : Machine Pool) : NoOverflow (mapKernelImage p space st image) := by
  unfold ImageRange.Fits at fits
  have bounds : image.bounds p = .ok (alignDown image.base PAGE_SIZE,
      alignDown (image.base + image.size + 0xfff) PAGE_SIZE) := by
    rw [ImageRange.bounds, p.add_ok (by omega), ok_bind, p.add_ok fits]
    rfl
  rw [mapKernelImage, bounds, ok_bind]
  refine noOverflow_forPages (noOverflow_mapIdentity space) (dvd_alignDown (by omega)) (dvd_alignDown fits) ?_ st
  rw [alignDown_page fits]
  exact Nat.lt_of_le_of_lt (Nat.div_mul_le_self _ _) fits

theorem noOverflow_forkPage (parent child : AddressSpace) (vma : VMA) (st : Machine Pool) (addr : Nat) :
    NoOverflow (forkPage p parent child vma st addr) := by
  refine .bind (noOverflow_translate ..) ?_
  rintro (_ | src) -
  · exact .ok _
  refine .bind (noOverflow_allocPage ..) ?_
  rintro ⟨_ | dst, st'⟩ -
  · exact .stop (by simp)
  refine .bind (noOverflow_track ..) fun _ _ => ?_
  dsimp only
  split
  · exact .stop (by simp)
  refine .bind (.physToVirt _) fun _ _ => .bind (.physToVirt _) fun _ _ => .bind (noOverflow_map ..) ?_
  rintro ⟨_ | _, st'⟩ -
  · exact .stop (by simp)
  · exact .ok _

theorem noOverflow_forkAreas (parent : AddressSpace) {areas : List VMA} (proper : ∀ v ∈ areas, v.Proper)
    (child : AddressSpace) (st : Machine Pool) : NoOverflow (forkAreas p parent areas child st) := by
  induction areas generalizing child st with
  | nil => exact .ok _
  | cons v areas ih =>
    have ok := proper v List.mem_cons_self
    rw [forkAreas]
    split
    · exact .ok _
    · exact .bind (noOverflow_forPages (fun s a => noOverflow_forkPage parent _ v s a) ok.start ok.stop ok.bound
        st) fun st' _ => ih (fun w hw => proper w (List.mem_cons_of_mem _ hw)) _ st'

theorem noOverflow_forkSpace {image : ImageRange} {kernelPml4 id newPid : Nat} {parent : AddressSpace}
    (fits : image.Fits) (wf : Vmas.Wf parent.vmas) (st : Machine Pool) :
    NoOverflow (forkSpace p image kernelPml4 id parent newPid st) := by
  refine .bind (Machine.noOverflow_newUser ..) ?_
  rintro ⟨_ | pml4, st'⟩ -
  · exact .ok _
  refine .bind (noOverflow_forkAreas _ wf.proper ..) ?_
  rintro ⟨_ | child, st'⟩ -
  · exact .ok _
  · exact .bind (.physToVirt _) fun _ _ => .bind (.physToVirt _) fun _ _ =>
      .bind (noOverflow_mapKernelImage fits ..) fun _ _ => .ok _

theorem noOverflow_forkImage {image : ImageRange} {kernelPml4 id newPid : Nat} {parent : Image}
    {frame : List UInt8} (fits : image.Fits) (wf : Vmas.Wf parent.space.vmas) (st : Machine Pool) :
    NoOverflow (forkImage p image kernelPml4 id parent newPid frame st) := by
  refine .bind (noOverflow_allocBlock ..) ?_
  rintro ⟨_ | kstack, st'⟩ -
  · exact .ok _
  refine .bind (noOverflow_track ..) fun _ _ => .bind (.physToVirt _) fun _ _ =>
    .bind (noOverflow_forkSpace fits wf _) ?_
  rintro ⟨_ | space, st'⟩ -
  · exact .ok _
  · exact .bind (Buddy.noOverflow_checkMetadataIntegrity ..) fun _ _ => .ok _

end Ferrum
