import Ferrum.Kernel.Effect
import Ferrum.Kernel.Overflow

/-!
# The layout of address spaces

Calls whose arguments stay away from the top of the address space keep the areas of every process
non-empty, page-aligned, in order and apart, and such a call does not end in an overflow. The heap area
needs more than that to stay non-empty: the break has never been below it.
-/
namespace Ferrum

open Vmas (Closed Wf)

/-- Well-formed, with no heap above a bound. -/
def Vmas.UpTo (bound : Nat) (l : List VMA) : Prop :=
  Wf l ∧ ∀ v ∈ l, v.kind = .heap → v.stop ≤ bound

/-- An area that such a list may hold. -/
def VMA.UpTo (bound : Nat) (v : VMA) : Prop := v.Proper ∧ (v.kind = .heap → v.stop ≤ bound)

theorem Vmas.closed_upTo (bound : Nat) : Closed (VMA.UpTo bound) (Vmas.UpTo bound) := by
  have heap : Closed (fun v => v.kind = .heap → v.stop ≤ bound)
      fun l => ∀ v ∈ l, v.kind = .heap → v.stop ≤ bound :=
    closed_forall fun u w _ hw _ _ => hw
  exact (closed_wf.mono fun _ h => h.1).and (heap.mono fun _ h => h.2)

theorem Vmas.UpTo.mono {l : List VMA} {b b' : Nat} (h : Vmas.UpTo b l) (le : b ≤ b') :
    Vmas.UpTo b' l :=
  ⟨h.1, fun v hv heap => Nat.le_trans (h.2 v hv heap) le⟩

theorem Vmas.upTo_nil (bound : Nat) : Vmas.UpTo bound [] := ⟨wf_nil, by simp⟩

structure Image.Valid (image : Image) : Prop where
  areas : Vmas.UpTo image.brkCurrent image.space.vmas
  start : PAGE_SIZE ∣ image.brkStart
  order : image.brkStart ≤ image.brkCurrent

variable {p : Profile} {Q : VMA → Prop} {I : List VMA → Prop} {image image' : Image}
  {st st' : Machine Pool}

/-! ## Images -/

theorem addVmaOk_areas (closed : Closed Q I) {space : AddressSpace} {vma : VMA} (h : I space.vmas)
    (new : Q vma) : ∃ vmas, addVmaOk space vma = { space with vmas } ∧ I vmas := by
  unfold addVmaOk
  split
  · rename_i added
    exact ⟨_, rfl, closed.add h new added⟩
  · exact ⟨_, rfl, h⟩

theorem mapTcb_areas (closed : Closed Q I) {canary : Nat} (h : I image.space.vmas)
    (tcb : Q ⟨TCB_PAGE, TCB_PAGE + 0x1000, .rw, .anonymous⟩)
    (run : mapTcb p image canary st = .ok (image', st')) : ∃ vmas fsBase,
      image' = { image with space := { image.space with vmas }, fsBase } ∧ I vmas := by
  obtain ⟨⟨frame, st₁⟩, -, run⟩ := bind_eq_ok.mp run
  cases frame with
  | none =>
    cases run
    exact ⟨_, _, rfl, h⟩
  | some phys =>
    obtain ⟨_, -, run⟩ := bind_eq_ok.mp run
    obtain ⟨⟨mapped, st₂⟩, -, run⟩ := bind_eq_ok.mp run
    cases mapped with
    | none => cases run
    | some =>
      obtain ⟨vmas, same, hv⟩ := addVmaOk_areas closed h tcb
      simp only [same] at run
      cases run
      exact ⟨vmas, _, rfl, hv⟩

/-- What `execve` leaves of the image: new areas, and a new break above them unless the file was
refused. -/
theorem execImage_areas (closed : Closed Q I) (empty : I []) {file : List UInt8}
    {stack : StackImage} {r : Except String Nat}
    (run : execImage p image file stack st = .ok (r, image', st'))
    (new : ∀ j, j < Elf.ePhnum file → (Elf.header file j).isLoad → ∀ start stop bytes,
      Elf.segmentRange p (Elf.header file j) = .ok (start, stop, bytes) →
      Q ⟨start, stop, Elf.pflagsToVma (Elf.header file j).flags, .anonymous⟩)
    (ustack : Q ⟨USTACK_BASE, USTACK_VIRT + 0x1000, .rw, .stack⟩)
    (tcb : Q ⟨TCB_PAGE, TCB_PAGE + 0x1000, .rw, .anonymous⟩) : ∃ vmas fsBase brkStart brkCurrent,
      image' = { image with space := { image.space with vmas }, fsBase, brkStart, brkCurrent } ∧
      I vmas ∧ ((brkStart = image.brkStart ∧ brkCurrent = image.brkCurrent) ∨
        brkStart = brkCurrent ∧ ∃ l, I l ∧ heapStart p l = .ok brkStart) := by
  obtain ⟨⟨space₁, st₁⟩, cleared, run⟩ := bind_eq_ok.mp run
  obtain ⟨_, -, out⟩ := bind_eq_ok.mp cleared
  obtain ⟨rfl, rfl⟩ := Prod.mk.inj (Except.ok.inj out)
  obtain ⟨⟨loaded, space₂, st₂⟩, load, run⟩ := bind_eq_ok.mp run
  obtain ⟨vmas, rfl, hv⟩ := Elf.load_areas closed load empty new
  cases loaded with
  | error e =>
    cases run
    exact ⟨vmas, _, _, _, rfl, hv, .inl ⟨rfl, rfl⟩⟩
  | ok entry =>
    obtain ⟨brk, heap, run⟩ := bind_eq_ok.mp run
    obtain ⟨st₃, -, run⟩ := bind_eq_ok.mp run
    obtain ⟨st₄, -, run⟩ := bind_eq_ok.mp run
    obtain ⟨⟨image₁, st₅⟩, mapped, run⟩ := bind_eq_ok.mp run
    obtain ⟨rfl, rfl, rfl⟩ := Except.ok.inj run
    obtain ⟨vmas₁, same, hv₁⟩ := addVmaOk_areas closed
      (show I (AddressSpace.mk image.space.pml4 vmas image.space.ownerPid image.space.id).vmas from hv)
      ustack
    simp only [same] at mapped
    obtain ⟨vmas₂, fsBase, rfl, hv₂⟩ := mapTcb_areas closed
      (show I (Image.mk _ image.kernelStackAlloc image.fsBase brk brk).space.vmas from hv₁) tcb mapped
    exact ⟨vmas₂, fsBase, brk, brk, rfl, hv₂, .inr ⟨rfl, vmas, hv, heap⟩⟩

theorem forkAreas_areas (closed : Closed Q I) {parent child child' : AddressSpace} {areas : List VMA}
    (all : ∀ v ∈ areas, Q v) (h : I child.vmas)
    (run : forkAreas p parent areas child st = .ok (some child', st')) :
    ∃ vmas, child' = { child with vmas } ∧ I vmas := by
  induction areas generalizing child st with
  | nil =>
    cases run
    exact ⟨_, rfl, h⟩
  | cons vma areas ih =>
    rw [forkAreas] at run
    split at run
    · cases run
    · rename_i vmas added
      obtain ⟨st₁, -, run⟩ := bind_eq_ok.mp run
      have hv : I (AddressSpace.mk child.pml4 vmas child.ownerPid child.id).vmas :=
        closed.add h (all vma List.mem_cons_self) added
      obtain ⟨vmas', rfl, hv'⟩ := ih (fun v hv => all v (List.mem_cons_of_mem _ hv)) hv run
      exact ⟨vmas', rfl, hv'⟩

/-- The image of a child: new tables, the areas of the parent and its break. -/
theorem forkImage_areas (closed : Closed Q I) (empty : I []) {range : ImageRange}
    {kernelPml4 id pid : Nat} {frame : List UInt8} {child : Image}
    (all : ∀ v ∈ image.space.vmas, Q v)
    (run : forkImage p range kernelPml4 id image pid frame st = .ok (some child, st')) :
    ∃ pml4 vmas kstack, child = { image with
      space := ⟨pml4, vmas, pid, id⟩, kernelStackAlloc := some (kstack, KSTACK_ORDER) } ∧ I vmas := by
  obtain ⟨⟨kstack, st₁⟩, -, run⟩ := bind_eq_ok.mp run
  cases kstack with
  | none => cases run
  | some kstack =>
    obtain ⟨pool, -, run⟩ := bind_eq_ok.mp run
    obtain ⟨_, -, run⟩ := bind_eq_ok.mp run
    obtain ⟨⟨child, st₂⟩, made, run⟩ := bind_eq_ok.mp run
    cases child with
    | none => cases run
    | some space =>
      obtain ⟨_, -, run⟩ := bind_eq_ok.mp run
      obtain ⟨rfl, rfl⟩ := Except.ok.inj run
      obtain ⟨⟨root, st₃⟩, -, made⟩ := bind_eq_ok.mp made
      cases root with
      | none => cases made
      | some pml4 =>
        obtain ⟨⟨child, st₄⟩, copied, made⟩ := bind_eq_ok.mp made
        cases child with
        | none => cases made
        | some child =>
          obtain ⟨vmas, rfl, hv⟩ := forkAreas_areas closed all empty copied
          obtain ⟨_, -, made⟩ := bind_eq_ok.mp made
          obtain ⟨_, -, made⟩ := bind_eq_ok.mp made
          obtain ⟨_, -, made⟩ := bind_eq_ok.mp made
          cases made
          exact ⟨pml4, vmas, kstack, rfl, hv⟩

/-! ## Arguments away from the top of the address space -/

/-- The page range from `addr` on does not reach the top. -/
def RangeFits (addr len : Nat) : Prop :=
  addr + PAGE_SIZE < 2 ^ 64 ∧ roundUp addr + len + PAGE_SIZE < 2 ^ 64

instance (addr len : Nat) : Decidable (RangeFits addr len) := inferInstanceAs (Decidable (_ ∧ _))

/-- The arguments that keep areas non-empty and arithmetic from overflowing. In a release build
`munmap` may be given anything. -/
def Fits (p : Profile) (image : Image) : Kernel.Call → Prop
  | .mmap addr len _ flags =>
    0 < len ∧ if addr ≠ 0 ∧ flags &&& MAP_FIXED ≠ 0 then RangeFits addr len
      else len + PAGE_SIZE < 2 ^ 64
  | .munmap addr len => p = .dev → RangeFits addr len
  | .brk requested => image.brkCurrent < requested → requested + 0xfff < 2 ^ 64
  | .execve (some file) _ => ∀ i < Elf.ePhnum file, (Elf.header file i).isLoad →
      (Elf.header file i).vaddr + (Elf.header file i).memsz + PAGE_SIZE < 2 ^ 64 ∧
      (Elf.header file i).vaddr + (Elf.header file i).filesz < 2 ^ 64
  | _ => True

theorem proper_mk {start len : Nat} {flags : VMAFlags} {kind : VMAKind} (page : PAGE_SIZE ∣ start)
    (pos : 0 < len) (top : start + len + PAGE_SIZE < 2 ^ 64) :
    VMA.Proper ⟨start, start + roundUp len, flags, kind⟩ := by
  have low := le_roundUp len
  have high := roundUp_lt len
  exact ⟨by simp only; omega, page, Nat.dvd_add page (dvd_roundUp len), by simp only; omega⟩

/-- The highest end of an area is page-aligned, so there is room to round it up. -/
theorem heapStart_ok (p : Profile) {l : List VMA} (wf : Wf l) :
    ∃ brk, heapStart p l = .ok brk ∧ PAGE_SIZE ∣ brk := by
  have loop : ∀ (l : List VMA) (h : Nat), (∀ v ∈ l, v.Proper) → PAGE_SIZE ∣ h → h < 2 ^ 64 →
      PAGE_SIZE ∣ l.foldl (fun highest v =>
        if v.kind ≠ .stack ∧ highest < v.stop then v.stop else highest) h ∧
      l.foldl (fun highest v =>
        if v.kind ≠ .stack ∧ highest < v.stop then v.stop else highest) h < 2 ^ 64 := by
    intro l
    induction l with
    | nil => exact fun h _ page top => ⟨page, top⟩
    | cons v l ih =>
      intro h proper page top
      have hv := proper v List.mem_cons_self
      rw [List.foldl_cons]
      refine ih _ (fun w hw => proper w (List.mem_cons_of_mem _ hw)) ?_ ?_
      · split
        · exact hv.stop
        · exact page
      · split
        · exact hv.bound
        · exact top
  obtain ⟨page, top⟩ := loop l 0 wf.proper (Nat.dvd_zero _) (by omega)
  unfold heapStart
  generalize l.foldl _ 0 = highest at page top
  have room : highest + 0xfff < 2 ^ 64 := by
    obtain ⟨n, rfl⟩ := page
    simp only [PAGE_SIZE] at *
    omega
  simp only [p.add_ok room, ok_bind, pure_eq_ok]
  exact ⟨_, rfl, dvd_alignDown room⟩

/-! ## Every call keeps images valid -/

namespace Image.Valid

theorem mmap (valid : image.Valid) {addr len prot flags : Nat} {r : Except String Nat}
    (fits : Fits p image (.mmap addr len prot flags))
    (run : mmapImage p image addr len prot flags st = .ok (r, image', st')) : image'.Valid := by
  obtain ⟨pos, fits⟩ := fits
  have anonymous {v : VMA} (proper : v.Proper) (kind : v.kind = .anonymous) :
      v.UpTo image.brkCurrent := ⟨proper, fun heap => by rw [kind] at heap; cases heap⟩
  unfold mmapImage at run
  split at run
  · rename_i fixed
    rw [if_pos fixed] at fits
    have ranged := Vmas.range_ok p fits.1 fits.2
    obtain ⟨⟨r', space, st₁⟩, ran, out⟩ := bind_eq_ok.mp run
    obtain ⟨rfl, rfl, rfl⟩ := Except.ok.inj out
    have new : ∀ start stop, Vmas.range p addr len = .ok (start, stop) →
        VMA.UpTo image.brkCurrent ⟨start, stop, protToVma prot, .anonymous⟩ ∧
        ∀ v ∈ AddressSpace.overlapping image.space.vmas start stop,
          AddressSpace.Leaves (VMA.UpTo image.brkCurrent) start stop v := by
      intro start stop same
      obtain ⟨rfl, rfl⟩ := Prod.mk.inj (Except.ok.inj (ranged.symm.trans same))
      refine ⟨anonymous (proper_mk (dvd_roundUp addr) pos fits.2) rfl, fun v hv => ?_⟩
      obtain ⟨mem, first, last⟩ := AddressSpace.mem_overlapping valid.areas.1 hv
      have proper := valid.areas.1.proper v mem
      have heap := valid.areas.2 v mem
      have page : PAGE_SIZE ∣ roundUp addr + roundUp len :=
        Nat.dvd_add (dvd_roundUp addr) (dvd_roundUp len)
      refine ⟨fun left => ⟨?_, fun kind => ?_⟩, fun right => ⟨?_, heap⟩⟩
      · exact Vmas.proper_piece proper proper.start (dvd_roundUp addr) left (by omega)
      · have := heap kind
        simp only [Vmas.piece]
        omega
      · exact Vmas.proper_piece proper page proper.stop right (Nat.le_refl _)
    obtain ⟨vmas, rfl, areas⟩ := AddressSpace.mmapFixed_areas (Vmas.closed_upTo image.brkCurrent) ran
      valid.areas new
    exact ⟨areas, valid.start, valid.order⟩
  · rename_i free
    rw [if_neg free] at fits
    obtain ⟨⟨r', space⟩, ran, out⟩ := bind_eq_ok.mp run
    obtain ⟨rfl, rfl, rfl⟩ := Except.ok.inj out
    have new : ∀ start stop, Vmas.place p image.space.vmas 0 len = .ok (some (start, stop)) →
        VMA.UpTo image.brkCurrent ⟨start, stop, protToVma prot, .anonymous⟩ := by
      intro start stop same
      rcases Vmas.place_ok p valid.areas.1 pos fits with none | ⟨s, placed, page, low, high⟩
      · rw [none] at same
        cases same
      · obtain ⟨rfl, rfl⟩ := Prod.mk.inj (Option.some.inj (Except.ok.inj (placed.symm.trans same)))
        refine anonymous (proper_mk page pos ?_) rfl
        have := le_roundUp len
        simp only [MMAP_ZONE_END, PAGE_SIZE] at high ⊢
        omega
    obtain ⟨vmas, rfl, areas⟩ := AddressSpace.mmap_areas (Vmas.closed_upTo image.brkCurrent) ran
      valid.areas new
    exact ⟨areas, valid.start, valid.order⟩

theorem munmap (valid : image.Valid) {addr len : Nat}
    (run : munmapImage p image addr len st = .ok (image', st')) : image'.Valid := by
  obtain ⟨⟨r, space, st₁⟩, ran, out⟩ := bind_eq_ok.mp run
  obtain ⟨rfl, rfl⟩ := Except.ok.inj out
  obtain ⟨vmas, rfl, areas⟩ := AddressSpace.munmap_areas (Vmas.closed_upTo image.brkCurrent) ran
    valid.areas
  exact ⟨areas, valid.start, valid.order⟩

theorem heapArea_upTo {l : List VMA} {bound start newEnd : Nat} (h : Vmas.UpTo bound l)
    (page : PAGE_SIZE ∣ start) (order : start ≤ bound) (past : bound < newEnd)
    (page' : PAGE_SIZE ∣ newEnd) (top : newEnd < 2 ^ 64) :
    (Vmas.heapArea l start newEnd).UpTo newEnd := by
  unfold Vmas.heapArea
  split
  · rename_i best last
    obtain ⟨mem, heap⟩ := Vmas.lastHeap_mem last
    have proper := h.1.proper best mem
    have := h.2 best mem heap
    have := proper.nonempty
    exact ⟨⟨by simp only; omega, proper.start, page', top⟩, fun _ => Nat.le_refl _⟩
  · exact ⟨⟨by simp only; omega, page, page', top⟩, fun _ => Nat.le_refl _⟩

theorem brk (valid : image.Valid) {requested : Nat} (fits : Fits p image (.brk requested)) :
    ∃ r image', brkImage p image requested = .ok (r, image') ∧ image'.Valid := by
  unfold brkImage
  split
  · exact ⟨_, _, rfl, valid⟩
  · rename_i more
    have past : image.brkCurrent < requested := by omega
    have room := fits past
    rw [p.add_ok room, ok_bind]
    have aligned : alignDown (requested + 0xfff) PAGE_SIZE = roundUp requested := alignDown_page room
    have up := le_roundUp requested
    have top : roundUp requested < 2 ^ 64 := by
      simp only [roundUp, PAGE_SIZE]
      omega
    have new := heapArea_upTo valid.areas valid.start valid.order (Nat.lt_of_lt_of_le past up)
      (dvd_roundUp requested) top
    obtain ⟨rest, kept, made⟩ := Vmas.extendHeap_cases valid.areas.1.laid image.brkStart (roundUp requested)
    have left : Vmas.UpTo image.brkCurrent rest := by
      rcases kept with ⟨rfl, -⟩ | ⟨best, -, removed⟩
      · exact valid.areas
      · exact (Vmas.closed_upTo _).remove valid.areas removed
    rw [aligned]
    rcases made with ⟨e, -, made⟩ | ⟨l', added, made⟩
    · simp only [AddressSpace.extendHeap, made, ok_bind, pure_eq_ok]
      exact ⟨_, _, rfl, left, valid.start, valid.order⟩
    · simp only [AddressSpace.extendHeap, made, ok_bind, pure_eq_ok]
      have wider := left.mono (Nat.le_of_lt (Nat.lt_of_lt_of_le past up))
      exact ⟨_, _, rfl, (Vmas.closed_upTo _).add wider new added, valid.start,
        Nat.le_trans valid.order (Nat.le_of_lt (Nat.lt_of_lt_of_le past up))⟩

theorem segment_upTo {file : List UInt8} {stack : StackImage} (fits : Fits p image (.execve (some file) stack)) :
    ∀ j, j < Elf.ePhnum file → (Elf.header file j).isLoad → ∀ start stop bytes,
      Elf.segmentRange p (Elf.header file j) = .ok (start, stop, bytes) →
      VMA.UpTo 0 ⟨start, stop, Elf.pflagsToVma (Elf.header file j).flags, .anonymous⟩ := by
  intro j hj load start stop bytes ranged
  have room := (fits j hj load).1
  obtain ⟨hs, he, -, -, order, top⟩ := Elf.Phdr.bounds load
  obtain ⟨rfl, rfl, -⟩ := Except.ok.inj ((Elf.segmentRange_eq load room).symm.trans ranged)
  exact ⟨⟨order, hs, he, by simp only; omega⟩, nofun⟩

theorem execve (valid : image.Valid) {file : List UInt8} {stack : StackImage}
    {r : Except String Nat} (fits : Fits p image (.execve (some file) stack))
    (run : execImage p image file stack st = .ok (r, image', st')) : image'.Valid := by
  have ustack : VMA.UpTo 0 ⟨USTACK_BASE, USTACK_VIRT + 0x1000, .rw, .stack⟩ :=
    ⟨⟨by decide, by decide, by decide, by decide⟩, nofun⟩
  have tcb : VMA.UpTo 0 ⟨TCB_PAGE, TCB_PAGE + 0x1000, .rw, .anonymous⟩ :=
    ⟨⟨by decide, by decide, by decide, by decide⟩, nofun⟩
  obtain ⟨vmas, fsBase, brkStart, brkCurrent, rfl, areas, brk⟩ := execImage_areas
    (Vmas.closed_upTo 0) (Vmas.upTo_nil 0) run (segment_upTo fits) ustack tcb
  rcases brk with ⟨rfl, rfl⟩ | ⟨rfl, l, hl, heap⟩
  · exact ⟨areas.mono (Nat.zero_le _), valid.start, valid.order⟩
  · obtain ⟨brk, ok, page⟩ := heapStart_ok p hl.1
    obtain rfl := Except.ok.inj (ok.symm.trans heap)
    exact ⟨areas.mono (Nat.zero_le _), page, Nat.le_refl _⟩

theorem fork (valid : image.Valid) {range : ImageRange} {kernelPml4 id pid : Nat}
    {frame : List UInt8} {child : Image}
    (run : forkImage p range kernelPml4 id image pid frame st = .ok (some child, st')) :
    child.Valid := by
  obtain ⟨pml4, vmas, kstack, rfl, areas⟩ := forkImage_areas (Vmas.closed_upTo image.brkCurrent)
    (Vmas.upTo_nil _) (fun v hv => ⟨valid.areas.1.proper v hv, valid.areas.2 v hv⟩) run
  exact ⟨areas, valid.start, valid.order⟩

end Image.Valid

namespace Kernel

open Scheduler

variable {k k' : Kernel} {call : Call} {answer : Answer Image}

theorem current_eq_some (current : k.current = some image) :
    ∃ a, k.sys.sched.slot k.sys.sched.currentIdx = some a ∧ a.image = image := by
  obtain ⟨a, found, rfl⟩ := Option.map_eq_some_iff.mp current
  exact ⟨a, (Scheduler.current_eq_some found).2, rfl⟩

/-- The image of every process. -/
def EachImage (P : Image → Prop) (k : Kernel) : Prop := k.sys.sched.Each fun a => P a.image

section EachImage

variable {P : Image → Prop}

theorem EachImage.current (h : k.EachImage P) (current : k.current = some image) : P image := by
  obtain ⟨a, held, rfl⟩ := current_eq_some current
  exact h _ a held

theorem EachImage.same (h : k.EachImage P) {s : Scheduler Image}
    (images : System.SameImages k.sys.sched s) : s.Each fun a => P a.image := by
  intro i b hb
  obtain ⟨a, ha, same⟩ := images i b hb
  rw [same]
  exact h i a ha

theorem EachImage.withImage (h : k.EachImage P) (new : P image) (mach : Machine Pool) :
    (k.withImage image mach).EachImage P :=
  each_update h fun _ _ _ => new

theorem EachImage.adopt (h : k.EachImage P) {pid : Nat} {child : Option Image}
    (new : ∀ image, child = some image → P image) :
    (k.sys.adopt pid child).2.sched.Each fun a => P a.image := by
  unfold System.adopt
  split
  · rename_i parent image current
    exact each_adopt h (new image rfl)
  · exact h

/-- A property of images that calls on the own image, forks and nothing else could break. -/
theorem Effect.eachImage (effect : Effect p k call k') (h : k.EachImage P)
    (works : ∀ image image' mach, k.current = some image → P image →
      Works p image k.mach call image' mach → P image')
    (fork : ∀ parent pid frame child mach, k.current = some parent → P parent →
      forkImage p k.image k.kernelPml4 k.spaces parent pid frame k.mach = .ok (some child, mach) →
      P child) : k'.EachImage P := by
  cases effect with
  | same => exact h
  | system step images => exact h.same images
  | works runs current work =>
    exact h.withImage (works _ _ _ current (h.current current) work) _
  | fork runs chosen current run =>
    refine h.adopt ?_
    rintro image rfl
    exact fork _ _ _ _ _ current (h.current current) run
  | fault current low run rest images => exact h.same images
  | reap step held gone images named run =>
    obtain ⟨mach, rfl⟩ := bury_sys run
    exact h.same images
  | _ => exact h

end EachImage

/-- The init process alone, with a valid image, in a kernel that lies below the top of memory. -/
structure Started (k : Kernel) : Prop where
  system : System.Initial k.sys
  valid : k.EachImage Image.Valid
  kernel : k.image.Fits

/-- The current process makes a call whose arguments fit. -/
def FittingStep (p : Profile) (k k' : Kernel) : Prop :=
  ∃ call answer, (∀ image, k.current = some image → Fits p image call) ∧ Step p k call answer k'

theorem Step.valid (step : Step p k call answer k') (h : k.EachImage Image.Valid)
    (fits : ∀ image, k.current = some image → Fits p image call) : k'.EachImage Image.Valid := by
  refine step.effect.eachImage h (fun image image' mach current valid work => ?_)
    fun parent pid frame child mach _ valid run => valid.fork run
  have ok := fits image current
  cases work with
  | mmap run => exact valid.mmap ok run
  | munmap run => exact valid.munmap run
  | brk run =>
    obtain ⟨r, made, same, valid'⟩ := valid.brk ok
    obtain ⟨-, rfl⟩ := Prod.mk.inj (Except.ok.inj (same.symm.trans run))
    exact valid'
  | execve run => exact valid.execve ok run

theorem valid_of_fitting (h : Reachable Started (FittingStep p) k) :
    k.EachImage Image.Valid ∧ k.image.Fits := by
  refine h.invariant (P := fun k => k.EachImage Image.Valid ∧ k.image.Fits)
    (fun k h₀ => ⟨h₀.valid, h₀.kernel⟩) ?_
  rintro k k' ⟨valid, kernel⟩ ⟨call, answer, fits, step⟩
  exact ⟨step.valid valid fits, step.effect.image_eq ▸ kernel⟩

/-! ## Calls that do not overflow -/

theorem range_pages {addr len : Nat} (fits : p = .dev → RangeFits addr len) :
    ∃ start stop, Vmas.range p addr len = .ok (start, stop) ∧ PAGE_SIZE ∣ start ∧ PAGE_SIZE ∣ stop ∧
      stop < 2 ^ 64 := by
  cases p with
  | dev =>
    obtain ⟨low, high⟩ := fits rfl
    have := roundUp_lt len
    exact ⟨_, _, Vmas.range_ok .dev low high, dvd_roundUp addr,
      Nat.dvd_add (dvd_roundUp addr) (dvd_roundUp len), by omega⟩
  | release =>
    simp only [Vmas.range, alignUp_release, ok_bind, Profile.add, pure_eq_ok]
    refine ⟨_, _, rfl, Nat.dvd_mul_left _ _, Nat.dvd_mul_left _ _, ?_⟩
    exact Nat.lt_of_le_of_lt (Nat.div_mul_le_self _ _) (Nat.mod_lt _ (by omega))

theorem noOverflow_mmapImage {addr len prot flags : Nat} (valid : image.Valid)
    (fits : Fits p image (.mmap addr len prot flags)) :
    NoOverflow (mmapImage p image addr len prot flags st) := by
  obtain ⟨pos, fits⟩ := fits
  unfold mmapImage
  split
  · rename_i fixed
    rw [if_pos fixed] at fits
    obtain ⟨start, stop, range, first, last, -⟩ := range_pages (p := p) fun _ => fits
    exact .bind (AddressSpace.noOverflow_mmapFixed valid.areas.1 range first last) fun _ _ => .ok _
  · rename_i free
    rw [if_neg free] at fits
    refine .bind (.bind (.bind ?_ ?_) ?_) fun _ _ => .ok _
    · rcases Vmas.place_ok p valid.areas.1 pos fits with placed | ⟨start, placed, -⟩ <;> rw [placed] <;>
        exact .ok _
    · rintro (_ | ⟨start, stop⟩) - <;> exact .ok _
    · rintro (_ | ⟨start, vmas⟩) - <;> exact .ok _

theorem noOverflow_execImage {file : List UInt8} {stack : StackImage} (valid : image.Valid)
    (fits : Fits p image (.execve (some file) stack))
    (stores : ∀ store ∈ stack.stores, store.1 + store.2.length < 2 ^ 64) :
    NoOverflow (execImage p image file stack st) := by
  refine .bind (AddressSpace.noOverflow_clearUser valid.areas.1) ?_
  rintro ⟨space, st₁⟩ cleared
  obtain ⟨_, -, out⟩ := bind_eq_ok.mp cleared
  obtain ⟨rfl, rfl⟩ := Prod.mk.inj (Except.ok.inj out)
  refine .bind (Elf.noOverflow_load fits _) ?_
  rintro ⟨loaded, space₂, st₂⟩ load
  obtain ⟨vmas, rfl, areas⟩ := Elf.load_areas (Vmas.closed_upTo 0) load (Vmas.upTo_nil 0)
    (Image.Valid.segment_upTo fits)
  cases loaded with
  | error e => exact .ok _
  | ok entry =>
    obtain ⟨brk, heap, -⟩ := heapStart_ok p areas.1
    refine .bind (heap ▸ .ok brk) fun _ _ => .bind (.foldlM (fun st i _ => noOverflow_mapFresh ..) _)
      fun _ _ => .bind (noOverflow_buildStack stores _) fun _ _ => .bind (noOverflow_mapTcb ..) fun _ _ => .ok _

theorem noOverflow_onImage {f : Image → Machine Pool → Except Stop (Answer Image × Image × Machine Pool)}
    (quiet : ∀ image, k.current = some image → NoOverflow (f image k.mach)) : NoOverflow (k.onImage f) := by
  unfold onImage
  cases current : k.current with
  | none => exact .ok _
  | some image => exact .bind (quiet image current) fun _ _ => .ok _

/-- The calls that change the areas of address spaces. -/
def Call.OnAreas : Call → Prop
  | .mmap _ _ _ _ | .munmap _ _ | .brk _ | .fork _ | .execve _ _ => True
  | _ => False

/-- The arithmetic of a call on other things than areas: where the new stack is written, and the number
of a child. -/
def Bounded (p : Profile) (k : Kernel) : Call → Prop
  | .execve _ stack => ∀ store ∈ stack.stores, store.1 + store.2.length < 2 ^ 64
  | .fork _ => p = .dev → k.sys.sched.maxPid + 1 < 2 ^ 64
  | _ => True

theorem noOverflow_perform (valid : k.EachImage Image.Valid) (kernel : k.image.Fits)
    (areas : call.OnAreas) (fits : ∀ image, k.current = some image → Fits p image call)
    (bounded : k.Bounded p call) : NoOverflow (k.perform p call) := by
  cases call with
  | mmap addr len prot flags =>
    rw [perform, Kernel.mmap]
    refine noOverflow_onImage ?_
    intro image current
    exact .bind (noOverflow_mmapImage (valid.current current) (fits image current)) fun _ _ => .ok _
  | munmap addr len =>
    rw [perform, Kernel.munmap]
    refine noOverflow_onImage ?_
    intro image current
    refine .bind (.bind ?_ fun _ _ => .ok _) fun _ _ => .ok _
    obtain ⟨start, stop, range, first, last, top⟩ := range_pages (fits image current)
    exact AddressSpace.noOverflow_munmap range first last top
  | brk requested =>
    rw [perform, Kernel.brk]
    refine noOverflow_onImage ?_
    intro image current
    refine .bind ?_ fun _ _ => .ok _
    obtain ⟨r, image', run, -⟩ := (valid.current current).brk (fits image current)
    exact run ▸ .ok _
  | fork frame =>
    refine .bind (.add bounded) fun pid _ => ?_
    cases current : k.current with
    | none => exact .ok _
    | some parent => exact .bind (noOverflow_forkImage kernel (valid.current current).areas.1 _) fun _ _ => .ok _
  | execve file stack =>
    cases file with
    | none => exact .ok _
    | some file =>
      rw [perform, Kernel.execve]
      refine noOverflow_onImage ?_
      intro image current
      exact .bind (noOverflow_execImage (valid.current current) (fits image current) bounded)
        fun _ _ => .ok _
  | _ => exact areas.elim

/-- The areas of an address space as their users assume them. -/
def Layout (l : List VMA) : Prop :=
  (∀ v ∈ l, v.start < v.stop ∧ PAGE_SIZE ∣ v.start ∧ PAGE_SIZE ∣ v.stop) ∧
  l.Pairwise (fun v w => v.start < w.start) ∧ l.Pairwise fun v w => v.stop ≤ w.start

theorem layout_of_wf {l : List VMA} (wf : Wf l) : Layout l := by
  refine ⟨fun v hv => ⟨(wf.proper v hv).nonempty, (wf.proper v hv).start, (wf.proper v hv).stop⟩,
    wf.sorted.imp_of_mem fun {v w} hv _ order => ?_, wf.sorted⟩
  exact Nat.lt_of_lt_of_le (wf.proper v hv).nonempty order

/-- In every run of calls whose arguments fit, the areas of every process are laid out properly, and
the next such call does not end in an overflow. -/
theorem layout_of_fitting (h : Reachable Started (FittingStep p) k) :
    (∀ i a, k.sys.sched.slot i = some a → Layout a.image.space.vmas) ∧
    ∀ call : Call, call.OnAreas → (∀ image, k.current = some image → Fits p image call) → k.Bounded p call →
      k.perform p call ≠ .error .overflow := by
  obtain ⟨valid, kernel⟩ := valid_of_fitting h
  exact ⟨fun i a held => layout_of_wf (valid i a held).areas.1,
    fun call areas fits bounded => (noOverflow_perform valid kernel areas fits bounded).ne⟩

/-! ## Runs -/

/-- A kernel with one process, which has not run yet. -/
def loneInit (image : Image) (mach : Machine Pool) (range : ImageRange) (kernelPml4 spaces : Nat) :
    Kernel where
  sys := ⟨⟨[some ⟨1, 0, .ready, 0, .user, (FdTable.newStdio ⟨[], [], []⟩).1, image, 0, 0⟩], 0, false,
    false, 1⟩, (FdTable.newStdio ⟨[], [], []⟩).2⟩
  mach := mach
  kernelPml4 := kernelPml4
  image := range
  spaces := spaces

section LoneInit

variable {mach : Machine Pool} {range : ImageRange} {kernelPml4 spaces : Nat}

theorem loneInit_initial : System.Initial (loneInit image mach range kernelPml4 spaces).sys :=
  ⟨⟨_, rfl, rfl, rfl, rfl, rfl, by simp [loneInit], rfl⟩, rfl, rfl⟩

theorem loneInit_eachImage {P : Image → Prop} (h : P image) :
    (loneInit image mach range kernelPml4 spaces).EachImage P := by
  intro i a held
  match i with
  | 0 =>
    cases held
    exact h
  | i + 1 => cases held

end LoneInit

/-- An image without areas. -/
def bareImage : Image := ⟨⟨0x1000, [], 1, 0⟩, none, 0, 0x400000, 0x400000⟩

def bare : Kernel := loneInit bareImage ⟨fun _ => 0, ⟨.new, [], []⟩⟩ ⟨0, 0⟩ 0 1

theorem bare_started : Started bare := by
  refine ⟨loneInit_initial, loneInit_eachImage ⟨Vmas.upTo_nil _, ?_, Nat.le_refl _⟩, ?_⟩
  · exact ⟨0x400, rfl⟩
  · show 0 + 0 + 0xfff < 2 ^ 64
    decide

/-- `mmap` of nothing succeeds and leaves an area that ends where it starts. -/
theorem empty_area (p : Profile) : ∃ k : Kernel,
    Reachable Started (fun k k' => ∃ call answer, Step p k call answer k') k ∧
    ∃ i a v, k.sys.sched.slot i = some a ∧ v ∈ a.image.space.vmas ∧ ¬ v.start < v.stop := by
  have start : Reachable Started (fun k k' => ∃ call answer, Step p k call answer k') bare :=
    .start bare_started
  have running := start.next ⟨.plain .timer, .ret 0, ⟨rfl, rfl⟩, rfl⟩
  have mapped := running.next ⟨.mmap 0 0 3 0x22, .ret MMAP_ZONE_START, ⟨rfl, _, rfl, rfl⟩,
    by cases p <;> rfl⟩
  exact ⟨_, mapped, 0, _, ⟨MMAP_ZONE_START, MMAP_ZONE_START, protToVma 3, .anonymous⟩, rfl,
    List.mem_singleton.mpr rfl, by simp⟩

theorem mmap_of_nothing :
    (∃ k : Kernel, Reachable Started (fun k k' => ∃ call answer, Step .dev k call answer k') k ∧
      ∃ i a v, k.sys.sched.slot i = some a ∧ v ∈ a.image.space.vmas ∧ ¬ v.start < v.stop) ∧
    ∃ k : Kernel, Reachable Started (fun k k' => ∃ call answer, Step .release k call answer k') k ∧
      ∃ i a v, k.sys.sched.slot i = some a ∧ v ∈ a.image.space.vmas ∧ ¬ v.start < v.stop :=
  ⟨empty_area .dev, empty_area .release⟩

/-- Two mappings and a hole between them. -/
theorem layout_after_mmap : ∃ k : Kernel, k.current.map (fun image => image.space.vmas.length) =
    some 2 ∧ (∀ i a, k.sys.sched.slot i = some a → Layout a.image.space.vmas) ∧
    ∀ call : Call, call.OnAreas → (∀ image, k.current = some image → Fits .dev image call) →
      k.Bounded .dev call → k.perform .dev call ≠ .error .overflow := by
  have start : Reachable Started (FittingStep .dev) bare := .start bare_started
  have running := start.next ⟨.plain .timer, .ret 0, fun _ _ => trivial, ⟨rfl, rfl⟩, rfl⟩
  have first := running.next ⟨.mmap 0 0x3000 3 0x22, .ret MMAP_ZONE_START, fun _ _ =>
    ⟨by decide, by decide⟩, ⟨rfl, _, rfl, rfl⟩, rfl⟩
  have second := first.next ⟨.mmap (MMAP_ZONE_START + 0x5000) 0x1000 1 0x32,
    .ret (MMAP_ZONE_START + 0x5000), fun _ _ => ⟨by decide, by decide⟩, ⟨rfl, _, rfl, rfl⟩, rfl⟩
  exact ⟨_, rfl, layout_of_fitting second⟩

end Kernel

end Ferrum
