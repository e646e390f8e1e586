import Ferrum.Kernel.Ownership

/-!
# The lower half

Areas belong into the lower half of the address space: the upper half of every page table leads to
tables that all processes share with the kernel. Nothing in the calls checks this. Where the ranges
that calls name end in the lower half, every area does, and no page is mapped or unmapped elsewhere.
-/
namespace Ferrum

variable {S : Set Nat} {p : Profile}

/-- The addresses that a loop over the pages of a range visits. -/
def pageAddrs (start stop : Nat) : Set Nat := {a | ∃ i, a = start + i * PAGE_SIZE ∧ a < stop}

/-- A loop over the pages of a range calls its body, in which the page is mapped or unmapped, at these
addresses only. -/
theorem forPages_congr {σ : Type} {body body' : σ → Nat → Except Stop σ} {start stop : Nat}
    (top : stop + PAGE_SIZE ≤ 2 ^ 64) (same : ∀ a ∈ pageAddrs start stop, ∀ s, body s a = body' s a)
    (s : σ) : forPages p body s start stop = forPages p body' s start stop := by
  have loop : ∀ fuel s i, pageLoop p body fuel s (start + i * PAGE_SIZE) stop =
      pageLoop p body' fuel s (start + i * PAGE_SIZE) stop := by
    intro fuel
    induction fuel with
    | zero => exact fun _ _ => rfl
    | succ fuel ih =>
      intro s i
      rw [pageLoop, pageLoop]
      split
      · rename_i inside
        have next : p.add (start + i * PAGE_SIZE) PAGE_SIZE = .ok (start + (i + 1) * PAGE_SIZE) := by
          rw [Profile.add_ok p (by omega), Nat.add_mul, Nat.one_mul, Nat.add_assoc]
        simp only [same _ ⟨i, rfl, inside⟩, next, ok_bind, ih]
      · rfl
  have all := loop ((stop - start) / PAGE_SIZE + 1) s 0
  rwa [Nat.zero_mul, Nat.add_zero] at all

/-- The addresses that a loop over the pages of every area visits. -/
def areaAddrs (vmas : List VMA) : Set Nat := {a | ∃ v ∈ vmas, a ∈ pageAddrs v.start v.stop}

theorem pml4_lower {a : Nat} (low : a < 2 ^ 47) : (VirtAddrParts.fromU64 a).pml4 < 256 := by
  rw [fromU64_eq]
  exact (pageOf_lower low).top

theorem Vmas.Clear.areaAddrs_lower {img : Set Nat} {vmas : List VMA} (clear : Vmas.Clear img vmas)
    {a : Nat} (h : a ∈ areaAddrs vmas) : a < 2 ^ 47 := by
  obtain ⟨v, hv, i, -, before⟩ := h
  exact Nat.lt_of_lt_of_le before (clear v hv).1

namespace Kernel

variable {k k' : Kernel} {call : Call} {answer : Answer Image}

/-- The pages that a call maps or unmaps for its caller, by the ranges of the loops (`forPages_congr`). -/
def Visits (p : Profile) (range : ImageRange) (image : Image) : Call → Set Nat
  | .mmap addr len _ flags =>
    {a | (addr ≠ 0 ∧ flags &&& MAP_FIXED ≠ 0) ∧ ∃ start stop, Vmas.range p addr len = .ok (start, stop) ∧
      ∃ v ∈ AddressSpace.overlapping image.space.vmas start stop,
        a ∈ pageAddrs (max v.start start) (min v.stop stop)}
  | .munmap addr len =>
    {a | ∃ start stop, Vmas.range p addr len = .ok (start, stop) ∧ a ∈ pageAddrs start stop}
  | .execve (some file) _ =>
    areaAddrs image.space.vmas ∪
    {a | ∃ i < Elf.ePhnum file, (Elf.header file i).isLoad ∧ ∃ start stop bytes,
      Elf.segmentRange p (Elf.header file i) = .ok (start, stop, bytes) ∧ a ∈ pageAddrs start stop} ∪
    {a | ∃ i < USTACK_PAGES, a = USTACK_BASE + i * 0x1000} ∪ {TCB_PAGE}
  | .fork _ =>
    areaAddrs image.space.vmas ∪
    {a | ∃ start stop, range.bounds p = .ok (start, stop) ∧ a ∈ pageAddrs start stop}
  | .pageFault addr =>
    {a | (Vmas.findVma image.space.vmas addr).isSome ∧ a = alignDown addr PAGE_SIZE}
  | _ => ∅

/-- The calls in which a zombie can be reaped. -/
def Call.reaps : Call → Bool
  | .wait4 _ _ _ | .resume => true
  | _ => false

/-- The addresses that a call hands to `map` and `unmap`: those that it visits for its caller, and the
pages of whichever process it reaps. -/
def Targets (p : Profile) (k : Kernel) (call : Call) : Set Nat :=
  {a | ∃ image, k.current = some image ∧ a ∈ Visits p k.image image call} ∪
  {a | call.reaps ∧ ∃ i z, k.sys.sched.slot i = some z ∧ a ∈ areaAddrs z.image.space.vmas}

/-- The areas of a process that keeps off some pages are in the lower half. -/
theorem Confined.lower {img : Set Nat} {image : Image} (h : Confined img image) : Confined ∅ image :=
  ⟨h.1, fun v hv => clear_empty.mpr (h.2 v hv).1⟩

/-- The ranges that a call names do not wrap, and they end in the lower half. -/
structure Low (p : Profile) (k : Kernel) (call : Call) : Prop where
  fits : ∀ image, k.current = some image → Fits p image call
  confines : ∀ image, k.current = some image → Confines ∅ p image call

def LowStep (p : Profile) (k k' : Kernel) : Prop := ∃ call answer, Low p k call ∧ Step p k call answer k'

/-- Every area is well formed and in the lower half, and so is the kernel image. -/
structure Halved (k : Kernel) : Prop where
  image : k.image.Low
  areas : k.EachImage (Confined ∅)

theorem Begun.halved (h : Begun S k) : Halved k :=
  ⟨h.ordered.low, fun i a held => (h.ordered.areas i a held).lower⟩

theorem Step.halved (step : Step p k call answer k') (h : Halved k) (low : Low p k call) :
    Halved k' :=
  ⟨step.effect.image_eq ▸ h.image, step.confined h.areas low.fits low.confines⟩

theorem halved_of_low (h : Reachable Halved (LowStep p) k) : Halved k := by
  refine Reachable.invariant (fun _ h => h) ?_ h
  rintro k k' halved ⟨call, answer, low, step⟩
  exact step.halved halved low

theorem Halved.visits (h : Halved k) (low : Low p k call) {image : Image}
    (current : k.current = some image) {a : Nat} (ha : a ∈ Visits p k.image image call) :
    a < 2 ^ 47 := by
  obtain ⟨valid, clear⟩ := h.areas.current current
  have fits := low.fits image current
  have confines := low.confines image current
  cases call with
  | mmap addr len prot flags =>
    obtain ⟨-, start, stop, -, v, hv, i, -, before⟩ := ha
    have mem := (AddressSpace.mem_overlapping valid.areas.1 hv).1
    exact Nat.lt_of_lt_of_le before (Nat.le_trans (Nat.min_le_left _ _) (clear v mem).1)
  | munmap addr len =>
    obtain ⟨start, stop, ranged, i, -, before⟩ := ha
    exact Nat.lt_of_lt_of_le before (confines start stop ranged).1
  | execve file stack =>
    cases file with
    | none => cases ha
    | some file =>
      rcases ha with ((areas | ⟨i, hi, load, start, stop, bytes, ranged, j, -, before⟩) | ⟨i, hi, rfl⟩) | rfl
      · exact clear.areaAddrs_lower areas
      · obtain ⟨rfl, rfl, -⟩ :=
          Except.ok.inj ((Elf.segmentRange_eq load (fits i hi load).1).symm.trans ranged)
        exact Nat.lt_of_lt_of_le before (confines.1 i hi load).1
      · have inside := Nat.mul_lt_mul_of_pos_right hi (show 0 < 0x1000 by decide)
        exact lt_trans (Nat.add_lt_add_left inside _) (by decide)
      · decide
  | fork frame =>
    rcases ha with areas | ⟨start, stop, ranged, i, -, before⟩
    · exact clear.areaAddrs_lower areas
    · obtain ⟨rfl, rfl⟩ := Prod.mk.inj (Except.ok.inj ((h.image.bounds p).symm.trans ranged))
      exact Nat.lt_of_lt_of_le before h.image.stop
  | pageFault addr =>
    obtain ⟨found, rfl⟩ := ha
    obtain ⟨v, area⟩ := Option.isSome_iff_exists.mp found
    obtain ⟨mem, -, inside⟩ := (Vmas.findVma_eq_some valid.areas.1).mp area
    have low := Nat.lt_of_lt_of_le inside (clear v mem).1
    rw [alignDown_page (by omega)]
    exact Nat.lt_of_le_of_lt (Nat.div_mul_le_self _ _) low
  | _ => cases ha

theorem Halved.targets (h : Halved k) (low : Low p k call) {a : Nat} (ha : a ∈ Targets p k call) :
    a < 2 ^ 47 := by
  rcases ha with ⟨image, current, visited⟩ | ⟨-, i, z, held, area⟩
  · exact h.visits low current visited
  · exact (h.areas i z held).2.areaAddrs_lower area

/-- Calls that processes make, as opposed to the rest of the kernel at work. -/
def Call.forUser : Call → Bool
  | .kernelAlloc _ | .kernelFree _ _ | .kernelWrite _ => false
  | _ => true

theorem Step.shared (step : Step p k call answer k') (h : Ordered S k) (careful : Careful p k call)
    (user : call.forUser) : Set.EqOn k'.mach.mem k.mach.mem (k.Shared S) := by
  cases step.effect with
  | same => exact fun _ _ => rfl
  | system next images => exact fun _ _ => rfl
  | works runs current work => exact (work.acted h careful current).1.mem.mono (shared_foreign _)
  | fork runs chosen current run => exact (h.fork current run).2
  | fault current low run rest images => exact (h.faulted current run).1.mem.mono (shared_foreign _)
  | reap next held gone images named run =>
    exact (h.reap held gone images (careful.status named) run).2
  | store allowed current there =>
    exact (h.stored current allowed there).1.mem.mono (shared_foreign _)
  | kernelAlloc => cases user
  | kernelFree => cases user
  | kernelWrite => cases user

/-- Where no call names a range beyond the lower half, every area lies in it, and no page is mapped or
unmapped through the slots of the upper half. Where calls also keep off the kernel image, what they do
leaves the memory of the rest of the kernel as it is, the tables that all processes share included. -/
theorem user_half :
    (∀ k, Reachable Halved (LowStep p) k →
      k.EachImage (fun image => ∀ v ∈ image.space.vmas, v.start < v.stop ∧ v.stop ≤ 2 ^ 47) ∧
      ∀ call, Low p k call → ∀ a ∈ Targets p k call, (VirtAddrParts.fromU64 a).pml4 < 256) ∧
    ∀ k, Reachable (Begun S) (CarefulStep p) k → ∀ call answer k', Careful p k call → call.forUser →
      Step p k call answer k' → Set.EqOn k'.mach.mem k.mach.mem (k.Shared S) := by
  refine ⟨fun k reach => ?_, fun k reach call answer k' careful user step => ?_⟩
  · have halved := halved_of_low reach
    refine ⟨fun i a held v hv => ?_, fun call low a ha => pml4_lower (halved.targets low ha)⟩
    obtain ⟨valid, clear⟩ := halved.areas i a held
    exact ⟨(valid.areas.1.proper v hv).nonempty, (clear v hv).1⟩
  · exact step.shared (ordered_of_careful reach).1 careful user

/-- The resident process gives its page back: the page is one of the lower half. -/
theorem resident_user_half : ∃ S st k answer, residentStart = .ok st ∧
    Step .dev (residentKernel st) (.munmap 0x400000 0x1000) answer k ∧
    (residentKernel st).EachImage
      (fun image => ∀ v ∈ image.space.vmas, v.start < v.stop ∧ v.stop ≤ 2 ^ 47) ∧
    0x400000 ∈ Targets .dev (residentKernel st) (.munmap 0x400000 0x1000) ∧
    (VirtAddrParts.fromU64 0x400000).pml4 < 256 ∧
    Set.EqOn k.mach.mem st.mem (Shared S (residentKernel st)) := by
  have evaluates : (do
      let st ← residentStart
      let unmapped ← (residentKernel st).perform .dev (.munmap 0x400000 0x1000)
      return unmapped.2.spaces) = Except.ok 1 := by decide +kernel
  obtain ⟨st, start, rest⟩ := bind_eq_ok.mp evaluates
  obtain ⟨⟨answer, k⟩, unmapped, rest⟩ := bind_eq_ok.mp rest
  obtain ⟨S, begun⟩ := residentInit_begun start
  have careful := residentKernel_careful st
  have low : Low .dev (residentKernel st) (.munmap 0x400000 0x1000) :=
    ⟨careful.fits, fun image current first last ranged =>
      clear_empty.mpr (careful.confines image current first last ranged).1⟩
  have running : Reachable Halved (LowStep .dev) (residentKernel st) :=
    (Reachable.start begun.halved).next ⟨.plain .timer, .ret 0,
      ⟨fun _ _ => trivial, fun _ _ => trivial⟩, ⟨rfl, rfl⟩, rfl⟩
  have target : 0x400000 ∈ Targets .dev (residentKernel st) (.munmap 0x400000 0x1000) :=
    Or.inl ⟨_, rfl, 0x400000, 0x401000, by decide, 0, by decide, by decide⟩
  have step : Step .dev (residentKernel st) (.munmap 0x400000 0x1000) answer k :=
    ⟨⟨rfl, _, rfl, rfl⟩, unmapped⟩
  obtain ⟨areas, slots⟩ := (user_half (p := .dev) (S := S)).1 _ running
  exact ⟨S, st, k, answer, start, step, areas, target, slots _ low _ target,
    user_half.2 _ (residentKernel_reachable begun) _ _ _ careful rfl step⟩

/-- An area of the kernel's half: `mmap` places it and `munmap` walks the tables that all share. -/
theorem mmap_upper_half : ∃ S k, Reachable (Begun S)
      (fun k k' => ∃ call answer, Step .dev k call answer k') k ∧
    (∃ image, k.current = some image ∧ ∃ v ∈ image.space.vmas, v.start = 0xffff_8000_0000_0000 ∧
      ¬ v.stop ≤ 2 ^ 47) ∧
    ∃ a ∈ Targets .dev k (.munmap 0xffff_8000_0000_0000 0x1000),
      (VirtAddrParts.fromU64 a).pml4 = 256 := by
  have evaluates : (do
      let st ← residentStart
      let k ← calls .dev [.plain .timer, .mmap 0xffff_8000_0000_0000 0x1000 3 0x32] (residentInit st)
      return k.current.map fun image => image.space.vmas.getLast?.map fun v => (v.start, v.stop)) =
      Except.ok (some (some (0xffff_8000_0000_0000, 0xffff_8000_0000_1000))) := by decide +kernel
  obtain ⟨st, start, rest⟩ := bind_eq_ok.mp evaluates
  obtain ⟨k, run, rest⟩ := bind_eq_ok.mp rest
  obtain ⟨image, current, rest⟩ := Option.map_eq_some_iff.mp (Except.ok.inj rest)
  obtain ⟨v, last, rest⟩ := Option.map_eq_some_iff.mp rest
  obtain ⟨first, stop⟩ := Prod.mk.inj rest
  obtain ⟨S, begun⟩ := residentInit_begun start
  refine ⟨S, k, reachable_calls run (.start begun), ⟨image, current, v, List.mem_of_getLast? last,
    first, by rw [stop]; decide⟩, 0xffff_8000_0000_0000, Or.inl ⟨image, current, ?_⟩, by decide⟩
  exact ⟨0xffff_8000_0000_0000, 0xffff_8000_0000_1000, by decide, 0, by decide, by decide⟩

end Kernel
end Ferrum
