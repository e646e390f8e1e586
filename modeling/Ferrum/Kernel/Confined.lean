import Ferrum.AddressSpace.Clearing
import Ferrum.Kernel.Layout

/-!
# The ranges that calls name

Addresses of areas come from the arguments of `mmap`, `munmap` and `brk` and from the headers of the
file that `execve` loads, and none of them is checked. If every range that a call names ends in the
lower half and keeps off a set of pages, then so does every area of every process.
-/
namespace Ferrum

open Vmas (Closed)

variable {img : Set Nat} {p : Profile} {image image' : Image} {st st' : Machine Pool}

/-- A range that ends in the lower half and meets no page of the given set. -/
def Clear (img : Set Nat) (start stop : Nat) : Prop :=
  stop ≤ 2 ^ 47 ∧ ∀ q ∈ pagesIn start stop, q ∉ img

theorem Clear.mono {start stop start' stop' : Nat} (clear : Clear img start stop)
    (low : start ≤ start') (high : stop' ≤ stop) : Clear img start' stop' :=
  ⟨Nat.le_trans high clear.1, fun q hq =>
    clear.2 q ⟨Nat.le_trans low hq.1, Nat.lt_of_lt_of_le hq.2 high⟩⟩

theorem Clear.join {a b c : Nat} (left : Clear img a b) (right : Clear img b c) : Clear img a c := by
  refine ⟨right.1, fun q hq => ?_⟩
  rcases Nat.lt_or_ge (q * PAGE_SIZE) b with low | high
  · exact left.2 q ⟨hq.1, low⟩
  · exact right.2 q ⟨high, hq.2⟩

theorem clear_empty {start stop : Nat} : Clear ∅ start stop ↔ stop ≤ 2 ^ 47 := by simp [Clear]

/-- Every area is clear. -/
def Vmas.Clear (img : Set Nat) (l : List VMA) : Prop := ∀ v ∈ l, Ferrum.Clear img v.start v.stop

theorem Vmas.closed_clear (img : Set Nat) :
    Closed (fun v => Ferrum.Clear img v.start v.stop) (Vmas.Clear img) :=
  closed_forall fun _ _ hu hw meet _ => hu.join (meet ▸ hw)

theorem Vmas.Clear.userAreas {l : List VMA} (clear : Vmas.Clear img l) (wf : Vmas.Wf l) :
    UserAreas img l := fun v hv =>
  have proper := wf.proper v hv
  ⟨Nat.le_of_lt proper.nonempty, proper.start, proper.stop, (clear v hv).1, (clear v hv).2⟩

/-- The ranges that a call of a process names are clear. -/
def Confines (img : Set Nat) (p : Profile) (image : Image) : Kernel.Call → Prop
  | .mmap addr len _ flags =>
    if addr ≠ 0 ∧ flags &&& MAP_FIXED ≠ 0 then Clear img (roundUp addr) (roundUp addr + roundUp len)
    else Clear img MMAP_ZONE_START MMAP_ZONE_END
  | .munmap addr len => ∀ start stop, Vmas.range p addr len = .ok (start, stop) → Clear img start stop
  | .brk requested => image.brkCurrent < requested →
    Clear img (Vmas.heapArea image.space.vmas image.brkStart (roundUp requested)).start
      (roundUp requested)
  | .execve (some file) _ =>
    (∀ i < Elf.ePhnum file, (Elf.header file i).isLoad →
      Clear img (Elf.header file i).first (Elf.header file i).past) ∧
    Clear img USTACK_BASE (TCB_PAGE + 0x1000)
  | _ => True

/-! ## Every call keeps areas clear -/

namespace Image.Valid

theorem mmap_clear (valid : image.Valid) (clear : Vmas.Clear img image.space.vmas)
    {addr len prot flags : Nat} {r : Except String Nat}
    (fits : Fits p image (.mmap addr len prot flags))
    (confines : Confines img p image (.mmap addr len prot flags))
    (run : mmapImage p image addr len prot flags st = .ok (r, image', st')) :
    Vmas.Clear img image'.space.vmas := by
  obtain ⟨pos, fits⟩ := fits
  dsimp only [Confines] at confines
  unfold mmapImage at run
  split at run
  · rename_i fixed
    rw [if_pos fixed] at fits confines
    have ranged := Vmas.range_ok p fits.1 fits.2
    obtain ⟨⟨r', space, st₁⟩, ran, out⟩ := bind_eq_ok.mp run
    obtain ⟨rfl, rfl, rfl⟩ := Except.ok.inj out
    obtain ⟨vmas, rfl, areas⟩ := AddressSpace.mmapFixed_areas (Vmas.closed_clear img) ran clear
      fun start stop same => by
        obtain ⟨rfl, rfl⟩ := Prod.mk.inj (Except.ok.inj (ranged.symm.trans same))
        refine ⟨confines, fun v hv => ?_⟩
        obtain ⟨mem, first, last⟩ := AddressSpace.mem_overlapping valid.areas.1 hv
        exact ⟨fun left => (clear v mem).mono (Nat.le_refl _) (Nat.le_of_lt last),
          fun right => (clear v mem).mono (Nat.le_of_lt first) (Nat.le_refl _)⟩
    exact areas
  · rename_i free
    rw [if_neg free] at fits confines
    obtain ⟨⟨r', space⟩, ran, out⟩ := bind_eq_ok.mp run
    obtain ⟨rfl, rfl, rfl⟩ := Except.ok.inj out
    obtain ⟨vmas, rfl, areas⟩ := AddressSpace.mmap_areas (Vmas.closed_clear img) ran clear
      fun start stop same => by
        rcases Vmas.place_ok p valid.areas.1 pos fits with none | ⟨s, placed, page, low, high⟩
        · rw [none] at same
          cases same
        · obtain ⟨rfl, rfl⟩ := Prod.mk.inj (Option.some.inj (Except.ok.inj (placed.symm.trans same)))
          exact confines.mono low high
    exact areas

theorem munmap_clear (clear : Vmas.Clear img image.space.vmas) {addr len : Nat}
    (run : munmapImage p image addr len st = .ok (image', st')) :
    Vmas.Clear img image'.space.vmas := by
  obtain ⟨⟨r, space, st₁⟩, ran, out⟩ := bind_eq_ok.mp run
  obtain ⟨rfl, rfl⟩ := Except.ok.inj out
  obtain ⟨vmas, rfl, areas⟩ := AddressSpace.munmap_areas (Vmas.closed_clear img) ran clear
  exact areas

theorem brk_clear (valid : image.Valid) (clear : Vmas.Clear img image.space.vmas) {requested r : Nat}
    (fits : Fits p image (.brk requested)) (confines : Confines img p image (.brk requested))
    (run : brkImage p image requested = .ok (r, image')) : Vmas.Clear img image'.space.vmas := by
  unfold brkImage at run
  split at run
  · obtain ⟨-, rfl⟩ := Prod.mk.inj (Except.ok.inj run)
    exact clear
  · rename_i more
    have past : image.brkCurrent < requested := by omega
    have room := fits past
    have aligned : alignDown (requested + 0xfff) PAGE_SIZE = roundUp requested := alignDown_page room
    rw [p.add_ok room, ok_bind, aligned] at run
    obtain ⟨rest, kept, made⟩ := Vmas.extendHeap_cases valid.areas.1.laid image.brkStart (roundUp requested)
    have left : Vmas.Clear img rest := by
      rcases kept with ⟨rfl, -⟩ | ⟨best, -, removed⟩
      · exact clear
      · exact (Vmas.closed_clear img).remove clear removed
    have stop : (Vmas.heapArea image.space.vmas image.brkStart (roundUp requested)).stop =
        roundUp requested := by
      unfold Vmas.heapArea
      split <;> rfl
    rcases made with ⟨e, -, made⟩ | ⟨l', added, made⟩
    · simp only [AddressSpace.extendHeap, made, ok_bind, pure_eq_ok] at run
      obtain ⟨-, rfl⟩ := Prod.mk.inj (Except.ok.inj run)
      exact left
    · simp only [AddressSpace.extendHeap, made, ok_bind, pure_eq_ok] at run
      obtain ⟨-, rfl⟩ := Prod.mk.inj (Except.ok.inj run)
      refine (Vmas.closed_clear img).add left ?_ added
      rw [stop]
      exact confines past

theorem execve_clear {file : List UInt8} {stack : StackImage} {r : Except String Nat}
    (fits : Fits p image (.execve (some file) stack))
    (confines : Confines img p image (.execve (some file) stack))
    (run : execImage p image file stack st = .ok (r, image', st')) :
    Vmas.Clear img image'.space.vmas := by
  obtain ⟨segments, stack⟩ := confines
  obtain ⟨vmas, fsBase, brkStart, brkCurrent, rfl, areas, -⟩ := execImage_areas
    (Vmas.closed_clear img) (fun v hv => absurd hv List.not_mem_nil) run
    (fun j hj load start stop bytes ranged => by
      obtain ⟨rfl, rfl, -⟩ :=
        Except.ok.inj ((Elf.segmentRange_eq load (fits j hj load).1).symm.trans ranged)
      exact segments j hj load)
    (stack.mono (Nat.le_refl _) (by decide)) (stack.mono (by decide) (Nat.le_refl _))
  exact areas

theorem fork_clear (clear : Vmas.Clear img image.space.vmas) {range : ImageRange}
    {kernelPml4 id pid : Nat} {frame : List UInt8} {child : Image}
    (run : forkImage p range kernelPml4 id image pid frame st = .ok (some child, st')) :
    Vmas.Clear img child.space.vmas := by
  obtain ⟨pml4, vmas, kstack, rfl, areas⟩ := forkImage_areas (Vmas.closed_clear img)
    (fun v hv => absurd hv List.not_mem_nil) clear run
  exact areas

end Image.Valid

namespace Kernel

variable {k k' : Kernel} {call : Call} {answer : Answer Image}

/-- A process whose image is valid and whose areas are clear. -/
def Confined (img : Set Nat) (image : Image) : Prop :=
  image.Valid ∧ Vmas.Clear img image.space.vmas

theorem Step.confined (step : Step p k call answer k') (h : k.EachImage (Confined img))
    (fits : ∀ image, k.current = some image → Fits p image call)
    (confines : ∀ image, k.current = some image → Confines img p image call) :
    k'.EachImage (Confined img) := by
  refine step.effect.eachImage h (fun image image' mach current old work => ?_)
    fun parent pid frame child mach _ old run => ⟨old.1.fork run, Image.Valid.fork_clear old.2 run⟩
  have ok := fits image current
  have named := confines image current
  cases work with
  | mmap run => exact ⟨old.1.mmap ok run, old.1.mmap_clear old.2 ok named run⟩
  | munmap run => exact ⟨old.1.munmap run, Image.Valid.munmap_clear old.2 run⟩
  | brk run =>
    obtain ⟨r, made, same, valid⟩ := old.1.brk ok
    have clear := old.1.brk_clear old.2 ok named run
    obtain ⟨-, rfl⟩ := Prod.mk.inj (Except.ok.inj (same.symm.trans run))
    exact ⟨valid, clear⟩
  | execve run => exact ⟨old.1.execve ok run, Image.Valid.execve_clear ok named run⟩

end Kernel
end Ferrum
