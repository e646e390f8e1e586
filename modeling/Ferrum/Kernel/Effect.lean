import Ferrum.Kernel.Model
import Ferrum.System.Effect

/-!
# What a transition of the kernel can do

One inversion for all transitions, from which the invariants of the kernel follow, and the proof that
the kernel refines the system of processes: every transition is one of the system or leaves it alone.
-/
namespace Ferrum.Kernel

open Ferrum.System (SameImages)

/-- The calls that work on the image of the caller. -/
inductive Works (p : Profile) (image : Image) (st : Machine Pool) :
    Call → Image → Machine Pool → Prop
  | mmap {addr len prot flags : Nat} {r : Except String Nat} {image' : Image} {st' : Machine Pool}
      (run : mmapImage p image addr len prot flags st = .ok (r, image', st')) :
      Works p image st (.mmap addr len prot flags) image' st'
  | munmap {addr len : Nat} {image' : Image} {st' : Machine Pool}
      (run : munmapImage p image addr len st = .ok (image', st')) :
      Works p image st (.munmap addr len) image' st'
  | brk {requested r : Nat} {image' : Image} (run : brkImage p image requested = .ok (r, image')) :
      Works p image st (.brk requested) image' st
  | execve {file : List UInt8} {stack : StackImage} {r : Except String Nat} {image' : Image}
      {st' : Machine Pool} (run : execImage p image file stack st = .ok (r, image', st')) :
      Works p image st (.execve (some file) stack) image' st'

/-- The ways in which a transition can change the kernel. -/
inductive Effect (p : Profile) (k : Kernel) : Call → Kernel → Prop
  | same {call : Call} : Effect p k call k
  | system {call : Call} {action : System.Action Image} {answer : Answer Image} {sys : System Image}
      (step : System.Step p k.sys action answer sys) (images : SameImages k.sys.sched sys.sched) :
      Effect p k call { k with sys }
  | works {call : Call} {image image' : Image} {mach : Machine Pool} (runs : k.userRuns)
      (current : k.current = some image) (work : Works p image k.mach call image' mach) :
      Effect p k call (k.withImage image' mach)
  | fork {frame : List UInt8} {pid : Nat} {parent : Image} {child : Option Image}
      {mach : Machine Pool} (runs : k.userRuns) (chosen : k.sys.sched.allocPid p = .ok pid)
      (current : k.current = some parent)
      (run : forkImage p k.image k.kernelPml4 k.spaces parent pid frame k.mach = .ok (child, mach)) :
      Effect p k (.fork frame) { k with sys := (k.sys.adopt pid child).2, mach, spaces := k.spaces + 1 }
  | fault {addr : Nat} {image : Image} {r : Except String Unit} {mach : Machine Pool}
      {sys : System Image} (current : k.current = some image)
      (low : addr < KERNEL_VIRT_BASE)
      (run : image.space.handlePageFault p k.mach addr = .ok (r, mach))
      (rest : sys = k.sys ∨ System.Step p k.sys .segfault .ended sys)
      (images : SameImages k.sys.sched sys.sched) :
      Effect p k (.pageFault addr) { k with sys, mach }
  | reap {call : Call} {action : System.Action Image} {zombie : Process Image} {sys : System Image}
      {i statusPtr : Nat} {k' : Kernel} (step : System.Step p k.sys action (.reaped zombie) sys)
      (held : k.sys.sched.slot i = some zombie) (gone : sys.sched.slot i = none)
      (images : SameImages k.sys.sched sys.sched)
      (named : (∃ target options, call = .wait4 target statusPtr options) ∨
        call = .resume ∧ statusPtr = k.parkedStatusPtr)
      (run : bury p { k with sys } zombie statusPtr = .ok k') : Effect p k call k'
  | store {addr phys : Nat} {byte : UInt8} {image : Image} (allowed : k.Allows (.store addr byte))
      (current : k.current = some image)
      (there : Machine.translate k.mach.mem image.space.pml4 addr = .ok (some phys)) :
      Effect p k (.store addr byte)
        { k with mach := { k.mach with mem := k.mach.mem.writeBytes phys [byte] } }
  | kernelAlloc {order : Nat} {r : Option Nat} {mach : Machine Pool}
      (run : k.mach.allocBlock p .kernel order = .ok (r, mach)) :
      Effect p k (.kernelAlloc order) { k with mach }
  | kernelFree {addr order : Nat} {mach : Machine Pool} (allowed : k.Allows (.kernelFree addr order))
      (run : k.mach.freeBlock p .kernel addr order = .ok mach) :
      Effect p k (.kernelFree addr order) { k with mach }
  | kernelWrite {mem : Memory} (allowed : k.Allows (.kernelWrite mem)) :
      Effect p k (.kernelWrite mem) { k with mach := { k.mach with mem } }

variable {p : Profile} {k k' : Kernel} {call : Call} {answer : Answer Image}

theorem userRuns_allows (runs : k.userRuns) {action : System.Action Image}
    (user : k.sys.allows action = (!k.sys.sched.idle && k.sys.sched.current.any (·.context = .user))) :
    k.sys.allows action := by
  obtain ⟨idle, a, current, context⟩ := runs
  rw [user, idle, current]
  simp [context]

theorem onImage_eq_ok {f : Image → Machine Pool → Except Stop (Answer Image × Image × Machine Pool)}
    (run : k.onImage f = .ok (answer, k')) : k' = k ∨ ∃ image image' mach, k.current = some image ∧
      f image k.mach = .ok (answer, image', mach) ∧ k' = k.withImage image' mach := by
  unfold onImage at run
  split at run
  · exact .inl (Prod.mk.inj (Except.ok.inj run)).2.symm
  · rename_i image current
    obtain ⟨⟨answer', image', mach⟩, made, out⟩ := bind_eq_ok.mp run
    obtain ⟨rfl, rfl⟩ := Prod.mk.inj (Except.ok.inj out)
    exact .inr ⟨image, image', mach, current, made, rfl⟩

theorem reaped_slot {action : System.Action Image} {zombie : Process Image} {sys : System Image}
    (step : System.Step p k.sys action (.reaped zombie) sys) :
    ∃ i, k.sys.sched.slot i = some zombie ∧ sys.sched.slot i = none := by
  have effect := step.effect
  generalize k.sys.sched = s at effect
  generalize sys.sched = s' at effect
  cases effect with
  | tend f tended kept => exact absurd rfl (kept zombie)
  | turn f tended kept => exact absurd rfl (kept zombie)
  | reap caller target i z current held =>
    refine ⟨i, held, ?_⟩
    rw [Scheduler.slot_update, Scheduler.slot_remove (Slots.lt_of_get held), if_pos rfl]
    split <;> rfl

/-- A call that may reap: it does, or it is a transition of the system alone. -/
theorem effect_settle {action : System.Action Image} {statusPtr : Nat}
    {out : Answer Image × System Image} (step : System.Step p k.sys action out.1 out.2)
    (noMemory : ∀ image, action ≠ .memory image) (noFork : ∀ child, action ≠ .fork child)
    (named : (∃ target options, call = .wait4 target statusPtr options) ∨
      call = .resume ∧ statusPtr = k.parkedStatusPtr)
    (run : k.settle p statusPtr out = .ok (answer, k')) : Effect p k call k' := by
  have images := step.effect.sameImages noMemory noFork
  obtain ⟨answer', sys⟩ := out
  unfold settle at run
  split at run
  · rename_i zombie sys' same
    obtain ⟨rfl, rfl⟩ := Prod.mk.inj same
    obtain ⟨k'', buried, out⟩ := bind_eq_ok.mp run
    obtain ⟨rfl, rfl⟩ := Prod.mk.inj (Except.ok.inj out)
    obtain ⟨i, held, gone⟩ := reaped_slot step
    exact .reap step held gone images named buried
  · rename_i same
    obtain ⟨rfl, rfl⟩ := Prod.mk.inj same
    obtain ⟨-, rfl⟩ := Prod.mk.inj (Except.ok.inj run)
    exact .system step images

theorem effect_onImage {f : Image → Machine Pool → Except Stop (Answer Image × Image × Machine Pool)}
    (runs : k.userRuns) (run : k.onImage f = .ok (answer, k'))
    (works : ∀ image image' mach, f image k.mach = .ok (answer, image', mach) →
      Works p image k.mach call image' mach) : Effect p k call k' := by
  rcases onImage_eq_ok run with rfl | ⟨image, image', mach, current, made, rfl⟩
  · exact .same
  · exact .works runs current (works image image' mach made)

theorem effect_fork {frame : List UInt8} (runs : k.userRuns)
    (run : k.fork p frame = .ok (answer, k')) : Effect p k (.fork frame) k' := by
  obtain ⟨pid, chosen, run⟩ := bind_eq_ok.mp run
  split at run
  · obtain ⟨-, rfl⟩ := Prod.mk.inj (Except.ok.inj run)
    exact .same
  · rename_i parent current
    obtain ⟨⟨child, mach⟩, made, out⟩ := bind_eq_ok.mp run
    obtain ⟨-, rfl⟩ := Prod.mk.inj (Except.ok.inj out)
    exact .fork runs chosen current made

theorem effect_pageFault {addr : Nat} (runs : k.userRuns)
    (run : k.pageFault p addr = .ok (answer, k')) : Effect p k (.pageFault addr) k' := by
  unfold pageFault at run
  split at run
  · cases run
  rename_i low
  split at run
  · cases run
  · rename_i image current
    obtain ⟨⟨r, mach⟩, made, out⟩ := bind_eq_ok.mp run
    cases r with
    | ok =>
      obtain ⟨-, rfl⟩ := Prod.mk.inj (Except.ok.inj out)
      exact .fault current (Nat.not_le.mp low) made (.inl rfl) (.refl _)
    | error e =>
      obtain ⟨-, rfl⟩ := Prod.mk.inj (Except.ok.inj out)
      have step : System.Step p k.sys .segfault .ended k.sys.segfault.2 :=
        ⟨userRuns_allows runs rfl, rfl⟩
      exact .fault current (Nat.not_le.mp low) made (.inr step)
        (step.effect.sameImages (by simp) (by simp))

theorem Step.effect (step : Step p k call answer k') : Effect p k call k' := by
  obtain ⟨allowed, run⟩ := step
  cases call with
  | plain action =>
    obtain ⟨⟨answer', sys⟩, made, out⟩ := bind_eq_ok.mp run
    obtain ⟨-, rfl⟩ := Prod.mk.inj (Except.ok.inj out)
    have step : System.Step p k.sys action answer' sys := ⟨allowed.1, made⟩
    refine .system step (step.effect.sameImages ?_ ?_)
    · rintro image rfl
      exact absurd allowed.2 (by simp [isPlain])
    · rintro child rfl
      exact absurd allowed.2 (by simp [isPlain])
  | resume =>
    have step : System.Step p k.sys .resume k.sys.resume.1 k.sys.resume.2 := ⟨allowed, rfl⟩
    exact effect_settle step (by simp) (by simp) (.inr ⟨rfl, rfl⟩) run
  | wait4 target statusPtr options =>
    have step : System.Step p k.sys (.wait4 target statusPtr options)
        (k.sys.wait4 target statusPtr options).1 (k.sys.wait4 target statusPtr options).2 :=
      ⟨userRuns_allows allowed rfl, rfl⟩
    exact effect_settle step (by simp) (by simp) (.inl ⟨target, options, rfl⟩) run
  | fork frame => exact effect_fork allowed run
  | execve file stack =>
    cases file with
    | none =>
      obtain ⟨-, rfl⟩ := Prod.mk.inj (Except.ok.inj run)
      exact .same
    | some file =>
      unfold perform execve at run
      refine effect_onImage allowed run fun image image' mach made => ?_
      obtain ⟨⟨r, image'', mach'⟩, ran, out⟩ := bind_eq_ok.mp made
      obtain ⟨-, rfl, rfl⟩ := Except.ok.inj out
      exact .execve ran
  | mmap addr len prot flags =>
    unfold perform mmap at run
    refine effect_onImage allowed run fun image image' mach made => ?_
    obtain ⟨⟨r, image'', mach'⟩, ran, out⟩ := bind_eq_ok.mp made
    obtain ⟨-, rfl, rfl⟩ := Except.ok.inj out
    exact .mmap ran
  | munmap addr len =>
    unfold perform munmap at run
    refine effect_onImage allowed run fun image image' mach made => ?_
    obtain ⟨⟨image'', mach'⟩, ran, out⟩ := bind_eq_ok.mp made
    obtain ⟨-, rfl, rfl⟩ := Except.ok.inj out
    exact .munmap ran
  | brk requested =>
    unfold perform brk at run
    refine effect_onImage allowed run fun image image' mach made => ?_
    obtain ⟨⟨r, image''⟩, ran, out⟩ := bind_eq_ok.mp made
    obtain ⟨-, rfl, rfl⟩ := Except.ok.inj out
    exact .brk ran
  | pageFault addr => exact effect_pageFault allowed run
  | store addr byte =>
    have runs := allowed
    change k.store addr byte = .ok (answer, k') at run
    unfold store at run
    split at run
    · cases run
    · rename_i image current
      obtain ⟨frame, there, out⟩ := bind_eq_ok.mp run
      cases frame with
      | none => cases out
      | some phys =>
        obtain ⟨-, rfl⟩ := Prod.mk.inj (Except.ok.inj out)
        exact .store runs current there
  | kernelAlloc order =>
    obtain ⟨⟨r, mach⟩, made, out⟩ := bind_eq_ok.mp run
    obtain ⟨-, rfl⟩ := Prod.mk.inj (Except.ok.inj out)
    exact .kernelAlloc made
  | kernelFree addr order =>
    obtain ⟨mach, made, out⟩ := bind_eq_ok.mp run
    obtain ⟨-, rfl⟩ := Prod.mk.inj (Except.ok.inj out)
    exact .kernelFree allowed made
  | kernelWrite mem =>
    obtain ⟨-, rfl⟩ := Prod.mk.inj (Except.ok.inj run)
    exact .kernelWrite allowed

/-! ## The kernel as a system of processes -/

theorem bury_sys {zombie : Process Image} {statusPtr : Nat}
    (run : bury p k zombie statusPtr = .ok k') : ∃ mach, k' = { k with mach } := by
  obtain ⟨st, -, run⟩ := bind_eq_ok.mp run
  obtain ⟨st', -, run⟩ := bind_eq_ok.mp run
  obtain ⟨st'', -, out⟩ := bind_eq_ok.mp run
  exact ⟨st'', (Except.ok.inj out).symm⟩

theorem Effect.image_eq (effect : Effect p k call k') : k'.image = k.image := by
  cases effect with
  | reap step held gone images named run =>
    obtain ⟨mach, rfl⟩ := bury_sys run
    rfl
  | _ => rfl

/-- A transition of the kernel is one of the system, or the system does not see it. -/
theorem Effect.simulates (effect : Effect p k call k') :
    k'.sys = k.sys ∨ ∃ action answer, System.Step p k.sys action answer k'.sys := by
  cases effect with
  | system step => exact .inr ⟨_, _, step⟩
  | works runs current work => exact .inr ⟨.memory _, _, userRuns_allows runs rfl, rfl⟩
  | @fork _ pid _ child _ runs chosen =>
    refine .inr ⟨.fork child, (k.sys.adopt pid child).1, userRuns_allows runs rfl, ?_⟩
    simp only [System.perform, System.fork, chosen, ok_bind, pure_eq_ok]
  | fault current low run rest => exact rest.imp id fun step => ⟨_, _, step⟩
  | reap step held gone images named run =>
    obtain ⟨mach, rfl⟩ := bury_sys run
    exact .inr ⟨_, _, step⟩
  | _ => exact .inl rfl

/-- The processes and descriptors of the kernel run as the system does. -/
theorem system_reachable {init : Kernel → Prop} (start : ∀ k, init k → System.Initial k.sys)
    (h : Reachable init (fun k k' => ∃ call answer, Step p k call answer k') k) :
    Reachable System.Initial (fun s s' => ∃ action answer, System.Step p s action answer s') k.sys := by
  refine Reachable.invariant (P := fun k : Kernel => Reachable System.Initial
    (fun s s' => ∃ action answer, System.Step p s action answer s') k.sys)
    (fun k h₀ => .start (start k h₀)) ?_ h
  rintro k k' ih ⟨call, answer, step⟩
  rcases step.effect.simulates with same | next
  · rwa [same]
  · exact ih.next next

end Ferrum.Kernel
