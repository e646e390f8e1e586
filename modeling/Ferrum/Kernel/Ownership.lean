import Ferrum.Kernel.Exec
import Ferrum.Kernel.UserPages

/-!
# Frame ownership over runs

Every process owns its tables, the frames behind its pages and its kernel stack, and no two processes
own the same. As long as calls name ranges off the kernel image, whatever a process does is done to
memory of its own, so each frame that is freed was handed out to the address space that frees it.
-/
namespace Ferrum

open Machine (Local PoolInv Own)

namespace Kernel

variable {S : Set Nat} {p : Profile} {k k' : Kernel} {call : Call} {answer : Answer Image}
  {image image' : Image} {mach : Machine Pool} {o : Owner}

/-- The processes own what they use, and they do not share it. -/
structure Ordered (S : Set Nat) (k : Kernel) : Prop where
  pool : PoolInv S k.mach
  low : k.image.Low
  areas : k.EachImage (Confined k.image.pages)
  own : k.EachImage fun image =>
    ∃ tab, Owned k.image.pages k.mach image.space.owner image.space.pml4 tab
  used : k.EachImage fun image => image.space.id < k.spaces
  fresh : ∀ n, k.spaces ≤ n → ∀ b, ¬ k.mach.holds (.space n) b
  kstacks : k.EachImage fun image => ∀ a order, image.kernelStackAlloc = some (a, order) →
    k.mach.holds .kernel ⟨a, order⟩
  spacesApart : ∀ {i j a b}, k.sys.sched.slot i = some a → k.sys.sched.slot j = some b →
    a.image.space.id = b.image.space.id → i = j
  kstacksApart : ∀ {i j a b s}, k.sys.sched.slot i = some a → k.sys.sched.slot j = some b →
    a.image.kernelStackAlloc = some s → b.image.kernelStackAlloc = some s → i = j

/-- Memory of the rest of the kernel: outside the allocator's region, or in a block that the kernel
holds and that is nobody's stack. The tables of the kernel's half lie there. -/
def Shared (S : Set Nat) (k : Kernel) : Set Nat :=
  {x | x ∈ S → ∃ b, k.mach.holds .kernel b ∧ ¬ k.IsStack b.addr b.order ∧ x ∈ b.cells PAGE_SIZE}

theorem shared_foreign (n : Nat) : k.Shared S ⊆ Machine.Foreign S (.space n) k.mach :=
  fun _ hx inside =>
    let ⟨b, holds, _, hb⟩ := hx inside
    ⟨.kernel, b, nofun, holds, hb⟩

theorem shared_subset (holds : ∀ b, k.mach.holds .kernel b → ¬ k.IsStack b.addr b.order →
      k'.mach.holds .kernel b)
    (kstacks : ∀ {a order}, k'.IsStack a order → k.IsStack a order) : k.Shared S ⊆ k'.Shared S :=
  fun _ hx inside =>
    let ⟨b, held, other, hb⟩ := hx inside
    ⟨b, holds b held other, fun stack => other (kstacks stack), hb⟩

namespace Ordered

/-- The machine acts for one owner: a process that stays in order, or the kernel, which keeps the
stacks. -/
theorem machine (h : Ordered S k) (step : Local S o k.mach mach)
    (old : ∀ n, o = .space n → n < k.spaces)
    (own : ∀ i a, k.sys.sched.slot i = some a → a.image.space.owner = o →
      ∃ tab, Owned k.image.pages mach a.image.space.owner a.image.space.pml4 tab)
    (kstacks : o = .kernel → ∀ i a s order, k.sys.sched.slot i = some a →
      a.image.kernelStackAlloc = some (s, order) → mach.holds .kernel ⟨s, order⟩) :
    Ordered S { k with mach } where
  pool := step.inv
  low := h.low
  areas := h.areas
  own i a held := by
    by_cases mine : a.image.space.owner = o
    · exact own i a held mine
    · obtain ⟨tab, owned⟩ := h.own i a held
      exact ⟨tab, (owned.other step mine).1⟩
  used := h.used
  fresh n high b := by
    have other : Owner.space n ≠ o := fun same => Nat.not_lt.mpr high (old n same.symm)
    rw [step.holds other]
    exact h.fresh n high b
  kstacks i a held s order alloc := by
    by_cases mine : o = .kernel
    · exact kstacks mine i a s order held alloc
    · exact (step.holds (Ne.symm mine)).mpr (h.kstacks i a held s order alloc)
  spacesApart := h.spacesApart
  kstacksApart := h.kstacksApart

theorem act (h : Ordered S k) {i : Nat} {a : Process Image} (held : k.sys.sched.slot i = some a)
    (acted : Acted S k.image.pages a.image.space.owner a.image.space.pml4 k.mach mach) :
    Ordered S { k with mach } := by
  refine h.machine acted.1 (fun n same => ?_) (fun j b held' same => ?_) (fun same => ?_)
  · cases same
    exact h.used i a held
  · obtain rfl : i = j := h.spacesApart held held' (Owner.space.inj same).symm
    obtain rfl := Option.some.inj (held.symm.trans held')
    exact acted.2
  · cases same

theorem kernel (h : Ordered S k) (step : Local S .kernel k.mach mach)
    (kstacks : ∀ i a s order, k.sys.sched.slot i = some a →
      a.image.kernelStackAlloc = some (s, order) → mach.holds .kernel ⟨s, order⟩) :
    Ordered S { k with mach } :=
  h.machine step (fun _ same => by cases same) (fun _ _ _ same => by cases same) fun _ => kstacks

theorem system (h : Ordered S k) {sys : System Image}
    (images : System.SameImages k.sys.sched sys.sched) : Ordered S { k with sys } where
  pool := h.pool
  low := h.low
  areas := h.areas.same images
  own := h.own.same images
  used := h.used.same images
  fresh := h.fresh
  kstacks := h.kstacks.same images
  spacesApart {i j a b} held held' same := by
    obtain ⟨a', old, image⟩ := images i a held
    obtain ⟨b', old', image'⟩ := images j b held'
    rw [image, image'] at same
    exact h.spacesApart old old' same
  kstacksApart {i j a b s} held held' left right := by
    obtain ⟨a', old, image⟩ := images i a held
    obtain ⟨b', old', image'⟩ := images j b held'
    rw [image] at left
    rw [image'] at right
    exact h.kstacksApart old old' left right

theorem withImage (h : Ordered S k) (current : k.current = some image)
    (id : image'.space.id = image.space.id) (pml4 : image'.space.pml4 = image.space.pml4)
    (stack : image'.kernelStackAlloc = image.kernelStackAlloc)
    (areas : Confined k.image.pages image') : Ordered S (k.withImage image' k.mach) := by
  obtain ⟨c, held, rfl⟩ := current_eq_some current
  have owner : image'.space.owner = c.image.space.owner := congrArg Owner.space id
  -- every slot has the identity that it had
  have same {i b} (hb : (k.withImage image' k.mach).sys.sched.slot i = some b) :
      ∃ a, k.sys.sched.slot i = some a ∧ b.image.space.id = a.image.space.id ∧
        b.image.kernelStackAlloc = a.image.kernelStackAlloc := by
    obtain ⟨a, ha, rfl⟩ := Scheduler.slot_update_eq_some hb
    refine ⟨a, ha, ?_⟩
    split
    · rename_i here
      obtain rfl := Option.some.inj (held.symm.trans (here ▸ ha))
      exact ⟨id, stack⟩
    · exact ⟨rfl, rfl⟩
  refine ⟨h.pool, h.low, h.areas.withImage areas _, h.own.withImage ?_ _, h.used.withImage ?_ _,
    h.fresh, h.kstacks.withImage ?_ _, fun hb hb' eq => ?_, fun hb hb' left right => ?_⟩
  · rw [owner, pml4]
    exact h.own _ c held
  · rw [id]
    exact h.used _ c held
  · rw [stack]
    exact h.kstacks _ c held
  · obtain ⟨a, ha, ida, -⟩ := same hb
    obtain ⟨a', ha', ida', -⟩ := same hb'
    exact h.spacesApart ha ha' (ida ▸ ida' ▸ eq)
  · obtain ⟨a, ha, -, left'⟩ := same hb
    obtain ⟨a', ha', -, right'⟩ := same hb'
    exact h.kstacksApart ha ha' (left' ▸ left) (right' ▸ right)

theorem skip (h : Ordered S k) : Ordered S { k with spaces := k.spaces + 1 } :=
  { h with
    used := fun i a held => Nat.lt_succ_of_lt (h.used i a held)
    fresh := fun n high b => h.fresh n (Nat.le_of_succ_le high) b }

theorem adopt (h : Ordered S k) (pid : Nat) {child : Image} (areas : Confined k.image.pages child)
    (own : ∃ tab, Owned k.image.pages k.mach child.space.owner child.space.pml4 tab)
    (used : child.space.id < k.spaces) {s order : Nat} (stack : child.kernelStackAlloc = some (s, order))
    (held : k.mach.holds .kernel ⟨s, order⟩)
    (newSpace : ∀ i a, k.sys.sched.slot i = some a → a.image.space.id ≠ child.space.id)
    (newStack : ∀ i a, k.sys.sched.slot i = some a → a.image.kernelStackAlloc ≠ some (s, order)) :
    Ordered S { k with sys := (k.sys.adopt pid (some child)).2 } := by
  cases current : k.sys.sched.current with
  | none =>
    have same : (k.sys.adopt pid (some child)).2 = k.sys := by simp [System.adopt, current]
    rw [same]
    exact h
  | some parent =>
    have every {P : Image → Prop} (old : k.EachImage P) (new : P child) :
        (k.sys.adopt pid (some child)).2.sched.Each fun a => P a.image := by
      refine old.adopt ?_
      rintro _ ⟨⟩
      exact new
    have sched : (k.sys.adopt pid (some child)).2.sched = k.sys.sched.adopt parent pid
        (parent.fdTable.forkClone k.sys.store).1 child := by simp [System.adopt, current]
    obtain ⟨n, -, slots⟩ := Scheduler.adopt_spec k.sys.sched parent pid
      (parent.fdTable.forkClone k.sys.store).1 child
    rw [← sched] at slots
    have who {i b} (hb : (k.sys.adopt pid (some child)).2.sched.slot i = some b) :
        i = n ∧ b.image = child ∨ k.sys.sched.slot i = some b := by
      rw [slots] at hb
      split at hb
      · rename_i here
        exact Or.inl ⟨here, congrArg Process.image (Option.some.inj hb).symm⟩
      · exact Or.inr hb
    refine ⟨h.pool, h.low, every h.areas areas, every h.own own, every h.used used, h.fresh,
      every h.kstacks ?_, fun {i j a b} hb hb' eq => ?_, fun {i j a b t} hb hb' left right => ?_⟩
    · intro a o alloc
      rw [stack] at alloc
      cases alloc
      exact held
    · rcases who hb with ⟨rfl, image⟩ | old <;> rcases who hb' with ⟨rfl, image'⟩ | old'
      · rfl
      · rw [image] at eq
        exact absurd eq.symm (newSpace j b old')
      · rw [image'] at eq
        exact absurd eq (newSpace i a old)
      · exact h.spacesApart old old' eq
    · rcases who hb with ⟨rfl, image⟩ | old <;> rcases who hb' with ⟨rfl, image'⟩ | old'
      · rfl
      · rw [image, stack] at left
        exact absurd (right.trans left.symm) (newStack j b old')
      · rw [image', stack] at right
        exact absurd (left.trans right.symm) (newStack i a old)
      · exact h.kstacksApart old old' left right

theorem fork (h : Ordered S k) {parent : Image} {pid : Nat} {frame : List UInt8} {child : Option Image}
    (current : k.current = some parent)
    (run : forkImage p k.image k.kernelPml4 k.spaces parent pid frame k.mach = .ok (child, mach)) :
    Ordered S { k with sys := (k.sys.adopt pid child).2, mach, spaces := k.spaces + 1 } ∧
      Set.EqOn mach.mem k.mach.mem (k.Shared S) := by
  obtain ⟨c, held, rfl⟩ := current_eq_some current
  have nobody : (k.sys.adopt pid (none : Option Image)).2 = k.sys := by simp [System.adopt]
  rcases forkImage_cases h.pool run with ⟨rfl, alloc⟩ | ⟨kstack, st₂, space, inv₂, same, holds, unheld,
    -, made, rfl⟩
  · obtain ⟨rfl, -⟩ := h.pool.allocBlock_none alloc
    rw [nobody]
    exact ⟨h.skip, fun _ _ => rfl⟩
  · have step₂ : Local S .kernel k.mach st₂ :=
      ⟨inv₂, fun ne => by simp [holds, ne], same.mono Machine.foreign_subset_held⟩
    have ready : Ordered S { k with mach := st₂ } :=
      h.kernel step₂ fun i a s order slot alloc => holds.mpr (Or.inr (h.kstacks i a slot s order alloc))
    obtain ⟨valid, clear⟩ := h.areas _ c held
    obtain ⟨tab, own⟩ := h.own _ c held
    have user := clear.userAreas valid.areas.1
    have source := ((own.source user).mono same fun b => holds.mpr (Or.inr b)).1
    have fresh : ∀ b, ¬ st₂.holds (.space k.spaces) b := ready.fresh _ (Nat.le_refl _)
    obtain ⟨step, forked⟩ := forkSpace_spec h.low inv₂ source fresh valid.areas.1 user made
    have done : Ordered S { k with mach, spaces := k.spaces + 1 } := by
      refine ready.skip.machine step (fun n eq => ?_) (fun i a slot eq => ?_) nofun
      · cases eq
        exact Nat.lt_succ_self _
      · exact absurd (Owner.space.inj eq) (Nat.ne_of_lt (h.used i a slot))
    have kept : Set.EqOn mach.mem k.mach.mem (k.Shared S) := by
      intro x hx
      have foreign := shared_foreign k.spaces hx
      rw [← same (Machine.foreign_subset_held foreign)]
      refine step.mem fun inside => ?_
      obtain ⟨o, b, ne, held, hb⟩ := foreign inside
      exact ⟨o, b, ne, holds.mpr (Or.inr held), hb⟩
    refine ⟨?_, kept⟩
    cases space with
    | none =>
      rw [Option.map_none, nobody]
      exact done
    | some space =>
      obtain ⟨id, -, tab', copy⟩ := forked space rfl
      have confined : Confined k.image.pages
          { c.image with space, kernelStackAlloc := some (kstack, KSTACK_ORDER) } :=
        ⟨valid.fork run, Image.Valid.fork_clear clear run⟩
      refine done.adopt pid confined ⟨tab', copy.own⟩ (id ▸ Nat.lt_succ_self _) rfl ?_ ?_ ?_
      · exact (step.holds (by simp)).mpr (holds.mpr (Or.inl ⟨rfl, rfl⟩))
      · intro i a slot eq
        exact absurd (eq.trans id) (Nat.ne_of_lt (h.used i a slot))
      · intro i a slot alloc
        exact unheld _ (h.kstacks i a slot _ _ alloc)

theorem storeStatus (h : Ordered S k) {statusPtr : Nat} {exitCode : Int}
    (clear : statusPtr ≠ 0 → StoreClear k.image.pages statusPtr 4)
    (run : Kernel.storeStatus p k.mach k.current statusPtr exitCode = .ok mach) :
    Ordered S { k with mach } ∧ Set.EqOn mach.mem k.mach.mem (k.Shared S) := by
  unfold Kernel.storeStatus at run
  split at run
  · rename_i image current
    obtain ⟨c, held, rfl⟩ := current_eq_some current
    split at run
    · rename_i wanted
      rw [map_eq_pure_bind] at run
      obtain ⟨⟨done, st⟩, wrote, out⟩ := bind_eq_ok.mp run
      obtain rfl := Except.ok.inj out
      obtain ⟨tab, own⟩ := h.own _ c held
      have acted := own.writeViaPt h.pool (clear wanted) wrote
      exact ⟨h.act held acted, acted.1.mem.mono (shared_foreign _)⟩
    · obtain rfl := Except.ok.inj run
      exact ⟨h, fun _ _ => rfl⟩
  · obtain rfl := Except.ok.inj run
    exact ⟨h, fun _ _ => rfl⟩

/-- A zombie is buried: its address space goes, then its kernel stack. -/
theorem reap (h : Ordered S k) {zombie : Process Image} {sys : System Image} {i statusPtr : Nat}
    (held : k.sys.sched.slot i = some zombie) (gone : sys.sched.slot i = none)
    (images : System.SameImages k.sys.sched sys.sched)
    (clear : statusPtr ≠ 0 → StoreClear k.image.pages statusPtr 4)
    (run : bury p { k with sys } zombie statusPtr = .ok k') :
    Ordered S k' ∧ Set.EqOn k'.mach.mem k.mach.mem (k.Shared S) := by
  obtain ⟨st₁, destroyed, run⟩ := bind_eq_ok.mp run
  obtain ⟨st₂, freed, run⟩ := bind_eq_ok.mp run
  obtain ⟨st₃, stored, out⟩ := bind_eq_ok.mp run
  obtain rfl := Except.ok.inj out
  -- whoever is left was there before, in another slot
  have left {j b} (hb : sys.sched.slot j = some b) :
      i ≠ j ∧ ∃ a, k.sys.sched.slot j = some a ∧ b.image = a.image := by
    refine ⟨fun same => ?_, images j b hb⟩
    rw [same, hb] at gone
    cases gone
  obtain ⟨valid, areas⟩ := h.areas i zombie held
  obtain ⟨tab, own⟩ := h.own i zombie held
  obtain ⟨st₁', same, step₁, -⟩ :=
    AddressSpace.destroy_spec h.pool own (areas.userAreas valid.areas.1) p
  obtain rfl := Except.ok.inj (same.symm.trans destroyed)
  have first : Ordered S { k with sys, mach := st₁' } := by
    refine (h.system images).machine step₁ (fun n eq => ?_) (fun j b hb eq => ?_) nofun
    · cases eq
      exact h.used i zombie held
    · obtain ⟨apart, a, ha, image⟩ := left hb
      rw [image] at eq
      exact absurd (h.spacesApart held ha (Owner.space.inj eq).symm) apart
  have still {b} : st₁'.holds .kernel b ↔ k.mach.holds .kernel b :=
    step₁.holds (by simp [AddressSpace.owner])
  have same₁ : Set.EqOn st₁'.mem k.mach.mem (k.Shared S) := step₁.mem.mono (shared_foreign _)
  have second : Ordered S { k with sys, mach := st₂ } ∧ Set.EqOn st₂.mem st₁'.mem (k.Shared S) ∧
      ∀ b, k.mach.holds .kernel b → ¬ k.IsStack b.addr b.order → st₂.holds .kernel b := by
    cases stack : zombie.image.kernelStackAlloc with
    | none =>
      rw [stack] at freed
      obtain rfl := Except.ok.inj freed
      exact ⟨first, fun _ _ => rfl, fun b holds _ => still.mpr holds⟩
    | some block =>
      obtain ⟨s, order⟩ := block
      rw [stack] at freed
      have holds := still.mpr (h.kstacks i zombie held s order stack)
      obtain ⟨st₂', same, inv₂, frame, -, log⟩ := Machine.freeBlock_spec first.pool p holds
      obtain rfl := Except.ok.inj (same.symm.trans freed)
      have rest b (own : k.mach.holds .kernel b) (other : ¬ k.IsStack b.addr b.order) :
          st₂'.holds .kernel b := by
        refine (Machine.holds_free first.pool log _ _).mpr ⟨?_, still.mpr own⟩
        rintro ⟨-, rfl⟩
        exact other ⟨i, zombie, held, stack⟩
      refine ⟨first.kernel (.of_free first.pool inv₂ frame log) fun j b t order' hb alloc => ?_,
        fun x hx => frame fun inside => ?_, rest⟩
      · refine (Machine.holds_free first.pool log _ _).mpr ⟨?_, first.kstacks j b hb t order' alloc⟩
        rintro ⟨-, eq⟩
        cases eq
        obtain ⟨apart, a, ha, image⟩ := left hb
        rw [image] at alloc
        exact apart (h.kstacksApart held ha stack alloc)
      · obtain ⟨b, own, other, hb⟩ := hx inside
        exact ⟨b, (rest b own other).mem_out, hb⟩
  obtain ⟨ordered, same₂, rest⟩ := second
  obtain ⟨ordered', same₃⟩ := ordered.storeStatus clear stored
  have kept : k.Shared S ⊆ Shared S { k with sys, mach := st₂ } := by
    refine shared_subset rest ?_
    rintro a order ⟨j, b, hb, alloc⟩
    obtain ⟨-, a', ha, image⟩ := left hb
    exact ⟨j, a', ha, image ▸ alloc⟩
  exact ⟨ordered', ((same₃.mono kept).trans same₂).trans same₁⟩

end Ordered

/-! ## Steps -/

/-- Calls on the own image keep the identity of the address space and the kernel stack. -/
theorem Works.kept {st st' : Machine Pool} (work : Works p image st call image' st') :
    image'.space.id = image.space.id ∧ image'.space.pml4 = image.space.pml4 ∧
      image'.kernelStackAlloc = image.kernelStackAlloc := by
  have any : Vmas.Closed (fun _ => True) fun _ => True := ⟨fun _ _ => trivial, fun _ _ _ => trivial⟩
  cases work with
  | mmap run =>
    unfold mmapImage at run
    split at run
    · obtain ⟨⟨r', space, st₁⟩, ran, out⟩ := bind_eq_ok.mp run
      obtain ⟨-, rest⟩ := Prod.mk.inj (Except.ok.inj out)
      obtain ⟨rfl, rfl⟩ := Prod.mk.inj rest
      obtain ⟨vmas, rfl, -⟩ := AddressSpace.mmapFixed_areas any ran trivial fun _ _ _ =>
        ⟨trivial, fun _ _ => ⟨fun _ => trivial, fun _ => trivial⟩⟩
      exact ⟨rfl, rfl, rfl⟩
    · obtain ⟨⟨r', space⟩, ran, out⟩ := bind_eq_ok.mp run
      obtain ⟨-, rest⟩ := Prod.mk.inj (Except.ok.inj out)
      obtain ⟨rfl, rfl⟩ := Prod.mk.inj rest
      obtain ⟨vmas, rfl, -⟩ := AddressSpace.mmap_areas any ran trivial fun _ _ _ => trivial
      exact ⟨rfl, rfl, rfl⟩
  | munmap run =>
    obtain ⟨⟨r, space, st₁⟩, ran, out⟩ := bind_eq_ok.mp run
    obtain ⟨rfl, rfl⟩ := Prod.mk.inj (Except.ok.inj out)
    obtain ⟨vmas, rfl, -⟩ := AddressSpace.munmap_areas any ran trivial
    exact ⟨rfl, rfl, rfl⟩
  | brk run =>
    unfold brkImage at run
    split at run
    · obtain ⟨-, rfl⟩ := Prod.mk.inj (Except.ok.inj run)
      exact ⟨rfl, rfl, rfl⟩
    · obtain ⟨past, -, run⟩ := bind_eq_ok.mp run
      obtain ⟨⟨r, space⟩, extended, run⟩ := bind_eq_ok.mp run
      obtain ⟨⟨r', vmas⟩, -, out⟩ := bind_eq_ok.mp extended
      obtain ⟨rfl, rfl⟩ := Prod.mk.inj (Except.ok.inj out)
      cases r' with
      | ok =>
        obtain ⟨-, rfl⟩ := Prod.mk.inj (Except.ok.inj run)
        exact ⟨rfl, rfl, rfl⟩
      | error e =>
        obtain ⟨-, rfl⟩ := Prod.mk.inj (Except.ok.inj run)
        exact ⟨rfl, rfl, rfl⟩
  | execve run =>
    obtain ⟨vmas, fsBase, brkStart, brkCurrent, rfl, -⟩ := execImage_areas any trivial run
      (fun _ _ _ _ _ _ _ => trivial) trivial trivial
    exact ⟨rfl, rfl, rfl⟩

/-- The stores that a call makes for its caller go to user pages. -/
def StoresClear (k : Kernel) : Call → Prop
  | .execve _ stack => ∀ e ∈ stack.stores, StoreClear k.image.pages e.1 e.2.length
  | .wait4 _ statusPtr _ => statusPtr ≠ 0 → StoreClear k.image.pages statusPtr 4
  | .resume => k.parkedStatusPtr ≠ 0 → StoreClear k.image.pages k.parkedStatusPtr 4
  | _ => True

/-- The ranges that a call names lie in the lower half and off the kernel image, and so do the places
where it stores results. -/
structure Careful (p : Profile) (k : Kernel) (call : Call) : Prop where
  fits : ∀ image, k.current = some image → Fits p image call
  confines : ∀ image, k.current = some image → Confines k.image.pages p image call
  stores : k.StoresClear call

/-- What a call on the own image does is done to memory of the caller. -/
theorem Works.acted (work : Works p image k.mach call image' mach) (h : Ordered S k)
    (careful : Careful p k call) (current : k.current = some image) :
    Acted S k.image.pages image.space.owner image.space.pml4 k.mach mach := by
  obtain ⟨valid, clear⟩ := h.areas.current current
  obtain ⟨tab, own⟩ := EachImage.current h.own current
  have fits := careful.fits image current
  have confines := careful.confines image current
  cases work with
  | mmap run => exact valid.mmap_acted clear h.pool own fits run
  | munmap run => exact Image.Valid.munmap_acted h.pool own fits confines run
  | brk run => exact .refl h.pool own
  | execve run => exact valid.execve_acted clear h.pool own fits confines careful.stores run

theorem Careful.status (careful : Careful p k call) {statusPtr : Nat}
    (named : (∃ target options, call = .wait4 target statusPtr options) ∨
      call = .resume ∧ statusPtr = k.parkedStatusPtr) :
    statusPtr ≠ 0 → StoreClear k.image.pages statusPtr 4 := by
  rcases named with ⟨target, options, rfl⟩ | ⟨rfl, rfl⟩
  · exact careful.stores
  · exact careful.stores

theorem Ordered.faulted (h : Ordered S k) (current : k.current = some image) {addr : Nat}
    {r : Except String Unit} (run : image.space.handlePageFault p k.mach addr = .ok (r, mach)) :
    Acted S k.image.pages image.space.owner image.space.pml4 k.mach mach := by
  obtain ⟨valid, clear⟩ := h.areas.current current
  obtain ⟨tab, own⟩ := EachImage.current h.own current
  obtain ⟨tab', step, own', -⟩ := own.handlePageFault h.pool valid.areas.1
    (clear.userAreas valid.areas.1) run
  exact ⟨step, tab', own'⟩

theorem Ordered.stored (h : Ordered S k) (current : k.current = some image) {addr phys : Nat}
    {byte : UInt8} (allowed : k.Allows (.store addr byte))
    (there : Machine.translate k.mach.mem image.space.pml4 addr = .ok (some phys)) :
    Acted S k.image.pages image.space.owner image.space.pml4 k.mach
      ⟨k.mach.mem.writeBytes phys [byte], k.mach.pool⟩ := by
  obtain ⟨valid, clear⟩ := h.areas.current current
  obtain ⟨tab, own⟩ := EachImage.current h.own current
  obtain ⟨-, lower, image, now, -, user, writable⟩ := allowed
  obtain rfl := Option.some.inj (now.symm.trans current)
  have turn : Turn .dev image.space k.mach ⟨k.mach.mem.writeBytes phys [byte], k.mach.pool⟩ :=
    .store lower user writable there
  exact turn.owned h.pool own valid.areas.1 (clear.userAreas valid.areas.1)

theorem Step.ordered (step : Step p k call answer k') (h : Ordered S k) (careful : Careful p k call) :
    Ordered S k' := by
  have confined := step.confined h.areas careful.fits careful.confines
  cases step.effect with
  | same => exact h
  | system next images => exact h.system images
  | @works _ image image' mach runs current work =>
    obtain ⟨id, pml4, stack⟩ := work.kept
    obtain ⟨c, held, rfl⟩ := current_eq_some current
    have acted := h.act held (work.acted h careful current)
    exact acted.withImage current id pml4 stack (EachImage.current confined (current_withImage current _ _))
  | fork runs chosen current run => exact (h.fork current run).1
  | fault current low run rest images =>
    obtain ⟨c, held, rfl⟩ := current_eq_some current
    exact (h.act held (h.faulted current run)).system images
  | reap next held gone images named run =>
    exact (h.reap held gone images (careful.status named) run).1
  | store allowed current there =>
    obtain ⟨c, held, rfl⟩ := current_eq_some current
    exact h.act held (h.stored current allowed there)
  | @kernelAlloc order r mach run =>
    obtain ⟨r', mach', same, inv', frame, -, log, -⟩ :=
      Machine.allocBlock_spec h.pool p .kernel order
    obtain ⟨rfl, rfl⟩ := Prod.mk.inj (Except.ok.inj (same.symm.trans run))
    refine h.kernel (.of_alloc inv' frame log) fun i a s order' held alloc => ?_
    have kept := h.kstacks i a held s order' alloc
    cases r' with
    | none => simpa [Machine.holds, log] using kept
    | some b => exact (Machine.holds_alloc log _ _).mpr (Or.inr kept)
  | @kernelFree addr order mach allowed run =>
    obtain ⟨holds, other⟩ := allowed
    obtain ⟨mach', same, inv', frame, -, log⟩ := Machine.freeBlock_spec h.pool p holds
    obtain rfl := Except.ok.inj (same.symm.trans run)
    refine h.kernel (.of_free h.pool inv' frame log) fun i a s order' held alloc => ?_
    refine (Machine.holds_free h.pool log _ _).mpr ⟨?_, h.kstacks i a held s order' alloc⟩
    rintro ⟨-, eq⟩
    cases eq
    exact other ⟨i, a, held, alloc⟩
  | @kernelWrite mem allowed =>
    have step' : Local S .kernel k.mach ⟨mem, k.mach.pool⟩ :=
      .write h.pool fun x hx => by
        by_contra differs
        obtain ⟨b, holds, inside⟩ := allowed x differs
        exact hx ⟨b, holds, inside⟩
    exact h.kernel step' fun i a s order held alloc => h.kstacks i a held s order alloc

/-! ## Runs -/

/-- The init process alone, in order, with the kernel image outside the allocator's memory. -/
structure Begun (S : Set Nat) (k : Kernel) : Prop where
  system : System.Initial k.sys
  ordered : Ordered S k
  apart : ∀ x ∈ S, ¬ (k.image.base ≤ x ∧ x < k.image.base + k.image.size)

/-- A step whose call is careful. -/
def CarefulStep (p : Profile) (k k' : Kernel) : Prop :=
  ∃ call answer, Careful p k call ∧ Step p k call answer k'

theorem ordered_of_careful (h : Reachable (Begun S) (CarefulStep p) k) :
    Ordered S k ∧ ∀ x ∈ S, ¬ (k.image.base ≤ x ∧ x < k.image.base + k.image.size) := by
  refine Reachable.invariant (P := fun k : Kernel => Ordered S k ∧ ∀ x ∈ S,
    ¬ (k.image.base ≤ x ∧ x < k.image.base + k.image.size)) (fun k h₀ => ⟨h₀.ordered, h₀.apart⟩) ?_ h
  rintro k k' ⟨ordered, apart⟩ ⟨call, answer, careful, step⟩
  exact ⟨step.ordered ordered careful, step.effect.image_eq ▸ apart⟩

/-- In a run of careful steps, every block that was freed had been handed out to the owner that freed
it and had not been freed since. What is free is nobody's and no part of the kernel image. -/
theorem frames_owned (h : Reachable (Begun S) (CarefulStep p) k) :
    Clean k.mach.pool.log ∧ ∀ x ∈ freeCells k.mach,
      (∀ o b, k.mach.holds o b → x ∉ b.cells PAGE_SIZE) ∧
      ¬ (k.image.base ≤ x ∧ x < k.image.base + k.image.size) := by
  obtain ⟨ordered, apart⟩ := ordered_of_careful h
  refine ⟨ordered.pool.clean, fun x free => ?_⟩
  rw [ordered.pool.freeCells_eq] at free
  exact ⟨fun o b holds inside => free.2 ⟨o, b, holds, inside⟩, apart x free.1⟩

/-! ### The resident process -/

/-- Whether user code or the timer can make this call now. -/
def ready (k : Kernel) : Call → Bool
  | .plain action => k.sys.allows action && isPlain action
  | .resume | .store _ _ | .kernelAlloc _ | .kernelFree _ _ | .kernelWrite _ => false
  | _ => !k.sys.sched.idle && k.sys.sched.current.any (·.context = .user)

theorem userRuns_of_ready
    (h : (!k.sys.sched.idle && k.sys.sched.current.any (·.context = .user)) = true) :
    k.userRuns := by
  rw [Bool.and_eq_true, Option.any_eq_true] at h
  obtain ⟨idle, a, current, context⟩ := h
  exact ⟨by simpa using idle, a, current, of_decide_eq_true context⟩

theorem allows_of_ready (h : k.ready call = true) : k.Allows call := by
  cases call with
  | plain action => exact ⟨(Bool.and_eq_true_iff.mp h).1, (Bool.and_eq_true_iff.mp h).2⟩
  | resume => cases h
  | store => cases h
  | kernelAlloc => cases h
  | kernelFree => cases h
  | kernelWrite => cases h
  | _ => exact userRuns_of_ready h

/-- Calls one after the other. -/
def calls (p : Profile) : List Call → Kernel → Except Stop Kernel
  | [], k => .ok k
  | call :: rest, k =>
    if k.ready call then do
      let (_, k) ← k.perform p call
      calls p rest k
    else .error .diverges

theorem reachable_calls {init : Kernel → Prop} {list : List Call} (run : calls p list k = .ok k')
    (h : Reachable init (fun k k' => ∃ call answer, Step p k call answer k') k) :
    Reachable init (fun k k' => ∃ call answer, Step p k call answer k') k' := by
  induction list generalizing k with
  | nil =>
    obtain rfl := Except.ok.inj run
    exact h
  | cons call list ih =>
    rw [calls] at run
    split at run
    · rename_i allowed
      obtain ⟨⟨answer, k₁⟩, one, run⟩ := bind_eq_ok.mp run
      exact ih run (h.next ⟨call, answer, allows_of_ready allowed, one⟩)
    · cases run

/-- The resident process before it runs, with the kernel image above the memory of the allocator. -/
theorem resident_begun {range : ImageRange} (low : range.Low) (off : 0x400 ∉ range.pages)
    (high : 0x200000 ≤ range.base) {st : Machine Pool} (start : residentStart = .ok st) :
    ∃ S, Begun S
      (loneInit ⟨residentSpace, none, 0, 0x401000, 0x401000⟩ st range 0x1000 1) := by
  obtain ⟨S, tab, inv, own, others, -, region⟩ := residentStart_owned off start
  have lone {i a} (held : (loneInit ⟨residentSpace, none, 0, 0x401000, 0x401000⟩ st range 0x1000
      1).sys.sched.slot i = some a) : i = 0 := by
    match i with
    | 0 => rfl
    | i + 1 => cases held
  have areas : Confined range.pages ⟨residentSpace, none, 0, 0x401000, 0x401000⟩ := by
    refine ⟨⟨⟨residentSpace_wf, fun v hv heap => ?_⟩, by decide, Nat.le_refl _⟩, fun v hv => ?_⟩
    · obtain rfl := List.mem_singleton.mp hv
      cases heap
    · obtain ⟨-, area⟩ := residentSpace_user off v hv
      exact ⟨area.below, area.off⟩
  refine ⟨S, loneInit_initial, ⟨inv, low, loneInit_eachImage areas,
    loneInit_eachImage ⟨tab, own⟩, loneInit_eachImage Nat.one_pos, fun n high b => ?_,
    loneInit_eachImage nofun, fun held held' _ => (lone held).trans (lone held').symm,
    fun held held' _ _ => (lone held).trans (lone held').symm⟩, fun x hx inside => ?_⟩
  · refine others _ b fun same => ?_
    cases same
    exact absurd high (show ¬ 1 ≤ 0 by decide)
  · have := (region hx).2
    have : range.base ≤ x := inside.1
    omega

def residentInit (mach : Machine Pool) : Kernel :=
  loneInit ⟨residentSpace, none, 0, 0x401000, 0x401000⟩ mach residentImage 0x1000 1

theorem residentInit_begun {st : Machine Pool} (start : residentStart = .ok st) :
    ∃ S, Begun S (residentInit st) :=
  resident_begun residentImage_low residentImage_off (Nat.le_refl _) start

theorem residentKernel_careful (st : Machine Pool) :
    Careful .dev (residentKernel st) (.munmap 0x400000 0x1000) := by
  have range : Vmas.range .dev 0x400000 0x1000 = .ok (0x400000, 0x401000) := by decide
  refine ⟨fun _ _ _ => by decide, fun image _ first last same => ?_, trivial⟩
  obtain ⟨rfl, rfl⟩ := Prod.mk.inj (Except.ok.inj (range.symm.trans same))
  have area := (residentSpace_user residentImage_off _ (List.mem_singleton.mpr rfl)).2
  exact ⟨area.below, area.off⟩

theorem residentKernel_reachable {st : Machine Pool} (begun : Begun S (residentInit st)) :
    Reachable (Begun S) (CarefulStep .dev) (residentKernel st) :=
  (Reachable.start begun).next ⟨.plain .timer, .ret 0,
    ⟨fun _ _ => trivial, fun _ _ => trivial, trivial⟩, ⟨rfl, rfl⟩, rfl⟩

/-- The resident process gives its page back. -/
theorem resident_frames_owned : ∃ st k answer, residentStart = .ok st ∧
    Step .dev (residentKernel st) (.munmap 0x400000 0x1000) answer k ∧
    k.mach.pool.log.head? = some (.free (.space 0) ⟨0x101000, 0⟩) ∧ Clean k.mach.pool.log ∧
    ∀ x ∈ freeCells k.mach, (∀ o b, k.mach.holds o b → x ∉ b.cells PAGE_SIZE) ∧
      ¬ (k.image.base ≤ x ∧ x < k.image.base + k.image.size) := by
  have evaluates : (do
      let st ← residentStart
      let (_, k) ← (residentKernel st).perform .dev (.munmap 0x400000 0x1000)
      return k.mach.pool.log.head?) = Except.ok (some (.free (.space 0) ⟨0x101000, 0⟩)) := by
    decide +kernel
  obtain ⟨st, start, rest⟩ := bind_eq_ok.mp evaluates
  obtain ⟨⟨answer, k⟩, unmapped, rest⟩ := bind_eq_ok.mp rest
  obtain ⟨S, begun⟩ := residentInit_begun start
  have step : Step .dev (residentKernel st) (.munmap 0x400000 0x1000) answer k :=
    ⟨⟨rfl, _, rfl, rfl⟩, unmapped⟩
  exact ⟨st, k, answer, start, step, Except.ok.inj rest,
    frames_owned ((residentKernel_reachable begun).next ⟨_, _, residentKernel_careful st, step⟩)⟩

/-- A child maps an area over the kernel image and unmaps it: the frame of the image heads a free
list. -/
theorem image_frame_freed : ∃ S k, Reachable (Begun S)
      (fun k k' => ∃ call answer, Step .dev k call answer k') k ∧
    k.image.base = 0x200000 ∧ k.mach.pool.buddy.freeHeads 0 = 0x200000 ∧
    ¬ Clean k.mach.pool.log := by
  have evaluates : (do
      let st ← residentStart
      let k ← calls .dev [.plain .timer, .fork [], .plain .timer, .mmap 0x200000 0x1000 3 0x32,
        .munmap 0x200000 0x1000] (residentInit st)
      return (k.image.base, k.mach.pool.buddy.freeHeads 0, k.mach.pool.log.head?,
        (outstanding k.mach.pool.log.tail).contains (.space 1, ⟨0x200000, 0⟩))) =
      Except.ok (0x200000, 0x200000, some (.free (.space 1) ⟨0x200000, 0⟩), false) := by
    decide +kernel
  obtain ⟨st, start, rest⟩ := bind_eq_ok.mp evaluates
  obtain ⟨k, run, rest⟩ := bind_eq_ok.mp rest
  obtain ⟨base, rest⟩ := Prod.mk.inj (Except.ok.inj rest)
  obtain ⟨head, rest⟩ := Prod.mk.inj rest
  obtain ⟨last, unknown⟩ := Prod.mk.inj rest
  obtain ⟨S, begun⟩ := residentInit_begun start
  refine ⟨S, k, reachable_calls run (.start begun), base, head, fun clean => ?_⟩
  obtain ⟨log, events⟩ := List.head?_eq_some_iff.mp last
  rw [events] at clean unknown
  have holder : (.space 1, ⟨0x200000, 0⟩) ∈ outstanding log := clean.1
  simp [holder] at unknown

end Kernel
end Ferrum
