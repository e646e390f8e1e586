import Ferrum.Elf.Fidelity
import Ferrum.Fd.Ends
import Ferrum.Kernel.Delivery
import Ferrum.Kernel.Ownership

/-!
# Results that a call promises

`pipe` and `wait4` change the state first and store their result afterwards: two descriptors are open, a
child is gone from the table and its memory is freed. Neither looks at what the store says. So the caller
gets what the return value promises exactly if the place it named was mapped already.
-/
namespace Ferrum

open Machine (Local PoolInv)

/-! ## Descriptors -/

theorem FdTable.openPipe_none {t : FdTable} {st : Store} (failed : (t.openPipe st).1 = none) (fd : Nat) :
    (t.openPipe st).2.1.get fd = t.get fd := by
  unfold openPipe at failed ⊢
  simp only at failed ⊢
  rcases alloc_cases t st.newPipe.2 (.pipeRead st.newPipe.1) with full | ⟨rfd, inside, empty, run⟩
  · rw [full]
  · rw [run] at failed ⊢
    simp only at failed ⊢
    generalize st.newPipe.2.newFile (.pipeRead st.newPipe.1) = st₁ at failed ⊢
    generalize filled : t.set rfd (some st.newPipe.2.files.length) = t₁ at failed ⊢
    rcases alloc_cases t₁ st₁ (.pipeWrite st.newPipe.1) with full | ⟨wfd, -, -, run'⟩
    · -- the first descriptor is closed again
      rw [full]
      simp only
      rw [get_close, ← filled, get_set inside]
      split
      · rename_i same
        rw [same, empty]
      · rfl
    · rw [run'] at failed
      cases failed

namespace Kernel

variable {S : Set Nat} {p : Profile} {k k' : Kernel} {caller zombie : Process Image} {i j fdsPtr statusPtr : Nat}
  {mach st₁ st₂ : Machine Pool}

/-- The two descriptors as `pipe` stores them: each is an `i32` in little-endian bytes. -/
def fdsBytes (fds : Nat × Nat) : List UInt8 := Elf.leBytes 4 fds.1 ++ Elf.leBytes 4 fds.2

theorem length_fdsBytes (fds : Nat × Nat) : (fdsBytes fds).length = 8 := by
  simp [fdsBytes]

/-- Store the descriptors for the caller; a page that is not there is ignored. -/
def storeFds (p : Profile) (st : Machine Pool) (caller : Option Image) (fdsPtr : Nat) (fds : Nat × Nat) :
    Except Stop (Machine Pool) :=
  match caller with
  | some image => Prod.snd <$> writeToUser p st image.space.pml4 fdsPtr (fdsBytes fds)
  | none => .ok st

/-- `syscall_pipe` with the store through the pointer of the caller. -/
def pipe (p : Profile) (k : Kernel) (fdsPtr : Nat) : Except Stop (Answer Image × Kernel) :=
  match k.sys.pipe with
  | (answer, none, sys) => .ok (answer, { k with sys })
  | (answer, some fds, sys) => do
    let mach ← storeFds p k.mach (current { k with sys }) fdsPtr fds
    return (answer, { k with sys, mach })

theorem pipe_cases (running : k.sys.sched.current = some caller) :
    ∃ sys, (k.sys.pipe = (.err EMFILE, none, sys) ∧
        ∃ t, sys.sched.current = some { caller with fdTable := t } ∧ ∀ fd, t.get fd = caller.fdTable.get fd) ∨
      ∃ fds, k.sys.pipe = (.ret 0, some fds, sys) ∧
        ∃ t, sys.sched.current = some { caller with fdTable := t } := by
  have after (t : FdTable) : (k.sys.sched.update k.sys.sched.currentIdx fun process =>
      { process with fdTable := t }).current = some { caller with fdTable := t } := by
    rw [System.current_update, if_pos rfl, running]
    rfl
  have made : k.sys.onTable FdTable.openPipe = some ((caller.fdTable.openPipe k.sys.store).1,
      ⟨k.sys.sched.update k.sys.sched.currentIdx fun process =>
        { process with fdTable := (caller.fdTable.openPipe k.sys.store).2.1 },
        (caller.fdTable.openPipe k.sys.store).2.2⟩) := by
    rw [System.onTable, running]
    rfl
  rw [System.pipe, made]
  cases opened : (caller.fdTable.openPipe k.sys.store).1 with
  | none => exact ⟨_, Or.inl ⟨rfl, _, after _, FdTable.openPipe_none opened⟩⟩
  | some fds => exact ⟨_, Or.inr ⟨fds, rfl, _, after _⟩⟩

/-- The descriptors stand where the caller wants them exactly if that was mapped. -/
theorem pipe_stored {made : Nat × Nat} (h : Ordered S k) (running : k.sys.sched.current = some caller)
    (clear : StoreClear k.image.pages fdsPtr 8) (opened : k.sys.pipe.2.1 = some made) (p : Profile) :
    ∃ k', k.pipe p fdsPtr = .ok (.ret 0, k') ∧
      (HoldsBytes k'.mach caller.image.space.pml4 fdsPtr (fdsBytes made) ↔
        RangeMapped k.mach caller.image.space.pml4 fdsPtr 8) := by
  obtain ⟨sys, ⟨failed, -⟩ | ⟨fds, done, t, after⟩⟩ := pipe_cases running
  · rw [failed] at opened
    cases opened
  · rw [done] at opened
    obtain rfl := Option.some.inj opened
    have now : current { k with sys } = some caller.image := by
      rw [current, after]
      rfl
    obtain ⟨tab, own⟩ := h.own _ caller (Scheduler.current_eq_some running).2
    have eight : StoreClear k.image.pages fdsPtr (fdsBytes fds).length := length_fdsBytes fds ▸ clear
    obtain ⟨whole, st', run, -, holds, mapped⟩ := own.writeToUser h.pool eight p
    rw [length_fdsBytes] at holds mapped
    refine ⟨{ k with sys, mach := st' }, ?_, mapped, holds⟩
    rw [pipe, done]
    simp only [storeFds, now, run]
    rfl

/-! ## A child that is buried -/

/-- A zombie can be taken apart, and what the caller sees does not change meanwhile. -/
theorem Ordered.buried (h : Ordered S k) (held : k.sys.sched.slot i = some zombie)
    (mine : k.sys.sched.slot j = some caller) (ne : i ≠ j) (p : Profile) :
    ∃ st₁ st₂ tab, zombie.image.space.destroy p k.mach = .ok st₁ ∧
      freeKernelStack p st₁ zombie.image.kernelStackAlloc = .ok st₂ ∧ PoolInv S st₂ ∧
      Owned k.image.pages k.mach caller.image.space.owner caller.image.space.pml4 tab ∧
      Owned k.image.pages st₂ caller.image.space.owner caller.image.space.pml4 tab ∧
      ∀ q, UserPage k.image.pages q → pageAt st₂.mem tab q = pageAt k.mach.mem tab q := by
  obtain ⟨valid, areas⟩ := h.areas i zombie held
  obtain ⟨tab', own'⟩ := h.own i zombie held
  obtain ⟨tab, own⟩ := h.own j caller mine
  obtain ⟨st, destroyed, step, -⟩ :=
    AddressSpace.destroy_spec h.pool own' (areas.userAreas valid.areas.1) p
  have other : caller.image.space.owner ≠ zombie.image.space.owner := fun eq =>
    ne (h.spacesApart held mine (Owner.space.inj eq).symm)
  obtain ⟨own₁, same₁⟩ := own.other step other
  cases stack : zombie.image.kernelStackAlloc with
  | none => exact ⟨st, st, tab, destroyed, rfl, step.inv, own, own₁, same₁⟩
  | some block =>
    obtain ⟨s, order⟩ := block
    have holds : st.holds .kernel ⟨s, order⟩ :=
      (step.holds (by simp [AddressSpace.owner])).mpr (h.kstacks i zombie held s order stack)
    obtain ⟨st', freed, inv', frame, -, log⟩ := Machine.freeBlock_spec step.inv p holds
    obtain ⟨own₂, same₂⟩ := own₁.other (.of_free step.inv inv' frame log) (by simp [AddressSpace.owner])
    exact ⟨st, st', tab, destroyed, freed, inv', own, own₂, fun q hq => (same₂ q hq).trans (same₁ q hq)⟩

theorem rangeMapped_congr {img : Set Nat} {st st' : Machine Pool} {owner : Owner} {root a n : Nat}
    {tab : Tables} (own : Owned img st owner root tab) (own' : Owned img st' owner root tab)
    (same : ∀ q, UserPage img q → pageAt st'.mem tab q = pageAt st.mem tab q)
    (clear : StoreClear img a n) : RangeMapped st' root a n ↔ RangeMapped st root a n := by
  refine forall₂_congr fun i hi => ?_
  have low : a + i < 2 ^ 47 := by
    have := clear.1
    omega
  have frames := frameAt_congr (same _ ⟨pageOf_lower low, clear.2 i hi⟩)
  rw [own'.tree.translate_ok (pageOf_lower low), own.tree.translate_ok (pageOf_lower low)]
  simp only [frameAt] at frames
  cases old : view st.mem tab (pageOf (a + i)) <;> cases new : view st'.mem tab (pageOf (a + i)) <;>
    simp_all

/-- Who reaps a child keeps its place and its image, and the child loses its own. -/
theorem reaped_apart {s s' : Scheduler Image} {action : System.Action Image}
    (effect : System.Effect p s action (.reaped zombie) s') (running : s.current = some caller)
    (alive : caller.state ≠ .dead) : ∃ i, s.slot i = some zombie ∧ i ≠ s.currentIdx ∧
      s'.slot i = none ∧ s'.current.map Process.image = some caller.image := by
  obtain ⟨initialized, mine⟩ := Scheduler.current_eq_some running
  cases effect with
  | tend f tended kept => exact absurd rfl (kept zombie)
  | turn f tended kept => exact absurd rfl (kept zombie)
  | reap caller' target i z current held dead =>
    have other : i ≠ s.currentIdx := by
      rintro rfl
      obtain rfl := Option.some.inj (held.symm.trans mine)
      exact alive dead
    have removed := Scheduler.slot_remove (j := s.currentIdx) (Slots.lt_of_get held)
    rw [if_neg other.symm, mine] at removed
    refine ⟨i, held, other, ?_, ?_⟩
    · rw [Scheduler.slot_update, Scheduler.slot_remove (Slots.lt_of_get held), if_pos rfl]
      split <;> rfl
    · rw [System.current_update, if_pos rfl, Scheduler.current, if_pos initialized]
      rw [removed]
      rfl

/-- A child that is found dead is gone afterwards, and its status stands where the caller wants it
exactly if that was mapped. -/
theorem wait4_reaped {target : Int} {options : Nat} {sys : System Image} (h : Ordered S k)
    (running : k.sys.sched.current = some caller) (alive : caller.state ≠ .dead)
    (clear : StoreClear k.image.pages statusPtr 4) (wanted : statusPtr ≠ 0)
    (out : k.sys.wait4 target statusPtr options = (.reaped zombie, sys)) (p : Profile) :
    ∃ k', k.wait4 p target statusPtr options = .ok (.reaped zombie, k') ∧
      (HoldsBytes k'.mach caller.image.space.pml4 statusPtr (statusBytes zombie.exitCode) ↔
        RangeMapped k.mach caller.image.space.pml4 statusPtr 4) ∧
      ∃ i, k.sys.sched.slot i = some zombie ∧ k'.sys.sched.slot i = none := by
  obtain ⟨-, mine⟩ := Scheduler.current_eq_some running
  have effect : System.Effect p k.sys.sched (.wait4 target statusPtr options) (.reaped zombie)
      sys.sched := System.effect_wait4 out
  obtain ⟨i, held, ne, gone, image⟩ := reaped_apart effect running alive
  obtain ⟨st₁, st₂, tab, destroyed, freed, inv, own, own', same⟩ := h.buried held mine ne p
  have four : StoreClear k.image.pages statusPtr (statusBytes zombie.exitCode).length := clear
  obtain ⟨done, st₃, stored, -, holds, mapped⟩ := own'.writeToUser inv four p
  have now : current { k with sys } = some caller.image := image
  refine ⟨{ k with sys, mach := st₃ }, ?_, ?_, i, held, gone⟩
  · simp only [wait4, out, settle, bury, destroyed, freed, ok_bind, now, storeStatus, if_pos wanted,
      stored]
    rfl
  · rw [← rangeMapped_congr own own' same clear]
    exact ⟨mapped, holds⟩

theorem wait4_eq_reaped {target : Int} {options : Nat}
    (run : k.wait4 p target statusPtr options = .ok (.reaped zombie, k')) :
    ∃ sys, k.sys.wait4 target statusPtr options = (.reaped zombie, sys) := by
  generalize out : k.sys.wait4 target statusPtr options = r at run
  obtain ⟨answer, sys⟩ := r
  rw [wait4, out] at run
  unfold settle at run
  split at run
  · rename_i z sys' same
    obtain ⟨rfl, rfl⟩ := Prod.mk.inj same
    obtain ⟨k₁, -, ends⟩ := bind_eq_ok.mp run
    obtain ⟨reaped, -⟩ := Prod.mk.inj (Except.ok.inj ends)
    obtain rfl : z = zombie := by injection reaped
    exact ⟨sys, rfl⟩
  · rename_i other same
    obtain ⟨rfl, rfl⟩ := Prod.mk.inj same
    obtain ⟨rfl, -⟩ := Prod.mk.inj (Except.ok.inj run)
    exact (other zombie rfl).elim

/-- A `wait4` that had been parked goes on with the pointer that it was called with. -/
theorem resume_eq_wait4 (p : Profile) (parked : k.parkedStatusPtr ≠ 0) :
    ∃ target options, k.resume p = k.wait4 p target k.parkedStatusPtr options := by
  unfold parkedStatusPtr at parked
  split at parked
  · rename_i target statusPtr options context
    refine ⟨target, options, ?_⟩
    rw [resume, wait4, parkedStatusPtr, System.resume, context]
  · exact absurd rfl parked

/-! ## A parent and its child -/

/-- The child that a call has reaped. -/
def reapedChild : Answer Image → Option (Process Image)
  | .reaped zombie => some zombie
  | _ => none

theorem reapedChild_eq_some {answer : Answer Image} (h : reapedChild answer = some zombie) :
    answer = .reaped zombie := by
  cases answer with
  | reaped z => rw [Option.some.inj h]
  | _ => cases h

/-- Calls that are careful whatever has happened before keep the kernel in order. -/
theorem Ordered.calls {list : List Call} (h : Ordered S k)
    (careful : ∀ call ∈ list, ∀ j : Kernel, j.image = k.image → Careful p j call)
    (run : Kernel.calls p list k = .ok k') : Ordered S k' ∧ k'.image = k.image := by
  induction list generalizing k with
  | nil =>
    obtain rfl := Except.ok.inj run
    exact ⟨h, rfl⟩
  | cons call list ih =>
    rw [Kernel.calls] at run
    split at run
    · rename_i allowed
      obtain ⟨⟨answer, k₁⟩, one, run⟩ := bind_eq_ok.mp run
      have step : Step p k call answer k₁ := ⟨allows_of_ready allowed, one⟩
      have same := step.effect.image_eq
      obtain ⟨ordered, image⟩ := ih (step.ordered h (careful call List.mem_cons_self k rfl))
        (fun c hc j hj => careful c (List.mem_cons_of_mem _ hc) j (hj.trans same)) run
      exact ⟨ordered, image.trans same⟩
    · cases run

theorem rangeMapped_of_page {st : Machine Pool} {root v a n x : Nat} {tab : Tables}
    (tree : Tree st.mem root tab) (leads : Machine.translate st.mem root v = .ok (some x))
    (low : v < 2 ^ 47) (page : ∀ i < n, pageOf (a + i) = pageOf v) : RangeMapped st root a n := by
  intro i hi
  rw [tree.translate_ok (pageOf_lower low)] at leads
  obtain ⟨e, seen, -⟩ := Option.map_eq_some_iff.mp (Except.ok.inj leads)
  rw [tree.translate_ok (page i hi ▸ pageOf_lower low), page i hi, seen]
  exact ⟨_, rfl⟩

/-- The resident process maps one more page, which it does not touch, and forks; the child exits. -/
def bereaved : Except Stop Kernel := do
  let st ← residentStart
  calls .dev [.plain .timer, .mmap 0x500000 0x1000 3 0x32, .fork [], .plain .timer, .plain (.exit 7)]
    (residentInit st)

theorem bereaved_ordered (run : bereaved = .ok k) : (∃ S, Ordered S k) ∧ k.image = residentImage := by
  obtain ⟨st, start, run⟩ := bind_eq_ok.mp run
  obtain ⟨S, begun⟩ := residentInit_begun start
  have careful : ∀ call ∈ [Call.plain .timer, .mmap 0x500000 0x1000 3 0x32, .fork [], .plain .timer,
      .plain (.exit 7)], ∀ j : Kernel, j.image = residentImage → Careful .dev j call := by
    intro call hc j same
    simp only [List.mem_cons, List.not_mem_nil, or_false] at hc
    rcases hc with rfl | rfl | rfl | rfl | rfl
    · exact ⟨fun _ _ => trivial, fun _ _ => trivial, trivial⟩
    · refine ⟨fun _ _ => ⟨by decide, by decide⟩, fun _ _ => ?_, trivial⟩
      have clear : Clear residentImage.pages (roundUp 0x500000) (roundUp 0x500000 + roundUp 0x1000) := by
        refine ⟨by decide, ?_⟩
        rintro q ⟨low, -⟩ ⟨-, high⟩
        simp only [roundUp, residentImage, PAGE_SIZE] at low high
        omega
      rw [same]
      exact clear
    all_goals exact ⟨fun _ _ => trivial, fun _ _ => trivial, trivial⟩
  obtain ⟨ordered, image⟩ := begun.ordered.calls careful run
  exact ⟨⟨S, ordered⟩, image⟩

/-- What the parent finds: the child is dead, the old page is there and the new one is not. -/
theorem bereaved_state : ∃ S k caller tab zombie sys zombie' sys' made, bereaved = .ok k ∧ Ordered S k ∧
    k.image = residentImage ∧ k.sys.sched.current = some caller ∧ caller.state ≠ .dead ∧
    caller.image.space.pml4 = 0x100000 ∧ AreaAllows caller.image.space.vmas 0x500000 .write ∧
    Tree k.mach.mem 0x100000 tab ∧
    k.sys.pipe.2.1 = some made ∧
    k.sys.wait4 (-1) 0x400100 0 = (.reaped zombie, sys) ∧
    k.sys.wait4 (-1) 0x500000 0 = (.reaped zombie', sys') ∧
    Machine.translate k.mach.mem 0x100000 0x400000 = .ok (some 0x101000) ∧
    Machine.translate k.mach.mem 0x100000 0x500000 = .ok none := by
  have evaluates : (do
      let k ← bereaved
      let x ← Machine.translate k.mach.mem 0x100000 0x400000
      let y ← Machine.translate k.mach.mem 0x100000 0x500000
      return ((reapedChild (k.sys.wait4 (-1) 0x400100 0).1).isSome &&
        (reapedChild (k.sys.wait4 (-1) 0x500000 0).1).isSome && k.sys.pipe.2.1.isSome &&
        k.sys.sched.current.any fun c => (Vmas.findVma c.image.space.vmas 0x500000).any fun v =>
          v.flags.allows .write, (x, y),
        k.sys.sched.current.map fun c => (c.image.space.pml4, c.state))) =
      Except.ok (true, (some 0x101000, none), some (0x100000, .running)) := by
    decide +kernel
  obtain ⟨k, run, rest⟩ := bind_eq_ok.mp evaluates
  obtain ⟨x, leads, rest⟩ := bind_eq_ok.mp rest
  obtain ⟨y, absent, rest⟩ := bind_eq_ok.mp rest
  simp only [pure, Except.pure, Except.ok.injEq, Prod.mk.injEq, Bool.and_eq_true] at rest
  obtain ⟨⟨⟨⟨first, second⟩, opened⟩, allows⟩, ⟨rfl, rfl⟩, caller⟩ := rest
  obtain ⟨zombie, first⟩ := Option.isSome_iff_exists.mp first
  obtain ⟨zombie', second⟩ := Option.isSome_iff_exists.mp second
  obtain ⟨made, opened⟩ := Option.isSome_iff_exists.mp opened
  obtain ⟨c, running, same⟩ := Option.map_eq_some_iff.mp caller
  obtain ⟨pml4, state⟩ := Prod.mk.inj same
  obtain ⟨⟨S, ordered⟩, image⟩ := bereaved_ordered run
  obtain ⟨tab, own⟩ := ordered.own _ c (Scheduler.current_eq_some running).2
  rw [running, Option.any_some, Option.any_eq_true] at allows
  have alive : c.state ≠ .dead := by
    rw [state]
    decide
  exact ⟨S, k, c, tab, zombie, _, zombie', _, made, run, ordered, image, running, alive, pml4, allows,
    pml4 ▸ own.tree, opened, Prod.ext (reapedChild_eq_some first) rfl,
    Prod.ext (reapedChild_eq_some second) rfl, leads, absent⟩

/-! ## Promises -/

/-- What `pipe` and `wait4` promise is there exactly if the caller named a place that was mapped. An
error of `pipe` leaves the table of descriptors as it was; a child is gone in any case. -/
theorem results_delivered_iff (h : Ordered S k) (running : k.sys.sched.current = some caller)
    (alive : caller.state ≠ .dead) (fds : StoreClear k.image.pages fdsPtr 8)
    (status : StoreClear k.image.pages statusPtr 4) (p : Profile) :
    (∃ answer k', k.pipe p fdsPtr = .ok (answer, k') ∧
      (answer = .ret 0 → ∃ made, k.sys.pipe.2.1 = some made ∧
        (HoldsBytes k'.mach caller.image.space.pml4 fdsPtr (fdsBytes made) ↔
          RangeMapped k.mach caller.image.space.pml4 fdsPtr 8)) ∧
      (answer ≠ .ret 0 → k'.mach = k.mach ∧ ∃ after, k'.sys.sched.current = some after ∧
        ∀ fd, after.fdTable.get fd = caller.fdTable.get fd)) ∧
    ∀ zombie k', (∃ target options, k.wait4 p target statusPtr options = .ok (.reaped zombie, k')) ∨
        k.parkedStatusPtr = statusPtr ∧ k.resume p = .ok (.reaped zombie, k') →
      statusPtr ≠ 0 →
      (HoldsBytes k'.mach caller.image.space.pml4 statusPtr (statusBytes zombie.exitCode) ↔
        RangeMapped k.mach caller.image.space.pml4 statusPtr 4) ∧
      ∃ i, k.sys.sched.slot i = some zombie ∧ k'.sys.sched.slot i = none := by
  constructor
  · obtain ⟨sys, ⟨failed, t, after, same⟩ | ⟨made, done, -⟩⟩ := pipe_cases running
    · refine ⟨.err EMFILE, { k with sys }, ?_, ?_, fun _ => ⟨rfl, _, after, same⟩⟩
      · rw [pipe, failed]
      · intro done
        cases done
    · have opened : k.sys.pipe.2.1 = some made := by rw [done]
      obtain ⟨k', run, stored⟩ := pipe_stored h running fds opened p
      exact ⟨.ret 0, k', run, fun _ => ⟨made, opened, stored⟩, fun failed => absurd rfl failed⟩
  · have reaps {zombie k' target options}
        (run : k.wait4 p target statusPtr options = .ok (.reaped zombie, k')) (wanted : statusPtr ≠ 0) :
        (HoldsBytes k'.mach caller.image.space.pml4 statusPtr (statusBytes zombie.exitCode) ↔
          RangeMapped k.mach caller.image.space.pml4 statusPtr 4) ∧
        ∃ i, k.sys.sched.slot i = some zombie ∧ k'.sys.sched.slot i = none := by
      obtain ⟨sys, out⟩ := wait4_eq_reaped run
      obtain ⟨k₁, run', promised⟩ := wait4_reaped h running alive status wanted out p
      obtain ⟨-, rfl⟩ := Prod.mk.inj (Except.ok.inj (run'.symm.trans run))
      exact promised
    rintro zombie k' (⟨target, options, run⟩ | ⟨rfl, run⟩) wanted
    · exact reaps run wanted
    · obtain ⟨target, options, same⟩ := resume_eq_wait4 (k := k) p wanted
      exact reaps (same ▸ run) wanted

/-- The parent names the page that is there, and gets what it asked for. -/
theorem bereaved_results : ∃ k k₁ k₂ zombie made, bereaved = .ok k ∧
    k.pipe .dev 0x400200 = .ok (.ret 0, k₁) ∧ HoldsBytes k₁.mach 0x100000 0x400200 (fdsBytes made) ∧
    k.wait4 .dev (-1) 0x400100 0 = .ok (.reaped zombie, k₂) ∧
    HoldsBytes k₂.mach 0x100000 0x400100 (statusBytes zombie.exitCode) := by
  obtain ⟨S, k, c, tab, zombie, sys, -, -, made, run, ordered, image, running, alive, pml4, -, tree,
    opened, found, -, leads, -⟩ := bereaved_state
  have number {a n : Nat} (low : 0x400000 ≤ a) (high : a + n ≤ 0x401000) :
      ∀ i < n, pageOf (a + i) = 0x400 := by
    intro i hi
    rw [pageOf_eq (by omega)]
    simp only [PAGE_SIZE]
    omega
  have clear {a n : Nat} (low : 0x400000 ≤ a) (high : a + n ≤ 0x401000) :
      StoreClear k.image.pages a n := by
    refine ⟨by omega, fun i hi => ?_⟩
    rw [number low high i hi, image]
    exact residentImage_off
  have fds : StoreClear k.image.pages 0x400200 8 := clear (by omega) (by omega)
  have status : StoreClear k.image.pages 0x400100 4 := clear (by omega) (by omega)
  obtain ⟨k₁, piped, -⟩ := pipe_stored ordered running fds opened .dev
  obtain ⟨k₂, waited, -⟩ := wait4_reaped ordered running alive status (by decide) found .dev
  obtain ⟨⟨answer, k₁', piped', stored, -⟩, reaps⟩ :=
    results_delivered_iff ordered running alive fds status .dev
  obtain ⟨rfl, rfl⟩ := Prod.mk.inj (Except.ok.inj (piped'.symm.trans piped))
  obtain ⟨made', -, promised⟩ := stored rfl
  obtain ⟨holds, -⟩ := reaps zombie k₂ (Or.inl ⟨_, _, waited⟩) (by decide)
  rw [pml4] at holds promised
  have there {a n : Nat} (low : 0x400000 ≤ a) (high : a + n ≤ 0x401000) :
      RangeMapped k.mach 0x100000 a n :=
    rangeMapped_of_page tree leads (by decide) (number low high)
  exact ⟨k, _, k₂, zombie, made', run, piped, promised.mpr (there (by omega) (by omega)), waited,
    holds.mpr (there (by omega) (by omega))⟩

/-- The parent names the page of its new area, which it has not touched: both calls succeed, neither
the descriptors nor the status arrive, and the child is gone. -/
theorem results_lost : ∃ k k₁ k₂ zombie made, bereaved = .ok k ∧
    (∃ caller, k.sys.sched.current = some caller ∧ caller.image.space.pml4 = 0x100000 ∧
      AreaAllows caller.image.space.vmas 0x500000 .write) ∧
    k.sys.pipe.2.1 = some made ∧ k.pipe .dev 0x500000 = .ok (.ret 0, k₁) ∧
    ¬ HoldsBytes k₁.mach 0x100000 0x500000 (fdsBytes made) ∧
    k.wait4 .dev (-1) 0x500000 0 = .ok (.reaped zombie, k₂) ∧
    ¬ HoldsBytes k₂.mach 0x100000 0x500000 (statusBytes zombie.exitCode) ∧
    ∃ i, k.sys.sched.slot i = some zombie ∧ k₂.sys.sched.slot i = none := by
  obtain ⟨S, k, c, tab, -, -, zombie, sys, made, run, ordered, image, running, alive, pml4, area, -,
    opened, -, found, -, absent⟩ := bereaved_state
  have clear {n : Nat} (short : n ≤ 8) : StoreClear k.image.pages 0x500000 n := by
    refine ⟨by omega, fun i hi => ?_⟩
    rw [image, pageOf_eq (by omega)]
    rintro ⟨-, high⟩
    simp only [roundUp, residentImage, PAGE_SIZE] at high
    omega
  have unmapped {n : Nat} (some : 0 < n) : ¬ RangeMapped k.mach 0x100000 0x500000 n := by
    intro mapped
    obtain ⟨x, leads⟩ := mapped 0 some
    rw [Nat.add_zero, absent] at leads
    cases leads
  obtain ⟨k₁, piped, stored⟩ := pipe_stored ordered running (clear (Nat.le_refl 8)) opened .dev
  obtain ⟨k₂, waited, status, gone⟩ :=
    wait4_reaped ordered running alive (clear (by omega)) (by decide) found .dev
  rw [pml4] at stored status
  exact ⟨k, k₁, k₂, zombie, made, run, ⟨c, running, pml4, area⟩, opened, piped,
    fun holds => unmapped (by omega) (stored.mp holds), waited,
    fun holds => unmapped (by omega) (status.mp holds), gone⟩

end Kernel
end Ferrum
