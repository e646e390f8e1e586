import Mathlib
import Ferrum.Kernel.Ownership
import Ferrum.Kernel.Trace

/-!
# The table of page owners

Every entry of the table stands for a block that is out, and no block has two entries. What takes
blocks keeps this as long as the blocks that are out are distinct, and what gives page frames back
keeps it in any case, because the entry leaves the table together with the frame. `wait4` is the
exception: it gives back the kernel stack of the child and leaves the entry in the table.
-/
namespace Ferrum

open Machine

/-! ## Entries -/

namespace Pool

/-- `owned_by`: the entries of a process. -/
def ownedBy (pool : Pool) (pid : Nat) : List (Nat × PageOwner) :=
  pool.owners.filter fun entry => entry.2.pid = pid

/-- The last element takes the place of the one that leaves, so that only the order changes. -/
theorem swapRemove_perm {α : Type} {l : List α} {i : Nat} (inside : i < l.length) :
    (swapRemove l i).Perm (l.eraseIdx i) := by
  obtain ⟨init, last, rfl⟩ := List.eq_nil_or_concat' l |>.resolve_left (by grind)
  have removed : swapRemove (init ++ [last]) i = ((init ++ [last]).set i last).dropLast := by
    simp [swapRemove]
  rw [removed]
  rcases Nat.lt_or_ge i init.length with before | after
  · rw [List.set_append_left _ _ before, List.dropLast_concat,
      List.eraseIdx_append_of_lt_length before]
    exact (List.set_perm_cons_eraseIdx before last).trans (List.perm_append_singleton _ _).symm
  · obtain rfl : i = init.length := by grind
    simp [List.eraseIdx_append_of_length_le]

theorem untrack_spec (pool : Pool) {f : Nat} (once : (pool.owners.map Prod.fst).Nodup) :
    ((pool.untrack f).owners.map Prod.fst).Nodup ∧
    ∀ e, e ∈ (pool.untrack f).owners ↔ e ∈ pool.owners ∧ e.1 ≠ f := by
  unfold untrack
  split
  · rename_i none
    have absent := List.findIdx?_eq_none_iff.mp none
    exact ⟨once, fun e => ⟨fun he => ⟨he, by simpa using absent e he⟩, And.left⟩⟩
  · rename_i i found
    obtain ⟨inside, here, -⟩ := List.findIdx?_eq_some_iff_getElem.mp found
    have perm := swapRemove_perm inside
    have split := List.getElem_cons_eraseIdx_perm inside
    have distinct := (split.map Prod.fst).nodup_iff.mpr once
    rw [List.map_cons, List.nodup_cons] at distinct
    refine ⟨(perm.map Prod.fst).nodup_iff.mpr distinct.2, fun e => ?_⟩
    have at_ : pool.owners[i].1 = f := by simpa using here
    have other (he : e ∈ pool.owners.eraseIdx i) : e.1 ≠ f := fun same =>
      distinct.1 (at_.trans same.symm ▸ List.mem_map_of_mem he)
    rw [perm.mem_iff, ← split.mem_iff, List.mem_cons]
    grind

end Pool

variable {S : Set Nat} {p : Profile} {st st' : Machine Pool} {owner : Owner}

/-- A frame is released: it is given back, and its entry leaves the table. -/
theorem release_log {space : AddressSpace} {f : Nat} (run : space.release p st f = .ok st') :
    st'.pool.log = .free space.owner ⟨f, 0⟩ :: st.pool.log ∧
    ((st.pool.owners.map Prod.fst).Nodup → (st'.pool.owners.map Prod.fst).Nodup ∧
      ∀ e, e ∈ st'.pool.owners ↔ e ∈ st.pool.owners ∧ e.1 ≠ f) := by
  obtain ⟨st₁, free, run⟩ := bind_eq_ok.mp run
  obtain rfl := Except.ok.inj run
  obtain ⟨log, owners⟩ := Machine.freeBlock_log free
  obtain ⟨rest, untracked⟩ := st₁.pool.untrack_owners f
  refine ⟨by rw [untracked, ← log], fun once => ?_⟩
  rw [← owners] at once ⊢
  exact st₁.pool.untrack_spec once

/-- Every entry stands for a block that is out, and no address has two entries. -/
structure Accounted (st : Machine Pool) : Prop where
  out : ∀ e ∈ st.pool.owners, ∃ holder, st.holds holder ⟨e.1, e.2.order⟩
  once : (st.pool.owners.map Prod.fst).Nodup

/-- No two blocks that are out begin at the same address. -/
def Distinct (st : Machine Pool) : Prop := (st.out.map Block.addr).Nodup

theorem Machine.PoolInv.distinct (inv : PoolInv S st) : Distinct st := by
  refine List.Nodup.map_on (fun b hb c hc same => ?_) inv.nodup
  by_contra differ
  have apart := inv.apart hb hc differ
  have := blockSize_pos Buddy.page_pos b.order
  have := blockSize_pos Buddy.page_pos c.order
  simp only [Block.Apart, Block.stop] at apart
  omega

namespace Accounted

theorem bounded (h : Accounted st) : st.pool.owners.length ≤ st.out.length := by
  have inside : st.pool.owners.map Prod.fst ⊆ st.out.map Block.addr := by
    intro f hf
    obtain ⟨e, he, rfl⟩ := List.mem_map.mp hf
    obtain ⟨holder, held⟩ := h.out e he
    exact List.mem_map_of_mem held.mem_out
  simpa using (List.subperm_of_subset h.once inside).length_le

theorem of_eq (h : Accounted st) (log : st'.pool.log = st.pool.log)
    (owners : st'.pool.owners = st.pool.owners) : Accounted st' where
  out e he := by
    simpa only [holds, log] using h.out e (owners ▸ he)
  once := owners ▸ h.once

theorem freed (h : Accounted st) {b : Block} (log : st'.pool.log = .free owner b :: st.pool.log)
    (once : (st'.pool.owners.map Prod.fst).Nodup)
    (kept : ∀ e ∈ st'.pool.owners, e ∈ st.pool.owners ∧ e.1 ≠ b.addr) : Accounted st' := by
  refine ⟨fun e he => ?_, once⟩
  obtain ⟨old, other⟩ := kept e he
  obtain ⟨holder, held⟩ := h.out e old
  have differ : (holder, (⟨e.1, e.2.order⟩ : Block)) ≠ (owner, b) := by
    rintro same
    exact other (congrArg (fun x => x.2.addr) same)
  refine ⟨holder, ?_⟩
  rw [holds, log]
  exact (List.mem_erase_of_ne differ).mpr held

theorem giving : Giving fun st st' => Accounted st → Accounted st' := by
  refine ⟨⟨fun log owners h => h.of_eq log owners, fun one two h => two (one h)⟩, ?_⟩
  intro p space st st' f run h
  obtain ⟨log, table⟩ := release_log run
  obtain ⟨once, mem⟩ := table h.once
  exact h.freed log once fun e he => (mem e).mp he

/-- The accounts are kept, if the blocks that are out at the end are distinct. -/
def Booked (st st' : Machine Pool) : Prop :=
  Distinct st' → Distinct st ∧ (Accounted st → Accounted st')

theorem taken (h : Accounted st) {b : Block} (log : st'.pool.log = .alloc owner b :: st.pool.log)
    {e : Nat × PageOwner} (he : e ∈ st.pool.owners) : ∃ holder, st'.holds holder ⟨e.1, e.2.order⟩ :=
  let ⟨holder, held⟩ := h.out e he
  ⟨holder, (holds_alloc log holder _).mpr (Or.inr held)⟩

/-- Taking blocks keeps the accounts: a block that comes new has no entry yet. -/
theorem taking : Taking Booked := by
  refine ⟨⟨fun log owners distinct => ?_, fun one two distinct => ?_⟩, ?_, ?_⟩
  · exact ⟨by rwa [Distinct, Machine.out, log] at distinct, fun h => h.of_eq log owners⟩
  · obtain ⟨mid, second⟩ := two distinct
    obtain ⟨start, first⟩ := one mid
    exact ⟨start, fun h => second (first h)⟩
  · intro p owner st st' order a run distinct
    obtain ⟨log, owners⟩ := Machine.allocBlock_log run
    rw [Distinct, Machine.out, log] at distinct
    exact ⟨(List.nodup_cons.mp distinct).2,
      fun h => ⟨fun e he => h.taken log (owners ▸ he), owners ▸ h.once⟩⟩
  · intro p owner st st' order a tag pid pool run tracked distinct
    obtain rfl := Pool.track_owners tracked
    obtain ⟨log, owners⟩ := Machine.allocBlock_log run
    rw [Distinct, Machine.out, log] at distinct
    obtain ⟨fresh, distinct⟩ := List.nodup_cons.mp distinct
    refine ⟨distinct, fun h => ⟨fun e he => ?_, ?_⟩⟩
    · rcases List.mem_append.mp he with old | new
      · exact h.taken log (owners ▸ old)
      · obtain rfl := List.mem_singleton.mp new
        exact ⟨owner, (holds_alloc log owner _).mpr (Or.inl ⟨rfl, rfl⟩)⟩
    · have absent : a ∉ st.pool.owners.map Prod.fst := by
        intro there
        obtain ⟨e, he, rfl⟩ := List.mem_map.mp there
        obtain ⟨holder, held⟩ := h.out e he
        exact fresh (List.mem_map.mpr ⟨_, held.mem_out, rfl⟩)
      rw [owners, List.map_append]
      exact h.once.append (List.nodup_singleton a) (by simpa using absent)

theorem booked (h : Accounted st) (booked : Booked st st') (inv : PoolInv S st') : Accounted st' :=
  (booked inv.distinct).2 h

end Accounted

/-! ## Transitions -/

namespace Kernel

variable {k k' : Kernel} {call : Call} {answer : Answer Image} {image image' : Image}
  {mach : Machine Pool}

/-- What a call on the own image does to the table: frames leave it first, and others enter it. -/
theorem Works.accounted (work : Works p image st call image' st') (inv : PoolInv S st')
    (h : Accounted st) : Accounted st' := by
  cases work with
  | @mmap addr len prot flags r _ _ run =>
    unfold mmapImage at run
    split at run
    · obtain ⟨⟨r', space, st₁⟩, fixed, run⟩ := bind_eq_ok.mp run
      cases run
      exact Accounted.giving.mmapFixed fixed h
    · obtain ⟨_, -, run⟩ := bind_eq_ok.mp run
      cases run
      exact h
  | munmap run =>
    obtain ⟨⟨r, space, st₁⟩, unmapped, run⟩ := bind_eq_ok.mp run
    cases run
    exact Accounted.giving.munmap unmapped h
  | brk run => exact h
  | execve run =>
    obtain ⟨mid, gives, takes⟩ := execImage_parts run
    exact (gives _ Accounted.giving h).booked (takes _ Accounted.taking) inv

theorem settle_mach {statusPtr : Nat} {out : Answer Image × System Image}
    (run : k.settle p statusPtr out = .ok (answer, k')) (nobody : ∀ zombie, answer ≠ .reaped zombie) :
    k'.mach = k.mach := by
  unfold settle at run
  split at run
  · obtain ⟨_, -, run⟩ := bind_eq_ok.mp run
    cases run
    exact absurd rfl (nobody _)
  · cases run
    rfl

/-- The step reaps nobody, and a block that the rest of the kernel frees has no entry. -/
structure Booking (k : Kernel) (call : Call) (answer : Answer Image) : Prop where
  nobody : ∀ zombie, answer ≠ .reaped zombie
  untracked : ∀ addr order, call = .kernelFree addr order → ∀ e ∈ k.mach.pool.owners, e.1 ≠ addr

theorem Step.accounted (step : Step p k call answer k') (inv : PoolInv S k'.mach)
    (booking : Booking k call answer) (h : Accounted k.mach) : Accounted k'.mach := by
  cases step.effect with
  | same => exact h
  | system next images => exact h
  | works runs current work => exact work.accounted inv h
  | fork runs chosen current run => exact h.booked (Accounted.taking.forkImage run) inv
  | fault current low run rest images => exact h.booked (Accounted.taking.handlePageFault run) inv
  | reap next held gone images named run =>
    have same : k'.mach = k.mach := by
      rcases named with ⟨target, options, rfl⟩ | ⟨rfl, -⟩
      · exact settle_mach step.2 booking.nobody
      · exact settle_mach step.2 booking.nobody
    exact h.of_eq (congrArg (·.pool.log) same) (congrArg (·.pool.owners) same)
  | store allowed current there => exact h.of_eq rfl rfl
  | kernelAlloc run => exact h.booked (Accounted.taking.allocBlock run) inv
  | @kernelFree addr order mach allowed run =>
    obtain ⟨log, owners⟩ := Machine.freeBlock_log run
    exact h.freed log (owners ▸ h.once) fun e he =>
      ⟨owners ▸ he, booking.untracked _ _ rfl e (owners ▸ he)⟩
  | kernelWrite allowed => exact h.of_eq rfl rfl

/-- A careful step that keeps the books. -/
def BookedStep (p : Profile) (k k' : Kernel) : Prop :=
  ∃ call answer, Careful p k call ∧ Booking k call answer ∧ Step p k call answer k'

/-- As long as nobody is reaped, every entry of the table stands for a block that is out, no frame has
two entries, and the table is no longer than the list of the blocks that are out. -/
theorem page_owners_accounted
    (h : Reachable (fun k => Begun S k ∧ Accounted k.mach) (BookedStep p) k) :
    Accounted k.mach ∧ k.mach.pool.owners.length ≤ k.mach.out.length := by
  have both : Ordered S k ∧ Accounted k.mach := by
    refine Reachable.invariant (P := fun k : Kernel => Ordered S k ∧ Accounted k.mach)
      (fun k start => ⟨start.1.ordered, start.2⟩) ?_ h
    rintro k k' ⟨ordered, accounted⟩ ⟨call, answer, careful, booking, step⟩
    have ordered' := step.ordered ordered careful
    exact ⟨ordered', step.accounted ordered'.pool booking accounted⟩
  exact ⟨both.2, both.2.bounded⟩

theorem residentStart_accounted (start : residentStart = .ok st) : Accounted st := by
  have evaluates : (do
      let st ← residentStart
      return (st.pool.owners.all fun e =>
          (outstanding st.pool.log).any fun held => held.2 = ⟨e.1, e.2.order⟩,
        decide (st.pool.owners.map Prod.fst).Nodup)) = Except.ok (true, true) := by decide +kernel
  rw [start, ok_bind] at evaluates
  obtain ⟨out, once⟩ := Prod.mk.inj (Except.ok.inj evaluates)
  refine ⟨fun e he => ?_, of_decide_eq_true once⟩
  obtain ⟨⟨holder, b⟩, held, same⟩ := List.any_eq_true.mp (List.all_eq_true.mp out e he)
  exact ⟨holder, of_decide_eq_true same ▸ held⟩

/-- `wait4` found a zombie. -/
def isReaped : Answer Image → Bool
  | .reaped _ => true
  | _ => false

/-- The resident process gives its page back, and the entry of the page is gone. -/
theorem resident_page_accounted : ∃ st k answer, residentStart = .ok st ∧
    Step .dev (residentKernel st) (.munmap 0x400000 0x1000) answer k ∧
    k.mach.pool.owners = [(0x100000, ⟨"page-table:pml4", 1, 0⟩)] ∧
    Accounted k.mach ∧ k.mach.pool.owners.length ≤ k.mach.out.length := by
  have evaluates : (do
      let st ← residentStart
      let unmapped ← (residentKernel st).perform .dev (.munmap 0x400000 0x1000)
      return (unmapped.2.mach.pool.owners, isReaped unmapped.1)) =
      Except.ok ([(0x100000, ⟨"page-table:pml4", 1, 0⟩)], false) := by decide +kernel
  obtain ⟨st, start, rest⟩ := bind_eq_ok.mp evaluates
  obtain ⟨⟨answer, k⟩, unmapped, rest⟩ := bind_eq_ok.mp rest
  obtain ⟨owners, nobody⟩ := Prod.mk.inj (Except.ok.inj rest)
  obtain ⟨S, begun⟩ := residentInit_begun start
  have step : Step .dev (residentKernel st) (.munmap 0x400000 0x1000) answer k :=
    ⟨⟨rfl, _, rfl, rfl⟩, unmapped⟩
  have before : Reachable (fun k => Begun S k ∧ Accounted k.mach) (BookedStep .dev) (residentKernel st) :=
    (Reachable.start ⟨begun, residentStart_accounted start⟩).next ⟨.plain .timer, .ret 0,
      ⟨fun _ _ => trivial, fun _ _ => trivial, trivial⟩,
      ⟨(fun _ h => by cases h), fun _ _ h => by cases h⟩, ⟨rfl, rfl⟩, rfl⟩
  refine ⟨st, k, answer, start, step, owners, page_owners_accounted (before.next
    ⟨_, _, residentKernel_careful st, ⟨?_, fun _ _ h => by cases h⟩, step⟩)⟩
  rintro zombie rfl
  cases nobody

/-- The resident process gives its page back, then twice forks and reaps its child. The kernel stack of
the children is in the table twice, and it is free. -/
theorem stack_entry_stays : ∃ S k, Reachable (fun k => Begun S k ∧ Accounted k.mach)
      (fun k k' => ∃ call answer, Step .dev k call answer k') k ∧
    k.sys.sched.processes.filterMap (Option.map Process.pid) = [1] ∧
    k.mach.pool.ownedBy 2 = [(0x108000, ⟨"proc:stack", 2, 3⟩), (0x108000, ⟨"proc:stack", 2, 3⟩)] ∧
    ∀ holder, ¬ k.mach.holds holder ⟨0x108000, 3⟩ := by
  -- A kernel image of no pages leaves the child without tables to free.
  have evaluates : (do
      let st ← residentStart
      let k ← calls .dev [.plain .timer, .munmap 0x400000 0x1000, .fork [], .plain .timer,
        .plain (.exit 0), .wait4 (-1) 0 0, .fork [], .plain .timer, .plain (.exit 0), .wait4 (-1) 0 0]
        (loneInit ⟨residentSpace, none, 0, 0x401000, 0x401000⟩ st ⟨0x200000, 0⟩ 0x1000 1)
      return (k.sys.sched.processes.filterMap (Option.map Process.pid), k.mach.pool.ownedBy 2,
        k.mach.out.contains ⟨0x108000, 3⟩)) =
      Except.ok ([1], [(0x108000, ⟨"proc:stack", 2, 3⟩), (0x108000, ⟨"proc:stack", 2, 3⟩)], false) := by
    decide +kernel
  obtain ⟨st, start, rest⟩ := bind_eq_ok.mp evaluates
  obtain ⟨k, run, rest⟩ := bind_eq_ok.mp rest
  obtain ⟨table, rest⟩ := Prod.mk.inj (Except.ok.inj rest)
  obtain ⟨entries, free⟩ := Prod.mk.inj rest
  have low : (⟨0x200000, 0⟩ : ImageRange).Low := by simp [ImageRange.Low, DIRECT_MAP_END]
  have off : 0x400 ∉ (⟨0x200000, 0⟩ : ImageRange).pages := by
    rintro ⟨-, high⟩
    simp [roundUp, PAGE_SIZE] at high
  obtain ⟨S, begun⟩ := resident_begun low off (Nat.le_refl _) start
  refine ⟨S, k, reachable_calls run (.start ⟨begun, residentStart_accounted start⟩), table, entries,
    fun holder held => ?_⟩
  simp [held.mem_out] at free

end Kernel
end Ferrum
