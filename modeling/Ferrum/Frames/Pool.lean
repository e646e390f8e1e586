import Ferrum.Allocator.Operations
import Ferrum.Paging.Operations

/-!
# The kernel's frame pool

The buddy allocator and the page-owner table, which the kernel keeps side by side. The pool also
carries a ghost log: every block that leaves the buddy allocator and every block that is given back,
with the party on whose behalf it happened. No modelled function reads the log; the statements about
who may free what do.
-/
namespace Ferrum

/-- On whose behalf a block is allocated or freed. An address space has a number of its own, which
is never reused, unlike the pid of its process. -/
inductive Owner where
  | kernel
  | space (id : Nat)
  deriving DecidableEq, Repr

inductive Event where
  | alloc (owner : Owner) (block : Block)
  | free (owner : Owner) (block : Block)
  deriving DecidableEq, Repr

structure Pool where
  buddy : BuddyAllocator
  owners : List (Nat × PageOwner)
  log : List Event

def RESERVE_CAPACITY : Nat := 8192

namespace Pool

def track (pool : Pool) (phys : Nat) (owner : PageOwner) : Except Stop Pool :=
  if RESERVE_CAPACITY ≤ pool.owners.length then .error (.ownersFull RESERVE_CAPACITY)
  else .ok { pool with owners := pool.owners ++ [(phys, owner)] }

/-- `Vec::swap_remove`: the last element takes the place of the removed one. -/
def swapRemove {α : Type} (l : List α) (i : Nat) : List α :=
  match l.getLast? with
  | none => l
  | some last => (l.set i last).dropLast

def untrack (pool : Pool) (phys : Nat) : Pool :=
  match pool.owners.findIdx? fun entry => entry.1 = phys with
  | none => pool
  | some i => { pool with owners := swapRemove pool.owners i }

theorem track_owners {pool pool' : Pool} {phys : Nat} {owner : PageOwner}
    (run : pool.track phys owner = .ok pool') :
    { pool with owners := pool.owners ++ [(phys, owner)] } = pool' := by
  unfold track at run
  split at run
  · cases run
  · exact Except.ok.inj run

theorem track_bounded {pool pool' : Pool} {phys : Nat} {owner : PageOwner}
    (run : pool.track phys owner = .ok pool') : pool'.owners.length ≤ RESERVE_CAPACITY := by
  rw [← track_owners run, List.length_append]
  unfold track at run
  split at run
  · cases run
  · rename_i place
    exact Nat.not_le.mp place

theorem untrack_owners (pool : Pool) (phys : Nat) :
    ∃ owners, pool.untrack phys = { pool with owners } := by
  unfold untrack
  split
  · exact ⟨_, rfl⟩
  · exact ⟨_, rfl⟩

end Pool

namespace Machine

/-- The view of the pool that the allocator's own functions have. -/
def buddy (st : Machine Pool) : Buddy := ⟨st.mem, st.pool.buddy⟩

def setBuddy (st : Machine Pool) (b : Buddy) (event : Option Event) : Machine Pool where
  mem := b.mem
  pool := { st.pool with buddy := b.pool, log := event.toList ++ st.pool.log }

/-- `alloc` of the global allocator, on behalf of an owner. -/
def allocBlock (p : Profile) (owner : Owner) (st : Machine Pool) (order : Nat) :
    Except Stop (Option Nat × Machine Pool) := do
  let (r, b) ← st.buddy.alloc p order
  return (r, st.setBuddy b (r.map fun a => .alloc owner ⟨a, order⟩))

/-- `free` of the global allocator, on behalf of an owner. -/
def freeBlock (p : Profile) (owner : Owner) (st : Machine Pool) (addr order : Nat) :
    Except Stop (Machine Pool) := do
  let b ← st.buddy.free p addr order
  return st.setBuddy b (some (.free owner ⟨addr, order⟩))

def allocPage (p : Profile) (owner : Owner) (st : Machine Pool) :
    Except Stop (Option Nat × Machine Pool) := do
  let (r, st) ← st.allocBlock p owner 0
  match r with
  | none => return (none, st)
  | some phys => do
    let _ ← physToVirt phys
    return (some phys, st)

end Machine

/-- The global allocator in the role of a `PageAllocator`. -/
def poolPages (p : Profile) (owner : Owner) : PageAllocator Pool where
  allocPage := Machine.allocPage p owner
  freePage st phys := st.freeBlock p owner phys 0
  track := Pool.track
  untrack := Pool.untrack

/-! ## Who holds what -/

/-- The blocks that are out, with their holders. -/
def outstanding : List Event → List (Owner × Block)
  | [] => []
  | .alloc owner b :: log => (owner, b) :: outstanding log
  | .free owner b :: log => (outstanding log).erase (owner, b)

/-- Every block was given back by its holder. -/
def Clean : List Event → Prop
  | [] => True
  | .alloc _ _ :: log => Clean log
  | .free owner b :: log => (owner, b) ∈ outstanding log ∧ Clean log

namespace Machine

variable {st st' : Machine Pool} {p : Profile} {owner o : Owner} {b : Block} {a order : Nat}

def holds (st : Machine Pool) (owner : Owner) (b : Block) : Prop :=
  (owner, b) ∈ outstanding st.pool.log

/-- The single page frames that are out. -/
def frames (st : Machine Pool) : Set Nat := {f | ∃ owner, st.holds owner ⟨f, 0⟩}

/-- The blocks that are out. -/
def out (st : Machine Pool) : List Block := (outstanding st.pool.log).map Prod.snd

/-- The allocator's invariant, with the blocks of the log out. -/
structure PoolInv (S : Set Nat) (st : Machine Pool) : Prop where
  buddy : ∃ free, Buddy.Inv st.buddy free st.out S
  clean : Clean st.pool.log

variable {S : Set Nat}

theorem holds.mem_out (h : st.holds owner b) : b ∈ st.out := List.mem_map_of_mem h

theorem cells_page (f : Nat) : Block.cells PAGE_SIZE ⟨f, 0⟩ = pageBytes f := by
  simp [Block.cells, Block.stop, blockSize, pageBytes]

theorem bytesOf_frames_subset (st : Machine Pool) : bytesOf st.frames ⊆ Buddy.Held st.out S := by
  rintro x ⟨f, ⟨owner, h⟩, hx⟩ _
  exact ⟨⟨f, 0⟩, h.mem_out, by rwa [cells_page]⟩

namespace PoolInv

theorem tableFrame (inv : PoolInv S st) (h : st.holds owner ⟨a, 0⟩) : TableFrame a := by
  obtain ⟨free, inv⟩ := inv.buddy
  have mem : (⟨a, 0⟩ : Block) ∈ Buddy.blocks free st.out := List.mem_append_left _ h.mem_out
  obtain ⟨lo, hi⟩ := inv.addr_window mem
  refine ⟨?_, ?_, hi⟩
  · have := inv.tiling.aligned _ mem
    simpa [Block.Aligned, blockSize] using this
  · simp only [PAGE_SIZE] at lo
    omega

theorem aligned (inv : PoolInv S st) (h : a ∈ st.frames) : PAGE_SIZE ∣ a :=
  let ⟨_, h⟩ := h
  (inv.tableFrame h).aligned

theorem nodup (inv : PoolInv S st) : st.out.Nodup := by
  obtain ⟨free, inv⟩ := inv.buddy
  refine (List.pairwise_append.mp inv.tiling.apart).1.imp fun {b c} apart => ?_
  rintro rfl
  have := blockSize_pos Buddy.page_pos b.order
  simp only [Block.Apart, Block.stop] at apart
  omega

theorem holder_unique (inv : PoolInv S st) (h : st.holds owner b) (h' : st.holds o b) :
    owner = o := by
  have same := List.inj_on_of_nodup_map inv.nodup h h' rfl
  exact congrArg Prod.fst same

theorem apart (inv : PoolInv S st) {c : Block} (hb : b ∈ st.out) (hc : c ∈ st.out) (ne : b ≠ c) :
    b.Apart PAGE_SIZE c := by
  obtain ⟨free, inv⟩ := inv.buddy
  exact (List.pairwise_append.mp inv.tiling.apart).1.forall hb hc ne

theorem write (inv : PoolInv S st) {m : Memory}
    (same : ∀ x ∈ S, x ∉ Buddy.Held st.out S → m x = st.mem x) : PoolInv S ⟨m, st.pool⟩ :=
  let ⟨free, buddy⟩ := inv.buddy
  ⟨⟨free, buddy.congr_mem same⟩, inv.clean⟩

theorem owners (inv : PoolInv S st) (owners : List (Nat × PageOwner)) :
    PoolInv S ⟨st.mem, { st.pool with owners }⟩ := ⟨inv.buddy, inv.clean⟩

end PoolInv

/-- An allocation adds one holder, or changes nothing but the allocator's own bookkeeping. -/
theorem allocBlock_spec (inv : PoolInv S st) (p : Profile) (owner : Owner) (order : Nat) :
    ∃ r st', st.allocBlock p owner order = .ok (r, st') ∧ PoolInv S st' ∧
      Set.EqOn st'.mem st.mem (Buddy.Held st.out S) ∧
      st'.pool.owners = st.pool.owners ∧
      st'.pool.log = (r.map fun a => Event.alloc owner ⟨a, order⟩).toList ++ st.pool.log ∧
      ∀ a, r = some a → ∀ c ∈ st.out, Block.Apart PAGE_SIZE ⟨a, order⟩ c := by
  obtain ⟨free, buddy⟩ := inv.buddy
  rcases Buddy.alloc_spec p buddy order with ⟨run, -⟩ | ⟨a, b, free', run, buddy', frame, -⟩
  · refine ⟨none, st.setBuddy st.buddy none, by simp [allocBlock, run], ⟨⟨free, buddy⟩, inv.clean⟩,
      fun _ _ => rfl, rfl, rfl, by simp⟩
  · refine ⟨some a, st.setBuddy b (some (.alloc owner ⟨a, order⟩)), by simp [allocBlock, run],
      ⟨⟨free', buddy'⟩, inv.clean⟩, frame.mono (Buddy.held_mono (List.subset_cons_self _ _)), rfl,
      rfl, ?_⟩
    rintro _ ⟨⟩ c hc
    exact buddy'.tiling.head_apart c (List.mem_append_left _ hc)

theorem freeBlock_spec (inv : PoolInv S st) (p : Profile) (held : st.holds owner ⟨a, order⟩) :
    ∃ st', st.freeBlock p owner a order = .ok st' ∧ PoolInv S st' ∧
      Set.EqOn st'.mem st.mem (Buddy.Held st'.out S) ∧
      st'.pool.owners = st.pool.owners ∧
      st'.pool.log = .free owner ⟨a, order⟩ :: st.pool.log := by
  obtain ⟨free, buddy⟩ := inv.buddy
  have split : st.out.Perm (⟨a, order⟩ ::
      ((outstanding st.pool.log).erase (owner, ⟨a, order⟩)).map Prod.snd) :=
    (List.perm_cons_erase held).map Prod.snd
  obtain ⟨b, free', run, buddy', frame, -⟩ := Buddy.free_spec p (buddy.perm split)
  exact ⟨st.setBuddy b (some (.free owner ⟨a, order⟩)), by simp [freeBlock, run],
    ⟨⟨free', buddy'⟩, held, inv.clean⟩, frame, rfl, rfl⟩

theorem holds_alloc (log : st'.pool.log = .alloc owner b :: st.pool.log)
    (o : Owner) (c : Block) : st'.holds o c ↔ (o = owner ∧ c = b) ∨ st.holds o c := by
  simp [holds, log, outstanding]

theorem holds_free (inv : PoolInv S st) (log : st'.pool.log = .free owner b :: st.pool.log)
    (o : Owner) (c : Block) : st'.holds o c ↔ ¬ (o = owner ∧ c = b) ∧ st.holds o c := by
  have distinct : (outstanding st.pool.log).Nodup := inv.nodup.of_map
  simp [holds, log, outstanding, distinct.mem_erase_iff]

/-! ## The page-owner table -/

theorem allocBlock_owners {r : Option Nat} (run : st.allocBlock p owner order = .ok (r, st')) :
    st'.pool.owners = st.pool.owners := by
  obtain ⟨⟨a, b⟩, -, out⟩ := bind_eq_ok.mp run
  obtain ⟨-, rfl⟩ := Prod.mk.inj (Except.ok.inj out)
  rfl

theorem allocPage_owners {r : Option Nat} (run : st.allocPage p owner = .ok (r, st')) :
    st'.pool.owners = st.pool.owners := by
  obtain ⟨⟨a, st₁⟩, alloc, run⟩ := bind_eq_ok.mp run
  have kept := allocBlock_owners alloc
  cases a with
  | none =>
    obtain ⟨-, rfl⟩ := Prod.mk.inj (Except.ok.inj run)
    exact kept
  | some phys =>
    obtain ⟨_, -, run⟩ := bind_eq_ok.mp run
    obtain ⟨-, rfl⟩ := Prod.mk.inj (Except.ok.inj run)
    exact kept

theorem ensureTable_owners {r : Option Nat} {table index : Nat} {flags : PageFlags}
    (run : st.ensureTable (poolPages p owner) table index flags = .ok (r, st')) :
    st'.pool.owners = st.pool.owners := by
  unfold ensureTable at run
  simp only at run
  split at run
  · split at run
    · obtain ⟨-, rfl⟩ := Prod.mk.inj (Except.ok.inj run)
      rfl
    split at run
    all_goals
      obtain ⟨-, rfl⟩ := Prod.mk.inj (Except.ok.inj run)
      rfl
  · obtain ⟨⟨frame, st₁⟩, alloc, run⟩ := bind_eq_ok.mp run
    have kept := allocPage_owners alloc
    cases frame with
    | none =>
      obtain ⟨-, rfl⟩ := Prod.mk.inj (Except.ok.inj run)
      exact kept
    | some phys =>
      simp only at run
      split at run
      · cases run
      · obtain ⟨-, rfl⟩ := Prod.mk.inj (Except.ok.inj run)
        exact kept

/-- Tables below the top level are not entered in the page-owner table. -/
theorem map_owners {r : Option Unit} {root v f : Nat} {flags : PageFlags}
    (run : st.map (poolPages p owner) root v f flags = .ok (r, st')) :
    st'.pool.owners = st.pool.owners := by
  have path : ∀ (path : List Nat) (tableFlags : PageFlags) {st st' : Machine Pool} {table : Nat}
      {r : Option Nat}, ensurePath (poolPages p owner) tableFlags path st table = .ok (r, st') →
      st'.pool.owners = st.pool.owners := by
    intro path tableFlags
    induction path with
    | nil =>
      intro st st' table r run
      obtain ⟨-, rfl⟩ := Prod.mk.inj (Except.ok.inj run)
      rfl
    | cons index path ih =>
      intro st st' table r run
      obtain ⟨_, -, run⟩ := bind_eq_ok.mp run
      obtain ⟨⟨next, st₁⟩, one, run⟩ := bind_eq_ok.mp run
      have kept := ensureTable_owners one
      cases next with
      | none =>
        obtain ⟨-, rfl⟩ := Prod.mk.inj (Except.ok.inj run)
        exact kept
      | some next => exact (ih run).trans kept
  obtain ⟨⟨pt, st₁⟩, descent, run⟩ := bind_eq_ok.mp run
  have kept := path _ _ descent
  cases pt with
  | none =>
    obtain ⟨-, rfl⟩ := Prod.mk.inj (Except.ok.inj run)
    exact kept
  | some pt =>
    obtain ⟨_, -, run⟩ := bind_eq_ok.mp run
    obtain ⟨-, rfl⟩ := Prod.mk.inj (Except.ok.inj run)
    exact kept

theorem newUser_owners {root kernelPml4 pid : Nat}
    (run : st.newUser (poolPages p owner) kernelPml4 pid = .ok (some root, st')) :
    st'.pool.owners.length = st.pool.owners.length + 1 ∧
      st'.pool.owners.length ≤ RESERVE_CAPACITY := by
  obtain ⟨⟨a, st₁⟩, alloc, run⟩ := bind_eq_ok.mp run
  cases a with
  | none => cases run
  | some pml4 =>
    obtain ⟨pool, tracked, run⟩ := bind_eq_ok.mp run
    obtain ⟨_, -, run⟩ := bind_eq_ok.mp run
    obtain ⟨-, rfl⟩ := Prod.mk.inj (Except.ok.inj run)
    have bounded := Pool.track_bounded tracked
    obtain rfl := Pool.track_owners tracked
    rw [← allocPage_owners alloc]
    exact ⟨List.length_append, bounded⟩

/-! ## The pool keeps the contract of a page allocator -/

/-- Since the state `base`, only `owner` has been given frames, and nobody's memory but that of
single frames has changed. -/
structure PoolJ (S : Set Nat) (owner : Owner) (base st : Machine Pool) (used : Set Nat) : Prop where
  inv : PoolInv S st
  used : used = st.frames
  holds : ∀ {o b}, st.holds o b ↔ base.holds o b ∨
    (o = owner ∧ b.order = 0 ∧ b.addr ∈ st.frames ∧ b.addr ∉ base.frames)
  rest : ∀ {x}, x ∈ Buddy.Held base.out S → x ∉ bytesOf st.frames → st.mem x = base.mem x

theorem PoolJ.refl (inv : PoolInv S st) (owner : Owner) : PoolJ S owner st st st.frames where
  inv := inv
  used := rfl
  holds {o b} := by
    refine ⟨Or.inl, ?_⟩
    rintro (h | ⟨-, -, inside, outside⟩)
    · exact h
    · exact absurd inside outside
  rest _ _ := rfl

theorem PoolJ.held_subset {base : Machine Pool} {used : Set Nat} (h : PoolJ S owner base st used) :
    Buddy.Held base.out S ⊆ Buddy.Held st.out S := by
  refine Buddy.held_mono fun b hb => ?_
  obtain ⟨⟨o, _⟩, mem, rfl⟩ := List.mem_map.mp hb
  exact List.mem_map_of_mem (h.holds.mpr (Or.inl mem))

theorem frames_alloc (log : st'.pool.log = .alloc owner ⟨a, 0⟩ :: st.pool.log) :
    st'.frames = insert a st.frames := by
  ext f
  simp only [frames, Set.mem_ofPred_eq, holds_alloc log, Block.mk.injEq, and_true,
    Set.mem_insert_iff]
  constructor
  · rintro ⟨o, ⟨-, rfl⟩ | h⟩
    · exact Or.inl rfl
    · exact Or.inr ⟨o, h⟩
  · rintro (rfl | ⟨o, h⟩)
    · exact ⟨owner, Or.inl ⟨rfl, rfl⟩⟩
    · exact ⟨o, Or.inr h⟩

/-- A single page of the pool: where it comes from and what its allocation leaves alone. -/
theorem allocPage_spec (inv : PoolInv S st) (p : Profile) (owner : Owner) :
    ∃ r st', st.allocPage p owner = .ok (r, st') ∧ PoolInv S st' ∧
      Set.EqOn st'.mem st.mem (Buddy.Held st.out S) ∧ st'.pool.owners = st.pool.owners ∧
      match r with
      | none => st'.pool.log = st.pool.log
      | some a => st'.pool.log = .alloc owner ⟨a, 0⟩ :: st.pool.log ∧ TableFrame a ∧ a ∉ st.frames := by
  obtain ⟨r, st', run, inv', frame, owners, log, apart⟩ := allocBlock_spec inv p owner 0
  cases r with
  | none => exact ⟨none, st', by simp [allocPage, run], inv', frame, owners, log⟩
  | some a =>
    have log : st'.pool.log = .alloc owner ⟨a, 0⟩ :: st.pool.log := log
    have held : st'.holds owner ⟨a, 0⟩ := (holds_alloc log _ _).mpr (Or.inl ⟨rfl, rfl⟩)
    have table := inv'.tableFrame held
    refine ⟨some a, st', by simp [allocPage, run, physToVirt_ok table.window], inv', frame, owners,
      log, table, ?_⟩
    rintro ⟨o, h⟩
    have := apart a rfl _ h.mem_out
    simp only [Block.Apart, Block.stop, blockSize, PAGE_SIZE] at this
    omega

theorem poolPages_lawful (S : Set Nat) (p : Profile) (owner : Owner) (base : Machine Pool) :
    Lawful (poolPages p owner) (PoolJ S owner base) where
  alloc {st used} h := by
    obtain ⟨r, st', run, inv', frame, -, log⟩ := allocPage_spec h.inv p owner
    refine ⟨r, st', run, ?_, ?_⟩
    · rw [h.used]
      exact frame.mono (bytesOf_frames_subset st)
    cases r with
    | none =>
      have same : ∀ {o b}, st'.holds o b ↔ st.holds o b := by simp [holds, log]
      have frames : st'.frames = st.frames := by simp [Machine.frames, same]
      refine ⟨inv', frames ▸ h.used, ?_, fun hx hf => ?_⟩
      · intro o b
        rw [same, h.holds, frames]
      · rw [frame (h.held_subset hx)]
        exact h.rest hx (frames ▸ hf)
    | some a =>
      obtain ⟨log, table, fresh⟩ := log
      have grown := frames_alloc log
      have notBase : a ∉ base.frames := by
        rintro ⟨o, ho⟩
        exact fresh ⟨o, h.holds.mpr (Or.inl ho)⟩
      refine ⟨table, h.used ▸ fresh, inv', by rw [grown, h.used], ?_, fun hx hf => ?_⟩
      · intro o b
        rw [holds_alloc log, h.holds, grown]
        constructor
        · rintro (⟨rfl, rfl⟩ | old | ⟨rfl, single, inside, new⟩)
          · exact Or.inr ⟨rfl, rfl, Set.mem_insert _ _, notBase⟩
          · exact Or.inl old
          · exact Or.inr ⟨rfl, single, Set.mem_insert_of_mem _ inside, new⟩
        · rintro (old | ⟨rfl, single, rfl | inside, new⟩)
          · exact Or.inr (Or.inl old)
          · exact Or.inl ⟨rfl, by rw [← single]⟩
          · exact Or.inr (Or.inr ⟨rfl, single, inside, new⟩)
      · rw [frame (h.held_subset hx)]
        refine h.rest hx fun ⟨f, hf', hx'⟩ => hf ⟨f, ?_, hx'⟩
        exact grown ▸ Set.mem_insert_of_mem _ hf'
  write {st used m} h same := by
    refine ⟨h.inv.write fun x _ notHeld => same x ?_, h.used, h.holds, fun hx hf => ?_⟩
    · exact fun mem => notHeld (bytesOf_frames_subset st (h.used ▸ mem))
    · exact (same _ (h.used ▸ hf)).trans (h.rest hx hf)
  track {st used f o pool} h run := by
    obtain rfl := Pool.track_owners run
    exact ⟨h.inv.owners _, h.used, h.holds, h.rest⟩

end Machine
end Ferrum
