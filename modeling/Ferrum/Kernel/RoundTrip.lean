import Ferrum.AddressSpace.Faults
import Ferrum.Kernel.Fork
import Ferrum.Kernel.Model
import Ferrum.Kernel.Trace

/-!
# Fork and reap

What `fork` takes for a child, `wait4` gives back when it reaps it: the pages that were copied, every
table down to the top-level one, and the kernel stack. Afterwards the allocator has the free memory it
had before, and nothing that anybody held on the way has changed.
-/
namespace Ferrum

open Machine (Local PoolInv Own)

variable {S img : Set Nat} {st st' : Machine Pool} {src : Tables} {p : Profile} {parent : AddressSpace}

/-! ## The kernel stack -/

/-- The first stage of `fork`: a kernel stack that is written before anything else is looked at. -/
theorem kernelStack_spec {kstack : Nat} {st₁ st₂ : Machine Pool} {owners : List (Nat × PageOwner)}
    {frame : List UInt8} (inv : PoolInv S st)
    (alloc : st.allocBlock p .kernel KSTACK_ORDER = .ok (some kstack, st₁))
    (made : writeKernelStack ⟨st₁.mem, { st₁.pool with owners }⟩ kstack frame = st₂) :
    PoolInv S st₂ ∧ Set.EqOn st₂.mem st.mem (Buddy.Held st.out S) ∧
      (∀ {o b}, st₂.holds o b ↔ (o = .kernel ∧ b = ⟨kstack, KSTACK_ORDER⟩) ∨ st.holds o b) ∧
      ∀ o, ¬ st.holds o ⟨kstack, KSTACK_ORDER⟩ := by
  obtain ⟨r, st₁', run, inv₁, same, -, log, apart⟩ :=
    Machine.allocBlock_spec inv p .kernel KSTACK_ORDER
  rw [alloc, Except.ok.injEq, Prod.mk.injEq] at run
  obtain ⟨rfl, rfl⟩ := run
  have holds {o b} : st₁.holds o b ↔
      (o = .kernel ∧ b = ⟨kstack, KSTACK_ORDER⟩) ∨ st.holds o b := Machine.holds_alloc log o b
  have size : Block.cells PAGE_SIZE ⟨kstack, KSTACK_ORDER⟩ = Set.Ico kstack (kstack + KSTACK_LEN) := rfl
  have outside {x} (hx : x ∉ Block.cells PAGE_SIZE ⟨kstack, KSTACK_ORDER⟩) :
      st₂.mem x = st₁.mem x := by
    rw [size, Set.mem_Ico] at hx
    have short : (frame.take KSTACK_FRAME).length ≤ KSTACK_FRAME := List.length_take_le _ _
    have bytes : st₂.mem = (st₁.mem.fill kstack KSTACK_LEN 0).writeBytes
        (kstack + KSTACK_LEN - KSTACK_FRAME) (frame.take KSTACK_FRAME) := by
      simp only [← made, writeKernelStack]
    rw [bytes, Memory.writeBytes_outside, Memory.fill_outside (by omega)]
    simp only [KSTACK_LEN, KSTACK_FRAME] at *
    omega
  have stack : st₁.holds .kernel ⟨kstack, KSTACK_ORDER⟩ := holds.mpr (Or.inl ⟨rfl, rfl⟩)
  have wrote : Local S .kernel st₁ ⟨st₂.mem, st₁.pool⟩ :=
    .write inv₁ fun x hx => outside fun inside => hx ⟨_, stack, inside⟩
  have unheld : ∀ o, ¬ st.holds o ⟨kstack, KSTACK_ORDER⟩ := by
    intro o ho
    have := apart kstack rfl _ ho.mem_out
    have := blockSize_pos Buddy.page_pos KSTACK_ORDER
    simp only [Block.Apart, Block.stop] at *
    omega
  have pool : st₂.pool = { st₁.pool with owners } := by simp only [← made, writeKernelStack]
  have inv₂ : PoolInv S st₂ := by
    obtain ⟨m, _⟩ := st₂
    obtain rfl : _ = _ := pool
    exact wrote.inv.owners owners
  have holds₂ {o b} : st₂.holds o b ↔ st₁.holds o b := by rw [Machine.holds, pool]; rfl
  refine ⟨inv₂, fun x hx => ?_, holds₂.trans holds, unheld⟩
  refine (outside fun inside => ?_).trans (same hx)
  obtain ⟨b, hb, hx'⟩ := hx (inv₁.cells_registered stack inside)
  exact Set.disjoint_left.mp (apart kstack rfl b hb).disjoint inside hx'

theorem Source.mono (source : Source st parent src)
    (same : Set.EqOn st'.mem st.mem (Buddy.Held st.out S))
    (keep : ∀ {o b}, st.holds o b → st'.holds o b) :
    Source st' parent src ∧ (∀ q ∈ areaPages parent.vmas,
      (frameAt st'.mem src q).map (bytesAt st'.mem) = (frameAt st.mem src q).map (bytesAt st.mem)) := by
  have page {f} (hf : f ∈ st.frames) : Set.EqOn st'.mem st.mem (pageBytes f) :=
    same.mono ((pageBytes_subset hf).trans (Machine.bytesOf_frames_subset st))
  have tables : ∀ π t, src π = some t → Set.EqOn st'.mem st.mem (pageBytes t) :=
    fun π t h => page (source.tables h)
  have frames (q : Nat) : frameAt st'.mem src q = frameAt st.mem src q := by
    rw [frameAt, frameAt, Tree.view_congr tables]
  have stays {f} : f ∈ st.frames → f ∈ st'.frames := Exists.imp fun _ => keep
  refine ⟨⟨source.tree.congr tables, fun h => stays (source.tables h), fun inside seen => ?_⟩,
    fun q inside => ?_⟩
  · exact stays (source.pages inside (frames _ ▸ seen))
  · rw [frames]
    exact Option.map_congr fun f seen => bytesAt_congr (page (source.pages inside seen))

/-! ## The image of a child -/

/-- `fork` of an image: without room for a kernel stack nothing happens; otherwise the stack is taken
first, and the address space is built from there. -/
theorem forkImage_cases {image : ImageRange} {kernelPml4 id newPid : Nat} {parent : Image}
    {frame : List UInt8} {r : Option Image} (inv : PoolInv S st)
    (run : forkImage p image kernelPml4 id parent newPid frame st = .ok (r, st')) :
    (r = none ∧ st.allocBlock p .kernel KSTACK_ORDER = .ok (none, st')) ∨
      ∃ kstack st₂ c, PoolInv S st₂ ∧ Set.EqOn st₂.mem st.mem (Buddy.Held st.out S) ∧
        (∀ {o b}, st₂.holds o b ↔ (o = .kernel ∧ b = ⟨kstack, KSTACK_ORDER⟩) ∨ st.holds o b) ∧
        (∀ o, ¬ st.holds o ⟨kstack, KSTACK_ORDER⟩) ∧
        st₂.pool.owners.length = st.pool.owners.length + 1 ∧
        forkSpace p image kernelPml4 id parent.space newPid st₂ = .ok (c, st') ∧
        r = c.map fun space => { parent with space, kernelStackAlloc := some (kstack, KSTACK_ORDER) } := by
  unfold forkImage at run
  obtain ⟨⟨a, st₁⟩, alloc, run⟩ := bind_eq_ok.mp run
  cases a with
  | none =>
    obtain ⟨rfl, rfl⟩ := by simpa using run
    exact Or.inl ⟨rfl, alloc⟩
  | some kstack =>
    obtain ⟨pool, tracked, run⟩ := bind_eq_ok.mp run
    obtain rfl := Pool.track_owners tracked
    obtain ⟨_, -, run⟩ := bind_eq_ok.mp run
    obtain ⟨⟨c, st₃⟩, copied, run⟩ := bind_eq_ok.mp run
    generalize made : writeKernelStack _ kstack frame = st₂ at copied
    obtain ⟨inv₂, same, holds, unheld⟩ := kernelStack_spec inv alloc made
    have owners : st₂.pool.owners.length = st.pool.owners.length + 1 := by
      rw [← made, ← Machine.allocBlock_owners alloc]
      exact List.length_append
    refine Or.inr ⟨kstack, st₂, c, inv₂, same, holds, unheld, owners, ?_⟩
    cases c with
    | none =>
      obtain ⟨rfl, rfl⟩ := by simpa using run
      exact ⟨copied, rfl⟩
    | some space =>
      obtain ⟨_, -, run⟩ := bind_eq_ok.mp run
      obtain ⟨rfl, rfl⟩ := by simpa using run
      exact ⟨copied, rfl⟩

theorem forkImage_spec {image : ImageRange} (low : image.Low) {kernelPml4 id newPid : Nat}
    {parent child : Image} {frame : List UInt8} (inv : PoolInv S st)
    (source : Source st parent.space src) (fresh : ∀ b, ¬ st.holds (.space id) b)
    (wf : Vmas.Wf parent.space.vmas) (user : UserAreas image.pages parent.space.vmas)
    (run : forkImage p image kernelPml4 id parent newPid frame st = .ok (some child, st')) :
    ∃ kstack st₂ tab, child.kernelStackAlloc = some (kstack, KSTACK_ORDER) ∧ child.space.id = id ∧
      Set.EqOn st₂.mem st.mem (Buddy.Held st.out S) ∧
      (∀ {o b}, st₂.holds o b ↔ (o = .kernel ∧ b = ⟨kstack, KSTACK_ORDER⟩) ∨ st.holds o b) ∧
      (∀ o, ¬ st.holds o ⟨kstack, KSTACK_ORDER⟩) ∧
      Forked S image.pages parent.space src st₂ child.space tab st' := by
  rcases forkImage_cases inv run with ⟨none, -⟩ | ⟨kstack, st₂, c, inv₂, same, holds, unheld, -, made, r⟩
  · cases none
  obtain ⟨space, rfl, rfl⟩ := Option.map_eq_some_iff.mp r.symm
  have source₂ := (source.mono same fun h => holds.mpr (Or.inr h)).1
  have fresh₂ : ∀ b, ¬ st₂.holds (.space id) b := by simp [holds, fresh]
  obtain ⟨rfl, -, tab, forked⟩ := (forkSpace_spec low inv₂ source₂ fresh₂ wf user made).2 space rfl
  exact ⟨kstack, st₂, tab, rfl, rfl, same, holds, unheld, forked⟩

/-! ## The way back -/

namespace Forked

variable {child : AddressSpace} {tab : Tables}

theorem userAreas (forked : Forked S img parent src st child tab st') (user : UserAreas img parent.vmas) :
    UserAreas img child.vmas :=
  user.of_has forked.wf fun h => (forked.has _ _ _).mp h

theorem covered (forked : Forked S img parent src st child tab st') (wf : Vmas.Wf parent.vmas) {q f : Nat}
    (hq : UserPage img q) (seen : frameAt st'.mem tab q = some f) : q ∈ areaPages child.vmas := by
  have shown := forked.pages q hq
  obtain ⟨flags, seen⟩ := frameAt_eq_some.mp seen
  rw [pageAt, seen, Option.map_some, Option.map_some, shadow] at shown
  obtain ⟨⟨f', k⟩, here, -⟩ := Option.bind_eq_some_iff.mp shown.symm
  exact mem_areaPages.mpr ⟨f', k, (forked.has _ _ _).mpr ((Vmas.attr_eq_some wf).mp here)⟩

theorem holds_iff (forked : Forked S img parent src st child tab st') (wf : Vmas.Wf parent.vmas)
    (user : UserAreas img parent.vmas) {b : Block} : st'.holds child.owner b ↔ b.order = 0 ∧
      ((∃ π, tab π = some b.addr) ∨ ∃ q ∈ areaPages child.vmas, frameAt st'.mem tab q = some b.addr) := by
  obtain ⟨a, order⟩ := b
  constructor
  · intro held
    obtain ⟨single, table | ⟨q, hq, seen⟩⟩ := forked.exact held
    · exact ⟨single, Or.inl table⟩
    · exact ⟨single, Or.inr ⟨q, forked.covered wf hq seen, seen⟩⟩
  · rintro ⟨rfl, ⟨π, table⟩ | ⟨q, hq, seen⟩⟩
    · exact forked.own.tables table
    · obtain ⟨flags, seen⟩ := frameAt_eq_some.mp seen
      exact (forked.own.pages ((forked.userAreas user).page q hq) seen).1

theorem destroy (forked : Forked S img parent src st child tab st') (wf : Vmas.Wf parent.vmas)
    (user : UserAreas img parent.vmas) (p : Profile) :
    ∃ st'', child.destroy p st' = .ok st'' ∧ Local S child.owner st' st'' ∧
      ∀ b, ¬ st''.holds child.owner b := by
  obtain ⟨st'', run, step, holds⟩ :=
    AddressSpace.destroy_spec forked.step.inv forked.own (forked.userAreas user) p
  refine ⟨st'', run, step, fun b held => ?_⟩
  obtain ⟨held, kept⟩ := holds.mp held
  obtain ⟨single, used⟩ := (forked.holds_iff wf user).mp held
  exact kept ⟨single, used.symm⟩

end Forked

/-- Frees that a clean log ends with take away what they name, once each. -/
theorem outstanding_frees {log : List Event} {given : List (Owner × Block)}
    (clean : Clean (given.map (fun e => Event.free e.1 e.2) ++ log)) :
    (given ++ outstanding (given.map (fun e => Event.free e.1 e.2) ++ log)).Perm (outstanding log) := by
  induction given with
  | nil => rfl
  | cons e given ih =>
    obtain ⟨held, clean⟩ := clean
    calc List.Perm (e :: given ++ (outstanding (given.map (fun e => Event.free e.1 e.2) ++ log)).erase e)
          (given ++ e :: (outstanding (given.map (fun e => Event.free e.1 e.2) ++ log)).erase e) :=
        List.perm_middle.symm
      List.Perm _ (given ++ outstanding (given.map (fun e => Event.free e.1 e.2) ++ log)) :=
        (List.perm_cons_erase held).symm.append_left given
      List.Perm _ (outstanding log) := ih clean

theorem Owned.source {owner : Owner} {tab : Tables} (own : Owned img st owner parent.pml4 tab)
    (user : UserAreas img parent.vmas) : Source st parent tab where
  tree := own.tree
  tables h := ⟨owner, own.tables h⟩
  pages inside seen :=
    let ⟨_, seen⟩ := frameAt_eq_some.mp seen
    ⟨owner, (own.pages (user.page _ inside) seen).1⟩

/-- A kernel image of one page beside the process with a resident page. -/
def residentImage : ImageRange := ⟨0x200000, 0x1000⟩

theorem residentImage_low : residentImage.Low := by
  simp [ImageRange.Low, residentImage, DIRECT_MAP_END]

theorem residentImage_off : 0x400 ∉ residentImage.pages := by
  rintro ⟨-, high⟩
  simp only [roundUp, residentImage, PAGE_SIZE] at high
  omega

end Ferrum
