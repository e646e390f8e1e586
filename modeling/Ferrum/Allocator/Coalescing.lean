import Ferrum.Allocator.Run

/-!
# Coalescing

No free list holds a block together with its buddy, as long as no block of the largest order or below
straddles two regions. So the free memory is kept in the largest possible blocks: `alloc` fails only
if there is no room, and when everything has been given back the lists are what they were at first.
-/
namespace Ferrum

namespace Buddy

variable {s : Buddy} {free free' : Nat → List Nat} {out : List Block} {S : Set Nat} {a o : Nat}

/-- The block is on the free list of its order. -/
def Listed (s : Buddy) (b : Block) : Prop :=
  b.order < MAX_ORDER ∧ ∃ l, Chain s.mem.read64 (s.pool.freeHeads b.order) l ∧ b.addr ∈ l

theorem Inv.listed_iff (inv : Inv s free out S) {b : Block} :
    s.Listed b ↔ b ∈ freeBlocks free MAX_ORDER := by
  rw [mem_freeBlocks]
  constructor
  · rintro ⟨ho, l, chain, mem⟩
    exact ⟨ho, chain.unique (inv.lists _ ho) ▸ mem⟩
  · rintro ⟨ho, mem⟩
    exact ⟨ho, _, inv.lists _ ho, mem⟩

theorem Inv.run_in_block (inv : Inv s free out S) (merged : Merged free) (ho : o < MAX_ORDER)
    (align : Block.Aligned PAGE_SIZE ⟨a, o⟩) (sub : Block.cells PAGE_SIZE ⟨a, o⟩ ⊆ S)
    (unused : ∀ b ∈ out, Disjoint (Block.cells PAGE_SIZE ⟨a, o⟩) (b.cells PAGE_SIZE)) :
    ∃ b ∈ freeBlocks free MAX_ORDER, o ≤ b.order := by
  have inside : Block.cells PAGE_SIZE ⟨a, o⟩ ⊆ {x | x ∈ S ∧ ∀ b ∈ out, x ∉ b.cells PAGE_SIZE} :=
    fun x hx => ⟨sub hx, fun b hb => Set.disjoint_left.mp (unused b hb) hx⟩
  obtain ⟨b, hb, large, -⟩ :=
    merged.coalesced.covered page_pos inv.tiling.append_right (by omega) align inside
  exact ⟨b, hb, large⟩

/-- With nothing outstanding, the free blocks are determined by the registered set. -/
theorem Inv.listed_unique {t : Buddy} (inv : Inv s free [] S) (inv' : Inv t free' [] S)
    (merged : Merged free) (merged' : Merged free') (b : Block) : s.Listed b ↔ t.Listed b := by
  have small {free : Nat → List Nat} : ∀ b ∈ freeBlocks free MAX_ORDER, b.order ≤ MAX_ORDER - 1 := by
    intro b hb
    have := (mem_freeBlocks.mp hb).1
    omega
  rw [inv.listed_iff, inv'.listed_iff]
  exact ⟨merged.coalesced.unique merged'.coalesced page_pos inv.tiling inv'.tiling small small,
    merged'.coalesced.unique merged.coalesced page_pos inv'.tiling inv.tiling small small⟩

/-- A region that wraps around the top of the address space is not registered at all. -/
theorem addRegion_wrapped {p : Profile} {s' : Buddy} {base size : Nat} (hb : base < 2 ^ 64)
    (hs : size < 2 ^ 64) (wraps : 2 ^ 64 ≤ base + size)
    (run : s.addRegion p base size = .ok s') : s' = s := by
  cases p with
  | dev =>
    obtain ⟨_, -, run⟩ := bind_eq_ok.mp run
    obtain ⟨_, past, -⟩ := bind_eq_ok.mp run
    have := Profile.lt_of_dev_add_ok past
    omega
  | release =>
    have past : (base + size) % 2 ^ 64 < base := by omega
    simp only [addRegion, alignUp_release, Profile.add, ok_bind,
      alignDown_page (Nat.mod_lt (base + size) (show 2 ^ 64 > 0 by omega))] at run
    by_cases top : base + (PAGE_SIZE - 1) < 2 ^ 64
    · have none : (base + size) % 2 ^ 64 / PAGE_SIZE * PAGE_SIZE ≤
          (base + (PAGE_SIZE - 1)) % 2 ^ 64 / PAGE_SIZE * PAGE_SIZE := by
        rw [Nat.mod_eq_of_lt top]
        simp only [PAGE_SIZE]
        omega
      rw [if_pos none] at run
      exact (Except.ok.inj run).symm
    · -- the start is rounded up to zero, and page 0 cannot be pushed
      have start : (base + (PAGE_SIZE - 1)) % 2 ^ 64 / PAGE_SIZE * PAGE_SIZE = 0 := by
        simp only [PAGE_SIZE] at *
        omega
      rw [start] at run
      by_cases empty : (base + size) % 2 ^ 64 / PAGE_SIZE * PAGE_SIZE ≤ 0
      · rw [if_pos empty] at run
        exact (Except.ok.inj run).symm
      · have room : 0 + PAGE_SIZE ≤ (base + size) % 2 ^ 64 / PAGE_SIZE * PAGE_SIZE := by
          simp only [PAGE_SIZE] at *
          omega
        rw [if_neg empty, addBlocks, if_pos room] at run
        simp [pushBlock] at run

end Buddy

namespace Client

open Buddy (Merged Parted)

variable {p : Profile} {c c' : Client} {S : Set Nat}

/-- The allocator's invariant over a registered set, with coalesced free lists. -/
def Whole (S : Set Nat) (c : Client) : Prop :=
  ∃ free, Buddy.Inv c.buddy free c.out S ∧ Merged free

theorem merged_new : Merged fun _ => [] := by simp [Merged]

/-- Allocations, releases and writes: a step that registers nothing. -/
def Use (p : Profile) (c c' : Client) : Prop := Step p c c' ∧ c'.regions = c.regions

theorem Use.whole (use : Use p c c') (whole : c.Whole S) : c'.Whole S := by
  obtain ⟨free, inv, merged⟩ := whole
  obtain ⟨step, same⟩ := use
  cases step with
  | addRegion => exact absurd same (List.cons_ne_self _ _)
  | @allocSome order a buddy run =>
    rcases Buddy.alloc_spec p inv order with ⟨none, -⟩ | ⟨a', s', free', some, inv', -, merges⟩
    · simp [run] at none
    · obtain ⟨rfl, rfl⟩ : a = a' ∧ buddy = s' := by simpa [run] using some
      exact ⟨free', inv', merges merged⟩
  | @allocNone order buddy run =>
    rcases Buddy.alloc_spec p inv order with ⟨none, -⟩ | ⟨a', s', free', some, -⟩
    · obtain rfl : buddy = c.buddy := by simpa [run] using none
      exact ⟨free, inv, merged⟩
    · simp [run] at some
  | @free b buddy held run =>
    obtain ⟨s', free', run', inv', -, merges⟩ :=
      Buddy.free_spec p (inv.perm (List.perm_cons_erase held))
    obtain rfl : buddy = s' := by simpa [run] using run'
    exact ⟨free', inv', merges merged⟩
  | @write b x v held inside =>
    refine ⟨free, inv.congr_mem fun y _ other => Function.update_of_ne ?_ _ _, merged⟩
    rintro rfl
    exact other fun _ => ⟨b, held, inside⟩

theorem whole_seed {m : Memory} {base size : Nat} {s₁ : Buddy} (pos : 0 < base)
    (hb : base < 2 ^ 64) (hs : size < 2 ^ 64)
    (seed : Buddy.addRegion p ⟨m, .new⟩ base size = .ok s₁) :
    ∃ S, Whole S ⟨s₁, [], [(base, size)]⟩ := by
  by_cases fits : base + size < 2 ^ 64
  · obtain ⟨free', inv', -, merges⟩ := Buddy.addRegion_spec (Buddy.inv_new m) (by simp)
      (by omega) fits seed
    refine ⟨_, free', inv', merges merged_new fun a o _ _ sub => .inl ?_⟩
    simpa using sub
  · obtain rfl := Buddy.addRegion_wrapped hb hs (by omega) seed
    exact ⟨∅, _, Buddy.inv_new m, merged_new⟩

/-- After one region has been registered, no free list ever holds a block and its buddy, and when all
blocks have been given back the free lists hold the blocks that they held at first. -/
theorem coalesced_of_run {m : Memory} {base size : Nat} {s₁ : Buddy} (pos : 0 < base)
    (hb : base < 2 ^ 64) (hs : size < 2 ^ 64)
    (seed : Buddy.addRegion p ⟨m, .new⟩ base size = .ok s₁)
    (run : Reachable (· = ⟨s₁, [], [(base, size)]⟩) (Use p) c) :
    (∀ o < MAX_ORDER - 1, ∀ a, c.buddy.Listed ⟨a, o⟩ → ¬ c.buddy.Listed ⟨buddyOf a o, o⟩) ∧
    (c.out = [] → ∀ b, c.buddy.Listed b ↔ s₁.Listed b) := by
  obtain ⟨S, seeded⟩ := whole_seed pos hb hs seed
  have whole : c.Whole S := by
    refine run.invariant ?_ fun _ _ whole use => use.whole whole
    rintro _ rfl
    exact seeded
  obtain ⟨free, inv, merged⟩ := whole
  refine ⟨fun o ho a listed other => ?_, fun empty b => ?_⟩
  · rw [inv.listed_iff, mem_freeBlocks] at listed other
    exact merged o ho a listed.2 other.2
  · obtain ⟨free₁, inv₁, merged₁⟩ := seeded
    rw [empty] at inv
    exact inv.listed_unique inv₁ merged merged₁ b

/-- Two pages are taken from a region of three and given back in turn. -/
theorem coalesced_after_free : ∃ (s₁ : Buddy) (c : Client), c.out = [] ∧
    c.buddy.pool.freeHeads 0 = s₁.pool.freeHeads 0 ∧ ∀ b, c.buddy.Listed b ↔ s₁.Listed b := by
  have evaluates : (do
      let s₁ ← Buddy.addRegion .dev ⟨fun _ => 0, .new⟩ 0x1000 0x3000
      let (a, s₂) ← s₁.alloc .dev 0
      let (b, s₃) ← s₂.alloc .dev 0
      let s₄ ← s₃.free .dev 0x1000 0
      let s₅ ← s₄.free .dev 0x2000 0
      return (a, b, decide (s₅.pool.freeHeads 0 = s₁.pool.freeHeads 0))) =
      Except.ok (some 0x1000, some 0x2000, true) := by decide +kernel
  obtain ⟨s₁, seed, rest⟩ := bind_eq_ok.mp evaluates
  obtain ⟨⟨a, s₂⟩, first, rest⟩ := bind_eq_ok.mp rest
  obtain ⟨⟨b, s₃⟩, second, rest⟩ := bind_eq_ok.mp rest
  obtain ⟨s₄, back, rest⟩ := bind_eq_ok.mp rest
  obtain ⟨s₅, back', rest⟩ := bind_eq_ok.mp rest
  obtain ⟨rfl, rfl, heads⟩ : a = some 0x1000 ∧ b = some 0x2000 ∧
      decide (s₅.pool.freeHeads 0 = s₁.pool.freeHeads 0) = true := by simpa using rest
  have start : Reachable (· = ⟨s₁, [], [(0x1000, 0x3000)]⟩) (Use .dev)
      ⟨s₁, [], [(0x1000, 0x3000)]⟩ := .start rfl
  have taken := (start.next ⟨.allocSome first, rfl⟩).next ⟨.allocSome second, rfl⟩
  have freed := (taken.next ⟨.free (b := ⟨0x1000, 0⟩) (by simp) back, rfl⟩).next
    ⟨.free (b := ⟨0x2000, 0⟩) (by simp) back', rfl⟩
  have sound := coalesced_of_run (by decide) (by decide) (by decide) seed freed
  exact ⟨s₁, _, by simp, by simpa using heads, sound.2 (by simp)⟩

/-! ## Several regions -/

/-- A new region must not share a block with the regions before it. -/
def PartedStep (p : Profile) (c c' : Client) : Prop :=
  Step p c c' ∧ ∀ base size, c'.regions = (base, size) :: c.regions →
    Parted (wholePages base size) c.registered

theorem PartedStep.whole (step : PartedStep p c c') (whole : c.Whole c.registered) :
    c'.Whole c'.registered := by
  obtain ⟨step, parted⟩ := step
  by_cases same : c'.regions = c.regions
  · have kept : c'.registered = c.registered := by simp [registered, same]
    rw [kept]
    exact Use.whole ⟨step, same⟩ whole
  · cases step with
    | @addRegion base size buddy fits page0 fresh run =>
      obtain ⟨free, inv, merged⟩ := whole
      obtain ⟨free', inv', -, merges⟩ :=
        Buddy.addRegion_spec inv (disjoint_registered fresh) page0 fits run
      have grown : wholePages base size ∪ c.registered =
          registered { c with buddy, regions := (base, size) :: c.regions } := by
        ext x
        simp [registered]
      exact ⟨free', grown ▸ inv', merges merged (parted base size rfl)⟩
    | _ => exact absurd rfl same

/-- If no block straddles two regions, `alloc` fails only if no aligned run of that many pages is
free. -/
theorem complete_of_parted (run : Reachable Initial (PartedStep p) c) {order : Nat} {s' : Buddy}
    (ho : order < MAX_ORDER) (fails : c.buddy.alloc p order = .ok (none, s')) :
    ¬ ∃ a, Block.Aligned PAGE_SIZE ⟨a, order⟩ ∧
      Block.cells PAGE_SIZE ⟨a, order⟩ ⊆ c.registered ∧
      ∀ b ∈ c.out, Disjoint (Block.cells PAGE_SIZE ⟨a, order⟩) (b.cells PAGE_SIZE) := by
  have whole : c.Whole c.registered := by
    refine Reachable.invariant (P := fun c : Client => c.Whole c.registered) ?_
      (fun _ _ whole step => step.whole whole) run
    rintro _ ⟨m, rfl⟩
    have none : registered ⟨⟨m, .new⟩, [], []⟩ = ∅ := by
      ext x
      simp [registered]
    exact ⟨fun _ => [], none ▸ Buddy.inv_new m, merged_new⟩
  rintro ⟨a, align, sub, unused⟩
  obtain ⟨free, inv, merged⟩ := whole
  obtain ⟨b, hb, large⟩ := inv.run_in_block merged ho align sub unused
  obtain ⟨small, mem⟩ := mem_freeBlocks.mp hb
  rcases Buddy.alloc_spec p inv order with ⟨-, none⟩ | ⟨a', s', free', some, -⟩
  · simp [none b.order large small] at mem
  · simp [fails] at some

theorem parted_of_gap {R S : Set Nat} {g : Nat} (left : ∀ x ∈ R, x < g) (right : ∀ x ∈ S, g < x) :
    Parted R S := by
  intro a o _ _ sub
  have outside : g ∉ Block.cells PAGE_SIZE ⟨a, o⟩ := by
    intro mem
    rcases sub mem with inR | inS
    · exact absurd (left g inR) (Nat.lt_irrefl g)
    · exact absurd (right g inS) (Nat.lt_irrefl g)
  by_cases low : a < g
  · refine .inl fun x hx => (sub hx).resolve_right fun inS => ?_
    have := right x inS
    simp only [Block.cells, Set.mem_Ico] at hx outside
    omega
  · refine .inr fun x hx => (sub hx).resolve_left fun inR => ?_
    have := left x inR
    simp only [Block.cells, Set.mem_Ico] at hx outside
    omega

/-- Two regions with a page between them. -/
theorem complete_with_gap : ∃ c : Client, c.regions = [(0x1000, 0x3000), (0x5000, 0x2000)] ∧
    (∃ s', c.buddy.alloc .dev 2 = .ok (none, s')) ∧ ¬ ∃ a, Block.Aligned PAGE_SIZE ⟨a, 2⟩ ∧
      Block.cells PAGE_SIZE ⟨a, 2⟩ ⊆ c.registered ∧
      ∀ b ∈ c.out, Disjoint (Block.cells PAGE_SIZE ⟨a, 2⟩) (b.cells PAGE_SIZE) := by
  have evaluates : (do
      let s₁ ← Buddy.addRegion .dev ⟨fun _ => 0, .new⟩ 0x5000 0x2000
      let s₂ ← s₁.addRegion .dev 0x1000 0x3000
      let (a, _) ← s₂.alloc .dev 2
      return a) = Except.ok none := by decide +kernel
  obtain ⟨s₁, first, rest⟩ := bind_eq_ok.mp evaluates
  obtain ⟨s₂, second, rest⟩ := bind_eq_ok.mp rest
  obtain ⟨⟨a, s₃⟩, fails, rest⟩ := bind_eq_ok.mp rest
  obtain rfl : a = none := Except.ok.inj rest
  have start : Reachable Initial (PartedStep .dev) ⟨⟨fun _ => 0, .new⟩, [], []⟩ := .start ⟨_, rfl⟩
  have one := start.next ⟨.addRegion (by decide) (by decide) (by simp) first, by
    rintro base size same
    refine parted_of_gap (g := base + size) (fun x hx => ?_) fun x hx => ?_
    · exact (wholePages_subset base size hx).2
    · simp [registered] at hx⟩
  have fresh : ∀ r ∈ [(0x5000, 0x2000)],
      Disjoint (Set.Ico 0x1000 (0x1000 + 0x3000)) (Set.Ico r.1 (r.1 + r.2)) := by
    simp
  have two := one.next ⟨.addRegion (by decide) (by decide) fresh second, by
    rintro base size same
    obtain ⟨rfl, rfl⟩ : 0x1000 = base ∧ 0x3000 = size := by simpa using same
    refine parted_of_gap (g := 0x4000) (fun x hx => ?_) fun x hx => ?_
    · exact (wholePages_subset _ _ hx).2
    · obtain ⟨r, mem, hx⟩ := hx
      obtain rfl : r = (0x5000, 0x2000) := by simpa using mem
      have := (wholePages_subset _ _ hx).1
      simp only at this
      omega⟩
  exact ⟨_, rfl, ⟨s₃, fails⟩, complete_of_parted two (by decide) fails⟩

/-- Two regions of a page each that abut: the two pages make an aligned pair and are free, but `alloc`
does not find it. -/
theorem abutting_regions : ∃ c : Client, Reachable Initial (Step .dev) c ∧
    (∃ s', c.buddy.alloc .dev 1 = .ok (none, s')) ∧ Block.Aligned PAGE_SIZE ⟨0x2000, 1⟩ ∧
    Block.cells PAGE_SIZE ⟨0x2000, 1⟩ ⊆ c.registered ∧ c.out = [] := by
  have evaluates : (do
      let s₁ ← Buddy.addRegion .dev ⟨fun _ => 0, .new⟩ 0x2000 0x1000
      let s₂ ← s₁.addRegion .dev 0x3000 0x1000
      let (a, _) ← s₂.alloc .dev 1
      return a) = Except.ok none := by decide +kernel
  obtain ⟨s₁, first, rest⟩ := bind_eq_ok.mp evaluates
  obtain ⟨s₂, second, rest⟩ := bind_eq_ok.mp rest
  obtain ⟨⟨a, s₃⟩, fails, rest⟩ := bind_eq_ok.mp rest
  obtain rfl : a = none := Except.ok.inj rest
  have start : Reachable Initial (Step .dev) ⟨⟨fun _ => 0, .new⟩, [], []⟩ := .start ⟨_, rfl⟩
  have one := start.next (.addRegion (by decide) (by decide) (by simp) first)
  have two := one.next (.addRegion (by decide) (by decide) (by simp [Set.disjoint_left]; omega) second)
  refine ⟨_, two, ⟨s₃, fails⟩, ⟨1, rfl⟩, fun x hx => ?_, rfl⟩
  simp only [Block.cells, Block.stop, blockSize, PAGE_SIZE, Set.mem_Ico] at hx
  simp only [registered, wholePages, Set.mem_ofPred_eq, List.mem_cons, List.not_mem_nil, or_false,
    exists_eq_or_imp, exists_eq_left, PAGE_SIZE]
  omega

end Client
end Ferrum
