import Ferrum.Allocator.Region
import Ferrum.Library.Run

/-!
# The allocator and its clients

Runs of the buddy allocator: regions are registered, blocks are allocated and released in any
order, and clients write to the blocks they hold. The state remembers which blocks are outstanding
and which regions were registered; the allocator itself keeps no such record.
-/
namespace Ferrum

structure Client where
  buddy : Buddy
  out : List Block
  regions : List (Nat × Nat)

namespace Client

/-- Bytes of the whole pages of all registered regions. -/
def registered (c : Client) : Set Nat := {x | ∃ r ∈ c.regions, x ∈ wholePages r.1 r.2}

/-- A fresh allocator over any memory contents. -/
def Initial (c : Client) : Prop := ∃ m, c = ⟨⟨m, .new⟩, [], []⟩

inductive Step (p : Profile) : Client → Client → Prop
  | addRegion {c : Client} {base size : Nat} {buddy : Buddy} (fits : base + size < 2 ^ 64)
      (page0 : ¬ (base = 0 ∧ PAGE_SIZE ≤ size))
      (fresh : ∀ r ∈ c.regions, Disjoint (Set.Ico base (base + size)) (Set.Ico r.1 (r.1 + r.2)))
      (run : c.buddy.addRegion p base size = .ok buddy) :
      Step p c { c with buddy, regions := (base, size) :: c.regions }
  | allocSome {c : Client} {order a : Nat} {buddy : Buddy}
      (run : c.buddy.alloc p order = .ok (some a, buddy)) :
      Step p c { c with buddy, out := ⟨a, order⟩ :: c.out }
  | allocNone {c : Client} {order : Nat} {buddy : Buddy}
      (run : c.buddy.alloc p order = .ok (none, buddy)) : Step p c { c with buddy }
  | free {c : Client} {b : Block} {buddy : Buddy} (held : b ∈ c.out)
      (run : c.buddy.free p b.addr b.order = .ok buddy) :
      Step p c { c with buddy, out := c.out.erase b }
  | write {c : Client} {b : Block} {x : Nat} (v : UInt8) (held : b ∈ c.out)
      (inside : x ∈ b.cells PAGE_SIZE) :
      Step p c { c with buddy.mem := Function.update c.buddy.mem x v }

/-- What the allocator promises its clients. -/
structure Sound (p : Profile) (c : Client) : Prop where
  /-- Free and outstanding blocks are apart, aligned, and make up the registered pages; every free
  list ends in the null address, without repetition, and has the counted length. -/
  partition : ∃ free : Nat → List Nat,
    Tiling PAGE_SIZE (c.out ++ freeBlocks free MAX_ORDER) c.registered ∧
    ∀ o < MAX_ORDER, Chain c.buddy.mem.read64 (c.buddy.pool.freeHeads o) (free o) ∧
      (free o).Nodup ∧ (free o).length = c.buddy.pool.freeCounts o
  /-- A block that is handed out is apart from every outstanding one. -/
  fresh : ∀ order a buddy, c.buddy.alloc p order = .ok (some a, buddy) →
    ∀ b ∈ c.out, Block.Apart PAGE_SIZE ⟨a, order⟩ b
  intact : ∀ caller, c.buddy.checkMetadataIntegrity caller = .ok ()
  /-- No operation panics or loops; a region must lie in the higher-half window. -/
  registers : ∀ base size, base + size ≤ DIRECT_MAP_END → ¬ (base = 0 ∧ PAGE_SIZE ≤ size) →
    (∀ r ∈ c.regions, Disjoint (Set.Ico base (base + size)) (Set.Ico r.1 (r.1 + r.2))) →
    ∃ buddy, c.buddy.addRegion p base size = .ok buddy
  allocates : ∀ order, ∃ r, c.buddy.alloc p order = .ok r
  releases : ∀ b ∈ c.out, ∃ buddy, c.buddy.free p b.addr b.order = .ok buddy

variable {p : Profile} {c c' : Client}

/-- The invariant of `Buddy`, with the free lists hidden. -/
def Good (c : Client) : Prop := ∃ free, Buddy.Inv c.buddy free c.out c.registered

theorem wholePages_subset (base size : Nat) :
    wholePages base size ⊆ Set.Ico base (base + size) := by
  intro x hx
  simp only [wholePages, Set.mem_ofPred_eq, Set.mem_Ico, PAGE_SIZE] at *
  omega

theorem disjoint_registered {base size : Nat}
    (fresh : ∀ r ∈ c.regions, Disjoint (Set.Ico base (base + size)) (Set.Ico r.1 (r.1 + r.2))) :
    Disjoint (wholePages base size) c.registered := by
  rw [Set.disjoint_left]
  rintro x hx ⟨r, hr, hx'⟩
  exact Set.disjoint_left.mp (fresh r hr) (wholePages_subset _ _ hx) (wholePages_subset _ _ hx')

theorem Good.sound (good : c.Good) : c.Sound p where
  partition := by
    obtain ⟨free, inv⟩ := good
    exact ⟨free, inv.tiling, fun o ho =>
      ⟨inv.lists o ho, (inv.lists o ho).nodup, (inv.counts o ho).symm⟩⟩
  fresh order a buddy run := by
    obtain ⟨free, inv⟩ := good
    rcases Buddy.alloc_spec p inv order with ⟨none, -⟩ | ⟨a', s', free', some, inv', -⟩
    · simp [run] at none
    · obtain ⟨rfl, rfl⟩ : a = a' ∧ buddy = s' := by simpa [run] using some
      exact fun b hb => inv'.tiling.head_apart b (List.mem_append_left _ hb)
  intact := by
    obtain ⟨free, inv⟩ := good
    exact Buddy.checkMetadataIntegrity_ok inv
  registers base size window page0 fresh := by
    obtain ⟨free, inv⟩ := good
    exact Buddy.addRegion_ok p inv (disjoint_registered fresh) page0 window
  allocates order := by
    obtain ⟨free, inv⟩ := good
    rcases Buddy.alloc_spec p inv order with ⟨none, -⟩ | ⟨a', s', free', some, -⟩
    · exact ⟨_, none⟩
    · exact ⟨_, some⟩
  releases b hb := by
    obtain ⟨free, inv⟩ := good
    obtain ⟨s', free', run, -⟩ := Buddy.free_spec p (inv.perm (List.perm_cons_erase hb))
    exact ⟨s', run⟩

theorem Initial.good (h : c.Initial) : c.Good := by
  obtain ⟨m, rfl⟩ := h
  have none : registered ⟨⟨m, .new⟩, [], []⟩ = ∅ := by
    ext x
    simp [registered]
  exact ⟨fun _ => [], none ▸ Buddy.inv_new m⟩

theorem Step.good (h : Step p c c') (good : c.Good) : c'.Good := by
  obtain ⟨free, inv⟩ := good
  cases h with
  | @addRegion base size buddy fits page0 fresh run =>
    obtain ⟨free', inv', -⟩ :=
      Buddy.addRegion_spec inv (disjoint_registered fresh) page0 fits run
    have grown : wholePages base size ∪ c.registered =
        registered { c with buddy, regions := (base, size) :: c.regions } := by
      ext x
      simp [registered]
    exact ⟨free', grown ▸ inv'⟩
  | @allocSome order a buddy run =>
    rcases Buddy.alloc_spec p inv order with ⟨none, -⟩ | ⟨a', s', free', some, inv', -⟩
    · simp [run] at none
    · obtain ⟨rfl, rfl⟩ : a = a' ∧ buddy = s' := by simpa [run] using some
      exact ⟨free', inv'⟩
  | @allocNone order buddy run =>
    rcases Buddy.alloc_spec p inv order with ⟨none, -⟩ | ⟨a', s', free', some, -⟩
    · obtain rfl : buddy = c.buddy := by simpa [run] using none
      exact ⟨free, inv⟩
    · simp [run] at some
  | @free b buddy held run =>
    obtain ⟨s', free', run', inv', -⟩ :=
      Buddy.free_spec p (inv.perm (List.perm_cons_erase held))
    obtain rfl : buddy = s' := by simpa [run] using run'
    exact ⟨free', inv'⟩
  | @write b x v held inside =>
    refine ⟨free, inv.congr_mem fun y _ other => Function.update_of_ne ?_ _ _⟩
    rintro rfl
    exact other fun _ => ⟨b, held, inside⟩

/-- In every state that a run of allocator calls and client writes reaches, the allocator keeps its
promises. -/
theorem sound_of_reachable (run : Reachable Initial (Step p) c) : c.Sound p := by
  have good : c.Good := run.invariant (fun _ => Initial.good) fun _ _ good step => step.good good
  exact good.sound

/-- A run that registers four pages and allocates two of them. -/
theorem sound_after_alloc : ∃ c : Client, Reachable Initial (Step .dev) c ∧
    c.out = [⟨0x10000, 1⟩] ∧ c.Sound .dev := by
  have evaluates : (do
      let s ← Buddy.addRegion .dev ⟨fun _ => 0, .new⟩ 0x10000 0x4000
      let r ← s.alloc .dev 1
      return r.1) = Except.ok (some 0x10000) := by decide +kernel
  obtain ⟨s, seed, rest⟩ := bind_eq_ok.mp evaluates
  obtain ⟨⟨r, s'⟩, take, result⟩ := bind_eq_ok.mp rest
  obtain rfl : r = some 0x10000 := Except.ok.inj result
  have start : Reachable Initial (Step .dev) ⟨⟨fun _ => 0, .new⟩, [], []⟩ := .start ⟨_, rfl⟩
  have seeded := start.next (.addRegion (by decide) (by decide) (by simp) seed)
  have taken := seeded.next (.allocSome take)
  exact ⟨_, taken, rfl, sound_of_reachable taken⟩

end Client
end Ferrum
