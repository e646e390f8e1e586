import Ferrum.Allocator.Region
import Ferrum.Frames.Pool
import Ferrum.Library.Run

/-!
# Page tables refine a partial map

The abstract behaviour of an address space is a partial map from page numbers to frames and flags,
updated by `map` and erased by `unmap`. Every run of the two operations on a new user table, with any
lawful allocator, stays in step with that map: translations, the frames that `unmap` returns and the
access rights that the processor computes over the four levels all come from it.
-/
namespace Ferrum

/-- Access rights, as the processor combines them over the levels. -/
structure Access where
  present : Bool
  writable : Bool
  user : Bool
  noExec : Bool
  deriving DecidableEq, Repr

def PageFlags.access (f : PageFlags) : Access := ⟨f.present, f.writable, f.user, f.noExec⟩

/-- Rights that both grant. -/
def Access.meet (a b : Access) : Access :=
  ⟨a.present && b.present, a.writable && b.writable, a.user && b.user, a.noExec || b.noExec⟩

/-- What ring 3 may do at an address: the meet of the entries of all four levels. -/
def effectiveAccess (m : Memory) (pml4 v : Nat) : Access :=
  let parts := VirtAddrParts.fromU64 v
  let e₄ := readEntry m pml4 parts.pml4
  let e₃ := readEntry m (Entry.physAddr e₄) parts.pdpt
  let e₂ := readEntry m (Entry.physAddr e₃) parts.pd
  let e₁ := readEntry m (Entry.physAddr e₂) parts.pt
  (Entry.flags e₄).access.meet <| (Entry.flags e₃).access.meet <|
    (Entry.flags e₂).access.meet (Entry.flags e₁).access

theorem PageFlags.Link.meet {f : PageFlags} (link : f.Link) {a : Access}
    (user : a.user = true → f.user = true) : f.access.meet a = a := by
  obtain ⟨present, writable, user', noExec⟩ := a
  cases user' <;> simp_all [Access.meet, access, link.present, link.writable, link.noExec]

theorem Tree.effectiveAccess_eq {m : Memory} {root v p : Nat} {tab : Tables} {f : PageFlags}
    (tree : Tree m root tab) (h : view m tab (pageOf v) = some (p, f)) :
    effectiveAccess m root v = f.access := by
  generalize hq : pageOf v = q at h
  cases hpt : tab (pagePath q) with
  | none => simp [view_of_none hpt] at h
  | some pt =>
    obtain ⟨addr, present⟩ := tree.view_pageAddr h
    have index := index_lt q
    have leaf : readEntry m pt (q % 512) = Entry.newPage p f := by
      rw [view_of_some hpt] at h
      rcases tree.leaf hpt rfl index with absent | ⟨p', f', addr', present', word⟩
      · simp [Entry.decode, absent] at h
      · rw [word, Entry.decode_newPage addr' present'] at h
        obtain ⟨rfl, rfl⟩ : p' = p ∧ f' = f := by simpa using h
        exact word
    -- the three tables on the way, and the entries that link them
    obtain ⟨pd, hpd⟩ := tree.ancestor hpt
      (show [q / 2 ^ 27 % 512, q / 2 ^ 18 % 512] <+: pagePath q from ⟨[_], rfl⟩)
    obtain ⟨pdpt, hpdpt⟩ := tree.ancestor hpt
      (show [q / 2 ^ 27 % 512] <+: pagePath q from ⟨[_, _], rfl⟩)
    obtain ⟨f₄, link₄, word₄⟩ := tree.link tree.root hpdpt
    obtain ⟨f₃, link₃, word₃⟩ := tree.link hpdpt hpd
    obtain ⟨f₂, link₂, word₂⟩ := tree.link hpd hpt
    have addr₄ := (tree.frame hpdpt).pageAddr
    have addr₃ := (tree.frame hpd).pageAddr
    have addr₂ := (tree.frame hpt).pageAddr
    have marks : f.user = true → f₄.user = true ∧ f₃.user = true ∧ f₂.user = true := by
      intro wanted
      have all {ρ j s} := tree.user hpt rfl index (by simp [leaf, addr, present])
        (by simp [userEntry, leaf, addr, wanted]) (ρ := ρ) (j := j) (s := s)
      have top := all (ρ := []) ⟨[_, _], rfl⟩ tree.root
      have middle := all (ρ := [_]) ⟨[_], rfl⟩ hpdpt
      have last := all (ρ := [_, _]) ⟨[], rfl⟩ hpd
      rw [userEntry, word₄, Entry.flags_newPage addr₄] at top
      rw [userEntry, word₃, Entry.flags_newPage addr₃] at middle
      rw [userEntry, word₂, Entry.flags_newPage addr₂] at last
      exact ⟨top, middle, last⟩
    simp only [effectiveAccess, fromU64_eq, hq, word₄, word₃, word₂, leaf,
      Entry.physAddr_newPage addr₄, Entry.physAddr_newPage addr₃, Entry.physAddr_newPage addr₂,
      Entry.flags_newPage addr₄, Entry.flags_newPage addr₃, Entry.flags_newPage addr₂,
      Entry.flags_newPage addr]
    rw [link₂.meet fun u => (marks u).2.2, link₃.meet fun u => (marks u).2.1,
      link₄.meet fun u => (marks u).1]

/-! ## Runs -/

/-- A machine and the abstract map of one of its address spaces. -/
structure Mapped (A : Type) where
  st : Machine A
  map : Nat → Option (Nat × PageFlags)

namespace Mapped

variable {A : Type} {pages : PageAllocator A} {J : Machine A → Set Nat → Prop} {root : Nat}
  {st₁ : Machine A} {c c' : Mapped A}

/-- The calls on the lower half, with their effect on the abstract map. -/
inductive Step (pages : PageAllocator A) (root : Nat) : Mapped A → Mapped A → Prop
  | map {c : Mapped A} {v p : Nat} {flags : PageFlags} {st : Machine A} (hv : v < 2 ^ 47)
      (hp : PageAddr p) (run : c.st.map pages root v p flags = .ok (some (), st)) :
      Step pages root c ⟨st, Function.update c.map (v / PAGE_SIZE)
        (some (p, { flags with present := true }))⟩
  | mapFails {c : Mapped A} {v p : Nat} {flags : PageFlags} {st : Machine A} (hv : v < 2 ^ 47)
      (hp : PageAddr p) (run : c.st.map pages root v p flags = .ok (none, st)) :
      Step pages root c ⟨st, c.map⟩
  | unmap {c : Mapped A} {v : Nat} {r : Option Nat} {st : Machine A} (hv : v < 2 ^ 47)
      (run : c.st.unmap root v = .ok (r, st)) :
      Step pages root c ⟨st, Function.update c.map (v / PAGE_SIZE) none⟩

/-- The tables agree with the abstract map; `st₁` is the machine at the start of the run. -/
structure Refines (pages : PageAllocator A) (root : Nat) (st₁ : Machine A) (c : Mapped A) :
    Prop where
  translate : ∀ a < 2 ^ 47, Machine.translate c.st.mem root a =
    .ok ((c.map (a / PAGE_SIZE)).map fun e => e.1 + a % PAGE_SIZE)
  unmap : ∀ v < 2 ^ 47, ∃ st, c.st.unmap root v = .ok ((c.map (v / PAGE_SIZE)).map Prod.fst, st)
  /-- `map` returns, and if it returns `None` it has changed no translation. -/
  map : ∀ v < 2 ^ 47, ∀ p, PageAddr p → ∀ flags, ∃ r st,
    c.st.map pages root v p flags = .ok (r, st) ∧
      (r = none → ∀ a < 2 ^ 47, Machine.translate st.mem root a = Machine.translate c.st.mem root a)
  access : ∀ v < 2 ^ 47, ∀ p f, c.map (v / PAGE_SIZE) = some (p, f) →
    effectiveAccess c.st.mem root v = f.access
  kernelHalf : ∀ i, 256 ≤ i → i < 512 → readEntry c.st.mem root i = readEntry st₁.mem root i

/-- The tables form a tree whose view is the abstract map. -/
def Good (J : Machine A → Set Nat → Prop) (root : Nat) (st₁ : Machine A) (c : Mapped A) : Prop :=
  ∃ tab used, Space.Good J root ⟨c.st, tab, used⟩ ∧
    (∀ q, LowerPage q → view c.st.mem tab q = c.map q) ∧
    ∀ i, 256 ≤ i → i < 512 → readEntry c.st.mem root i = readEntry st₁.mem root i

theorem Good.refines (law : Lawful pages J) (good : c.Good J root st₁) :
    c.Refines pages root st₁ := by
  obtain ⟨tab, used, space, agree, half⟩ := good
  have look {m : Memory} (tree : Tree m root tab) {a} (ha : a < 2 ^ 47) :
      Machine.translate m root a = .ok ((view m tab (a / PAGE_SIZE)).map fun e =>
        e.1 + a % PAGE_SIZE) := by
    rw [tree.translate_ok (pageOf_lower ha), pageOf_eq ha]
  have at_ {a} (ha : a < 2 ^ 47) : view c.st.mem tab (a / PAGE_SIZE) = c.map (a / PAGE_SIZE) :=
    agree _ (pageOf_eq ha ▸ pageOf_lower ha)
  refine ⟨fun a ha => ?_, fun v hv => ?_, fun v hv p hp flags => ?_, fun v hv p f h => ?_, half⟩
  · rw [look space.tree ha, at_ ha]
  · obtain ⟨c', run, -⟩ := Space.unmap_spec law space (pageOf_lower hv)
    exact ⟨c'.st, by rw [run, pageOf_eq hv, at_ hv]⟩
  · obtain ⟨r, c', run, good', -, -, view'⟩ := Space.map_spec law space (pageOf_lower hv) hp flags
    refine ⟨r, c'.st, run, ?_⟩
    rintro rfl a ha
    have lower := pageOf_lower ha
    rw [good'.tree.translate_ok lower, space.tree.translate_ok lower, view' _ lower.lt]
    rfl
  · rw [← at_ hv, ← pageOf_eq hv] at h
    exact space.tree.effectiveAccess_eq h

theorem Step.good (law : Lawful pages J) (step : Step pages root c c') (good : c.Good J root st₁) :
    c'.Good J root st₁ := by
  obtain ⟨tab, used, space, agree, half⟩ := good
  cases step with
  | @map v p flags st hv hp run =>
    obtain ⟨r, s, run', good', ext, -, view'⟩ := Space.map_spec law space (pageOf_lower hv) hp flags
    obtain ⟨rfl, rfl⟩ : r = some () ∧ s.st = st := by simpa [run, eq_comm] using run'
    refine ⟨s.tab, s.used, good', fun q hq => ?_, fun i lo hi => ?_⟩
    · have same : view c.st.mem tab q = c.map q := agree q hq
      rw [view' q hq.lt, pageOf_eq hv]
      simp only [Option.isSome_some, if_true, Function.update_apply, same]
    · exact (ext.kernelHalf lo hi).trans (half i lo hi)
  | @mapFails v p flags st hv hp run =>
    obtain ⟨r, s, run', good', ext, -, view'⟩ := Space.map_spec law space (pageOf_lower hv) hp flags
    obtain ⟨rfl, rfl⟩ : r = none ∧ s.st = st := by simpa [run, eq_comm] using run'
    refine ⟨s.tab, s.used, good', fun q hq => ?_, fun i lo hi => ?_⟩
    · exact (view' q hq.lt).trans (agree q hq)
    · exact (ext.kernelHalf lo hi).trans (half i lo hi)
  | @unmap v r st hv run =>
    obtain ⟨s, run', good', ext, -, -, -, view'⟩ := Space.unmap_spec law space (pageOf_lower hv)
    obtain ⟨-, rfl⟩ : r = _ ∧ s.st = st := by simpa [run, eq_comm] using run'
    refine ⟨s.tab, s.used, good', fun q hq => ?_, fun i lo hi => ?_⟩
    · have same : view c.st.mem tab q = c.map q := agree q hq
      rw [view' q hq.lt, pageOf_eq hv]
      simp only [Function.update_apply, same]
    · exact (ext.kernelHalf lo hi).trans (half i lo hi)

/-- A run of `map` and `unmap` calls on a table from `new_user` refines the abstract map. -/
theorem refines_of_run (law : Lawful pages J) {st₀ : Machine A} {used : Set Nat} {kernel pid : Nat}
    (start : J st₀ used) (aligned : ∀ f ∈ used, PAGE_SIZE ∣ f)
    (new : st₀.newUser pages kernel pid = .ok (some root, st₁))
    (run : Reachable (· = ⟨st₁, fun _ => none⟩) (Step pages root) c) :
    c.Refines pages root st₁ := by
  have first : Good J root st₁ ⟨st₁, fun _ => none⟩ := by
    obtain ⟨space, -, -, empty⟩ := Space.newUser_spec law start (aligned _) new
    exact ⟨_, _, space, fun q _ => empty q, fun _ _ _ => rfl⟩
  have good : c.Good J root st₁ := by
    refine run.invariant ?_ fun _ _ good step => step.good law good
    rintro _ rfl
    exact first
  exact good.refines law

/-- User code flags, as a page of a program text has them. -/
private def textFlags : PageFlags := { PageFlags.none with present := true, user := true }

/-- A run over the kernel's own pool: a kernel page, then a user page in the same tables. -/
theorem refines_kernel_then_user :
    ∃ (st₁ : Machine Pool) (root : Nat) (c : Mapped Pool),
      Reachable (· = ⟨st₁, fun _ => none⟩) (Step (poolPages .dev (.space 0)) root) c ∧
      c.map 0x401 = some (0x5000, textFlags) ∧ c.Refines (poolPages .dev (.space 0)) root st₁ := by
  have evaluates : (do
      let b ← Buddy.addRegion .dev ⟨fun _ => 0, .new⟩ 0x100000 0x10000
      let st : Machine Pool := ⟨b.mem, ⟨b.pool, [], []⟩⟩
      let new ← st.newUser (poolPages .dev (.space 0)) 0x1000 1
      let pml4 := new.1.getD 0
      let kernel ← new.2.map (poolPages .dev (.space 0)) pml4 0x400000 0x4000 .none
      let user ← kernel.2.map (poolPages .dev (.space 0)) pml4 0x401000 0x5000 textFlags
      return (new.1, kernel.1, user.1)) = Except.ok (some 0x100000, some (), some ()) := by decide +kernel
  obtain ⟨b, region, rest⟩ := bind_eq_ok.mp evaluates
  obtain ⟨⟨root, st₁⟩, new, rest⟩ := bind_eq_ok.mp rest
  obtain ⟨⟨r, st₂⟩, first, rest⟩ := bind_eq_ok.mp rest
  obtain ⟨⟨r', st₃⟩, second, rest⟩ := bind_eq_ok.mp rest
  obtain ⟨rfl, rfl, rfl⟩ : root = some 0x100000 ∧ r = some () ∧ r' = some () := by simpa using rest
  obtain ⟨free, inv, -⟩ := Buddy.addRegion_spec (Buddy.inv_new fun _ => 0) (by simp) (by decide)
    (by decide) region
  have pool : Machine.PoolInv _ ⟨b.mem, ⟨b.pool, [], []⟩⟩ := ⟨⟨free, inv⟩, trivial⟩
  have start : Reachable (· = ⟨st₁, fun _ => none⟩)
      (Step (poolPages .dev (.space 0)) 0x100000) ⟨st₁, fun _ => none⟩ := .start rfl
  have run := (start.next (.map (by decide) (by decide) first)).next
    (.map (by decide) (by decide) second)
  exact ⟨st₁, _, _, run, rfl, refines_of_run (Machine.poolPages_lawful _ _ _ _)
    (Machine.PoolJ.refl pool _) (fun _ => pool.aligned) new run⟩

end Mapped
end Ferrum
