import Ferrum.Kernel.RoundTrip

/-!
# Parent and child do not share memory

After `fork` each of the two processes owns the frames behind its pages. A store needs a page with the
USER bit, which pages of the kernel image do not have, so it goes to a frame of the process itself; a
fault takes a frame that nobody held. Neither shows in the other process, at once or after any number
of stores and faults.
-/
namespace Ferrum

open Machine (Local PoolInv Own)

variable {S img : Set Nat} {st st' : Machine Pool} {tab src : Tables} {p : Profile} {a : Nat}
  {space : AddressSpace}

/-- What a load at an address sees. -/
def load (st : Machine Pool) (space : AddressSpace) (a : Nat) : Except Stop (Option UInt8) := do
  let found ← Machine.translate st.mem space.pml4 a
  return found.map st.mem

theorem Owned.load_eq (own : Owned img st space.owner space.pml4 tab) (lower : LowerPage (pageOf a)) :
    load st space a =
      .ok ((pageAt st.mem tab (pageOf a)).map fun pg => pg.bytes (a % PAGE_SIZE)) := by
  have inside : a % PAGE_SIZE < PAGE_SIZE := Nat.mod_lt _ Buddy.page_pos
  simp [load, own.tree.translate_ok lower, pageAt, Function.comp_def, bytesAt, inside]

/-- A process takes a turn: a store that the page tables permit, or a demand fault. -/
inductive Turn (p : Profile) (space : AddressSpace) : Machine Pool → Machine Pool → Prop
  | store {st : Machine Pool} {a phys : Nat} {byte : UInt8} (lower : a < 2 ^ 47)
      (user : (effectiveAccess st.mem space.pml4 a).user = true)
      (writable : (effectiveAccess st.mem space.pml4 a).writable = true)
      (found : Machine.translate st.mem space.pml4 a = .ok (some phys)) :
      Turn p space st ⟨st.mem.writeBytes phys [byte], st.pool⟩
  | fault {st st' : Machine Pool} {a : Nat} {r : Except String Unit}
      (run : space.handlePageFault p st a = .ok (r, st')) : Turn p space st st'

/-- The address that a permitted access reaches lies in a frame of the address space. -/
theorem Owned.access (own : Owned img st space.owner space.pml4 tab) (lower : a < 2 ^ 47) {phys : Nat}
    (user : (effectiveAccess st.mem space.pml4 a).user = true)
    (found : Machine.translate st.mem space.pml4 a = .ok (some phys)) :
    UserPage img (pageOf a) ∧ ∃ f flags, view st.mem tab (pageOf a) = some (f, flags) ∧
      phys = f + a % PAGE_SIZE ∧ st.holds space.owner ⟨f, 0⟩ ∧ ∀ π, tab π ≠ some f := by
  have low := pageOf_lower lower
  rw [own.tree.translate_ok low] at found
  obtain ⟨⟨f, flags⟩, seen, rfl⟩ := Option.map_eq_some_iff.mp (Except.ok.inj found)
  rw [own.tree.effectiveAccess_eq seen] at user
  have page : UserPage img (pageOf a) := by
    refine ⟨low, fun image => ?_⟩
    have plain := own.image low image seen
    rw [PageFlags.access, plain] at user
    cases user
  exact ⟨page, f, flags, seen, rfl, own.pages page seen⟩

theorem Turn.owned (turn : Turn p space st st') (inv : PoolInv S st)
    (own : Owned img st space.owner space.pml4 tab) (wf : Vmas.Wf space.vmas)
    (areas : UserAreas img space.vmas) :
    Local S space.owner st st' ∧ ∃ tab', Owned img st' space.owner space.pml4 tab' := by
  cases turn with
  | @store a phys byte lower user writable found =>
    obtain ⟨-, f, flags, -, rfl, held, notTable⟩ := own.access lower user found
    have inside : a % PAGE_SIZE < PAGE_SIZE := Nat.mod_lt _ Buddy.page_pos
    have outside : ∀ x, x ∉ pageBytes f →
        st.mem.writeBytes (f + a % PAGE_SIZE) [byte] x = st.mem x := by
      intro x hx
      refine Memory.writeBytes_outside ?_
      simp only [pageBytes, Set.mem_Ico, List.length_singleton] at *
      omega
    obtain ⟨step, own', -⟩ := own.write inv held notTable outside
    exact ⟨step, tab, own'⟩
  | fault run =>
    obtain ⟨tab', step, own', -⟩ := own.handlePageFault inv wf areas run
    exact ⟨step, tab', own'⟩

/-- Each of two processes owns its address space. -/
structure Apart (S img : Set Nat) (a b : AddressSpace) (st : Machine Pool) : Prop where
  inv : PoolInv S st
  left : ∃ tab, Owned img st a.owner a.pml4 tab
  right : ∃ tab, Owned img st b.owner b.pml4 tab

namespace Apart

variable {b c : AddressSpace}

theorem symm (apart : Apart S img b c st) : Apart S img c b st := ⟨apart.inv, apart.right, apart.left⟩

theorem turn (apart : Apart S img b c st) (ne : c.owner ≠ b.owner) (wf : Vmas.Wf b.vmas)
    (areas : UserAreas img b.vmas) (turn : Turn p b st st') :
    Apart S img b c st' ∧ ∀ a, UserPage img (pageOf a) → load st' c a = load st c a := by
  obtain ⟨tab, own⟩ := apart.left
  obtain ⟨tab', own'⟩ := apart.right
  obtain ⟨step, next⟩ := turn.owned apart.inv own wf areas
  obtain ⟨still, same⟩ := own'.other step ne
  refine ⟨⟨step.inv, next, tab', still⟩, fun a page => ?_⟩
  rw [still.load_eq page.lower, own'.load_eq page.lower, same _ page]

theorem disjoint (apart : Apart S img b c st) (ne : c.owner ≠ b.owner) {x y u v : Nat}
    (hx : UserPage img (pageOf x)) (hy : UserPage img (pageOf y))
    (left : Machine.translate st.mem b.pml4 x = .ok (some u))
    (right : Machine.translate st.mem c.pml4 y = .ok (some v)) : u / PAGE_SIZE ≠ v / PAGE_SIZE := by
  obtain ⟨tab, own⟩ := apart.left
  obtain ⟨tab', own'⟩ := apart.right
  rw [own.tree.translate_ok hx.lower] at left
  rw [own'.tree.translate_ok hy.lower] at right
  obtain ⟨⟨f, flags⟩, seen, rfl⟩ := Option.map_eq_some_iff.mp (Except.ok.inj left)
  obtain ⟨⟨g, flags'⟩, seen', rfl⟩ := Option.map_eq_some_iff.mp (Except.ok.inj right)
  obtain ⟨held, -⟩ := own.pages hx seen
  obtain ⟨held', -⟩ := own'.pages hy seen'
  intro same
  have eq : f = g := by
    obtain ⟨j, rfl⟩ := (apart.inv.tableFrame held).aligned
    obtain ⟨k, rfl⟩ := (apart.inv.tableFrame held').aligned
    simp only [PAGE_SIZE] at *
    omega
  subst eq
  exact ne (apart.inv.holder_unique held' held)

end Apart

/-- What holds between the two sides of a `fork` from then on. -/
structure Isolated (p : Profile) (a b : AddressSpace) (st : Machine Pool) : Prop where
  frames : ∀ v ∈ a.vmas, ∀ w ∈ b.vmas, ∀ x y u u', v.start ≤ x ∧ x < v.stop → w.start ≤ y ∧ y < w.stop →
    Machine.translate st.mem a.pml4 x = .ok (some u) →
    Machine.translate st.mem b.pml4 y = .ok (some u') → u / PAGE_SIZE ≠ u' / PAGE_SIZE
  left : ∀ st', Turn p b st st' → ∀ v ∈ a.vmas, ∀ x, v.start ≤ x ∧ x < v.stop →
    load st' a x = load st a x
  right : ∀ st', Turn p a st st' → ∀ v ∈ b.vmas, ∀ x, v.start ≤ x ∧ x < v.stop →
    load st' b x = load st b x

theorem UserAreas.page_of {vmas : List VMA} (user : UserAreas img vmas) {v : VMA} (hv : v ∈ vmas)
    (inside : v.start ≤ a ∧ a < v.stop) : UserPage img (pageOf a) := by
  obtain ⟨-, range⟩ := user v hv
  have := range.below
  rw [pageOf_eq (by omega)]
  exact range.page _ (user.page_of_mem hv inside.1 inside.2).2.2

theorem Apart.isolated {b c : AddressSpace} (ne : c.owner ≠ b.owner) (wf : Vmas.Wf b.vmas)
    (wf' : Vmas.Wf c.vmas) (areas : UserAreas img b.vmas) (areas' : UserAreas img c.vmas)
    (apart : Apart S img b c st)
    (run : Reachable (· = st) (fun s t => Turn p b s t ∨ Turn p c s t) st') : Isolated p b c st' := by
  have later : Apart S img b c st' := by
    refine run.invariant ?_ fun s t apart step => ?_
    · rintro _ rfl
      exact apart
    · rcases step with left | right
      · exact (apart.turn ne wf areas left).1
      · exact (apart.symm.turn ne.symm wf' areas' right).1.symm
  refine ⟨?_, ?_, ?_⟩
  · intro v hv w hw x y u u' hx hy left right
    exact later.disjoint ne (areas.page_of hv hx) (areas'.page_of hw hy) left right
  · intro t turn v hv x hx
    exact (later.symm.turn ne.symm wf' areas' turn).2 x (areas.page_of hv hx)
  · intro t turn v hv x hx
    exact (later.turn ne wf areas turn).2 x (areas'.page_of hv hx)

/-- The child has the areas of the parent and a copy of each of its pages under the flags of the area;
from then on, whatever the two store and whichever pages they fault in, neither sees what the other
does. -/
theorem fork_isolates {image : ImageRange} (low : image.Low) {kernelPml4 id newPid : Nat}
    {parent child : Image} {frame : List UInt8} {st₁ : Machine Pool} (inv : PoolInv S st)
    (own : Owned image.pages st parent.space.owner parent.space.pml4 src)
    (fresh : ∀ b, ¬ st.holds (.space id) b) (wf : Vmas.Wf parent.space.vmas)
    (user : UserAreas image.pages parent.space.vmas)
    (run : forkImage p image kernelPml4 id parent newPid frame st = .ok (some child, st₁)) :
    (∀ a, Vmas.attr child.space.vmas a = Vmas.attr parent.space.vmas a) ∧
    (∃ tab, Tree st₁.mem child.space.pml4 tab ∧
      ∀ v ∈ parent.space.vmas, ∀ q ∈ pagesIn v.start v.stop,
        (pageAt st₁.mem tab q).map Page.content =
          (pageAt st.mem src q).map fun pg => (v.flags.toPageFlags, pg.bytes)) ∧
    ∀ st₂, Reachable (· = st₁) (fun s t => Turn p parent.space s t ∨ Turn p child.space s t) st₂ →
      Isolated p parent.space child.space st₂ := by
  obtain ⟨kstack, st₀, tab, -, rfl, same, holds₀, -, forked⟩ :=
    forkImage_spec low inv (own.source user) fresh wf user run
  have ne : child.space.owner ≠ parent.space.owner := by
    intro eq
    exact fresh _ (show st.holds child.space.owner _ from eq ▸ own.tables own.tree.root)
  have copies := (own.source user).mono same fun h => holds₀.mpr (Or.inr h)
  refine ⟨fun a => ?_, ⟨tab, forked.own.tree, fun v hv q hq => ?_⟩, fun st₂ later => ?_⟩
  · exact Vmas.attr_congr wf forked.wf fun f k => forked.has a f k
  · have here : Vmas.attr parent.space.vmas (q * PAGE_SIZE) = some (v.flags, v.kind) :=
      (Vmas.attr_eq_some wf).mpr ⟨v, hv, hq.1, hq.2, rfl, rfl⟩
    have bytes := congrArg (Option.map fun bytes => (v.flags.toPageFlags, bytes))
      (copies.2 q ⟨v, hv, hq⟩)
    rw [forked.pages q ((user v hv).2.page q hq), shadow, here, Option.bind_some]
    simpa [Option.map_map, Function.comp_def, pageAt, frameAt] using bytes
  · have parentKept := (own.mono (fun h => holds₀.mpr (Or.inr h)) (same.mono ?_)).1
    · have parentNow := (parentKept.other forked.step ne.symm).1
      exact Apart.isolated ne wf forked.wf user (forked.userAreas user)
        ⟨forked.step.inv, ⟨_, parentNow⟩, ⟨_, forked.own⟩⟩ later
    · rintro x ⟨b, hb, hx⟩ _
      exact ⟨b, hb.mem_out, hx⟩

/-- A process with a resident page forks; nothing of it is shared afterwards. -/
theorem resident_fork_isolates : ∃ (st st₁ : Machine Pool) (child : Image), residentStart = .ok st ∧
    forkImage .dev residentImage 0x1000 1 ⟨residentSpace, none, 0, 0, 0⟩ 2 [] st =
      .ok (some child, st₁) ∧
    (∀ a, Vmas.attr child.space.vmas a = Vmas.attr residentSpace.vmas a) ∧
    Isolated .dev residentSpace child.space st₁ := by
  have evaluates : (do
      let st ← residentStart
      let forked ← forkImage .dev residentImage 0x1000 1 ⟨residentSpace, none, 0, 0, 0⟩ 2 [] st
      return forked.1.isSome) = Except.ok true := by decide +kernel
  obtain ⟨st, start, rest⟩ := bind_eq_ok.mp evaluates
  obtain ⟨⟨child, st₁⟩, fork, rest⟩ := bind_eq_ok.mp rest
  obtain ⟨child, rfl⟩ := Option.isSome_iff_exists.mp (Except.ok.inj rest)
  obtain ⟨S, tab, inv, own, others, -⟩ := residentStart_owned residentImage_off start
  obtain ⟨areas, -, isolated⟩ := fork_isolates residentImage_low inv own
    (fun b => others _ b (by decide)) residentSpace_wf (residentSpace_user residentImage_off) fork
  exact ⟨st, st₁, child, start, fork, areas, isolated st₁ (.start rfl)⟩

/-- The same process with a second area that is read-only and lies `2 ^ 48` higher, where the page
tables do not tell it from the first. -/
def aliasedSpace : AddressSpace :=
  { residentSpace with vmas := [⟨0x400000, 0x401000, .rw, .anonymous⟩,
      ⟨2 ^ 48 + 0x400000, 2 ^ 48 + 0x401000, ⟨true, false, false⟩, .anonymous⟩] }

/-- The second copy replaces the first: in the child, the page of the writable area is read-only. -/
theorem aliased_fork : ∃ (S : Set Nat) (tab : Tables) (st st₁ : Machine Pool) (child : Image),
    PoolInv S st ∧ Owned residentImage.pages st aliasedSpace.owner aliasedSpace.pml4 tab ∧
    Vmas.Wf aliasedSpace.vmas ∧ (∀ v ∈ aliasedSpace.vmas, ∀ q ∈ pagesIn v.start v.stop,
      q ∉ residentImage.pages) ∧ (∀ b, ¬ st.holds (.space 1) b) ∧
    forkImage .dev residentImage 0x1000 1 ⟨aliasedSpace, none, 0, 0, 0⟩ 2 [] st =
      .ok (some child, st₁) ∧
    Vmas.attr aliasedSpace.vmas 0x400000 = some (.rw, .anonymous) ∧
    (effectiveAccess st₁.mem child.space.pml4 0x400000).present = true ∧
    (effectiveAccess st₁.mem child.space.pml4 0x400000).writable = false := by
  have evaluates : (do
      let st ← residentStart
      let forked ← forkImage .dev residentImage 0x1000 1 ⟨aliasedSpace, none, 0, 0, 0⟩ 2 [] st
      return forked.1.map fun child => effectiveAccess forked.2.mem child.space.pml4 0x400000) =
        Except.ok (some ⟨true, false, true, true⟩) := by decide +kernel
  obtain ⟨st, start, rest⟩ := bind_eq_ok.mp evaluates
  obtain ⟨⟨child, st₁⟩, fork, rest⟩ := bind_eq_ok.mp rest
  obtain ⟨child, rfl, access⟩ := Option.map_eq_some_iff.mp (Except.ok.inj rest)
  obtain ⟨S, tab, inv, own, others, -⟩ := residentStart_owned residentImage_off start
  have wf : Vmas.Wf aliasedSpace.vmas :=
    ⟨by simpa [aliasedSpace] using ⟨⟨by decide, by decide, by decide, by decide⟩,
      ⟨by decide, by decide, by decide, by decide⟩⟩, by simp [aliasedSpace]⟩
  refine ⟨S, tab, st, st₁, child, inv, own, wf, ?_, fun b => others _ b (by decide), fork,
    by decide, by rw [access], by rw [access]⟩
  intro v hv q inside image
  have page := image.2
  simp only [roundUp, residentImage, PAGE_SIZE] at page
  have low := inside.1
  simp only [aliasedSpace, List.mem_cons, List.not_mem_nil, or_false] at hv
  rcases hv with rfl | rfl
  · simp only [PAGE_SIZE] at low
    omega
  · simp only [PAGE_SIZE] at low
    omega

end Ferrum
