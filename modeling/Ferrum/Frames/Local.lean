import Ferrum.Frames.Pool

/-!
# Acting for one holder

Every block that is out has one holder. What is done on behalf of an owner is judged by two
questions: is the pool still sound, and is everything that others hold as it was? `Local` answers
both; it composes, and it is all that the other parties have to know.
-/
namespace Ferrum
namespace Machine

variable {S : Set Nat} {st st' st'' : Machine Pool} {owner o : Owner} {b : Block} {x : Nat}

/-- The bytes that an owner holds. -/
def Own (owner : Owner) (st : Machine Pool) : Set Nat :=
  {x | ∃ b, st.holds owner b ∧ x ∈ b.cells PAGE_SIZE}

/-- The bytes outside the pool and the bytes that somebody else holds. -/
def Foreign (S : Set Nat) (owner : Owner) (st : Machine Pool) : Set Nat :=
  {x | x ∈ S → ∃ o b, o ≠ owner ∧ st.holds o b ∧ x ∈ b.cells PAGE_SIZE}

theorem holds.page_own {f : Nat} (h : st.holds owner ⟨f, 0⟩) : pageBytes f ⊆ Own owner st :=
  fun x hx => ⟨_, h, by rwa [cells_page]⟩

theorem holds.foreign (h : st.holds o b) (ne : o ≠ owner) :
    b.cells PAGE_SIZE ⊆ Foreign S owner st :=
  fun _ hx _ => ⟨o, b, ne, h, hx⟩

theorem holds.page_foreign {f : Nat} (h : st.holds o ⟨f, 0⟩) (ne : o ≠ owner) :
    pageBytes f ⊆ Foreign S owner st := by
  rw [← cells_page]
  exact h.foreign ne

theorem foreign_subset_held : Foreign S owner st ⊆ Buddy.Held st.out S := fun _ hx inside =>
  let ⟨_, b, _, h, hb⟩ := hx inside
  ⟨b, h.mem_out, hb⟩

theorem PoolInv.cells_disjoint (inv : PoolInv S st) {c : Block} (hb : st.holds owner b)
    (hc : st.holds o c) (ne : o ≠ owner) (hx : x ∈ b.cells PAGE_SIZE) : x ∉ c.cells PAGE_SIZE := by
  have differ : b ≠ c := by
    rintro rfl
    exact ne (inv.holder_unique hc hb)
  exact Set.disjoint_left.mp (inv.apart hb.mem_out hc.mem_out differ).disjoint hx

theorem PoolInv.cells_registered (inv : PoolInv S st) (h : st.holds owner b) :
    b.cells PAGE_SIZE ⊆ S := by
  obtain ⟨free, inv⟩ := inv.buddy
  exact inv.tiling.cells_subset (List.mem_append_left _ h.mem_out)

theorem PoolInv.own_notForeign (inv : PoolInv S st) (h : x ∈ Own owner st) :
    x ∉ Foreign S owner st := by
  obtain ⟨b, hb, hx⟩ := h
  intro foreign
  obtain ⟨o, c, ne, hc, hx'⟩ := foreign (inv.cells_registered hb hx)
  exact inv.cells_disjoint hb hc ne hx hx'

/-- On behalf of `owner`, the pool was kept sound and everybody else was left alone. -/
structure Local (S : Set Nat) (owner : Owner) (st st' : Machine Pool) : Prop where
  inv : PoolInv S st'
  holds : ∀ {o b}, o ≠ owner → (st'.holds o b ↔ st.holds o b)
  mem : Set.EqOn st'.mem st.mem (Foreign S owner st)

namespace Local

theorem refl (inv : PoolInv S st) : Local S owner st st := ⟨inv, fun _ => Iff.rfl, fun _ _ => rfl⟩

theorem foreign (h : Local S owner st st') : Foreign S owner st' = Foreign S owner st := by
  ext x
  refine imp_congr_right fun _ => exists_congr fun o => exists_congr fun b => ?_
  exact and_congr_right fun ne => and_congr_left fun _ => h.holds ne

theorem trans (h : Local S owner st st') (h' : Local S owner st' st'') : Local S owner st st'' where
  inv := h'.inv
  holds ne := (h'.holds ne).trans (h.holds ne)
  mem := (h.foreign ▸ h'.mem).trans h.mem

theorem page (h : Local S owner st st') {f : Nat} (hf : st.holds o ⟨f, 0⟩) (ne : o ≠ owner) :
    Set.EqOn st'.mem st.mem (pageBytes f) :=
  h.mem.mono (hf.page_foreign ne)

theorem of_alloc {r : Option Nat} {order : Nat} (inv : PoolInv S st')
    (frame : Set.EqOn st'.mem st.mem (Buddy.Held st.out S))
    (log : st'.pool.log = (r.map fun a => Event.alloc owner ⟨a, order⟩).toList ++ st.pool.log) :
    Local S owner st st' where
  inv := inv
  holds {o b} ne := by
    cases r with
    | none => simp [Machine.holds, log]
    | some a => simp [holds_alloc log, ne]
  mem := frame.mono foreign_subset_held

theorem of_free (inv : PoolInv S st) (inv' : PoolInv S st')
    (frame : Set.EqOn st'.mem st.mem (Buddy.Held st'.out S))
    (log : st'.pool.log = .free owner b :: st.pool.log) : Local S owner st st' := by
  have others {o c} (ne : o ≠ owner) : st'.holds o c ↔ st.holds o c := by
    simp [holds_free inv log, ne]
  have kept : Foreign S owner st ⊆ Buddy.Held st'.out S := by
    intro x hx inside
    obtain ⟨o, c, ne, hc, hx⟩ := hx inside
    exact ⟨c, ((others ne).mpr hc).mem_out, hx⟩
  exact ⟨inv', others, frame.mono kept⟩

theorem write (inv : PoolInv S st) {m : Memory} (same : ∀ x, x ∉ Own owner st → m x = st.mem x) :
    Local S owner st ⟨m, st.pool⟩ where
  inv := inv.write fun x _ notHeld => same x fun ⟨b, hb, hx⟩ => notHeld fun _ => ⟨b, hb.mem_out, hx⟩
  holds _ := Iff.rfl
  mem x hx := same x fun own => inv.own_notForeign own hx

theorem writePage (inv : PoolInv S st) {f : Nat} (held : st.holds owner ⟨f, 0⟩) {m : Memory}
    (same : ∀ x, x ∉ pageBytes f → m x = st.mem x) : Local S owner st ⟨m, st.pool⟩ :=
  write inv fun x hx => same x fun hp => hx (held.page_own hp)

theorem owners (inv : PoolInv S st) (owners : List (Nat × PageOwner)) :
    Local S owner st ⟨st.mem, { st.pool with owners }⟩ :=
  ⟨inv.owners owners, fun _ => Iff.rfl, fun _ _ => rfl⟩

end Local

end Machine
end Ferrum
