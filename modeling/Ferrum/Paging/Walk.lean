import Ferrum.Paging.Unmap

/-!
# Translation through arbitrary tables

`translate` follows the entries of whatever lies at the given addresses. Nothing here is assumed about
the tables: they need not form a tree, and small and large pages may be mixed. The result depends on the
tables on the way only, and the addresses of one page differ by their offsets.
-/
namespace Ferrum

section Entries

variable (m : Memory) (root v : Nat)

def pml4Entry : Nat := readEntry m root (pageOf v / 2 ^ 27 % 512)
def pdptEntry : Nat := readEntry m (Entry.physAddr (pml4Entry m root v)) (pageOf v / 2 ^ 18 % 512)
def pdEntry : Nat := readEntry m (Entry.physAddr (pdptEntry m root v)) (pageOf v / 2 ^ 9 % 512)
def ptEntry : Nat := readEntry m (Entry.physAddr (pdEntry m root v)) (pageOf v % 512)

/-- The tables that `translate` reads. -/
def tablesOnWay : List Nat :=
  root :: if !Entry.isPresent (pml4Entry m root v) then [] else
    Entry.physAddr (pml4Entry m root v) :: if !Entry.isPresent (pdptEntry m root v) then [] else
      Entry.physAddr (pdptEntry m root v) ::
        if !Entry.isPresent (pdEntry m root v) || (Entry.flags (pdEntry m root v)).huge then [] else
          [Entry.physAddr (pdEntry m root v)]

/-- Where an address leads, if all tables can be read. -/
def destination : Option Nat :=
  if !Entry.isPresent (pml4Entry m root v) then none
  else if !Entry.isPresent (pdptEntry m root v) then none
  else if !Entry.isPresent (pdEntry m root v) then none
  else if (Entry.flags (pdEntry m root v)).huge then
    some (Entry.physAddr (pdEntry m root v) + v % SIZE_2MB)
  else if !Entry.isPresent (ptEntry m root v) then none
  else some (Entry.physAddr (ptEntry m root v) + v % PAGE_SIZE)

end Entries

variable {m m' : Memory} {root v w t f q : Nat}

theorem translate_eq_destination (reach : ∀ t ∈ tablesOnWay m root v, t < DIRECT_MAP_END) :
    Machine.translate m root v = .ok (destination m root v) := by
  have mask : v &&& (SIZE_2MB - 1) = v % SIZE_2MB := Nat.and_two_pow_sub_one_eq_mod v 21
  simp only [Machine.translate, fromU64_eq, Machine.walkTables, mask]
  simp only [tablesOnWay, List.mem_cons, forall_eq_or_imp] at reach
  obtain ⟨first, reach⟩ := reach
  rw [physToVirt_ok first, ok_bind, ← pml4Entry, destination]
  cases present : Entry.isPresent (pml4Entry m root v) with
  | false => rfl
  | true =>
    simp only [present, Bool.not_true, Bool.false_eq_true, if_false, List.mem_cons, forall_eq_or_imp] at reach
    obtain ⟨second, reach⟩ := reach
    simp only [if_true, Bool.not_true, Bool.false_eq_true, if_false]
    rw [physToVirt_ok second, ok_bind, ← pdptEntry]
    cases present : Entry.isPresent (pdptEntry m root v) with
    | false => rfl
    | true =>
      simp only [present, Bool.not_true, Bool.false_eq_true, if_false, List.mem_cons, forall_eq_or_imp] at reach
      obtain ⟨third, reach⟩ := reach
      simp only [if_true, Bool.not_true, Bool.false_eq_true, if_false, ok_bind]
      rw [physToVirt_ok third, ok_bind, ← pdEntry]
      cases present : Entry.isPresent (pdEntry m root v) with
      | false => rfl
      | true =>
        cases huge : (Entry.flags (pdEntry m root v)).huge with
        | true => rfl
        | false =>
          simp only [present, huge, Bool.not_true, Bool.or_self, Bool.false_eq_true, if_false,
            List.mem_singleton, forall_eq] at reach
          simp only [Bool.not_true, Bool.false_eq_true, if_false]
          rw [physToVirt_ok reach, ok_bind, ← ptEntry]
          cases Entry.isPresent (ptEntry m root v) with
          | false => rfl
          | true => rfl

/-! ## Addresses of one page -/

theorem pml4Entry_congr (page : pageOf v = pageOf w) : pml4Entry m root v = pml4Entry m root w := by
  rw [pml4Entry, page, pml4Entry]

theorem pdptEntry_congr (page : pageOf v = pageOf w) : pdptEntry m root v = pdptEntry m root w := by
  rw [pdptEntry, page, pml4Entry_congr page, pdptEntry]

theorem pdEntry_congr (page : pageOf v = pageOf w) : pdEntry m root v = pdEntry m root w := by
  rw [pdEntry, page, pdptEntry_congr page, pdEntry]

theorem ptEntry_congr (page : pageOf v = pageOf w) : ptEntry m root v = ptEntry m root w := by
  rw [ptEntry, page, pdEntry_congr page, ptEntry]

theorem tablesOnWay_congr (page : pageOf v = pageOf w) : tablesOnWay m root v = tablesOnWay m root w := by
  simp only [tablesOnWay, pml4Entry_congr page, pdptEntry_congr page, pdEntry_congr page]

theorem pageOf_page (v : Nat) : pageOf (v / PAGE_SIZE * PAGE_SIZE) = pageOf v := by
  simp only [pageOf, PAGE_SIZE]
  omega

/-- An address leads to its offset in the place that its page leads to. -/
theorem destination_eq_page (m : Memory) (root v : Nat) : destination m root v =
    (destination m root (v / PAGE_SIZE * PAGE_SIZE)).map (· + v % PAGE_SIZE) := by
  have large : v % SIZE_2MB = v / PAGE_SIZE * PAGE_SIZE % SIZE_2MB + v % PAGE_SIZE := by
    simp only [SIZE_2MB, PAGE_SIZE]
    omega
  simp only [destination, pml4Entry_congr (pageOf_page v), pdptEntry_congr (pageOf_page v),
    pdEntry_congr (pageOf_page v), ptEntry_congr (pageOf_page v), large, Nat.mul_mod_left, Nat.add_zero,
    ← Nat.add_assoc, apply_ite (Option.map (· + v % PAGE_SIZE)), Option.map_none, Option.map_some]

theorem destination_aligned (found : destination m root (q * PAGE_SIZE) = some f) : PAGE_SIZE ∣ f := by
  have small := Nat.dvd_mul_left PAGE_SIZE q
  have large : PAGE_SIZE ∣ q * PAGE_SIZE % SIZE_2MB := (Nat.dvd_mod_iff (by decide)).mpr small
  unfold destination at found
  split at found; · cases found
  split at found; · cases found
  split at found; · cases found
  split at found
  · cases found
    exact Nat.dvd_add (physAddr_aligned _) large
  split at found; · cases found
  cases found
  rw [Nat.mul_mod_left, Nat.add_zero]
  exact physAddr_aligned _

/-! ## What a translation depends on -/

/-- The bytes of the tables on the way decide about the entries that are read. -/
theorem walk_congr (same : ∀ t ∈ tablesOnWay m root v, Set.EqOn m' m (pageBytes t)) :
    tablesOnWay m' root v = tablesOnWay m root v ∧ destination m' root v = destination m root v := by
  simp only [tablesOnWay, List.mem_cons, forall_eq_or_imp] at same
  obtain ⟨same₁, same⟩ := same
  have entry₁ : pml4Entry m' root v = pml4Entry m root v := readEntry_congr (index_lt _) same₁
  simp only [tablesOnWay, destination, entry₁]
  cases present : Entry.isPresent (pml4Entry m root v) with
  | false => simp only [Bool.not_false, if_true, and_self]
  | true =>
    simp only [present, Bool.not_true, Bool.false_eq_true, if_false, List.mem_cons, forall_eq_or_imp] at same
    obtain ⟨same₂, same⟩ := same
    have entry₂ : pdptEntry m' root v = pdptEntry m root v := by
      rw [pdptEntry, entry₁]
      exact readEntry_congr (index_lt _) same₂
    simp only [entry₂, Bool.not_true, Bool.false_eq_true, if_false]
    cases present : Entry.isPresent (pdptEntry m root v) with
    | false => simp only [Bool.not_false, if_true, and_self]
    | true =>
      simp only [present, Bool.not_true, Bool.false_eq_true, if_false, List.mem_cons, forall_eq_or_imp] at same
      obtain ⟨same₃, same⟩ := same
      have entry₃ : pdEntry m' root v = pdEntry m root v := by
        rw [pdEntry, entry₂]
        exact readEntry_congr (index_lt _) same₃
      simp only [entry₃, Bool.not_true, Bool.false_eq_true, if_false]
      cases present : Entry.isPresent (pdEntry m root v) with
      | false => simp only [Bool.not_false, if_true, and_self]
      | true =>
        cases huge : (Entry.flags (pdEntry m root v)).huge with
        | true => simp only [Bool.not_true, Bool.false_eq_true, if_true, if_false, and_self]
        | false =>
          simp only [present, huge, Bool.not_true, Bool.or_self, Bool.false_eq_true, if_false,
            List.mem_singleton, forall_eq] at same
          have entry₄ : ptEntry m' root v = ptEntry m root v := by
            rw [ptEntry, entry₃]
            exact readEntry_congr (index_lt _) same
          simp only [entry₄, and_self]

/-! ## Trees -/

namespace Tree

variable {tab : Tables} {π : List Nat} {i : Nat}

theorem next (tree : Tree m root tab) (table : tab π = some t) (shallow : π.length < 3) (slot : Slot π i)
    (present : Entry.isPresent (readEntry m t i)) :
    tab (π ++ [i]) = some (Entry.physAddr (readEntry m t i)) := by
  cases child : tab (π ++ [i]) with
  | none => rw [tree.absent table shallow slot child] at present; cases present
  | some c =>
    obtain ⟨flags, -, word⟩ := tree.link table child
    rw [word, Entry.physAddr_newPage (tree.frame child).pageAddr]

theorem of_mem_tablesOnWay (tree : Tree m root tab) (lower : LowerPage (pageOf v))
    (mem : t ∈ tablesOnWay m root v) : ∃ π, tab π = some t := by
  rw [tablesOnWay] at mem
  rcases List.mem_cons.mp mem with rfl | mem
  · exact ⟨[], tree.root⟩
  split at mem
  · cases mem
  rename_i stays
  have present : Entry.isPresent (pml4Entry m root v) := by simpa using stays
  have table := tree.next tree.root (by simp) ⟨index_lt _, fun _ => lower.top⟩ present
  rcases List.mem_cons.mp mem with rfl | mem
  · exact ⟨_, table⟩
  split at mem
  · cases mem
  rename_i stays
  have present : Entry.isPresent (pdptEntry m root v) := by simpa using stays
  have table := tree.next table (by simp) ⟨index_lt _, by simp⟩ present
  rcases List.mem_cons.mp mem with rfl | mem
  · exact ⟨_, table⟩
  split at mem
  · cases mem
  rename_i stays
  rw [Bool.or_eq_true, not_or] at stays
  have present : Entry.isPresent (pdEntry m root v) := by simpa using stays.1
  have table := tree.next table (by simp) ⟨index_lt _, by simp⟩ present
  obtain rfl := List.mem_singleton.mp mem
  exact ⟨_, table⟩

end Tree
end Ferrum
