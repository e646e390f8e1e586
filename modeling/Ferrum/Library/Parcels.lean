import Mathlib

/-!
# Parcels

A parcel is an interval of addresses. Whoever deals in pieces of larger parcels keeps everything apart
by keeping the pieces of each parcel apart; which pieces are free and which are in use is then a
matter of permuting one list.
-/
namespace Ferrum

structure Parcel where
  addr : Nat
  size : Nat
  deriving DecidableEq, Repr

namespace Parcel

def cells (a : Parcel) : Set Nat := Set.Ico a.addr (a.addr + a.size)

def Apart (a b : Parcel) : Prop := Disjoint a.cells b.cells

variable {a b : Parcel} {addr size n : Nat}

theorem Apart.symm (h : a.Apart b) : b.Apart a := Disjoint.symm h

theorem Apart.mono {a' b' : Parcel} (h : a.Apart b) (ha : a'.cells ⊆ a.cells)
    (hb : b'.cells ⊆ b.cells) : a'.Apart b' :=
  Set.disjoint_of_subset ha hb h

/-- One of two parcels that are apart comes first. -/
theorem Apart.before (h : a.Apart b) (ha : 0 < a.size) (hb : 0 < b.size) :
    a.addr + a.size ≤ b.addr ∨ b.addr + b.size ≤ a.addr := by
  by_contra near
  have left : max a.addr b.addr ∈ a.cells := by
    simp only [cells, Set.mem_Ico]
    omega
  have right : max a.addr b.addr ∈ b.cells := by
    simp only [cells, Set.mem_Ico]
    omega
  exact Set.disjoint_left.mp h left right

/-- `n` pieces of one size, from an address on. -/
def cut (addr size n : Nat) : List Parcel := (List.range n).map fun k => ⟨addr + k * size, size⟩

theorem cut_succ : cut addr size (n + 1) = cut addr size n ++ [⟨addr + n * size, size⟩] := by
  simp [cut, List.range_succ]

theorem cells_cut (h : a ∈ cut addr size n) : a.cells ⊆ cells ⟨addr, n * size⟩ := by
  obtain ⟨k, hk, rfl⟩ := List.mem_map.mp h
  have last : (k + 1) * size ≤ n * size := Nat.mul_le_mul_right _ (List.mem_range.mp hk)
  rw [Nat.succ_mul] at last
  intro x hx
  simp only [cells, Set.mem_Ico] at *
  omega

theorem cut_apart : (cut addr size n).Pairwise Apart := by
  induction n with
  | zero => simp [cut]
  | succ n ih =>
    rw [cut_succ, List.pairwise_append]
    refine ⟨ih, List.pairwise_singleton _ _, fun a ha b hb => ?_⟩
    obtain rfl := List.mem_singleton.mp hb
    refine Set.disjoint_left.mpr fun x hx hx' => ?_
    have before := cells_cut ha hx
    simp only [cells, Set.mem_Ico] at before hx'
    omega

/-- Cutting some of the parcels leaves everything apart. -/
theorem pairwise_flatMap {α : Type*} {whole : α → Parcel} {pieces : α → List Parcel}
    {xs : List α} {rest : List Parcel}
    (inside : ∀ x ∈ xs, ∀ q ∈ pieces x, q.cells ⊆ (whole x).cells)
    (parted : ∀ x ∈ xs, (pieces x).Pairwise Apart) (h : (xs.map whole ++ rest).Pairwise Apart) :
    (xs.flatMap pieces ++ rest).Pairwise Apart := by
  induction xs with
  | nil => exact h
  | cons x xs ih =>
    obtain ⟨first, h⟩ := List.pairwise_cons.mp h
    rw [List.flatMap_cons, List.append_assoc, List.pairwise_append]
    refine ⟨parted x List.mem_cons_self, ih (fun y hy => inside y (List.mem_cons_of_mem _ hy))
      (fun y hy => parted y (List.mem_cons_of_mem _ hy)) h, fun q hq r hr => ?_⟩
    have sub := inside x List.mem_cons_self q hq
    rcases List.mem_append.mp hr with piece | other
    · obtain ⟨y, hy, hr⟩ := List.mem_flatMap.mp piece
      have apart := first (whole y) (List.mem_append_left _ (List.mem_map_of_mem hy))
      exact apart.mono sub (inside y (List.mem_cons_of_mem _ hy) r hr)
    · exact (first r (List.mem_append_right _ other)).mono sub subset_rfl

end Parcel

/-! ## Families of lists -/

section Family

variable {α : Type*} {lists : Nat → List α} {n i : Nat} {a : α}

/-- The lists of a family, one after the other. -/
def joined (lists : Nat → List α) (n : Nat) : List α := (List.range n).flatMap lists

theorem joined_succ : joined lists (n + 1) = joined lists n ++ lists n := by
  simp [joined, List.range_succ]

theorem mem_joined : a ∈ joined lists n ↔ ∃ i < n, a ∈ lists i := by
  simp [joined, List.mem_flatMap]

theorem joined_congr {lists' : Nat → List α} (same : ∀ i < n, lists' i = lists i) :
    joined lists' n = joined lists n := by
  rw [joined, joined, List.flatMap_def, List.flatMap_def,
    List.map_congr_left fun i hi => same i (List.mem_range.mp hi)]

/-- What is put before one of the lists comes to the whole. -/
theorem joined_append (hi : i < n) (front : List α) :
    (joined (Function.update lists i (front ++ lists i)) n).Perm (front ++ joined lists n) := by
  induction n with
  | zero => exact absurd hi (Nat.not_lt_zero i)
  | succ n ih =>
    rw [joined_succ, joined_succ]
    by_cases last : i = n
    · subst last
      rw [Function.update_self, joined_congr fun k hk => Function.update_of_ne (Nat.ne_of_lt hk) _ _]
      exact List.perm_append_comm_assoc _ _ _
    · rw [Function.update_of_ne (Ne.symm last), ← List.append_assoc]
      exact (ih (by omega)).append_right _

end Family

end Ferrum
