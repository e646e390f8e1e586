import Ferrum.Fd.Model
import Mathlib

/-!
# The contents of a file

A write replaces a range of the data, and fills what lies between the old end and the range with zeros.
As a function from positions to bytes this is an overlay, which is how consecutive writes compose.
-/
namespace Ferrum

/-- Lists of bytes are equal if they are equally long and have the same byte at each position. -/
theorem ext_getD {l l' : List UInt8} (length : l.length = l'.length)
    (same : ∀ i, l.getD i 0 = l'.getD i 0) : l = l' := by
  refine List.ext_getElem length fun i h h' => ?_
  have := same i
  rwa [List.getD_eq_getElem _ _ h, List.getD_eq_getElem _ _ h'] at this

namespace Node

variable {p : Profile} {node : Node} {data bytes : List UInt8} {offset : Nat}

/-- The data after a write. -/
def splice (data : List UInt8) (offset : Nat) (bytes : List UInt8) : List UInt8 :=
  let data := data ++ List.replicate (offset + bytes.length - data.length) 0
  data.take offset ++ bytes ++ data.drop (offset + bytes.length)

theorem length_splice (data : List UInt8) (offset : Nat) (bytes : List UInt8) :
    (splice data offset bytes).length = max data.length (offset + bytes.length) := by
  simp only [splice, List.length_append, List.length_take, List.length_drop, List.length_replicate]
  omega

theorem getD_padded (data : List UInt8) (n i : Nat) :
    (data ++ List.replicate n 0).getD i 0 = data.getD i 0 := by
  rcases Nat.lt_or_ge i data.length with inside | outside
  · rw [List.getD_append _ _ _ _ inside]
  · rw [List.getD_append_right _ _ _ _ outside, List.getD_eq_default _ _ outside]
    simp only [List.getD_eq_getElem?_getD, List.getElem?_replicate]
    split <;> rfl

theorem getD_splice (data : List UInt8) (offset : Nat) (bytes : List UInt8) (i : Nat) :
    (splice data offset bytes).getD i 0 =
      if offset ≤ i ∧ i < offset + bytes.length then bytes.getD (i - offset) 0 else data.getD i 0 := by
  have front : ((data ++ List.replicate (offset + bytes.length - data.length) 0).take offset).length =
      offset := by
    simp only [List.length_take, List.length_append, List.length_replicate]
    omega
  rw [splice, List.append_assoc]
  rcases Nat.lt_or_ge i offset with before | behind
  · rw [List.getD_append _ _ _ _ (by omega), if_neg (by omega),
      ← getD_padded data (offset + bytes.length - data.length) i]
    simp only [List.getD_eq_getElem?_getD, List.getElem?_take, if_pos before]
  · rw [List.getD_append_right _ _ _ _ (by omega), front]
    rcases Nat.lt_or_ge i (offset + bytes.length) with inside | past
    · rw [List.getD_append _ _ _ _ (by omega), if_pos ⟨behind, inside⟩]
    · rw [List.getD_append_right _ _ _ _ (by omega), if_neg (by omega), ← getD_padded data _ i]
      simp only [List.getD_eq_getElem?_getD, List.getElem?_drop]
      congr 2
      omega

theorem splice_append (data : List UInt8) (offset : Nat) (a b : List UInt8) :
    splice (splice data offset a) (offset + a.length) b = splice data offset (a ++ b) := by
  refine ext_getD ?_ fun i => ?_
  · simp only [length_splice, List.length_append]
    omega
  · simp only [getD_splice, List.length_append]
    rcases Nat.lt_or_ge i (offset + a.length) with inside | past
    · rw [if_neg (by omega)]
      split
      next low => rw [if_pos (by omega), List.getD_append _ _ _ _ (by omega)]
      next => rw [if_neg (by omega)]
    · rw [if_neg (show ¬ (offset ≤ i ∧ i < offset + a.length) by omega)]
      split
      next => rw [if_pos (by omega), List.getD_append_right _ _ _ _ (by omega), Nat.sub_add_eq]
      next => rw [if_neg (by omega)]

theorem write_ok (p : Profile) (writable : node.readOnly = false)
    (fits : offset + bytes.length < 2 ^ 64) :
    node.write p offset bytes = .ok (.ok { node with data := splice node.data offset bytes }) := by
  simp only [write, writable, Bool.false_eq_true, if_false, p.add_ok fits, pure_eq_ok, ok_bind,
    if_neg (show ¬ offset + bytes.length < offset by omega), splice]

theorem write_readOnly (p : Profile) (refused : node.readOnly = true) (offset : Nat)
    (bytes : List UInt8) : node.write p offset bytes = .ok (.error "procfs is read-only") := by
  simp only [write, refused, if_true, pure_eq_ok]

/-- How the two profiles stop at a write that ends outside. -/
def past (p : Profile) : Stop :=
  match p with
  | .dev => .overflow
  | .release => .indexOutOfBounds

theorem write_past (p : Profile) (writable : node.readOnly = false) (start : offset < 2 ^ 64)
    (size : bytes.length < 2 ^ 64) (large : 2 ^ 64 ≤ offset + bytes.length) :
    node.write p offset bytes = .error (past p) := by
  cases p with
  | dev =>
    simp only [write, writable, Bool.false_eq_true, if_false, Profile.add,
      if_neg (Nat.not_lt.mpr large)]
    rfl
  | release =>
    have wraps : (offset + bytes.length) % 2 ^ 64 < offset := by omega
    simp only [write, writable, Bool.false_eq_true, if_false, Profile.add, ok_bind, if_pos wraps]
    rfl

end Node
end Ferrum
