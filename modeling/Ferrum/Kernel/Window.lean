import Ferrum.AddressSpace.Owned
import Ferrum.Kernel.Image
import Ferrum.Library.Strings

/-!
# A window of user pages

Consecutive pages that are mapped to frames of their own are a stretch of virtual memory. The kernel
writes to it byte by byte through the page table; what the program sees is one store.
-/
namespace Ferrum

namespace Memory

variable {m : Memory} {a n x : Nat} {g : Nat → UInt8}

/-- Replace `n` bytes from an address on. -/
def patch (m : Memory) (a n : Nat) (g : Nat → UInt8) : Memory := fun x =>
  if a ≤ x ∧ x < a + n then g (x - a) else m x

theorem patch_outside (h : x < a ∨ a + n ≤ x) : m.patch a n g x = m x := by
  simp only [patch, ite_eq_right_iff]
  omega

theorem writeBytes_eq_patch (m : Memory) (a : Nat) (bs : List UInt8) :
    m.writeBytes a bs = m.patch a bs.length (bs.getD · 0) := rfl

theorem writeBytes_nil (m : Memory) (a : Nat) : m.writeBytes a [] = m := by
  funext x
  exact writeBytes_outside (by simp only [List.length_nil]; omega)

theorem writeBytes_append (m : Memory) (a : Nat) (bs cs : List UInt8) :
    (m.writeBytes a bs).writeBytes (a + bs.length) cs = m.writeBytes a (bs ++ cs) := by
  funext x
  simp only [writeBytes, List.length_append]
  rcases Nat.lt_or_ge x (a + bs.length) with front | back
  · rw [if_neg (by omega)]
    split
    next => rw [if_pos (by omega), List.getD_append _ _ _ _ (by omega)]
    next => rw [if_neg (by omega)]
  · rw [if_neg (show ¬ (a ≤ x ∧ x < a + bs.length) by omega)]
    split
    next => rw [if_pos (by omega), List.getD_append_right _ _ _ _ (by omega), Nat.sub_add_eq]
    next => rw [if_neg (by omega)]

end Memory

/-- The pages from `lo` up to `hi` are mapped to different frames. The frames can be reached through
the higher-half window, and what they hold does not decide how the pages are mapped. -/
structure Window (m : Memory) (pml4 lo hi : Nat) (frame : Nat → Nat) : Prop where
  mapped : ∀ q, lo ≤ q → q < hi → Machine.translate m pml4 (q * PAGE_SIZE) = .ok (some (frame q))
  aligned : ∀ q, lo ≤ q → q < hi → PAGE_SIZE ∣ frame q
  distinct : ∀ q r, lo ≤ q → q < hi → lo ≤ r → r < hi → frame q = frame r → q = r
  direct : ∀ q, lo ≤ q → q < hi → frame q < DIRECT_MAP_END
  steady : ∀ m' : Memory,
    (∀ x, (∀ q, lo ≤ q → q < hi → x < frame q ∨ frame q + PAGE_SIZE ≤ x) → m' x = m x) →
    ∀ q, lo ≤ q → q < hi →
      Machine.translate m' pml4 (q * PAGE_SIZE) = Machine.translate m pml4 (q * PAGE_SIZE)
  top : hi * PAGE_SIZE < 2 ^ 64

/-- What stands at the addresses of the window; there is nothing outside. -/
def seen (lo hi : Nat) (frame : Nat → Nat) (m : Memory) : Memory := fun v =>
  if lo * PAGE_SIZE ≤ v ∧ v < hi * PAGE_SIZE then m (frame (v / PAGE_SIZE) + v % PAGE_SIZE) else 0

/-- A memory shows some contents in the window, and is otherwise as it was. -/
structure Shows (m : Memory) (lo hi : Nat) (frame : Nat → Nat) (vm m' : Memory) : Prop where
  inside : seen lo hi frame m' = vm
  outside : ∀ x, (∀ q, lo ≤ q → q < hi → x < frame q ∨ frame q + PAGE_SIZE ≤ x) → m' x = m x

theorem Shows.start (m : Memory) (lo hi : Nat) (frame : Nat → Nat) :
    Shows m lo hi frame (seen lo hi frame m) m := ⟨rfl, fun _ _ => rfl⟩

/-- What stands in a window, as one store. -/
def contents (lo hi : Nat) (vm : Memory) : List UInt8 :=
  (List.range ((hi - lo) * PAGE_SIZE)).map fun i => vm (lo * PAGE_SIZE + i)

theorem writeBytes_contents {lo hi : Nat} (order : lo ≤ hi) (frame : Nat → Nat) (m m' : Memory) :
    (seen lo hi frame m).writeBytes (lo * PAGE_SIZE) (contents lo hi (seen lo hi frame m')) =
      seen lo hi frame m' := by
  have length : (contents lo hi (seen lo hi frame m')).length = (hi - lo) * PAGE_SIZE := by simp [contents]
  have whole : lo * PAGE_SIZE + (hi - lo) * PAGE_SIZE = hi * PAGE_SIZE := by
    rw [← Nat.add_mul, Nat.add_sub_cancel' order]
  funext v
  simp only [Memory.writeBytes, length, whole]
  split
  · rename_i inside
    have small : v - lo * PAGE_SIZE < (hi - lo) * PAGE_SIZE := by omega
    rw [contents, List.getD_eq_getElem?_getD, List.getElem?_map, List.getElem?_range small]
    simp only [Option.map_some, Option.getD_some, Nat.add_sub_cancel' inside.1]
  · rename_i outside
    rw [seen, if_neg outside, seen, if_neg outside]

/-- Memories that show the same in a window, and the same outside, are the same. -/
theorem Shows.unique {m₀ m₁ m₂ vm : Memory} {lo hi : Nat} {frame : Nat → Nat}
    (h₁ : Shows m₀ lo hi frame vm m₁) (h₂ : Shows m₀ lo hi frame vm m₂) : m₁ = m₂ := by
  funext x
  by_cases inside : ∃ q, lo ≤ q ∧ q < hi ∧ frame q ≤ x ∧ x < frame q + PAGE_SIZE
  · obtain ⟨q, low, high, first, last⟩ := inside
    have same := congrFun (h₁.inside.trans h₂.inside.symm) (q * PAGE_SIZE + (x - frame q))
    have page : (q * PAGE_SIZE + (x - frame q)) / PAGE_SIZE = q ∧
        (q * PAGE_SIZE + (x - frame q)) % PAGE_SIZE = x - frame q := by
      simp only [PAGE_SIZE] at last ⊢
      omega
    have range : lo * PAGE_SIZE ≤ q * PAGE_SIZE + (x - frame q) ∧
        q * PAGE_SIZE + (x - frame q) < hi * PAGE_SIZE := by
      simp only [PAGE_SIZE] at last ⊢
      omega
    simpa only [seen, if_pos range, page, Nat.add_sub_cancel' first] using same
  · have outside : ∀ q, lo ≤ q → q < hi → x < frame q ∨ frame q + PAGE_SIZE ≤ x := by
      intro q low high
      by_contra both
      exact inside ⟨q, low, high, by omega, by omega⟩
    rw [h₁.outside x outside, h₂.outside x outside]

namespace Window

variable {m vm m' : Memory} {pml4 lo hi a n : Nat} {frame : Nat → Nat} {g : Nat → UInt8} {p : Profile}
  {st : Machine Pool} {data : List UInt8}

theorem translate (window : Window m pml4 lo hi frame) (shows_ : Shows m lo hi frame vm m') {q : Nat}
    (low : lo ≤ q) (high : q < hi) :
    Machine.translate m' pml4 (q * PAGE_SIZE) = .ok (some (frame q)) := by
  rw [window.steady m' shows_.outside q low high, window.mapped q low high]

theorem pageFrame (window : Window m pml4 lo hi frame) (shows_ : Shows m lo hi frame vm st.mem)
    (low : lo * PAGE_SIZE ≤ a) (high : a < hi * PAGE_SIZE) :
    pageFrame st pml4 a = .ok (some (frame (a / PAGE_SIZE))) := by
  have top := window.top
  rw [Ferrum.pageFrame, alignDown_page (by omega)]
  simp only [PAGE_SIZE] at low high
  exact window.translate shows_ (by simp only [PAGE_SIZE]; omega) (by simp only [PAGE_SIZE]; omega)

theorem patch (window : Window m pml4 lo hi frame) (shows_ : Shows m lo hi frame vm m')
    (low : lo * PAGE_SIZE ≤ a) (high : a < hi * PAGE_SIZE) (fits : a % PAGE_SIZE + n ≤ PAGE_SIZE) :
    Shows m lo hi frame (vm.patch a n g)
      (m'.patch (frame (a / PAGE_SIZE) + a % PAGE_SIZE) n g) := by
  have page : lo ≤ a / PAGE_SIZE ∧ a / PAGE_SIZE < hi := by simp only [PAGE_SIZE] at *; omega
  refine ⟨funext fun v => ?_, fun x out => ?_⟩
  · have before := congrFun shows_.inside v
    rw [seen] at before ⊢
    by_cases there : lo * PAGE_SIZE ≤ v ∧ v < hi * PAGE_SIZE
    · rw [if_pos there] at before ⊢
      have page' : lo ≤ v / PAGE_SIZE ∧ v / PAGE_SIZE < hi := by simp only [PAGE_SIZE] at *; omega
      by_cases same : v / PAGE_SIZE = a / PAGE_SIZE
      · have offset : v % PAGE_SIZE + a = v + a % PAGE_SIZE := by
          simp only [PAGE_SIZE] at same ⊢
          omega
        rw [same] at before ⊢
        simp only [Memory.patch, before]
        by_cases written : a ≤ v ∧ v < a + n
        · rw [if_pos written, if_pos (by omega)]
          congr 1
          omega
        · rw [if_neg written, if_neg (by omega)]
      · -- another page has another frame
        have differ : frame (v / PAGE_SIZE) ≠ frame (a / PAGE_SIZE) := fun eq =>
          same (window.distinct _ _ page'.1 page'.2 page.1 page.2 eq)
        obtain ⟨i, hi'⟩ := window.aligned _ page'.1 page'.2
        obtain ⟨j, hj⟩ := window.aligned _ page.1 page.2
        rw [Memory.patch_outside, before, Memory.patch_outside]
        · simp only [PAGE_SIZE] at same fits ⊢
          omega
        · rw [hi', hj] at differ ⊢
          simp only [PAGE_SIZE] at differ fits ⊢
          have := Nat.mod_lt v (show 0 < 4096 by decide)
          omega
    · rw [if_neg there] at before ⊢
      rw [Memory.patch_outside, before]
      simp only [PAGE_SIZE] at there low high fits ⊢
      omega
  · have off := out _ page.1 page.2
    rw [Memory.patch_outside (by omega), shows_.outside x out]

theorem writeViaPt (window : Window m pml4 lo hi frame) (shows_ : Shows m lo hi frame vm st.mem)
    (low : lo * PAGE_SIZE ≤ a) (high : a + data.length ≤ hi * PAGE_SIZE) (enough : data.length ≤ n) :
    ∃ m', Ferrum.writeViaPt p pml4 n st a data = .ok (true, { st with mem := m' }) ∧
      Shows m lo hi frame (vm.writeBytes a data) m' := by
  induction n generalizing st vm a data with
  | zero =>
    obtain rfl : data = [] := List.eq_nil_of_length_eq_zero (by omega)
    exact ⟨st.mem, rfl, by rwa [Memory.writeBytes_nil]⟩
  | succ n ih =>
    rw [Ferrum.writeViaPt]
    split
    next nothing =>
      subst nothing
      exact ⟨st.mem, rfl, by rwa [Memory.writeBytes_nil]⟩
    next some =>
      have positive := List.length_pos_iff.mpr some
      have below : a < hi * PAGE_SIZE := by omega
      have page : lo ≤ a / PAGE_SIZE ∧ a / PAGE_SIZE < hi := by simp only [PAGE_SIZE] at *; omega
      have off : a % PAGE_SIZE < PAGE_SIZE := Nat.mod_lt _ (by decide)
      have length : (data.take (min (PAGE_SIZE - a % PAGE_SIZE) data.length)).length =
          min (PAGE_SIZE - a % PAGE_SIZE) data.length := by
        rw [List.length_take, Nat.min_eq_left (Nat.min_le_right _ _)]
      have first := window.patch (n := (data.take (min (PAGE_SIZE - a % PAGE_SIZE) data.length)).length)
        (g := ((data.take (min (PAGE_SIZE - a % PAGE_SIZE) data.length)).getD · 0)) shows_ low below
        (by rw [length]; omega)
      rw [← Memory.writeBytes_eq_patch, ← Memory.writeBytes_eq_patch] at first
      rw [window.pageFrame shows_ low below]
      simp only [ok_bind, physToVirt_ok (window.direct _ page.1 page.2)]
      split
      next more =>
        have fits := window.top
        rw [p.add_ok (by omega), ok_bind]
        have later : a + min (PAGE_SIZE - a % PAGE_SIZE) data.length +
              (data.drop (min (PAGE_SIZE - a % PAGE_SIZE) data.length)).length ≤ hi * PAGE_SIZE ∧
            (data.drop (min (PAGE_SIZE - a % PAGE_SIZE) data.length)).length ≤ n := by
          rw [List.length_drop]
          omega
        obtain ⟨m'', run, rest⟩ := @ih _ _ ⟨_, st.pool⟩ _ first (by omega) later.1 later.2
        refine ⟨m'', run, ?_⟩
        have whole := vm.writeBytes_append a (data.take (min (PAGE_SIZE - a % PAGE_SIZE) data.length))
          (data.drop (min (PAGE_SIZE - a % PAGE_SIZE) data.length))
        rw [length, List.take_append_drop] at whole
        rwa [whole] at rest
      next last =>
        refine ⟨_, rfl, ?_⟩
        have all : data.take (min (PAGE_SIZE - a % PAGE_SIZE) data.length) = data :=
          List.take_of_length_le (by omega)
        rwa [all] at first ⊢

end Window

/-- A frame that a process holds beside those of a window lies outside of it. -/
theorem Owned.off_window {S img : Set Nat} {st : Machine Pool} {owner : Owner} {root lo hi g x : Nat}
    {tab : Tables} {frame : Nat → Nat} (inv : Machine.PoolInv S st) (own : Owned img st owner root tab)
    (user : ∀ q, lo ≤ q → q < hi → UserPage img q)
    (there : ∀ q, lo ≤ q → q < hi → frameAt st.mem tab q = some (frame q))
    (held : st.holds owner ⟨g, 0⟩) (ne : ∀ q, lo ≤ q → q < hi → g ≠ frame q) (inside : x ∈ pageBytes g) :
    ∀ q, lo ≤ q → q < hi → x < frame q ∨ frame q + PAGE_SIZE ≤ x := by
  intro q low high
  obtain ⟨flags, seen⟩ := frameAt_eq_some.mp (there q low high)
  have apart := Space.pageBytes_disjoint (inv.tableFrame held).aligned
    (inv.tableFrame (own.pages (user q low high) seen).1).aligned (ne q low high) inside
  simp only [pageBytes, Set.mem_Ico] at apart
  omega

/-- Mapped user pages of a process are a window: their frames are its own, and none of them is a page
table. -/
theorem Owned.window {S img : Set Nat} {st : Machine Pool} {owner : Owner} {root lo hi : Nat}
    {tab : Tables} {frame : Nat → Nat} (inv : Machine.PoolInv S st) (own : Owned img st owner root tab)
    (proper : lo < hi) (user : ∀ q, lo ≤ q → q < hi → UserPage img q)
    (there : ∀ q, lo ≤ q → q < hi → frameAt st.mem tab q = some (frame q)) :
    Window st.mem root lo hi frame := by
  have lower (q : Nat) (low : lo ≤ q) (high : q < hi) : q * PAGE_SIZE < 2 ^ 47 ∧
      pageOf (q * PAGE_SIZE) = q := by
    have bound := (user q low high).lower
    simp only [LowerPage] at bound
    simp only [pageOf, PAGE_SIZE]
    omega
  have translated {m' : Memory} (tree : Tree m' root tab) (views : ∀ q, view m' tab q = view st.mem tab q)
      (q : Nat) (low : lo ≤ q) (high : q < hi) :
      Machine.translate m' root (q * PAGE_SIZE) = .ok (some (frame q)) := by
    obtain ⟨below, page⟩ := lower q low high
    obtain ⟨flags, seen⟩ := frameAt_eq_some.mp (there q low high)
    rw [tree.translate_ok (pageOf_lower below), page, views, seen]
    simp
  have held (q : Nat) (low : lo ≤ q) (high : q < hi) :
      st.holds owner ⟨frame q, 0⟩ ∧ ∀ π, tab π ≠ some (frame q) := by
    obtain ⟨flags, seen⟩ := frameAt_eq_some.mp (there q low high)
    exact own.pages (user q low high) seen
  refine ⟨translated own.tree fun _ => rfl, fun q low high => ?_, fun q r hq hq' hr hr' same => ?_,
    fun q low high => (inv.tableFrame (held q low high).1).window, fun m' same q low high => ?_, ?_⟩
  · exact (inv.tableFrame (held q low high).1).aligned
  · obtain ⟨flags, seen⟩ := frameAt_eq_some.mp (there q hq hq')
    obtain ⟨flags', seen'⟩ := frameAt_eq_some.mp (there r hr hr')
    exact own.inj (user q hq hq') (user r hr hr') seen (same ▸ seen')
  · have tables : ∀ π t, tab π = some t → Set.EqOn m' st.mem (pageBytes t) := by
      intro π t table x inside
      refine same x (own.off_window inv user there (own.tables table) (fun r hr hr' eq => ?_) inside)
      exact (held r hr hr').2 π (eq ▸ table)
    rw [translated (own.tree.congr tables) (Tree.view_congr tables) q low high,
      translated own.tree (fun _ => rfl) q low high]
  · have bound : hi - 1 < 2 ^ 35 := (user (hi - 1) (by omega) (by omega)).lower
    simp only [PAGE_SIZE]
    omega

end Ferrum
