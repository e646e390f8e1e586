import Ferrum.Process.Roster

/-!
# No process starves

`next_process` searches the table in cyclic order, from behind the slot that it chose last. So a process
that stays ready gets its turn within as many calls as there are slots, whatever becomes of the others in
the meantime.
-/
namespace Ferrum.Scheduler

variable {ρ : Type} {s : Scheduler ρ} {i j n : Nat}

/-- `next_process` as a whole: the slot that it chooses, and the scheduler that remembers it. -/
def nextProcessCall (s : Scheduler ρ) : Option Nat × Scheduler ρ :=
  match s.nextProcess with
  | some idx => (some idx, { s with currentIdx := idx, initialized := true })
  | none => (none, s)

/-- Where the search starts: behind the current slot, or at the first one as long as none was chosen. -/
def searchStart (s : Scheduler ρ) : Nat := if s.initialized then s.currentIdx + 1 else 0

theorem nextProcessCall_fst (s : Scheduler ρ) : s.nextProcessCall.1 = s.nextProcess := by
  unfold nextProcessCall
  split <;> simp [*]

theorem searchStart_nextProcessCall (h : s.nextProcess = some j) :
    s.nextProcessCall.2.searchStart = j + 1 := by
  rw [nextProcessCall, h]
  rfl

theorem rotation_eq (s : Scheduler ρ) :
    s.rotation = Cyclic.order (s.searchStart % s.processes.length) s.processes.length := by
  unfold rotation searchStart Cyclic.order
  split
  · rfl
  · rw [Nat.zero_mod]

theorem nextProcess_eq_some_iff : s.nextProcess = some j ↔
    Cyclic.IsFirst s.searchStart s.processes.length (isReady <| s.slot ·) j := by
  rw [nextProcess, rotation_eq, Cyclic.find?_order, Cyclic.isFirst_mod]

/-- The states in which `next_process` is called, one call after the other. Between two calls the table
changes at will, but nothing else moves the place in it. -/
structure Calls (n : Nat) (s : Nat → Scheduler ρ) : Prop where
  slots : ∀ k, (s k).processes.length = n
  place : ∀ k, (s (k + 1)).currentIdx = (s k).nextProcessCall.2.currentIdx ∧
    (s (k + 1)).initialized = (s k).nextProcessCall.2.initialized

namespace Calls

variable {s : Nat → Scheduler ρ} (calls : Calls n s)
include calls

theorem shift (m : Nat) : Calls n fun k => s (m + k) :=
  ⟨fun k => calls.slots (m + k), fun k => calls.place (m + k)⟩

theorem searchStart_succ {k : Nat} (h : (s k).nextProcess = some j) : (s (k + 1)).searchStart = j + 1 := by
  rw [← searchStart_nextProcessCall h, searchStart, searchStart, (calls.place k).1, (calls.place k).2]

theorem nextProcess_iff (k j : Nat) : (s k).nextProcess = some j ↔
    Cyclic.IsFirst (s k).searchStart n (isReady <| (s k).slot ·) j := by
  rw [nextProcess_eq_some_iff, calls.slots k]

/-- The calls before the turn of a slot are at most the slots on the way to it. -/
theorem turn (inside : i < n)
    (ready : ∀ k < n, (∀ l < k, (s l).nextProcess ≠ some i) → isReady ((s k).slot i)) :
    ∃ k ≤ Cyclic.gap (s 0).searchStart n i, (s k).nextProcess = some i := by
  refine Cyclic.taken_within (fun k => (s k).searchStart) ready
    (fun k _ _ j first => (calls.nextProcess_iff k j).mpr first) (fun k j chosen => ?_) inside
  rw [calls.searchStart_succ chosen]

end Calls

/-- Round robin: each call takes the first ready slot in cyclic order, and none if there is no ready slot.
A slot that is ready at each of `n` consecutive calls, or at least until one of them takes it, is taken. -/
theorem next_process_fair (n i : Nat) (inside : i < n) (s : Nat → Scheduler ρ) (calls : Calls n s) :
    (∀ k j, (s k).nextProcessCall.1 = some j ↔
      Cyclic.IsFirst (if (s k).initialized then (s k).currentIdx + 1 else 0) n
        (fun j => ∃ a, (s k).slot j = some a ∧ a.state = .ready) j) ∧
    ∀ m, (∀ k < n, (∀ l < k, (s (m + l)).nextProcessCall.1 ≠ some i) →
        ∃ a, (s (m + k)).slot i = some a ∧ a.state = .ready) →
      ∃ k < n, (s (m + k)).nextProcessCall.1 = some i := by
  simp only [nextProcessCall_fst, ← isReady_iff]
  refine ⟨calls.nextProcess_iff, fun m ready => ?_⟩
  obtain ⟨k, early, taken⟩ := (calls.shift m).turn inside ready
  exact ⟨k, early.trans_lt (Cyclic.gap_lt _ inside), taken⟩

/-- The calls with nothing in between. -/
def afterCalls (s : Scheduler ρ) (k : Nat) : Scheduler ρ := (fun s => s.nextProcessCall.2)^[k] s

theorem processes_afterCalls (s : Scheduler ρ) (k : Nat) : (s.afterCalls k).processes = s.processes := by
  induction k with
  | zero => rfl
  | succ k ih =>
    rw [afterCalls, Function.iterate_succ_apply', ← ih]
    unfold nextProcessCall
    split <;> rfl

theorem calls_afterCalls (s : Scheduler ρ) : Calls s.processes.length s.afterCalls := by
  refine ⟨fun k => by rw [processes_afterCalls], fun k => ?_⟩
  rw [afterCalls, Function.iterate_succ_apply']
  exact ⟨rfl, rfl⟩

/-- Three slots, the second of them empty, before the first call. -/
def twoReady : Scheduler Unit :=
  ⟨[some ⟨1, 0, .ready, 0, .user, .empty, (), 0, 0⟩, none, some ⟨2, 1, .ready, 0, .user, .empty, (), 1, 0⟩],
    0, false, false, 2⟩

theorem next_process_fair_third :
    ∃ k < 3, (twoReady.afterCalls (4 + k)).nextProcessCall.1 = some 2 := by
  refine (next_process_fair 3 2 (by decide) twoReady.afterCalls (calls_afterCalls twoReady)).2 4 ?_
  intro k _ _
  rw [slot, processes_afterCalls]
  exact ⟨_, rfl, rfl⟩

end Ferrum.Scheduler
