import Mathlib

/-!
# Runs of a transition system

A system is given by its initial states and its step relation. A property that holds initially and
that every step keeps holds in every reachable state. A trace also records what each step did.
-/
namespace Ferrum

variable {σ : Type*}

/-- The states that some finite run from an initial state ends in. -/
def Reachable (init : σ → Prop) (step : σ → σ → Prop) (s : σ) : Prop :=
  ∃ s₀, init s₀ ∧ Relation.ReflTransGen step s₀ s

namespace Reachable

variable {init : σ → Prop} {step : σ → σ → Prop} {P : σ → Prop} {s s' : σ}

theorem start (h : init s) : Reachable init step s := ⟨s, h, .refl⟩

theorem next (h : Reachable init step s) (hs : step s s') : Reachable init step s' :=
  let ⟨s₀, h₀, run⟩ := h
  ⟨s₀, h₀, run.tail hs⟩

/-- An inductive invariant holds in every reachable state. -/
theorem invariant (base : ∀ s, init s → P s) (keep : ∀ s s', P s → step s s' → P s')
    (h : Reachable init step s) : P s := by
  obtain ⟨s₀, h₀, run⟩ := h
  induction run with
  | refl => exact base s₀ h₀
  | tail _ last ih => exact keep _ _ ih last

end Reachable

/-- A finite run with what happened in each step, in order. -/
inductive Trace {ε : Type*} (step : σ → ε → σ → Prop) (s₀ : σ) : List ε → σ → Prop
  | nil : Trace step s₀ [] s₀
  | snoc {events : List ε} {event : ε} {s s' : σ} (run : Trace step s₀ events s)
      (last : step s event s') : Trace step s₀ (events ++ [event]) s'

end Ferrum
