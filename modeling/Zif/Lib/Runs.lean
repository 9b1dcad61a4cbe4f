import Mathlib

/-!
# Runs

A system is a step function on states; a run feeds it events one after the other. `Always` says that
something holds at each step of a run, of the state before the step and the event.
-/

namespace Runs

variable {σ ε : Type} (step : σ → ε → σ)

/-- The state a run leads to. -/
def run (s : σ) (evs : List ε) : σ := evs.foldl step s

/-- `C` holds of each event of the run and the state it meets. -/
def Always (C : σ → ε → Prop) (s : σ) (evs : List ε) : Prop :=
  ∀ pre e post, evs = pre ++ e :: post → C (run step s pre) e

end Runs
