import IntervalDag.Fault

/-!
# Bounded loops

Walks and worklists are loops of a step function on a state. Over a graph without cycles they end; over an
arena that was corrupted they might not. `Loop.run` therefore carries a bound on the number of steps, as
an exponent of two, and faults when the bound is used up.

The bound has two parts, so that it costs nothing. The first `2 ^ 64` steps are always granted. Only if
they were ever used up is the second part asked for, which a caller computes from the size of the graph.
-/

namespace IntervalDag

/-- What one step of a loop leads to. -/
inductive Turn (σ β : Type) where
  /-- The loop goes on from a state. -/
  | next (state : σ)
  /-- The loop ends with a result. -/
  | done (result : β)

namespace Loop

variable {m : Type → Type} [Monad m] {σ β : Type}

/-- Takes up to `2 ^ k` steps. -/
@[specialize] def repeatUpTo (step : σ → m (Turn σ β)) : Nat → σ → m (Turn σ β)
  | 0, s => step s
  | k + 1, s => do
    match ← repeatUpTo step k s with
    | .done b => return .done b
    | .next s => repeatUpTo step k s

/-- The exponent of the number of steps that every loop may take. -/
def freeExponent : Nat := 64

/-- Steps until the loop ends, at most `2 ^ freeExponent` times and then at most `2 ^ k` times, where
the exponent `k` is computed from the state reached. -/
@[specialize] def run (α : Type) [MonadExceptOf (Fault α) m] (exponent : σ → m Nat)
    (step : σ → m (Turn σ β)) (s : σ) : m β := do
  match ← repeatUpTo step freeExponent s with
  | .done b => return b
  | .next s =>
    match ← repeatUpTo step (← exponent s) s with
    | .done b => return b
    | .next _ => throwThe (Fault α) .diverged

end Loop

end IntervalDag
