import IntervalDag.Propagation.Forward
import IntervalDag.Propagation.Reverse

/-!
# Propagation in rounds

A round takes each constraint in turn: forward propagation below its root, tightening of the root to the
constraint's bounds, reverse propagation. Rounds follow one another until one changes no variable's
domain, finds a contradiction, or is the last that the settings allow.
-/

namespace IntervalDag

variable {σ α : Type}

/-- What a whole propagation came to. -/
structure PropagationOutcome where
  /-- Whether a contradiction was found. -/
  infeasible : Bool
  /-- The number of rounds. -/
  rounds : Nat
  /-- The number of bounds tightened. -/
  tightenings : Nat
  deriving DecidableEq, Repr, Inhabited

namespace Propagation

variable [Scalar α] [BoundStore σ α]

/-- Takes one constraint. The first of its three parts to find a contradiction is the last. -/
def applyConstraint (c : Constraint α) : PropagationM σ α Tightened := do
  let forwarded ← forward c.root false
  if forwarded.infeasible then return ⟨true, forwarded.count⟩
  let tightened ← tighten c.root c.bounds
  if tightened.infeasible then return ⟨true, forwarded.count + tightened.count⟩
  let drained ← drain
  return ⟨drained.infeasible, forwarded.count + tightened.count + drained.count⟩

/-- Takes constraints in turn, up to the first contradiction. -/
def applyConstraints : List (Constraint α) → Nat → PropagationM σ α Tightened
  | [], count => return ⟨false, count⟩
  | c :: cs, count => do
    let t ← applyConstraint c
    let count := count + t.count
    if t.infeasible then return ⟨true, count⟩
    applyConstraints cs count

/-- Runs up to a number of further rounds. -/
def runRounds (constraints : List (Constraint α)) :
    Nat → PropagationOutcome → PropagationM σ α PropagationOutcome
  | 0, outcome => return outcome
  | more + 1, outcome => do
    beginRound
    modifyStats fun stats => { stats with rounds := stats.rounds + 1 }
    let epochBefore := (← get).graph.boundsEpoch
    let t ← applyConstraints constraints 0
    let outcome := ⟨t.infeasible, outcome.rounds + 1, outcome.tightenings + t.count⟩
    record (.roundDone outcome.rounds t.count t.infeasible)
    if t.infeasible || (← get).graph.boundsEpoch == epochBefore then return outcome
    runRounds constraints more outcome

/-- Propagates constraints in rounds. -/
def propagate (constraints : List (Constraint α)) : PropagationM σ α PropagationOutcome := do
  runRounds constraints (← get).graph.settings.maxRounds ⟨false, 0, 0⟩

end Propagation

end IntervalDag
