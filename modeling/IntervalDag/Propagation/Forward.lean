import IntervalDag.Propagation.State
import IntervalDag.Walk.Basic

/-!
# Forward propagation

Forward propagation computes the activities of the nodes below a root, operands first. An activity is an
interval that holds the node's value wherever the variables lie in their domains. Only nodes whose
activity is stale are computed again, unless all are asked for. The pass ends at the first node whose
activity is empty, as that is a contradiction.
-/

namespace IntervalDag

variable {σ α : Type}

/-- What forward propagation came to. -/
structure Forwarded (α : Type) where
  /-- The activity of the root; empty when a contradiction was found. -/
  activity : Interval α
  /-- Whether a contradiction was found. -/
  infeasible : Bool
  /-- The number of activities that were narrowed by bounds propagated earlier in the round. -/
  count : Nat

namespace Propagation

variable [Scalar α] [BoundStore σ α]

/-- The activity of a node over the activities of its operands, before any bounds propagated onto it. It
is empty when that of an operand is. -/
def evaluateActivity (entry : Node α) (operands : List (Interval α)) :
    PropagationM σ α (Interval α) := do
  if operands.any (·.isEmpty) then return .empty
  let s ← get
  let handler := s.graph.handlerFor entry.kind
  takeNoted entry.kind.op
    (← check (handler.interval entry.kind operands (BoundStore.bounds s.store)))

/-- Computes the activity of a node again. Answers whether bounds propagated onto the node narrowed
it. -/
def recompute (n : NodeId) (entry : Node α) : PropagationM σ α Bool := do
  let g := (← get).graph
  let operands ← check (entry.children.mapM fun c => (·.activity) <$> g.arena.get c)
  let activity ← evaluateActivity entry operands
  modifyStats fun stats => { stats with forwardEvals := stats.forwardEvals + 1 }
  let narrowed :=
    match ← check (g.propBounds? n) with
    | some bounds => activity.inter bounds
    | none => activity
  modifyGraph fun g => g.modify n fun entry =>
    { entry with activity := narrowed, activityTag := g.boundsEpoch }
  return narrowed != activity

/-- Visits one node of a forward pass, the count of narrowed activities being carried along. -/
def forwardTurn (force : Bool) :
    Walk × Nat → PropagationM σ α (Turn (Walk × Nat) (Walk × Bool × Nat))
  | (w, count) => do
    match w.current with
    | none => return .done (w, false, count)
    | some n =>
      let g := (← get).graph
      let entry ← check (g.arena.get n)
      let narrowed ← if force || !g.isFresh entry then recompute n entry else pure false
      let count := if narrowed then count + 1 else count
      if (← check ((← get).graph.arena.get n)).activity.isEmpty then
        record (.emptyActivity n)
        markInfeasible
        return .done (w, true, count)
      let (w, g) ← check (w.next (← get).graph)
      modifyGraph fun _ => g
      return .next (w, count)

/-- Computes the stale activities below a root, or with `force` all of them. -/
def forward (root : NodeId) (force : Bool) : PropagationM σ α (Forwarded α) := do
  let g := (← get).graph
  let (w, g) ← check (g.newWalk.start g (some root) .reverseTopological false)
  modifyGraph fun _ => g
  let (w, infeasible, count) ←
    Loop.run α (fun _ => return (← get).graph.walkExponent) (forwardTurn force) (w, 0)
  modifyGraph w.finish
  let activity := (← check ((← get).graph.arena.get root)).activity
  return ⟨if infeasible then .empty else activity, infeasible, count⟩

end Propagation

end IntervalDag
