import IntervalDag.Kind

/-!
# Graph errors

The requests that a graph declines. It is left as it was.
-/

namespace IntervalDag

/-- Why a graph declined a request. -/
inductive GraphError where
  /-- An operator was given the wrong number of operands. -/
  | childCount (op : Op) (expected got : Nat)
  /-- A sum was given a number of coefficients other than its number of operands. -/
  | coefficientCount (children coefs : Nat)
  /-- An operand was to be appended to a node whose operator takes a fixed number. -/
  | notAssociative (node : NodeId) (op : Op)
  /-- An operand was to be appended that uses the node it would be appended to. -/
  | wouldCreateCycle (parent child : NodeId)
  /-- A node lies on a cycle. -/
  | cycleDetected (node : NodeId)
  deriving DecidableEq, Repr

/-- The capitalised name of the sort of an error. -/
def GraphError.name : GraphError → String
  | childCount _ _ _ => "ChildCount"
  | coefficientCount _ _ => "CoefficientCount"
  | notAssociative _ _ => "NotAssociative"
  | wouldCreateCycle _ _ => "WouldCreateCycle"
  | cycleDetected _ => "CycleDetected"

end IntervalDag
