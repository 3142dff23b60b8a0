import IntervalDag.Kind
import IntervalDag.Walk.Stage

/-!
# Faults

Two things can go wrong. A request that the library declines is an ordinary error of the operation
concerned, and the caller goes on. A *fault* is a broken contract: a node was used after its last
reference was dropped, a walk was asked for something it cannot answer, an interval end is not a number.
Faults are values of `Fault`, and a computation that may meet one is `Checked`.
-/

namespace IntervalDag

/-- The questions and commands that only a depth-first walk answers. -/
inductive DepthFirstOnly where
  | restart | skip | stage | parent
  deriving DecidableEq, Repr

/-- A broken contract. -/
inductive Fault (α : Type) where
  /-- An interval was given an end that is not a number. -/
  | nanBound
  /-- A handler was applied to a kind of another operator. -/
  | wrongKind (op : Op) (kind : Kind α)
  /-- A released node was read. -/
  | accessReleased (node : NodeId)
  /-- A reference to a released node was asked for. -/
  | captureReleased (node : NodeId)
  /-- A reference to a released node was dropped. -/
  | releaseReleased (node : NodeId)
  /-- Every walk slot of the graph is taken. -/
  | slotsExhausted
  /-- A walk was started on a graph other than its own. -/
  | foreignGraph
  /-- A walk that holds no slot was asked for something kept in one. -/
  | noSlot
  /-- A walk that has ended was asked about its current node. -/
  | atEnd
  /-- A walk of another order was given a depth-first request. -/
  | notDepthFirst (request : DepthFirstOnly) (mode : Mode)
  /-- A walk was asked to skip although it is about to leave its node. -/
  | skipAtLeave
  /-- A walk was asked about a child at a stage that concerns none. -/
  | notAtChild
  /-- A node has no child at this position. -/
  | noChild (node : NodeId) (child : Nat)
  /-- A position outside a list or outside the arena was read. -/
  | outOfRange
  /-- A loop was cut off. Its bound exceeds what a graph without cycles can need. -/
  | diverged
  deriving Repr

/-- A computation that may meet a fault. -/
abbrev Checked (α β : Type) := Except (Fault α) β

namespace Checked

variable {α β : Type}

/-- The element at a position, or the fault that there is none. -/
def get (xs : List β) (i : Nat) : Checked α β :=
  match xs[i]? with
  | some b => .ok b
  | none => .error .outOfRange

/-- The first element, or the fault that there is none. -/
def first (xs : List β) : Checked α β := get xs 0

end Checked

end IntervalDag
