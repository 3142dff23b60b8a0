import Std.Data.HashMap
import IntervalDag.Graph.Arena
import IntervalDag.Graph.Error
import IntervalDag.Graph.SlotPool
import IntervalDag.Operator.Table

/-!
# Expression graphs

A `Graph` is an arena of nodes together with the operators that give them meaning and the bookkeeping
that walks and propagation share:

* the slots of walks and their visit tags,
* the *bounds epoch*, which counts the changes of variable bounds; a node's activity is fresh when it was
  computed in the current one,
* the *round epoch*, which counts the rounds of propagation; bounds propagated in an earlier round no
  longer apply.

Reading a released node is a fault.
-/

namespace IntervalDag

/-- An expression graph. -/
structure Graph (α : Type) where
  /-- Tells graphs apart, so that a walk is not continued on another one. -/
  identity : Nat
  /-- The nodes. -/
  arena : Arena α
  /-- The slots and tags of walks. -/
  walks : SlotPool
  /-- The counter behind all epochs. -/
  epochs : EpochCounter
  /-- The current revision of the variable bounds. -/
  boundsEpoch : Nat
  /-- The current round of propagation. -/
  roundEpoch : Nat
  /-- The revision of the variable bounds at the start of the current round. -/
  roundBoundsEpoch : Nat
  /-- The node of each variable that has one. -/
  varNodes : Std.HashMap VarId NodeId
  /-- The behaviour of the operators. -/
  operators : OperatorTable α
  /-- The settings. -/
  settings : Settings α

namespace Graph

variable {α : Type}

/-- A graph without nodes. The first epochs are given out at once, so that none of them is zero. -/
def empty [Scalar α] [BitPattern α] (settings : Settings α) (identity : Nat) : Graph α :=
  let (boundsEpoch, epochs) := EpochCounter.mint default
  let (roundEpoch, epochs) := epochs.mint
  { identity
    arena := .empty
    walks := default
    epochs
    boundsEpoch
    roundEpoch
    roundBoundsEpoch := boundsEpoch
    varNodes := ∅
    operators := .default settings
    settings }

/-! ### Epochs -/

/-- Marks every cached activity as stale. -/
def bumpBoundsEpoch (g : Graph α) : Graph α :=
  let (boundsEpoch, epochs) := g.epochs.mint
  { g with boundsEpoch, epochs }

/-- Opens a round, in which no bounds have been propagated yet. -/
def beginRound (g : Graph α) : Graph α :=
  let (roundEpoch, epochs) := g.epochs.mint
  { g with roundEpoch, epochs, roundBoundsEpoch := g.boundsEpoch }

/-! ### Reading nodes -/

/-- The number of nodes in use. -/
def nodeCount (g : Graph α) : Nat := g.arena.count

/-- Whether a node is in use. -/
def isAlive (g : Graph α) (n : NodeId) : Bool := g.arena.isAlive n

/-- The number of references to a node; zero when there is no such node. -/
def refs (g : Graph α) (n : NodeId) : Nat := g.arena.refs n

/-- The node of a number, which must be in use. -/
def node (g : Graph α) (n : NodeId) : Checked α (Node α) :=
  if g.isAlive n then g.arena.get n else .error (.accessReleased n)

/-- The node of a variable. -/
def varNode? (g : Graph α) (v : VarId) : Option NodeId := g.varNodes[v]?

/-- The kind of a node. -/
def kind (g : Graph α) (n : NodeId) : Checked α (Kind α) := (·.kind) <$> g.node n

/-- The operands of a node. -/
def children (g : Graph α) (n : NodeId) : Checked α (List NodeId) := (·.children) <$> g.node n

/-- The activity last cached on a node, whether it is fresh or not. -/
def activity (g : Graph α) (n : NodeId) : Checked α (Interval α) := (·.activity) <$> g.node n

/-- The activities last cached on the operands of a node. -/
def childActivities (g : Graph α) (n : NodeId) : Checked α (List (Interval α)) := do
  (← g.children n).mapM g.activity

/-- Whether a node's activity was computed from the current variable bounds. -/
def isFresh (g : Graph α) (node : Node α) : Bool := node.activityTag == g.boundsEpoch

/-- Whether a node's activity was computed in the current round or from the bounds at its start. -/
def isUsable (g : Graph α) (node : Node α) : Bool := g.roundBoundsEpoch ≤ node.activityTag

/-- The bounds propagated onto an entry in the current round, if any. -/
def entryBounds? (g : Graph α) (node : Node α) : Option (Interval α) :=
  if node.propTag = g.roundEpoch then some node.propBounds else none

/-- The bounds propagated onto a node in the current round, if any. -/
def propBounds? (g : Graph α) (n : NodeId) : Checked α (Option (Interval α)) :=
  g.entryBounds? <$> g.node n

/-- The result of the last evaluation that reached a node. -/
def value? (g : Graph α) (n : NodeId) : Checked α (Option α) := (·.value) <$> g.node n

/-- The handler that serves nodes of a kind. -/
def handlerFor (g : Graph α) (k : Kind α) : Handler α := g.operators.forKind k

/-! ### Changing nodes and operators -/

/-- Changes the entry of a number, if there is one. -/
def modify (g : Graph α) (n : NodeId) (f : Node α → Node α) : Graph α :=
  { g with arena := g.arena.modify n f }

/-- Replaces the handler of an operator. -/
def register (g : Graph α) (op : Op) (h : Handler α) : Graph α :=
  { g with operators := g.operators.register op h }

end Graph

end IntervalDag
