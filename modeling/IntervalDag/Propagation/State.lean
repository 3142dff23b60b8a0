import IntervalDag.Bounds
import IntervalDag.Fifo
import IntervalDag.Graph.Basic
import IntervalDag.Log

/-!
# The state of a propagation

A `Propagator` holds what propagation keeps between its steps: the nodes that wait for reverse
propagation, whether a contradiction was found, and counters. A `Propagation` is a propagator at work on
one graph and one bound store. Its steps are programs of `PropagationM`, which may fault. The records
made before a fault are kept, as they belong to what was done.
-/

namespace IntervalDag

/-- What a constraint asks: that the value of a root lies in bounds. -/
structure Constraint (α : Type) where
  /-- The node that is constrained. -/
  root : NodeId
  /-- Where its value has to lie. -/
  bounds : Interval α

/-- The constraint `lhs ≤ root ≤ rhs`. -/
def Constraint.between {α : Type} [Scalar α] (root : NodeId) (lhs rhs : α) :
    Checked α (Constraint α) := do
  return ⟨root, ← Interval.ofBounds lhs rhs⟩

/-- Counters over the life of a propagator. -/
structure PropagationStats where
  /-- The activities computed by forward propagation. -/
  forwardEvals : Nat
  /-- The nodes taken from the queue by reverse propagation. -/
  reverseCalls : Nat
  /-- The bounds tightened. -/
  tightenings : Nat
  /-- The rounds begun by whole propagations. -/
  rounds : Nat
  deriving DecidableEq, Repr, Inhabited

/-- What propagation keeps between its steps. -/
structure Propagator where
  /-- The nodes that wait for reverse propagation. -/
  queue : Fifo NodeId
  /-- Whether a contradiction was found in the current round. -/
  infeasible : Bool
  /-- The counters. -/
  stats : PropagationStats

/-- A propagator that has done nothing. -/
instance : Inhabited Propagator := ⟨⟨.empty, false, default⟩⟩

/-- A propagator at work. -/
structure Propagation (σ α : Type) where
  /-- The graph. -/
  graph : Graph α
  /-- The bound store. -/
  store : σ
  /-- The propagator. -/
  propagator : Propagator
  /-- The records made, last one first. -/
  records : List (LogRecord α)

/-- A program that propagates, and may meet a fault. -/
abbrev PropagationM (σ α : Type) := EStateM (Fault α) (Propagation σ α)

/-- What tightening came to. -/
structure Tightened where
  /-- Whether a contradiction was found. -/
  infeasible : Bool
  /-- The number of bounds tightened. -/
  count : Nat
  deriving DecidableEq, Repr, Inhabited

namespace Propagation

variable {σ α : Type}

/-- Does what may fault without changing the state. -/
def check {β : Type} (c : Checked α β) : PropagationM σ α β :=
  match c with
  | .ok b => pure b
  | .error f => throw f

/-- Makes a record. -/
def record (r : LogRecord α) : PropagationM σ α Unit :=
  modify fun s => { s with records := r :: s.records }

/-- Changes the graph. -/
def modifyGraph (f : Graph α → Graph α) : PropagationM σ α Unit :=
  modify fun s => { s with graph := f s.graph }

/-- Changes the propagator. -/
def modifyPropagator (f : Propagator → Propagator) : PropagationM σ α Unit :=
  modify fun s => { s with propagator := f s.propagator }

/-- Changes the counters. -/
def modifyStats (f : PropagationStats → PropagationStats) : PropagationM σ α Unit :=
  modifyPropagator fun p => { p with stats := f p.stats }

/-- Remembers that a contradiction was found. -/
def markInfeasible : PropagationM σ α Unit := modifyPropagator fun p => { p with infeasible := true }

/-- Takes the result of a handler, and records the report that comes with it if it gets through. -/
def takeNoted {β : Type} (op : Op) (n : Noted α β) : PropagationM σ α β := do
  let (operators, notice) := (← get).graph.operators.report op n.notice
  modifyGraph fun g => { g with operators }
  if let some notice := notice then record (.pole notice)
  return n.value

/-- Opens a round. Bounds propagated in earlier rounds stop applying, nothing waits for reverse
propagation, and no contradiction is known. -/
def beginRound : PropagationM σ α Unit := do
  modifyGraph fun g =>
    let g := g.beginRound
    { g with arena := { g.arena with nodes := g.arena.nodes.map fun n => { n with queued := false } } }
  modifyPropagator fun p => { p with queue := .empty, infeasible := false }

variable [Scalar α] [BoundStore σ α]

/-- The bounds of a node as far as the current round knows them: the domain of a variable, the value of a
constant or a usable activity, met with the bounds propagated onto the node in this round. -/
def currentBounds (g : Graph α) (store : σ) (n : NodeId) : Checked α (Interval α) := do
  let entry ← g.arena.get n
  let base ←
    match entry.kind with
    | .var v => .ok (BoundStore.bounds store v)
    | .value v => Interval.point v
    | _ => .ok (if g.isUsable entry then entry.activity else .entire)
  match ← g.propBounds? n with
  | some bounds => return base.inter bounds
  | none => return base

end Propagation

end IntervalDag
