import IntervalDag.Propagation.State
import IntervalDag.Loop

/-!
# Reverse propagation

Reverse propagation pushes bounds on a node down to its operands. `tighten` meets what is known of one
node with an interval. If that is tighter, the node remembers it for the rest of the round, and then a
variable passes it on to the bound store while any other operator's node is put in line. `drain` works off
the line: it narrows the operands of each node in line by the inverse relation of its operator, and
tightens each of them in turn.

Each update is an intersection, and a node only ever puts nodes in line that lie below it.
-/

namespace IntervalDag

variable {σ α : Type}

namespace Propagation

variable [Scalar α] [BoundStore σ α]

/-! ### Tightening one node -/

/-- Writes down that a node's bounds were tightened to an interval. A usable activity is met with it. -/
def writeBounds (n : NodeId) (narrowed : Interval α) : PropagationM σ α Unit := do
  modifyGraph fun g => g.modify n fun entry =>
    { entry with
      propBounds := narrowed
      propTag := g.roundEpoch
      activity := if g.isUsable entry then entry.activity.inter narrowed else entry.activity }
  modifyStats fun stats => { stats with tightenings := stats.tightenings + 1 }

/-- Puts a node in line for reverse propagation, unless it is marked as being in line. -/
def enqueue (n : NodeId) (entry : Node α) : PropagationM σ α Unit := do
  if entry.queued then return
  modifyGraph fun g => g.modify n fun entry => { entry with queued := true }
  modifyPropagator fun p => { p with queue := p.queue.push n }

/-- Passes the tightened bounds of a node on: those of a variable to the bound store, whose refusal is a
contradiction, and those of an operator's node to the line of reverse propagation. -/
def passOn (n : NodeId) (entry : Node α) (narrowed : Interval α) : PropagationM σ α Tightened := do
  match entry.kind with
  | .var v =>
    let (store, change) := BoundStore.tighten (← get).store v narrowed
    modify fun s => { s with store }
    match change with
    | .tightened => modifyGraph Graph.bumpBoundsEpoch
    | .unchanged => pure ()
    | .infeasible =>
      markInfeasible
      return ⟨true, 1⟩
  | .value _ => pure ()
  | _ => enqueue n entry
  return ⟨false, 1⟩

/-- Meets the bounds of a node with an interval. Only an improvement by more than the settings' threshold
is taken over; an empty meet is a contradiction. -/
def tighten (n : NodeId) (x : Interval α) : PropagationM σ α Tightened := do
  let s ← get
  let current ← check (currentBounds s.graph s.store n)
  let narrowed := current.inter x
  if narrowed.isEmpty then
    record (.disjoint n x current)
    markInfeasible
    return ⟨true, 0⟩
  if !narrowed.isTighter current s.graph.settings.minTightening then return ⟨false, 0⟩
  record (.narrowed n current narrowed)
  let entry ← check (s.graph.arena.get n)
  writeBounds n narrowed
  passOn n entry narrowed

/-- Tightens several nodes in turn, up to the first contradiction. -/
def tightenEach : List (NodeId × Interval α) → Nat → PropagationM σ α Tightened
  | [], count => return ⟨false, count⟩
  | (n, x) :: rest, count => do
    let t ← tighten n x
    let count := count + t.count
    if t.infeasible then return ⟨true, count⟩
    tightenEach rest count

/-! ### Working off the line -/

/-- Narrows the operands of a node by the inverse relation of its operator. Answers with the operands and
their intervals, or with nothing if none of their values are consistent. -/
def reverseNode (n : NodeId) : PropagationM σ α (Option (List (NodeId × Interval α))) := do
  let s ← get
  let bounds ← check (currentBounds s.graph s.store n)
  let entry ← check (s.graph.arena.get n)
  let operands ← check (entry.children.mapM (currentBounds s.graph s.store))
  let narrowed ← takeNoted entry.kind.op
    (← check ((s.graph.handlerFor entry.kind).reverse entry.kind bounds operands))
  modifyStats fun stats => { stats with reverseCalls := stats.reverseCalls + 1 }
  match narrowed.verdict with
  | .feasible => return some (entry.children.zip narrowed.operands)
  | .infeasible =>
    record (.noConsistentOperands n bounds)
    return none

/-- Takes one node from the line and works it off, the count of tightenings being carried along. -/
def drainTurn (count : Nat) : PropagationM σ α (Turn Nat Tightened) := do
  match (← get).propagator.queue.pop? with
  | none => return .done ⟨false, count⟩
  | some (n, queue) =>
    modifyPropagator fun p => { p with queue }
    modifyGraph fun g => g.modify n fun entry => { entry with queued := false }
    match ← reverseNode n with
    | none => return .done ⟨true, count⟩
    | some requests =>
      let t ← tightenEach requests count
      if t.infeasible then return .done t
      return .next t.count

/-- Takes every node from the line without working it off. -/
def clearQueue : PropagationM σ α Unit := do
  for n in (← get).propagator.queue.toList do
    if (← get).graph.isAlive n then
      modifyGraph fun g => g.modify n fun entry => { entry with queued := false }
  modifyPropagator fun p => { p with queue := .empty }

/-- Works off the line of reverse propagation until it is empty or a contradiction is found, in which case
what is left is dropped. -/
def drain : PropagationM σ α Tightened := do
  let t ← Loop.run α
    (fun _ => do
      let s ← get
      return s.graph.arena.edgeCount + s.propagator.queue.size + 1)
    drainTurn 0
  if t.infeasible then
    markInfeasible
    clearQueue
  return t

end Propagation

end IntervalDag
