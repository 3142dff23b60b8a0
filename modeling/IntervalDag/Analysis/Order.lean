import IntervalDag.Analysis.DepthFirstSort
import IntervalDag.Graph.Basic

/-!
# Topological order

All nodes of a graph are listed so that operands come before the operators that use them. The sort itself is left to a
library, so it is a parameter here. The nodes in use are handed to it as the vertices of a directed graph. Free entries
have no vertex, so the number of a vertex is not that of its node, and numbers are translated in both directions.

A graph that was built through its own operations has no cycles, so a refusal means that the arena was
corrupted.
-/

namespace IntervalDag.Graph

variable {α : Type}

/-- Adds a vertex for an entry that is in use, and notes its number. -/
def addVertex (g : Graph α) (r : Digraph × Array (Option Nat)) (n : NodeId) : Digraph × Array (Option Nat) :=
  if g.isAlive n then
    let (v, d) := r.1.addNode n
    (d, r.2.setIfInBounds n (some v))
  else r

/-- A vertex for each node in use, and the vertex of each entry that has one. -/
def vertices (g : Graph α) : Digraph × Array (Option Nat) :=
  (List.range g.arena.capacity).foldl g.addVertex (.empty, Array.replicate g.arena.capacity none)

/-- Adds an edge from an operand to a vertex. An operand that is not in use gets no edge, and one beyond the entries is
a fault. -/
def addOperand (places : Array (Option Nat)) (parent : Nat) (d : Digraph) (c : NodeId) : Checked α Digraph :=
  match places[c]? with
  | none => .error .outOfRange
  | some none => .ok d
  | some (some operand) => d.addEdge operand parent

/-- Adds the edges from the operands of a node, if it has a vertex. -/
def addOperands (g : Graph α) (places : Array (Option Nat)) (d : Digraph) (n : NodeId) : Checked α Digraph :=
  match places[n]? with
  | some (some parent) => do (← g.arena.children n).foldlM (addOperand places parent) d
  | _ => .ok d

/-- The nodes in use, with an edge from operand to operator for each use. -/
def digraph (g : Graph α) : Checked α Digraph :=
  let (d, places) := g.vertices
  (List.range g.arena.capacity).foldlM (g.addOperands places) d

/-- The nodes in use, operands before the operators that use them, as far as `sort` puts them in order. -/
def topologicalOrderBy (sort : Digraph.Sorter) (g : Graph α) : Checked α (Except GraphError (List NodeId)) := do
  let d ← g.digraph
  match sort d with
  | .ok order => return .ok (← order.mapM d.node)
  | .error v => return .error (.cycleDetected (← d.node v))

/-- Declines a graph that `sort` cannot put in order. -/
def checkAcyclicBy (sort : Digraph.Sorter) (g : Graph α) : Checked α (Except GraphError Unit) := do
  return (fun _ => ()) <$> (← g.topologicalOrderBy sort)

/-- The nodes in use, in the order that depth-first sort finds. -/
def topologicalOrder (g : Graph α) : Checked α (Except GraphError (List NodeId)) :=
  g.topologicalOrderBy .depthFirst

/-- Declines a graph with a cycle that depth-first sort finds. -/
def checkAcyclic (g : Graph α) : Checked α (Except GraphError Unit) := g.checkAcyclicBy .depthFirst

end IntervalDag.Graph
