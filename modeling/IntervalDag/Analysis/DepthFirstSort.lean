import Std.Data.HashSet
import IntervalDag.Analysis.Digraph

/-!
# Depth-first sort

A way to sort graphs with which topological orders can be run. A vertex is finished once all its successors are, and the
order is that of the finished vertices, last one first. A second pass checks that the predecessors of each vertex all
come before it.
-/

namespace IntervalDag.Digraph

/-- For each source of an edge the targets, latest edge first. -/
def targets (size : Nat) (edges : Array (Nat × Nat)) : Array (List Nat) :=
  edges.foldl (fun table e => table.modify e.1 (e.2 :: ·)) (Array.replicate size [])

/-- A search that is under way. -/
structure Search where
  /-- The vertices to look at, next one first. -/
  stack : List Nat
  /-- The vertices that were reached. -/
  discovered : Std.HashSet Nat
  /-- The vertices whose successors were all finished before. -/
  finished : Std.HashSet Nat
  /-- The finished vertices, last one first. -/
  order : List Nat

/-- Looks at the vertex on top of the stack, and goes on for as long as the fuel lasts. A vertex that is reached for the
first time gets its successors on top of it. When it is seen again it is finished. One that is its own successor is
refused. -/
def search (successors : Nat → List Nat) : Nat → Search → Except Nat Search
  | 0, s => .ok s
  | fuel + 1, s =>
    match s.stack with
    | [] => .ok s
    | v :: stack =>
      if s.discovered.contains v then
        if s.finished.contains v then search successors fuel { s with stack }
        else search successors fuel { s with stack, finished := s.finished.insert v, order := v :: s.order }
      else if (successors v).contains v then .error v
      else
        let discovered := s.discovered.insert v
        let pushed := (successors v).filter fun w => !discovered.contains w
        search successors fuel { s with stack := pushed.reverse ++ s.stack, discovered }

/-- Searches from a vertex, unless it was reached before. -/
def searchFrom (successors : Nat → List Nat) (fuel : Nat) (s : Search) (v : Nat) : Except Nat Search :=
  if s.discovered.contains v then .ok s else search successors fuel { s with stack := [v] }

/-- Passes over a vertex whose predecessors were all passed over before. Otherwise the last of the others lies on a
cycle. -/
def passOver (predecessors : Nat → List Nat) (passed : Std.HashSet Nat) (v : Nat) : Except Nat (Std.HashSet Nat) :=
  let passed := passed.insert v
  match ((predecessors v).filter fun w => !passed.contains w).getLast? with
  | some w => .error w
  | none => .ok passed

/-- Both passes, over the vertices below a number. -/
def sortAlong (successors predecessors : Nat → List Nat) (size fuel : Nat) : Except Nat (List Nat) := do
  let s ← (List.range size).foldlM (searchFrom successors fuel) ⟨[], ∅, ∅, []⟩
  let _ ← s.order.foldlM (passOver predecessors) ∅
  return s.order

/-- Sorts a graph. The fuel is enough for each vertex to be reached once, with all edges pushed then. -/
def Sorter.depthFirst : Sorter := fun d =>
  let successors := targets d.nodes.size d.edges
  let predecessors := targets d.nodes.size (d.edges.map Prod.swap)
  sortAlong (successors[·]?.getD []) (predecessors[·]?.getD []) d.nodes.size (d.nodes.size * (d.edges.size + 1) + 1)

end IntervalDag.Digraph
