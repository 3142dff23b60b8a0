import IntervalDag.Fault

/-!
# Directed graphs

Graphs in the form in which they are handed to a library to be sorted. Vertices are numbered as they are added, and each
stands for a node. An edge is added between vertices only. A vertex or edge that is asked for out of range is a fault.
-/

namespace IntervalDag

/-- Vertices that stand for nodes, with edges between them. -/
structure Digraph where
  /-- The node that each vertex stands for. -/
  nodes : Array NodeId
  /-- The edges as they were added, each with its source and its target. -/
  edges : Array (Nat × Nat)
  /-- Sources and targets are vertices. -/
  inside : ∀ e ∈ edges, e.1 < nodes.size ∧ e.2 < nodes.size

namespace Digraph

variable {α : Type}

/-- The graph without vertices. -/
def empty : Digraph := ⟨#[], #[], nofun⟩

/-- Adds a vertex for a node, and tells its number. -/
def addNode (d : Digraph) (n : NodeId) : Nat × Digraph where
  fst := d.nodes.size
  snd := {
    nodes := d.nodes.push n
    edges := d.edges
    inside := fun e he => by
      have h := d.inside e he
      rw [Array.size_push]
      exact ⟨Nat.lt_succ_of_lt h.1, Nat.lt_succ_of_lt h.2⟩ }

/-- Adds an edge between two vertices. -/
def addEdge (d : Digraph) (source target : Nat) : Checked α Digraph :=
  if h : source < d.nodes.size ∧ target < d.nodes.size then
    .ok {
      nodes := d.nodes
      edges := d.edges.push (source, target)
      inside := fun e he => by
        rcases Array.mem_push.mp he with he | rfl
        · exact d.inside e he
        · exact h }
  else .error .outOfRange

/-- The node that a vertex stands for. -/
def node (d : Digraph) (v : Nat) : Checked α NodeId :=
  match d.nodes[v]? with
  | some n => .ok n
  | none => .error .outOfRange

/-- A way to sort graphs. It answers with the vertices in order, or names a vertex where it was stopped by a cycle. -/
abbrev Sorter := Digraph → Except Nat (List Nat)

end Digraph

end IntervalDag
