import Std.Data.HashSet
import IntervalDag.Fifo
import IntervalDag.Graph.Basic
import IntervalDag.Loop

/-!
# Building graphs

Nodes are made from their kind and their operands. Each builder hands out one reference, and takes one to
each operand. Variables are shared: there is at most one node per variable, and asking for it again only
adds a reference.

A builder that checks its request answers with an `Except GraphError` inside the `Checked` result. The
request `append` also keeps the graph free of cycles: an operand that can reach its new parent is
declined.
-/

namespace IntervalDag

variable {α : Type} [Scalar α]

/-- The kind of a sum or product that gains an operand: a sum gains a coefficient, and the coefficient of
a product is multiplied. -/
def Kind.extended (kind : Kind α) (coef : α) : Kind α :=
  match kind with
  | .sum coefs constant => .sum (coefs ++ [coef]) constant
  | .product c => .product (c * coef)
  | kind => kind

namespace Graph

/-- Makes a node without checking the request. -/
def addUnchecked (g : Graph α) (kind : Kind α) (children : List NodeId) :
    Checked α (NodeId × Graph α) := do
  let (n, arena) ← g.arena.add kind children
  return (n, { g with arena })

/-- The node of a variable, made if there is none yet. -/
def var (g : Graph α) (v : VarId) : Checked α (NodeId × Graph α) := do
  match g.varNode? v with
  | some n => return (n, { g with arena := ← g.arena.capture n })
  | none =>
    let (n, g) ← g.addUnchecked (.var v) []
    return (n, { g with varNodes := g.varNodes.insert v n })

/-- The node of a function or power of one operand. -/
def apply (g : Graph α) (kind : Kind α) (child : NodeId) : Checked α (NodeId × Graph α) :=
  g.addUnchecked kind [child]

/-- Why a kind cannot have a number of operands. -/
def refusal? (kind : Kind α) (count : Nat) : Option GraphError :=
  match kind.arity, kind with
  | some expected, _ =>
    if expected = count then none else some (.childCount kind.op expected count)
  | none, .sum coefs _ =>
    if coefs.length = count then none else some (.coefficientCount count coefs.length)
  | none, _ => none

/-- Makes a node, if its kind takes this number of operands. -/
def add (g : Graph α) (kind : Kind α) (children : List NodeId) :
    Checked α (Except GraphError (NodeId × Graph α)) :=
  match refusal? kind children.length, kind with
  | some e, _ => .ok (.error e)
  | none, .var v => .ok <$> g.var v
  | none, kind => .ok <$> g.addUnchecked kind children

/-! ### Reachability -/

/-- A search for a node: what waits, and what was searched. -/
structure Search where
  /-- The nodes to look at next. -/
  waiting : Fifo NodeId
  /-- The nodes whose operands were put in line. -/
  visited : Std.HashSet NodeId

omit [Scalar α] in
/-- Looks at one more node of a search for `target`. -/
def searchStep (g : Graph α) (target : NodeId) (s : Search) : Checked α (Turn Search Bool) := do
  match s.waiting.pop? with
  | none => return .done false
  | some (n, waiting) =>
    if n = target then return .done true
    if s.visited.contains n then return .next { s with waiting }
    let children ← g.arena.children n
    return .next ⟨waiting.pushAll children, s.visited.insert n⟩

omit [Scalar α] in
/-- Whether `target` is `start` or one of its descendants. -/
def reaches (g : Graph α) (start target : NodeId) : Checked α Bool :=
  Loop.run α (fun _ => .ok (g.arena.edgeCount + 1)) (g.searchStep target)
    ⟨Fifo.empty.push start, ∅⟩

/-! ### Appending operands -/

/-- Appends an operand to a sum or product. The activities cached on the node and those that use it no
longer hold. -/
def append (g : Graph α) (parent child : NodeId) (coef : α) :
    Checked α (Except GraphError (Graph α)) := do
  let node ← g.node parent
  discard <| g.node child
  if !node.kind.isAssociative then return .error (.notAssociative parent node.kind.op)
  if ← g.reaches child parent then return .error (.wouldCreateCycle parent child)
  let arena := g.arena.modify parent fun node => { node with kind := node.kind.extended coef }
  let arena ← arena.pushChild parent child
  return .ok (bumpBoundsEpoch { g with arena })

/-! ### References -/

omit [Scalar α] in
/-- Takes a reference to a node. -/
def capture (g : Graph α) (n : NodeId) : Checked α (Graph α) := do
  return { g with arena := ← g.arena.capture n }

/-- Drops a reference to a node. Variables whose nodes are freed have none from then on. -/
def release (g : Graph α) (n : NodeId) : Checked α (Graph α) := do
  let (arena, freed) ← g.arena.release n
  let varNodes := freed.foldl
    (fun varNodes (_, kind) =>
      match kind with
      | .var v => varNodes.erase v
      | _ => varNodes)
    g.varNodes
  return { g with arena, varNodes }

end Graph

end IntervalDag
