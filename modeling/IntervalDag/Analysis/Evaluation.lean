import IntervalDag.Walk.Basic

/-!
# Evaluation at a point

The value of an expression at a point is computed node by node, operands first, and every value is cached
on its node. A node has no value outside its operator's domain, nor when an operand has none.
-/

namespace IntervalDag.Graph

variable {α : Type} [Scalar α] [BitPattern α]

/-- The value of a node at a point from the values cached on its operands. -/
def nodeValue (g : Graph α) (point : Point α) (n : NodeId) : Checked α (Option α) := do
  let node ← g.node n
  let operands ← node.children.mapM fun c => (·.value) <$> g.arena.get c
  match Handler.allValues operands with
  | none => return none
  | some values => (g.handlerFor node.kind).eval node.kind values point

/-- The value of an expression at a point. The values of all nodes below the root are cached on
them. -/
def evaluate (g : Graph α) (root : NodeId) (point : Point α) : Checked α (Graph α × Option α) := do
  let (w, g) ← g.newWalk.start g (some root) .reverseTopological false
  let (w, g, _) ← w.visitAll
    (fun _ n (g, _) => do
      let value ← g.nodeValue point n
      return (g.modify n fun node => { node with value }, ()))
    g ()
  let g := w.finish g
  return (g, ← g.value? root)

end IntervalDag.Graph
