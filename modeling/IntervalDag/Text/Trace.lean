import Std.Data.HashMap
import IntervalDag.Text.Formula
import IntervalDag.Text.Message

/-!
# Labels, traces and drawings

A *label* names a single node. A *trace* is a tree of the nodes below a target, a line for each with what is
cached on it; a node that was listed before is shown as a reference to the level it was first listed at,
and nothing below it is repeated. A *drawing* is the text of a directed graph, from operators to
operands.
-/

namespace IntervalDag

variable {α : Type} [Scalar α] [NumberText α]

open NumberText

namespace Graph

/-- The label of a node: a variable, a number, or the name of its handler with an exponent or with a
coefficient other than one. -/
def label (g : Graph α) (n : NodeId) : Checked α String := do
  let kind ← g.kind n
  return match kind with
    | .var v => Formula.variableName v
    | .value v => plain v
    | .pow exponent => "pow(" ++ plain exponent ++ ")"
    | .product coef =>
      if coef == 1 then (g.handlerFor kind).name else "prod(" ++ plain coef ++ ")"
    | _ => (g.handlerFor kind).name

/-! ### Traces -/

/-- A trace that is being written. -/
structure Tracer where
  /-- The lines, last one first. -/
  lines : List String
  /-- The level at which each node was listed. -/
  levels : Std.HashMap NodeId Nat
  /-- For every node on the way down, innermost first, what stands in front of the lines below it. -/
  stems : List String
  /-- Whether the child about to be listed is its parent's last; none for the target. -/
  branch : Option Bool

namespace Tracer

/-- What stands in front of the children of the innermost node. -/
def stem (t : Tracer) : String := t.stems.head?.getD ""

/-- What stands in front of the next line. -/
def lead (t : Tracer) : String :=
  match t.branch with
  | none => t.stem
  | some isLast => t.stem ++ if isLast then "`--" else "|--"

/-- Goes down into the node whose line is next. Lines below it keep a bar if it has later siblings. -/
def descend (t : Tracer) : Tracer :=
  let below :=
    match t.branch with
    | none => t.stem
    | some isLast => t.stem ++ if isLast then "   " else "|  "
  { t with stems := below :: t.stems }

end Tracer

/-- The line of a node at a level: its label and what is cached on it. -/
def traceLine (g : Graph α) (n : NodeId) (level : Nat) : Checked α String := do
  let label ← g.label n
  let node ← g.node n
  let value := node.value.elim "" fun v => "[" ++ places3 v ++ "]"
  let bounds := (g.entryBounds? node).elim "" fun x => " prop=" ++ x.text
  return "[L" ++ toString level ++ "] " ++ label ++ value ++ " act=" ++ node.activity.text ++ bounds

/-- Goes on by one stage of the walk of a trace. -/
def traceTurn : Walk × Graph α × Tracer →
    Checked α (Turn (Walk × Graph α × Tracer) (Walk × Graph α × Tracer))
  | (w, g, t) => do
    match w.current with
    | none => return .done (w, g, t)
    | some n =>
      match w.stage with
      | .enter =>
        let level := t.stems.length + 1
        match t.levels[n]? with
        | some first =>
          let line := t.lead ++ "-> (Ref to L" ++ toString first ++ ")"
          let (w, g) ← w.skip g
          return .next (w, g, { t.descend with lines := line :: t.lines })
        | none =>
          let line := t.lead ++ (← g.traceLine n level)
          let t := { t.descend with lines := line :: t.lines, levels := t.levels.insert n level }
          let (w, g) ← w.next g
          return .next (w, g, t)
      | .visitingChild =>
        let isLast := (← w.childIndex g) + 1 == (← g.children n).length
        let (w, g) ← w.next g
        return .next (w, g, { t with branch := some isLast })
      | .visitedChild =>
        let (w, g) ← w.next g
        return .next (w, g, t)
      | .leave =>
        let (w, g) ← w.next g
        return .next (w, g, { t with stems := t.stems.tail })

/-- The lines of the trace of a target. -/
def trace (g : Graph α) (target : NodeId) : Checked α (Graph α × List String) := do
  if !g.isAlive target then return (g, ["Error: Invalid Node ID " ++ nodeText target])
  let header := "AUDIT TRACE for node '" ++ (← g.label target) ++ "':"
  let rule := String.ofList (List.replicate 50 '-')
  let w := { g.newWalk with stops := writingStages }
  let (w, g) ← w.start g (some target) .depthFirst true
  let (w, g, t) ← Loop.run α (fun (_, g, _) => .ok (walkExponent g)) traceTurn
    (w, g, ⟨[rule, header], ∅, [], none⟩)
  return (w.finish g, t.lines.reverse)

/-! ### Drawings -/

/-- The text of a directed graph, in its parts. -/
structure Drawing where
  /-- The statements of the nodes, nearest to the root first. -/
  nodes : List String
  /-- The statements of the edges, in the order of their texts. -/
  edges : List String

/-- The lines of a drawing other than those of its edges. -/
def Drawing.frame (d : Drawing) : List String := "digraph \x7b" :: d.nodes ++ ["\x7d"]

/-- The characters of a label inside quotes. -/
def escaped (s : String) : String :=
  String.ofList <| s.toList.flatMap fun c =>
    if c = '"' ∨ c = '\\' then ['\\', c] else if c = '\n' then ['\\', 'l'] else [c]

/-- A drawing of an expression, in which every node appears once, and an edge runs from each operator to
each of its operands and carries the operand's position. -/
def drawing (g : Graph α) (root : NodeId) : Checked α (Graph α × Drawing) := do
  let (w, g) ← g.newWalk.start g (some root) .breadthFirst false
  let (w, g, found) ← w.visitAll
    (fun _ n (g, found) => do return (g, (n, ← g.label n) :: found))
    g ([] : List (NodeId × String))
  let g := w.finish g
  let found := found.reverse
  let number : Std.HashMap NodeId Nat :=
    (found.zipIdx).foldl (fun table ((n, _), i) => table.insert n i) ∅
  let nodes := found.zipIdx.map fun ((_, label), i) =>
    "    " ++ toString i ++ " [ label = \"" ++ escaped label ++ "\" ]"
  let edges ← found.zipIdx.mapM fun ((n, _), i) => do
    return (← g.children n).zipIdx.map fun (child, position) =>
      "    " ++ toString i ++ " -> " ++ toString (number[child]?.getD 0) ++ " [ label = \"" ++
        toString position ++ "\" ]"
  return (g, ⟨nodes, edges.flatten.mergeSort fun a b => decide (a ≤ b)⟩)

end Graph

end IntervalDag
