import IntervalDag.Text.Number
import IntervalDag.Walk.Basic

/-!
# Formulas

An expression written as a formula, such as `(2*x0 - x1 + 0.5)`. A depth-first walk with revisits writes a
piece of text on arrival at a node, before each child, and on leaving; shared parts are written out at
every use. Each piece depends on one node alone.
-/

namespace IntervalDag

variable {α : Type} [Scalar α] [NumberText α]

open NumberText

namespace Formula

/-- The text of a variable. -/
def variableName (v : VarId) : String := "x" ++ toString v

/-- What is written on arrival at a node with a number of operands. `name` is that of its handler. -/
def opening (name : String) (kind : Kind α) (count : Nat) : String :=
  match kind with
  | .var v => Formula.variableName v
  | .value v => if v < 0 then "(" ++ plain v ++ ")" else plain v
  | .sum _ _ => "("
  | .pow _ => ""
  | .product coef =>
    if coef == 1 then "(" else "(" ++ plain coef ++ if 0 < count then "*" else ""
  | .exp | .log | .sin | .cos | .abs | .entropy => name ++ "("

/-- What is written before the term of a sum with a coefficient. The sign of every term but the first is
an operator. -/
def term (coef : α) (isFirst : Bool) : String :=
  if isFirst then
    if coef == -1 then "-" else if coef == 1 then "" else plain coef ++ "*"
  else
    let sign := if coef < 0 then " - " else " + "
    let size := Scalar.abs coef
    if size == 1 then sign else sign ++ plain size ++ "*"

/-- What is written before the operand at a position. -/
def separator (kind : Kind α) (i : Nat) : Checked α String := do
  match kind with
  | .sum coefs _ => return term (← Checked.get coefs i) (i == 0)
  | .product _ => return if 0 < i then "*" else ""
  | _ => return ""

/-- What is written on leaving a node with a number of operands. -/
def closing (kind : Kind α) (count : Nat) : String :=
  match kind with
  | .var _ | .value _ => ""
  | .sum _ constant =>
    if count = 0 then plain constant ++ ")"
    else if constant == 0 then ")"
    else (if constant < 0 then " - " else " + ") ++ plain (Scalar.abs constant) ++ ")"
  | .product coef => if count = 0 ∧ (coef == 1) = true then "1)" else ")"
  | .pow exponent => "^" ++ plain exponent
  | .exp | .log | .sin | .cos | .abs | .entropy => ")"

end Formula

namespace Graph

/-- The stages at which formulas and traces are written. -/
def writingStages : StageSet := .ofList [.enter, .visitingChild, .leave]

/-- The piece of a formula that belongs to a node at the stage of a walk. -/
def formulaPiece (g : Graph α) (w : Walk) (n : NodeId) : Checked α String := do
  let node ← g.node n
  match w.stage with
  | .enter =>
    return Formula.opening (g.handlerFor node.kind).name node.kind node.children.length
  | .visitingChild => Formula.separator node.kind (← w.childIndex g)
  | .visitedChild => return ""
  | .leave => return Formula.closing node.kind node.children.length

/-- An expression as a formula. -/
def formula (g : Graph α) (root : NodeId) : Checked α (Graph α × String) := do
  let w := { g.newWalk with stops := writingStages }
  let (w, g) ← w.start g (some root) .depthFirst true
  let (w, g, text) ← w.visitAll
    (fun w n (g, text) => do return (g, text ++ (← g.formulaPiece w n)))
    g ""
  return (w.finish g, text)

end Graph

end IntervalDag
