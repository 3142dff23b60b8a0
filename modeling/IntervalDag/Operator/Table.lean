import IntervalDag.Operator.Function
import IntervalDag.Operator.Leaf
import IntervalDag.Operator.Power
import IntervalDag.Operator.Product
import IntervalDag.Operator.Sum

/-!
# Operator tables

An `OperatorTable` says which handler serves which operator. A handler may be replaced, for instance by
one with a sharper inverse relation, without touching a graph.

Each handler reports an operand that it kept away from a pole once. The table remembers which handlers
have done so, and `OperatorTable.report` lets a report through the first time only.
-/

namespace IntervalDag

variable {α : Type}

/-- The handlers of all operators. -/
structure OperatorTable (α : Type) where
  /-- The handler of an operator. -/
  handler : Op → Handler α
  /-- Whether the handler of an operator has reported a pole. -/
  hasReported : Op → Bool

/-- The handler that an operator has from the start. -/
def Handler.default [Scalar α] [BitPattern α] (settings : Settings α) : Op → Handler α
  | .var => .var
  | .value => .value
  | .sum => .sum
  | .product => .product
  | .pow => .pow settings
  | .exp => .exp
  | .log => .log settings
  | .sin => .sin
  | .cos => .cos
  | .abs => .abs
  | .entropy => .entropy

namespace OperatorTable

/-- The table in which every operator has the handler it starts with. -/
def default [Scalar α] [BitPattern α] (settings : Settings α) : OperatorTable α :=
  ⟨Handler.default settings, fun _ => false⟩

/-- The handler that serves nodes of a kind. -/
def forKind (t : OperatorTable α) (k : Kind α) : Handler α := t.handler k.op

/-- Replaces the handler of an operator. The new one has reported nothing yet. -/
def register (t : OperatorTable α) (op : Op) (h : Handler α) : OperatorTable α where
  handler o := if o = op then h else t.handler o
  hasReported o := if o = op then false else t.hasReported o

/-- The report that gets through: the one made, unless the handler of `op` has reported before. -/
def report (t : OperatorTable α) (op : Op) (notice : Option (PoleNotice α)) :
    OperatorTable α × Option (PoleNotice α) :=
  match notice with
  | none => (t, none)
  | some notice =>
    if t.hasReported op then (t, none)
    else ({ t with hasReported := fun o => o = op || t.hasReported o }, some notice)

/-- Letting reports through changes no handler. -/
@[simp] theorem report_handler (t : OperatorTable α) (op : Op) (notice : Option (PoleNotice α)) :
    (t.report op notice).1.handler = t.handler := by
  unfold report
  split
  · rfl
  · split <;> rfl

end OperatorTable

end IntervalDag
