import IntervalDag.Interval.Inverse
import IntervalDag.Settings
import IntervalDag.Shape

/-!
# Handlers

A `Handler` is the behaviour of one operator: its value at a point, its range over intervals, its inverse
relation, its shape, its digest and its constant folding. The data of a node arrives with every call as
its kind, so one handler serves all nodes of an operator.

A handler knows nothing of graphs. The value of a variable comes from a `Point`, the interval of a
variable from a function. A handler that changes an operand to keep it away from a pole says so in a
`PoleNotice` beside its result.

* `Handler.ofCore` fills in a shape that asserts nothing, a digest in order and folding by evaluation.
* `Handler.narrowInTurn` is the scheme by which sums and products narrow their operands.
-/

namespace IntervalDag

variable {α : Type}

/-- The values of variables at one point. A variable may have none. -/
abbrev Point (α : Type) := VarId → Option α

/-- Which end of an operand was moved away from a pole. -/
inductive PoleSide where
  /-- The lower end was raised before an interval evaluation. -/
  | lowerRaised
  /-- The upper end was relaxed after a reverse propagation. -/
  | upperRelaxed
  deriving DecidableEq, Repr

/-- The report of an operand that was kept away from a pole at zero. -/
structure PoleNotice (α : Type) where
  /-- The name of the handler that did so. -/
  handler : String
  /-- The end that was moved. -/
  side : PoleSide
  /-- The distance from the pole that was kept. -/
  distance : α
  deriving Repr

/-- A result with the report that may come with it. -/
structure Noted (α β : Type) where
  /-- The result itself. -/
  value : β
  /-- The report, if an operand was moved. -/
  notice : Option (PoleNotice α)

namespace Noted

/-- A result without a report. -/
def plain {β : Type} (value : β) : Noted α β := ⟨value, none⟩

/-- Applies a function to the result. -/
def map {β γ : Type} (f : β → γ) (n : Noted α β) : Noted α γ := ⟨f n.value, n.notice⟩

end Noted

/-- Operand intervals after a reverse propagation, with the verdict on them. The intervals are
meaningful for either verdict. -/
structure Narrowed (α : Type) where
  /-- Whether the operands can still meet the bounds. -/
  verdict : Feasibility
  /-- The operand intervals, narrowed. -/
  operands : List (Interval α)

/-- The behaviour of one operator. -/
structure Handler (α : Type) where
  /-- The short name that labels show. -/
  name : String
  /-- The value at a point from the values of the operands, or `none` outside the domain. -/
  eval : Kind α → List α → Point α → Checked α (Option α)
  /-- An interval that holds each value the node takes over its operands' intervals. -/
  interval : Kind α → List (Interval α) → (VarId → Interval α) → Checked α (Noted α (Interval α))
  /-- The operand intervals, narrowed to what is consistent with the node lying in bounds. -/
  reverse : Kind α → Interval α → List (Interval α) → Checked α (Noted α (Narrowed α))
  /-- The curvature from the operands' curvatures and intervals. -/
  curvature : Kind α → List Curvature → List (Interval α) → Checked α Curvature
  /-- The monotonicity in the operand at a position, over the operands' intervals. -/
  monotonicity : Kind α → Nat → List (Interval α) → Checked α Monotonicity
  /-- The digest from the operands' digests, mixed by a given function. -/
  digest : (List UInt64 → UInt64) → Kind α → List UInt64 → Checked α UInt64
  /-- The constant that the node is, from the constants that its operands are. -/
  simplify : Kind α → List (Option α) → Checked α (Option α)

/-- The words that stand for the data of a node: its operator, and a variable's number or the pattern
of a number. The coefficients of a sum are not among them. -/
def Kind.words [BitPattern α] (k : Kind α) : List UInt64 :=
  k.op.index.toUInt64 ::
    match k with
    | .var id => [id.toUInt64]
    | .value v => [BitPattern.toBits v]
    | .sum _ constant => [BitPattern.toBits constant]
    | .product coef => [BitPattern.toBits coef]
    | .pow exponent => [BitPattern.toBits exponent]
    | .exp | .log | .sin | .cos | .abs | .entropy => []

namespace Handler

variable [Scalar α] [BitPattern α]

/-- The values of operands, if all of them have one. -/
def allValues : List (Option α) → Option (List α)
  | [] => some []
  | none :: _ => none
  | some v :: vs => (v :: ·) <$> allValues vs

/-- Folds a node whose operands are all constant by evaluating it at a point without variables. -/
def foldByEval (eval : Kind α → List α → Point α → Checked α (Option α)) (k : Kind α)
    (operands : List (Option α)) : Checked α (Option α) :=
  match allValues operands with
  | some values => eval k values fun _ => none
  | none => .ok none

/-- The digest of a node's words and its operands' digests, in order. -/
def digestInOrder (mix : List UInt64 → UInt64) (k : Kind α) (operands : List UInt64) : UInt64 :=
  mix (k.words ++ operands.length.toUInt64 :: operands)

/-- A handler of which only the values, the ranges and the inverse relation are special: its shape is
unknown, its digest depends on the order of the operands, and it folds by evaluation. -/
def ofCore (name : String) (eval : Kind α → List α → Point α → Checked α (Option α))
    (interval : Kind α → List (Interval α) → (VarId → Interval α) → Checked α (Noted α (Interval α)))
    (reverse : Kind α → Interval α → List (Interval α) → Checked α (Noted α (Narrowed α))) :
    Handler α where
  name := name
  eval := eval
  interval := interval
  reverse := reverse
  curvature := fun _ _ _ => .ok .unknown
  monotonicity := fun _ _ _ => .ok .unknown
  digest := fun mix k operands => .ok (digestInOrder mix k operands)
  simplify := foldByEval eval

omit [BitPattern α] in
/-- Narrows the operands at the given positions one after another. The operand at a position is
replaced by what `narrow` makes of the operands as they are by then, or left alone if it makes
nothing. An operand that becomes empty ends the pass. -/
def narrowInTurn (narrow : Nat → List (Interval α) → Checked α (Option (Interval α))) :
    List Nat → List (Interval α) → Checked α (Narrowed α)
  | [], operands => .ok ⟨.feasible, operands⟩
  | i :: positions, operands => do
    match ← narrow i operands with
    | none => narrowInTurn narrow positions operands
    | some x =>
      let operands := operands.set i x
      if x.isEmpty then return ⟨.infeasible, operands⟩
      narrowInTurn narrow positions operands

omit [BitPattern α] in
/-- Narrows the only operand that a function takes. -/
def narrowFirst (narrow : Interval α → Checked α (Noted α (Interval α)))
    (operands : List (Interval α)) : Checked α (Noted α (Narrowed α)) := do
  let x ← Checked.first operands
  let y ← narrow x
  return y.map fun y =>
    let operands := operands.set 0 y
    ⟨Feasibility.ofOperands operands, operands⟩

end Handler

/-! ### Poles at zero -/

namespace Settings

variable [Scalar α]

/-- The report of a moved operand, if the settings ask for reports. -/
def notice? (s : Settings α) (handler : String) (side : PoleSide) : Option (PoleNotice α) :=
  if s.warnOnPole then some ⟨handler, side, s.minZeroDistance⟩ else none

/-- Raises the lower end of an operand that reaches from zero or below into the positive numbers, so
that evaluation starts at the smallest distance from the pole. -/
def raiseLower (s : Settings α) (handler : String) (x : Interval α) : Noted α (Interval α) :=
  if x.isEmpty = false ∧ x.inf ≤ 0 ∧ 0 < x.sup then
    ⟨⟨Scalar.minNum s.minZeroDistance x.sup, x.sup⟩, s.notice? handler .lowerRaised⟩
  else .plain x

/-- Relaxes the upper end of an operand that lies below the smallest distance from the pole, so that
reverse propagation never pushes it there for good. -/
def relaxUpper (s : Settings α) (handler : String) (x : Interval α) : Noted α (Interval α) :=
  if x.isEmpty = false ∧ x.sup < s.minZeroDistance then
    ⟨⟨x.inf, s.minZeroDistance⟩, s.notice? handler .upperRelaxed⟩
  else .plain x

end Settings

end IntervalDag
