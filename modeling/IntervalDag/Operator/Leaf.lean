import IntervalDag.Operator.Handler

/-!
# Variables and constants

The two leaves. A variable takes its value from the point and its interval from the bound store; a
constant is its own value. Neither has operands to narrow.
-/

namespace IntervalDag

variable {α : Type} [Scalar α] [BitPattern α]

namespace Handler

/-- The reverse propagation of a node without operands. -/
def keepOperands (operands : List (Interval α)) : Checked α (Noted α (Narrowed α)) :=
  .ok (.plain ⟨.feasible, operands⟩)

/-- The handler of variables. A variable is linear, and never constant. -/
def var : Handler α :=
  let id (k : Kind α) : Checked α VarId :=
    match k with
    | .var id => .ok id
    | k => .error (.wrongKind .var k)
  let eval (k : Kind α) (_ : List α) (point : Point α) : Checked α (Option α) := point <$> id k
  { ofCore "var" eval
      (fun k _ vars => (fun id => .plain (vars id)) <$> id k)
      (fun _ _ operands => keepOperands operands) with
    curvature := fun _ _ _ => .ok .linear
    simplify := fun _ _ => .ok none }

/-- The handler of constants. A constant is linear, and folds to itself. -/
def value : Handler α :=
  let valueOf (k : Kind α) : Checked α α :=
    match k with
    | .value v => .ok v
    | k => .error (.wrongKind .value k)
  { ofCore "value" (fun k _ _ => some <$> valueOf k)
      (fun k _ _ => do return .plain (← Interval.point (← valueOf k)))
      (fun _ _ operands => keepOperands operands) with
    curvature := fun _ _ _ => .ok .linear
    simplify := fun k _ => some <$> valueOf k }

end Handler

end IntervalDag
