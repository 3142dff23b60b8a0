import IntervalDag.Operator.Handler

/-!
# Products

The operator `coef * Π x[i]`.
-/

namespace IntervalDag

variable {α : Type} [Scalar α] [BitPattern α]

namespace Product

/-- The coefficient of a product. -/
def coef : Kind α → Checked α α
  | .product c => .ok c
  | k => .error (.wrongKind .product k)

/-- The product of intervals. The empty product is one. -/
def range (factors : List (Interval α)) : Interval α := factors.foldl (· * ·) ⟨1, 1⟩

/-- The value of a product. -/
def eval (k : Kind α) (operands : List α) (_ : Point α) : Checked α (Option α) := do
  let c ← coef k
  return some (c * operands.foldl (· * ·) 1)

/-- The range of a product. -/
def interval (k : Kind α) (operands : List (Interval α)) (_ : VarId → Interval α) :
    Checked α (Noted α (Interval α)) := do
  return .plain (← (range operands).scale (← coef k))

/-- The operand at a position, narrowed to what the product of all operands lying in `target` leaves
it. -/
def narrow (target : Interval α) (i : Nat) (operands : List (Interval α)) :
    Checked α (Option (Interval α)) := do
  let x ← Checked.get operands i
  return some (← Interval.solveProduct target (range (operands.eraseIdx i)) x)

/-- Narrows the operands of a product one after another, each against its siblings as they are by
then. A product that does not depend on its operands is feasible when its value is in bounds. -/
def reverse (k : Kind α) (bounds : Interval α) (operands : List (Interval α)) :
    Checked α (Noted α (Narrowed α)) := do
  let c ← coef k
  if c == 0 || operands.isEmpty then
    return .plain ⟨.ofBool (bounds.contains c || (c == 0 && bounds.containsZero)), operands⟩
  let target ← bounds.scale (1 / c)
  return .plain (← Handler.narrowInTurn (narrow target) (List.range operands.length) operands)

/-- The curvature of a product. Only a product of at most one operand has one that is known. -/
def curvature (k : Kind α) (operands : List Curvature) (_ : List (Interval α)) :
    Checked α Curvature :=
  match operands with
  | [] => .ok .linear
  | [x] => x.scale <$> coef k
  | _ => .ok .unknown

/-- A product moves with an operand as the product of all other factors says. -/
def monotonicity (k : Kind α) (i : Nat) (operands : List (Interval α)) :
    Checked α Monotonicity := do
  return .ofFactor (← (range (operands.eraseIdx i)).scale (← coef k))

/-- The digest of a product. The digests of the operands are sorted, so their order does not
matter. -/
def digest (mix : List UInt64 → UInt64) (k : Kind α) (operands : List UInt64) : UInt64 :=
  Handler.digestInOrder mix k (operands.mergeSort fun a b => a ≤ b)

end Product

/-- The handler of products. -/
def Handler.product : Handler α :=
  { Handler.ofCore "prod" Product.eval Product.interval Product.reverse with
    curvature := Product.curvature
    monotonicity := Product.monotonicity
    digest := fun mix k operands => .ok (Product.digest mix k operands) }

end IntervalDag
