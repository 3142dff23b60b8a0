import IntervalDag.Operator.Handler

/-!
# Weighted sums

The operator `constant + Σ coefs[i] * x[i]`. Operands and coefficients are paired by position.
-/

namespace IntervalDag

variable {α : Type} [Scalar α] [BitPattern α]

namespace WeightedSum

/-- The coefficients and the constant of a sum. -/
def parts : Kind α → Checked α (List α × α)
  | .sum coefs constant => .ok (coefs, constant)
  | k => .error (.wrongKind .sum k)

/-- The weighted sum of numbers. The empty sum is the negative zero, which changes no number that it
is added to. -/
def total (coefs operands : List α) : α :=
  (coefs.zip operands).foldl (fun acc (c, x) => acc + c * x) (-0)

/-- The weighted sum of intervals, on top of a first one. -/
def range (start : Interval α) (terms : List (α × Interval α)) : Checked α (Interval α) :=
  terms.foldlM (fun acc (c, x) => do acc.add (← x.scale c)) start

/-- The value of a sum. -/
def eval (k : Kind α) (operands : List α) (_ : Point α) : Checked α (Option α) := do
  let (coefs, constant) ← parts k
  return some (constant + total coefs operands)

/-- The range of a sum. -/
def interval (k : Kind α) (operands : List (Interval α)) (_ : VarId → Interval α) :
    Checked α (Noted α (Interval α)) := do
  let (coefs, constant) ← parts k
  return .plain (← range (← Interval.point constant) (coefs.zip operands))

/-- The operand at a position, narrowed to what the weighted sum of all operands lying in `target`
leaves it. A coefficient of zero leaves its operand alone. -/
def narrow (coefs : List α) (target : Interval α) (i : Nat) (operands : List (Interval α)) :
    Checked α (Option (Interval α)) := do
  let c ← Checked.get coefs i
  if c == 0 then return none
  let rest ← range (← Interval.point 0) ((coefs.zip operands).eraseIdx i)
  let allowed ← (← target.sub rest).scale (1 / c)
  let x ← Checked.get operands i
  return some (x.inter allowed)

/-- Narrows the operands of a sum one after another, each against its siblings as they are by then. A
sum without operands is feasible when its constant is in bounds. -/
def reverse (k : Kind α) (bounds : Interval α) (operands : List (Interval α)) :
    Checked α (Noted α (Narrowed α)) := do
  let (coefs, constant) ← parts k
  if operands.isEmpty then return .plain ⟨.ofBool (bounds.contains constant), operands⟩
  let target ← bounds.sub (← Interval.point constant)
  return .plain (← Handler.narrowInTurn (narrow coefs target) (List.range operands.length) operands)

/-- The curvature of a sum: that of its weighted operands, as far as they agree. -/
def curvature (k : Kind α) (operands : List Curvature) (_ : List (Interval α)) :
    Checked α Curvature := do
  let (coefs, _) ← parts k
  return (coefs.zip operands).foldl (fun acc (c, x) => acc.add (x.scale c)) .linear

/-- A sum moves with an operand as its coefficient says. -/
def monotonicity (k : Kind α) (i : Nat) (_ : List (Interval α)) : Checked α Monotonicity := do
  let (coefs, _) ← parts k
  return .ofFactor (← Interval.point (← Checked.get coefs i))

/-- Whether one pair of words comes before another, the first words deciding first. -/
def pairLe (a b : UInt64 × UInt64) : Bool := a.1 < b.1 || (a.1 == b.1 && a.2 ≤ b.2)

/-- The digest of a sum. Each operand's digest is paired with its coefficient and the pairs are
sorted, so the order of the terms does not matter. -/
def digest (mix : List UInt64 → UInt64) (k : Kind α) (operands : List UInt64) :
    Checked α UInt64 := do
  let (coefs, _) ← parts k
  let terms := ((operands.zip coefs).map fun (h, c) => (h, BitPattern.toBits c)).mergeSort pairLe
  return mix (k.words ++ terms.length.toUInt64 :: terms.flatMap fun (h, c) => [h, c])

end WeightedSum

/-- The handler of weighted sums. -/
def Handler.sum : Handler α :=
  { Handler.ofCore "sum" WeightedSum.eval WeightedSum.interval WeightedSum.reverse with
    curvature := WeightedSum.curvature
    monotonicity := WeightedSum.monotonicity
    digest := WeightedSum.digest }

end IntervalDag
