import IntervalDag.Operator.Handler

/-!
# Powers

The operator `x ^ exponent` with a constant real exponent. An integral exponent takes every base, less
zero if it is negative. Any other exponent takes the bases that are not negative, and when it is below
zero the base is kept away from the pole at zero.
-/

namespace IntervalDag

variable {α : Type} [Scalar α] [BitPattern α]

open Scalar

namespace Power

/-- The exponent of a power. -/
def exponent : Kind α → Checked α α
  | .pow p => .ok p
  | k => .error (.wrongKind .pow k)

/-- A power has a pole at the border of its domain when its exponent is negative and not integral. -/
def hasPole (p : α) : Bool := decide (p < 0) && (integral? p).isNone

/-- The value of a power, defined where it is finite. -/
def eval (k : Kind α) (operands : List α) (_ : Point α) : Checked α (Option α) := do
  let x ← Checked.first operands
  let v := Scalar.pow x (← exponent k)
  return if isFinite v then some v else none

/-- The range of a power. -/
def interval (settings : Settings α) (k : Kind α) (operands : List (Interval α))
    (_ : VarId → Interval α) : Checked α (Noted α (Interval α)) := do
  let p ← exponent k
  let x ← Checked.first operands
  let x := if hasPole p then settings.raiseLower "pow" x else .plain x
  return ⟨← x.value.pow p, x.notice⟩

/-- Narrows the base of a power. -/
def reverse (settings : Settings α) (k : Kind α) (bounds : Interval α)
    (operands : List (Interval α)) : Checked α (Noted α (Narrowed α)) := do
  let p ← exponent k
  Handler.narrowFirst
    (fun x => do
      let x ← Interval.powInverse bounds p x
      return if hasPole p then settings.relaxUpper "pow" x else .plain x)
    operands

/-- How a power moves with its base, over an interval of bases. -/
def monotonicityOn (p : α) (x : Interval α) : Monotonicity :=
  if p == 0 then .constant
  else
    match integral? p with
    | none => if 0 < p then .increasing else .decreasing
    | some n =>
      if n % 2 ≠ 0 then
        if 0 < p then .increasing
        else if 0 < x.inf ∨ x.sup < 0 then .decreasing
        else .unknown
      else
        let even : Monotonicity :=
          if 0 ≤ x.inf then .increasing else if x.sup ≤ 0 then .decreasing else .unknown
        if p < 0 then even.negate else even

/-- How a power bends in its base, over an interval of bases. Odd powers and reciprocals change their
curvature at zero. -/
def curvatureOn (p : α) (x : Interval α) : Curvature :=
  if p == 0 || p == 1 then .linear
  else
    match integral? p with
    | none => if 0 < p ∧ p < 1 then .concave else .convex
    | some n =>
      if n % 2 ≠ 0 then
        if 0 ≤ x.inf then .convex else if x.sup ≤ 0 then .concave else .unknown
      else if 0 < p ∨ 0 < x.inf ∨ x.sup < 0 then .convex
      else .unknown

/-- The monotonicity of a power. -/
def monotonicity (k : Kind α) (_ : Nat) (operands : List (Interval α)) :
    Checked α Monotonicity := do
  let p ← exponent k
  return monotonicityOn p (← Checked.first operands)

/-- The curvature of a power. -/
def curvature (k : Kind α) (operands : List Curvature) (intervals : List (Interval α)) :
    Checked α Curvature := do
  let p ← exponent k
  let x ← Checked.first intervals
  return .compose (curvatureOn p x) (monotonicityOn p x) (← Checked.first operands)

end Power

/-- The handler of powers. -/
def Handler.pow (settings : Settings α) : Handler α :=
  { Handler.ofCore "pow" Power.eval (Power.interval settings) (Power.reverse settings) with
    curvature := Power.curvature
    monotonicity := Power.monotonicity }

end IntervalDag
