import IntervalDag.Operator.Handler

/-!
# Functions of one operand

The exponential function, the natural logarithm, the magnitude, the entropy term, the sine and the
cosine. The operand of a logarithm is kept away from the pole at zero in both directions of propagation.
-/

namespace IntervalDag

variable {α : Type} [Scalar α] [BitPattern α]

open Scalar

namespace Handler

/-- A handler of a function, given by its values, its range and its inverse relation. -/
def ofFunction (name : String) (eval : α → Option α) (range : Interval α → Noted α (Interval α))
    (inverse : Interval α → Interval α → Noted α (Interval α)) : Handler α :=
  ofCore name
    (fun _ operands _ => eval <$> Checked.first operands)
    (fun _ operands _ => range <$> Checked.first operands)
    (fun _ bounds operands => narrowFirst (fun x => .ok (inverse bounds x)) operands)

/-- Gives a handler the shape of a function that bends and moves alike wherever it is defined. -/
def withShape (h : Handler α) (bend : Curvature) (move : Monotonicity) : Handler α :=
  { h with
    curvature := fun _ operands _ => .compose bend move <$> Checked.first operands
    monotonicity := fun _ _ _ => .ok move }

/-- Gives a handler the shape of a function that bends and moves as its operand's interval says. -/
def withShapeOn (h : Handler α) (bend : Interval α → Curvature)
    (move : Interval α → Monotonicity) : Handler α :=
  { h with
    curvature := fun _ operands intervals => do
      let x ← Checked.first intervals
      return .compose (bend x) (move x) (← Checked.first operands)
    monotonicity := fun _ _ intervals => move <$> Checked.first intervals }

/-! ### Exponential and logarithm -/

/-- The handler of the exponential function. -/
def exp : Handler α :=
  withShape
    (ofFunction "exp" (fun x => some (Scalar.exp x)) (fun x => .plain x.exp)
      fun bounds x => .plain (Interval.expInverse bounds x))
    .convex .increasing

/-- The handler of the natural logarithm, defined above zero. -/
def log (settings : Settings α) : Handler α :=
  withShape
    (ofFunction "log" (fun x => if 0 < x then some (ln x) else none)
      (fun x => (settings.raiseLower "log" x).map Interval.ln)
      fun bounds x => settings.relaxUpper "log" (Interval.lnInverse bounds x))
    .concave .increasing

/-! ### Magnitude and entropy -/

/-- The magnitude rises over numbers that are not negative and falls over those that are not
positive. -/
def absMove (x : Interval α) : Monotonicity :=
  if 0 ≤ x.inf then .increasing else if x.sup ≤ 0 then .decreasing else .unknown

/-- The handler of the magnitude. -/
def abs : Handler α :=
  withShapeOn
    (ofFunction "abs" (fun x => some (Scalar.abs x)) (fun x => .plain x.abs)
      fun bounds x => .plain (Interval.absInverse bounds x))
    (fun _ => .convex) absMove

/-- The value of `-x ln x`, defined from zero on. -/
def entropyEval (x : α) : Option α :=
  if x == 0 then some 0 else if 0 < x then some (-x * ln x) else none

/-- The entropy term rises up to `1/e` and falls from there on. -/
def entropyMove (x : Interval α) : Monotonicity :=
  if x.sup ≤ Interval.invE then .increasing
  else if Interval.invE ≤ x.inf then .decreasing
  else .unknown

/-- The handler of the entropy term. -/
def entropy : Handler α :=
  withShapeOn
    (ofFunction "entropy" entropyEval (fun x => .plain x.entropy)
      fun bounds x => .plain (Interval.entropyInverse bounds x))
    (fun _ => .concave) entropyMove

/-! ### Sine and cosine -/

/-- Sine and cosine are concave where they are not negative and convex where they are not positive. -/
def waveBend (range : Interval α) : Curvature :=
  if 0 ≤ range.inf then .concave else if range.sup ≤ 0 then .convex else .unknown

/-- The handler of the sine, which moves as the cosine says. -/
def sin : Handler α :=
  withShapeOn
    (ofFunction "sin" (fun x => some (Scalar.sin x)) (fun x => .plain x.sin)
      fun bounds x => .plain (Interval.sinInverse bounds x))
    (fun x => waveBend x.sin) fun x => .ofFactor x.cos

/-- The handler of the cosine, which moves against the sine. -/
def cos : Handler α :=
  withShapeOn
    (ofFunction "cos" (fun x => some (Scalar.cos x)) (fun x => .plain x.cos)
      fun bounds x => .plain (Interval.cosInverse bounds x))
    (fun x => waveBend x.cos) fun x => .ofFactor (-x.sin)

/-! ### A replacement -/

/-- A stand-in for the exponential function that stops rising at one. Its range is `[0, 1]` whatever
its operand, and it never narrows. -/
def clampedExp : Handler α :=
  ofCore "clamped-exp"
    (fun _ operands _ => (fun x => some (minNum (Scalar.exp x) 1)) <$> Checked.first operands)
    (fun _ _ _ => .ok (.plain ⟨0, 1⟩))
    (fun _ _ operands => .ok (.plain ⟨.feasible, operands⟩))

end Handler

end IntervalDag
