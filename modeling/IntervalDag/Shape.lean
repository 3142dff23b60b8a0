import IntervalDag.Interval.Basic

/-!
# Curvature, monotonicity and feasibility

The verdicts that operators give about themselves, and the rules by which verdicts combine. `unknown`
asserts nothing and is always sound.
-/

namespace IntervalDag

variable {α : Type} [Scalar α]

/-! ### Feasibility -/

/-- Whether some choice of operand values can still meet the bounds asked for. -/
inductive Feasibility where
  | feasible | infeasible
  deriving DecidableEq, Repr, Inhabited

namespace Feasibility

/-- The capitalised name of a verdict. -/
def name : Feasibility → String
  | feasible => "Feasible"
  | infeasible => "Infeasible"

/-- Feasible exactly when a condition holds. -/
def ofBool (b : Bool) : Feasibility := if b then feasible else infeasible

/-- Infeasible exactly when an operand interval is empty. -/
def ofOperands (operands : List (Interval α)) : Feasibility := ofBool (!operands.any (·.isEmpty))

end Feasibility

/-! ### Monotonicity -/

/-- How a function moves with one of its arguments. -/
inductive Monotonicity where
  | increasing | decreasing | constant | unknown
  deriving DecidableEq, Repr, Inhabited

namespace Monotonicity

/-- All verdicts. -/
def all : List Monotonicity := [increasing, decreasing, constant, unknown]

/-- The capitalised name of a verdict. -/
def name : Monotonicity → String
  | increasing => "Increasing"
  | decreasing => "Decreasing"
  | constant => "Constant"
  | unknown => "Unknown"

/-- The verdict of a capitalised name. -/
def ofName? (s : String) : Option Monotonicity := all.find? (·.name == s)

/-- The monotonicity of `-f`. -/
def negate : Monotonicity → Monotonicity
  | increasing => decreasing
  | decreasing => increasing
  | constant => constant
  | unknown => unknown

/-- The monotonicity of `c * x` in `x` when `c` lies in an interval. -/
def ofFactor (factor : Interval α) : Monotonicity :=
  if factor.inf == 0 && factor.sup == 0 then constant
  else if 0 ≤ factor.inf then increasing
  else if factor.sup ≤ 0 then decreasing
  else unknown

end Monotonicity

/-! ### Curvature -/

/-- How a function bends. -/
inductive Curvature where
  | linear | convex | concave | unknown
  deriving DecidableEq, Repr, Inhabited

namespace Curvature

/-- All verdicts, in the order of their codes. -/
def all : List Curvature := [linear, convex, concave, unknown]

/-- The capitalised name of a verdict. -/
def name : Curvature → String
  | linear => "Linear"
  | convex => "Convex"
  | concave => "Concave"
  | unknown => "Unknown"

/-- The verdict of a capitalised name. -/
def ofName? (s : String) : Option Curvature := all.find? (·.name == s)

/-- The word that stands for a verdict in the scratch data of a walk. -/
def code : Curvature → UInt64
  | linear => 0
  | convex => 1
  | concave => 2
  | unknown => 3

/-- The verdict that a word stands for. Words that stand for none are read as `unknown`. -/
def ofCode (word : UInt64) : Curvature :=
  if word = 0 then linear
  else if word = 1 then convex
  else if word = 2 then concave
  else unknown

@[simp] theorem ofCode_code (c : Curvature) : ofCode c.code = c := by cases c <;> decide

/-- The curvature of `-f`. -/
def negate : Curvature → Curvature
  | linear => linear
  | convex => concave
  | concave => convex
  | unknown => unknown

/-- The curvature of `coef * f`. -/
def scale (c : Curvature) (coef : α) : Curvature :=
  if coef == 0 then linear else if coef < 0 then c.negate else c

/-- The curvature of `f + g`. -/
def add : Curvature → Curvature → Curvature
  | linear, c => c
  | c, linear => c
  | a, b => if a = b then a else unknown

/-- The curvature of `outer (inner x)`, from the curvature of both and the monotonicity of `outer` on
the range of `inner`. -/
def compose (outer : Curvature) (outerMono : Monotonicity) (inner : Curvature) : Curvature :=
  match outer, inner, outerMono with
  | outer, linear, _ => outer
  | linear, inner, .increasing => inner
  | linear, inner, .decreasing => inner.negate
  | linear, _, .constant => linear
  | linear, _, .unknown => unknown
  | convex, convex, .increasing => convex
  | convex, concave, .decreasing => convex
  | concave, concave, .increasing => concave
  | concave, convex, .decreasing => concave
  | _, _, .constant => linear
  | _, _, _ => unknown

end Curvature

end IntervalDag
