import Mathlib.Data.Rat.Floor
import IntervalDag.Scalar

/-!
# Rational arithmetic as a scalar

`Extended` is the exact carrier to compute with: the rational numbers between two infinities. Arithmetic does not
round, every value is a number, and comparisons can be evaluated. Where the standard for binary floating point has no
result, this one takes a side: zero absorbs in products, and a negative infinity in sums.

There is no room for the values of elementary functions, which are rarely rational. They are zero throughout.
-/

namespace IntervalDag

/-- A rational number or an infinity. -/
inductive Extended where
  /-- The value below every number. -/
  | negInf
  /-- A rational number. -/
  | rat (q : ℚ)
  /-- The value above every number. -/
  | posInf
  deriving DecidableEq, Repr

namespace Extended

/-! ### Comparison -/

/-- Whether a value is below another one. -/
def lt : Extended → Extended → Bool
  | .negInf, .rat _ | .negInf, .posInf | .rat _, .posInf => true
  | .rat p, .rat q => decide (p < q)
  | _, _ => false

/-! ### Arithmetic -/

/-- The negated value. -/
def neg : Extended → Extended
  | .negInf => .posInf
  | .rat q => .rat (-q)
  | .posInf => .negInf

/-- The sum. -/
def add : Extended → Extended → Extended
  | .rat p, .rat q => .rat (p + q)
  | .negInf, _ | _, .negInf => .negInf
  | _, _ => .posInf

/-- The sign, as one of -1, 0 and 1. -/
def sign : Extended → ℤ
  | .negInf => -1
  | .rat q => q.num.sign
  | .posInf => 1

/-- The infinity of a sign, or zero. -/
def infinite (sign : ℤ) : Extended :=
  if sign = 0 then .rat 0 else if 0 < sign then .posInf else .negInf

/-- The product. -/
def mul : Extended → Extended → Extended
  | .rat p, .rat q => .rat (p * q)
  | a, b => infinite (a.sign * b.sign)

/-- The quotient. Those by zero are infinite, and those by an infinity are zero. -/
def div : Extended → Extended → Extended
  | .rat p, .rat q => if q = 0 then infinite (sign (.rat p)) else .rat (p / q)
  | a, .rat q => infinite (a.sign * sign (.rat q))
  | _, _ => .rat 0

/-- The magnitude. -/
def abs : Extended → Extended
  | .rat q => .rat |q|
  | _ => .posInf

/-- The least whole number that is not below the argument. -/
def ceil : Extended → Extended
  | .rat q => .rat ⌈q⌉
  | a => a

/-- The value as an integer, when it is whole and its magnitude is below `2 ^ 31 - 1`. -/
def integral? : Extended → Option ℤ
  | .rat q => if q.den = 1 ∧ |q.num| < 2 ^ 31 - 1 then some q.num else none
  | _ => none

end Extended

open Extended in
instance : Scalar Extended where
  add := add
  sub a b := add a (neg b)
  mul := mul
  div := div
  neg := neg
  zero := .rat 0
  one := .rat 1
  ofScientific m s e := .rat (OfScientific.ofScientific m s e)
  beq a b := decide (a = b)
  lt a b := lt a b = true
  le a b := lt b a = false
  decLt a b := inferInstanceAs (Decidable (lt a b = true))
  decLe a b := inferInstanceAs (Decidable (lt b a = false))
  posInf := .posInf
  negInf := .negInf
  pi := .rat 0
  abs := abs
  isNegative a := lt a (.rat 0)
  ceil := ceil
  exp _ := .rat 0
  ln _ := .rat 0
  sin _ := .rat 0
  cos _ := .rat 0
  asin _ := .rat 0
  pow _ _ := .rat 0
  integral? := integral?

end IntervalDag
