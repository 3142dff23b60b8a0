/-!
# Scalars

The numbers that interval ends, coefficients and point values are made of. Everything above this
module is written against the operations of `Scalar` alone, so the same interval arithmetic, the same
operators and the same propagation run over binary floating point and can be studied over exact
extended reals.

* `Scalar` lists the operations. It asks for no laws: floating point has next to none of them.
* `BitPattern` gives a value a 64-bit pattern, used where two values have to be told apart exactly.
* `Scalar.maxNum` and `Scalar.minNum` prefer a number to a value that is not one.
* `Scalar.powi` is the power with a natural exponent, by repeated squaring.
-/

namespace IntervalDag

/-- The operations of an extended number line: field arithmetic, an order that can be decided, two
infinities, and the elementary functions that expressions are built from. Values that are not
numbers, if a carrier has any, are those that `==` tells apart from themselves. -/
class Scalar (α : Type) extends Add α, Sub α, Mul α, Div α, Neg α, Zero α, One α, OfScientific α,
    BEq α, LT α, LE α where
  /-- The strict order can be decided. -/
  decLt (a b : α) : Decidable (a < b)
  /-- The order can be decided. -/
  decLe (a b : α) : Decidable (a ≤ b)
  /-- The value above every number. -/
  posInf : α
  /-- The value below every number. -/
  negInf : α
  /-- Half the period of sine and cosine. -/
  pi : α
  /-- The magnitude, with the sign of a zero dropped. -/
  abs : α → α
  /-- Whether a value has a minus sign. Every value below zero has one and none above zero; a carrier
  may have zeros of either sign. -/
  isNegative : α → Bool
  /-- The least whole number that is not below the argument. -/
  ceil : α → α
  /-- The exponential function. -/
  exp : α → α
  /-- The natural logarithm. -/
  ln : α → α
  /-- The sine. -/
  sin : α → α
  /-- The cosine. -/
  cos : α → α
  /-- The inverse of the sine on `[-1, 1]`, with values in `[-π/2, π/2]`. -/
  asin : α → α
  /-- The power `x ^ p` with a real exponent. -/
  pow : α → α → α
  /-- The value as an integer, when it is whole and its magnitude is below `2 ^ 31 - 1`. -/
  integral? : α → Option Int

namespace Scalar

variable {α : Type} [Scalar α]

instance instDecidableLt (a b : α) : Decidable (a < b) := decLt a b

instance instDecidableLe (a b : α) : Decidable (a ≤ b) := decLe a b

/-- The full period of sine and cosine. -/
def tau : α := pi + pi

/-- A quarter of the period of sine and cosine. -/
def halfPi : α := 0.5 * pi

/-- Whether a value is not a number: it then differs from itself. -/
def isNaN (a : α) : Bool := !(a == a)

/-- Whether a value lies strictly between the two infinities. -/
def isFinite (a : α) : Bool := decide (negInf < a) && decide (a < posInf)

/-- The greater of two values. If one of them is not a number the other is taken. -/
def maxNum (a b : α) : α := if a < b then b else if isNaN a then b else a

/-- The smaller of two values. If one of them is not a number the other is taken. -/
def minNum (a b : α) : α := if b < a then b else if isNaN a then b else a

/-- The remaining factors of a power: `acc * base ^ n`, squaring the base once per binary digit
of `n`. -/
def powiFrom (acc base : α) (n : Nat) : α :=
  let acc := if n % 2 = 1 then acc * base else acc
  if n / 2 = 0 then acc else powiFrom acc (base * base) (n / 2)
termination_by n
decreasing_by omega

/-- The power of `a` with a natural exponent, by repeated squaring. -/
def powi (a : α) (n : Nat) : α := powiFrom 1 a n

end Scalar

/-- A 64-bit pattern per value. Two values with one pattern are the same value, which `==` does
not promise: the two zeros are equal and have different patterns. -/
class BitPattern (α : Type) where
  /-- The pattern of a value. -/
  toBits : α → UInt64
  /-- The value of a pattern. -/
  ofBits : UInt64 → α

end IntervalDag
