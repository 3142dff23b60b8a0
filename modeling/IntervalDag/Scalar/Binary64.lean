import IntervalDag.Scalar

/-!
# Binary floating point as a scalar

`Float`, the 64-bit binary format, is the carrier that programs run on. Arithmetic rounds to nearest,
zeros are signed, and the elementary functions are those of the platform's mathematical library.
-/

namespace IntervalDag

namespace Binary64

/-- The leading bit of a pattern is its sign, also for zeros and infinities. -/
def isNegative (x : Float) : Bool := 0x8000000000000000 ≤ x.toBits

/-- The integer that a finite whole value of magnitude below `2 ^ 31 - 1` is. -/
def integral? (x : Float) : Option Int :=
  if x.floor == x && x.abs < 2147483647 then some x.toInt64.toInt else none

end Binary64

instance : Scalar Float where
  decLt := Float.decLt
  decLe := Float.decLe
  posInf := 1.0 / 0.0
  negInf := -1.0 / 0.0
  pi := 3.14159265358979323846264338327950288
  abs := Float.abs
  isNegative := Binary64.isNegative
  ceil := Float.ceil
  exp := Float.exp
  ln := Float.log
  sin := Float.sin
  cos := Float.cos
  asin := Float.asin
  pow := Float.pow
  integral? := Binary64.integral?

instance : BitPattern Float where
  toBits := Float.toBits
  ofBits := Float.ofBits

end IntervalDag
