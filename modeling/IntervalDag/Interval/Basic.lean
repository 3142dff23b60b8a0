import IntervalDag.Scalar
import IntervalDag.Fault

/-!
# Intervals

Closed real intervals whose ends may be infinite. An interval whose lower end exceeds its upper end is
empty, however it came about; `Interval.empty` is the canonical one. Every operation is an enclosure:
its result holds each value that the operation takes on members of its operands. Ends are not rounded
outward, so over floating point this is true up to rounding error.

Some operations can meet an end that is not a number, as when infinite ends of opposite sign are added.
They are `Checked` and fault there. The others never do on operands whose ends are numbers, and are
plain functions.
-/

namespace IntervalDag

/-- A closed interval `[inf, sup]`, empty when `sup < inf`. -/
structure Interval (α : Type) where
  /-- The lower end. -/
  inf : α
  /-- The upper end. -/
  sup : α
  deriving Repr, Inhabited

namespace Interval

variable {α : Type} [Scalar α]

open Scalar

/-- The whole line. -/
def entire : Interval α := ⟨negInf, posInf⟩

/-- The canonical empty interval. -/
def empty : Interval α := ⟨posInf, negInf⟩

/-- The numbers that are not negative. -/
def nonnegative : Interval α := ⟨0, posInf⟩

/-- The interval with the given ends. -/
def ofBounds (inf sup : α) : Checked α (Interval α) :=
  if isNaN inf || isNaN sup then .error .nanBound else .ok ⟨inf, sup⟩

/-- The interval that holds one value. -/
def point (v : α) : Checked α (Interval α) := ofBounds v v

/-- Intervals are compared end by end, with the equality of the scalars. -/
instance : BEq (Interval α) := ⟨fun x y => x.inf == y.inf && x.sup == y.sup⟩

/-! ### Predicates -/

/-- Whether no value lies in the interval. -/
def isEmpty (x : Interval α) : Bool := decide (x.sup < x.inf)

/-- Whether every value lies in the interval. -/
def isEntire (x : Interval α) : Bool := x.inf == negInf && x.sup == posInf

/-- Whether both ends are finite. -/
def isBounded (x : Interval α) : Bool := isFinite x.inf && isFinite x.sup

/-- Whether a value lies in the interval. -/
def contains (x : Interval α) (v : α) : Bool := decide (x.inf ≤ v) && decide (v ≤ x.sup)

/-- Whether zero lies in the interval. -/
def containsZero (x : Interval α) : Bool := x.contains 0

/-- The distance of the ends; zero for an empty interval. -/
def width (x : Interval α) : α := if x.isEmpty then 0 else x.sup - x.inf

/-- Whether each value of `x` lies in `y`. -/
def isSubset (x y : Interval α) : Bool :=
  x.isEmpty || (decide (y.inf ≤ x.inf) && decide (x.sup ≤ y.sup))

/-- Whether `x` improves on `old` at its lower end by more than `eps * max 1 |old.inf|`. Any finite
end improves on an infinite one. -/
def raisesInf (x old : Interval α) (eps : α) : Bool :=
  x.inf != negInf &&
    (old.inf == negInf || decide (old.inf + eps * maxNum (abs old.inf) 1 < x.inf))

/-- Whether `x` improves on `old` at its upper end by more than `eps * max 1 |old.sup|`. -/
def lowersSup (x old : Interval α) (eps : α) : Bool :=
  x.sup != posInf &&
    (old.sup == posInf || decide (x.sup < old.sup - eps * maxNum (abs old.sup) 1))

/-- Whether `x` improves on `old` at either end by more than the relative threshold `eps`. -/
def isTighter (x old : Interval α) (eps : α) : Bool := x.raisesInf old eps || x.lowersSup old eps

/-! ### Lattice operations -/

/-- The common part of two intervals. -/
def inter (x y : Interval α) : Interval α :=
  let z : Interval α := ⟨maxNum x.inf y.inf, minNum x.sup y.sup⟩
  if z.isEmpty then empty else z

/-- The smallest interval that holds both operands. -/
def hull (x y : Interval α) : Interval α :=
  if x.isEmpty then y
  else if y.isEmpty then x
  else ⟨minNum x.inf y.inf, maxNum x.sup y.sup⟩

/-- The smallest interval that holds every interval of a list. -/
def hullAll (parts : List (Interval α)) : Interval α := parts.foldl hull empty

/-! ### Arithmetic -/

/-- Sums of a value of `x` and a value of `y`. -/
def add (x y : Interval α) : Checked α (Interval α) :=
  if x.isEmpty || y.isEmpty then .ok empty else ofBounds (x.inf + y.inf) (x.sup + y.sup)

/-- Differences of a value of `x` and a value of `y`. -/
def sub (x y : Interval α) : Checked α (Interval α) :=
  if x.isEmpty || y.isEmpty then .ok empty else ofBounds (x.inf - y.sup) (x.sup - y.inf)

/-- Negated values of `x`. -/
def neg (x : Interval α) : Interval α := if x.isEmpty then empty else ⟨-x.sup, -x.inf⟩

/-- Multiples of the values of `x`. Zero times the whole line is zero. -/
def scale (x : Interval α) (factor : α) : Checked α (Interval α) :=
  if x.isEmpty then .ok empty
  else if factor == 0 then point 0
  else if 0 < factor then ofBounds (x.inf * factor) (x.sup * factor)
  else ofBounds (x.sup * factor) (x.inf * factor)

/-- The product of two ends, where zero times an infinite end is zero. -/
def mulBound (a b : α) : α := if a == 0 || b == 0 then 0 else a * b

/-- Products of a value of `x` and a value of `y`: the extremes lie among the four products of
ends. -/
def mul (x y : Interval α) : Interval α :=
  if x.isEmpty || y.isEmpty then empty
  else
    let products :=
      [mulBound x.inf y.inf, mulBound x.inf y.sup, mulBound x.sup y.inf, mulBound x.sup y.sup]
    ⟨products.foldl minNum posInf, products.foldl maxNum negInf⟩

/-- Reciprocals of the values of `x` other than zero. -/
def recip (x : Interval α) : Interval α :=
  if x.isEmpty || (x.inf == 0 && x.sup == 0) then empty
  else if x.inf < 0 ∧ 0 < x.sup then entire
  else if x.inf == 0 then ⟨1 / x.sup, posInf⟩
  else if x.sup == 0 then ⟨negInf, 1 / x.inf⟩
  else ⟨1 / x.sup, 1 / x.inf⟩

/-- Quotients of a value of `x` and a value of `y` other than zero. -/
def div (x y : Interval α) : Interval α := x.mul y.recip

instance : Neg (Interval α) := ⟨neg⟩

instance : Mul (Interval α) := ⟨mul⟩

instance : Div (Interval α) := ⟨div⟩

end Interval

end IntervalDag
