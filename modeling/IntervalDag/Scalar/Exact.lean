import Mathlib.Analysis.SpecialFunctions.Pow.Real
import Mathlib.Analysis.SpecialFunctions.Trigonometric.Inverse
import Mathlib.Data.EReal.Inv
import IntervalDag.Scalar

/-!
# Exact arithmetic as a scalar

`Exact` is the carrier of the theory: the extended real line with one more value for operations that have no
result. Arithmetic does not round and there is one zero. Otherwise the operations follow the standard for binary
floating point: infinities of opposite sign have no sum, zero has no product with an infinity, and a quotient by
zero is infinite, with the sign of the dividend.
-/

namespace IntervalDag

/-- An extended real number, or the result of an operation that has none. -/
inductive Exact where
  /-- The result that is not a number. -/
  | nan
  /-- An extended real number. -/
  | number (x : EReal)

namespace Exact

open Classical

/-- A real number. -/
def real (r : ℝ) : Exact := .number r

/-- An extended real number is infinite. -/
def IsInfinite (x : EReal) : Prop := x = ⊤ ∨ x = ⊥

/-! ### Arithmetic -/

/-- The negated value. -/
noncomputable def neg : Exact → Exact
  | .nan => .nan
  | .number x => .number (-x)

/-- The sum, of which infinities of opposite sign have none. -/
noncomputable def add : Exact → Exact → Exact
  | .number x, .number y => if IsInfinite x ∧ y = -x then .nan else .number (x + y)
  | _, _ => .nan

/-- The product, of which zero and an infinity have none. -/
noncomputable def mul : Exact → Exact → Exact
  | .number x, .number y =>
    if x = 0 ∧ IsInfinite y ∨ IsInfinite x ∧ y = 0 then .nan else .number (x * y)
  | _, _ => .nan

/-- The quotient, of which two zeros or two infinities have none. -/
noncomputable def div : Exact → Exact → Exact
  | .number x, .number y =>
    if x = 0 ∧ y = 0 ∨ IsInfinite x ∧ IsInfinite y then .nan
    else if y = 0 then .number (if 0 < x then ⊤ else ⊥)
    else .number (x / y)
  | _, _ => .nan

/-! ### Comparison -/

/-- Numbers equal themselves only; what is not a number equals nothing. -/
def Equal : Exact → Exact → Prop
  | .number x, .number y => x = y
  | _, _ => False

/-- Numbers are ordered as on the line. -/
def Le : Exact → Exact → Prop
  | .number x, .number y => x ≤ y
  | _, _ => False

/-- Numbers are ordered as on the line. -/
def Lt : Exact → Exact → Prop
  | .number x, .number y => x < y
  | _, _ => False

/-! ### Functions -/

/-- Applies a function to a real number, with given values at the infinities. -/
noncomputable def lift (f : ℝ → Exact) (atBot atTop : Exact) : Exact → Exact
  | .nan => .nan
  | .number x => if x = ⊥ then atBot else if x = ⊤ then atTop else f x.toReal

/-- The magnitude. -/
noncomputable def abs : Exact → Exact
  | .nan => .nan
  | .number x => .number (max x (-x))

/-- The natural logarithm, whose pole at zero is a negative infinity. -/
noncomputable def ln : Exact → Exact :=
  lift (fun r => if r < 0 then .nan else if r = 0 then .number ⊥ else real (Real.log r)) .nan (.number ⊤)

/-- The power of real numbers. Zero has a pole at negative exponents, and numbers below zero only take whole
exponents. -/
noncomputable def realPow (r q : ℝ) : Exact :=
  if r = 0 ∧ q < 0 then .number ⊤
  else if r < 0 ∧ ¬ ∃ n : ℤ, q = n then .nan
  else real (r ^ q)

/-- The power with an infinite exponent, which depends on whether the magnitude of the base is below or above
one. -/
noncomputable def infinitePow (x : EReal) (below above : EReal) : EReal :=
  if max x (-x) < 1 then below else if 1 < max x (-x) then above else 1

/-- The power. -/
noncomputable def pow : Exact → Exact → Exact
  | x, p =>
    if p = .number 0 ∨ x = .number 1 then .number 1
    else
      match x, p with
      | .number x, .number p =>
        if p = ⊤ then .number (infinitePow x 0 ⊤)
        else if p = ⊥ then .number (infinitePow x ⊤ 0)
        else if IsInfinite x ∧ p < 0 then .number 0
        else if x = ⊤ then .number ⊤
        else if x = ⊥ then .number (if ∃ n : ℤ, Odd n ∧ p = (n : ℝ) then ⊥ else ⊤)
        else realPow x.toReal p.toReal
      | _, _ => .nan

/-- The value as an integer, when it is whole and its magnitude is below `2 ^ 31 - 1`. -/
noncomputable def integral? : Exact → Option Int
  | .nan => none
  | .number x =>
    if x = ((⌊x.toReal⌋ : ℝ) : EReal) ∧ |⌊x.toReal⌋| < 2 ^ 31 - 1 then some ⌊x.toReal⌋ else none

end Exact

open Classical Exact in
noncomputable instance : Scalar Exact where
  add := add
  sub a b := add a (neg b)
  mul := mul
  div := div
  neg := neg
  zero := .number 0
  one := .number 1
  ofScientific m s e := real (OfScientific.ofScientific m s e)
  beq a b := decide (Equal a b)
  lt := Lt
  le := Le
  decLt _ _ := inferInstance
  decLe _ _ := inferInstance
  posInf := .number ⊤
  negInf := .number ⊥
  pi := real Real.pi
  abs := abs
  isNegative a := decide (Lt a (.number 0))
  ceil := lift (fun r => real ⌈r⌉) (.number ⊥) (.number ⊤)
  exp := lift (fun r => real (Real.exp r)) (.number 0) (.number ⊤)
  ln := ln
  sin := lift (fun r => real (Real.sin r)) .nan .nan
  cos := lift (fun r => real (Real.cos r)) .nan .nan
  asin := lift (fun r => if |r| ≤ 1 then real (Real.arcsin r) else .nan) .nan .nan
  pow := pow
  integral? := integral?

end IntervalDag
