import IntervalDag.Interval.Basic

/-!
# Elementary functions of intervals

Ranges of powers, exponentials, logarithms, sines, magnitudes and the term `-x ln x` over an interval.
A function is applied to the part of the interval on which it is defined. Ends that go through an
inexact library function are widened outward by `nudge`.
-/

namespace IntervalDag

open Scalar

variable {α : Type} [Scalar α]

namespace Interval

/-! ### Outward widening -/

/-- The relative widening of inexact ends. -/
def nudge : α := 1e-12

/-- A finite end, moved down by a relative `nudge`. -/
def nudgeDown (v : α) : α := if isFinite v then v - nudge * maxNum (abs v) 1 else v

/-- A finite end, moved up by a relative `nudge`. -/
def nudgeUp (v : α) : α := if isFinite v then v + nudge * maxNum (abs v) 1 else v

/-! ### The entropy term -/

/-- `1/e`, where `-x ln x` has its maximum, which is `1/e` again. -/
def invE : α := 0.36787944117144233

/-- The term `-x ln x` at a value that is not negative, continued by zero at zero. -/
def entropyAt (x : α) : α :=
  if x == 0 then 0
  else if x == posInf || x == negInf then negInf
  else -x * ln x

/-- The range of `-x ln x` over the part of `x` that is not negative. -/
def entropy (x : Interval α) : Interval α :=
  let x := x.inter nonnegative
  if x.isEmpty then empty
  else
    let a := entropyAt x.inf
    let b := entropyAt x.sup
    let hi := if x.contains invE then invE else maxNum a b
    ⟨nudgeDown (minNum a b), nudgeUp hi⟩

/-! ### Monotone functions and magnitudes -/

/-- The range of the exponential function. -/
def exp (x : Interval α) : Interval α :=
  if x.isEmpty then empty else ⟨Scalar.exp x.inf, Scalar.exp x.sup⟩

/-- The range of the natural logarithm over the positive part of `x`. -/
def ln (x : Interval α) : Interval α :=
  let x := x.inter nonnegative
  if x.isEmpty || x.sup == 0 then empty else ⟨Scalar.ln x.inf, Scalar.ln x.sup⟩

/-- The range of the magnitude. -/
def abs (x : Interval α) : Interval α :=
  if x.isEmpty then empty
  else if 0 ≤ x.inf then x
  else if x.sup ≤ 0 then -x
  else ⟨0, maxNum (-x.inf) x.sup⟩

/-! ### Powers -/

/-- The range of `x ^ n` for a natural exponent other than zero. -/
def powNat (x : Interval α) (n : Nat) : Checked α (Interval α) :=
  if n % 2 = 0 then
    let lo := if x.containsZero then 0 else minNum (Scalar.abs x.inf) (Scalar.abs x.sup)
    let hi := maxNum (Scalar.abs x.inf) (Scalar.abs x.sup)
    ofBounds (powi lo n) (powi hi n)
  else ofBounds (powi x.inf n) (powi x.sup n)

/-- The range of `x ^ p`. An integral exponent takes every base, less zero if it is negative; any other
exponent takes the bases that are not negative. -/
def pow (x : Interval α) (p : α) : Checked α (Interval α) :=
  if x.isEmpty then .ok empty
  else if p == 0 then point 1
  else
    match integral? p with
    | some n => if n < 0 then recip <$> x.powNat n.natAbs else x.powNat n.natAbs
    | none =>
      let x := x.inter nonnegative
      if x.isEmpty then .ok empty
      else if 0 < p then ofBounds (Scalar.pow x.inf p) (Scalar.pow x.sup p)
      else ofBounds (Scalar.pow x.sup p) (Scalar.pow x.inf p)

/-! ### Periodic functions -/

/-- Whether `base + k * tau` lies in `x` for some whole number `k`. -/
def hitsPeriod (x : Interval α) (base : α) : Bool :=
  let k := ceil ((x.inf - base) / tau)
  decide (base + k * tau ≤ x.sup)

/-- The range of a function of period `tau` that rises to `1` at `peak` and falls to `-1` at
`trough`. -/
def periodicRange (x : Interval α) (f : α → α) (peak trough : α) : Interval α :=
  if x.isEmpty then empty
  else if !x.isBounded || decide (tau ≤ x.sup - x.inf) then ⟨-1, 1⟩
  else
    let a := f x.inf
    let b := f x.sup
    let lo := if x.hitsPeriod trough then -1 else maxNum (nudgeDown (minNum a b)) (-1)
    let hi := if x.hitsPeriod peak then 1 else minNum (nudgeUp (maxNum a b)) 1
    ⟨lo, hi⟩

/-- The range of the sine. -/
def sin (x : Interval α) : Interval α := x.periodicRange Scalar.sin halfPi (-halfPi)

/-- The range of the cosine. -/
def cos (x : Interval α) : Interval α := x.periodicRange Scalar.cos 0 Scalar.pi

end Interval

end IntervalDag
