/-!
# Decimal digits of binary values

A finite binary value is `m * 2 ^ q` for a natural `m` and an integer `q`. This module finds its
decimal digits in exact arithmetic of natural numbers.

* `Binary.shortest` gives the fewest digits that read back to the value, and of those the nearest; of two
  equally near ones the greater.
* `Binary.fixed` gives the value rounded to a number of places, an exact half going to the even
  neighbour.
* `positional` and `scientific` lay digits out as text.
-/

namespace IntervalDag

namespace Decimal

/-! ### Quotients and digit counts -/

/-- A power of ten. -/
def tenPow (k : Nat) : Nat := Nat.pow 10 k

/-- The number of decimal digits of a natural number; one for zero. -/
def digitCount (n : Nat) : Nat := (Nat.toDigits 10 n).length

/-- The quotient rounded to the nearest natural number, an exact half to the even one. -/
def roundDivEven (num den : Nat) : Nat :=
  let quot := num / den
  let rest := 2 * (num % den)
  if rest < den then quot
  else if den < rest then quot + 1
  else quot + quot % 2

/-- The exponent `e` with `10 ^ e ≤ num / den < 10 ^ (e + 1)`, for positive `num` and `den`. -/
def log10 (num den : Nat) : Int :=
  let e : Int := (digitCount num : Int) - (digitCount den : Int)
  let reached : Bool :=
    if 0 ≤ e then decide (den * tenPow e.toNat ≤ num) else decide (den ≤ num * tenPow (-e).toNat)
  if reached then e else e - 1

/-! ### Digits with an exponent -/

/-- The decimal value `digits * 10 ^ exponent`. -/
structure Digits where
  /-- The digits, as one natural number. -/
  digits : Nat
  /-- The power of ten that the last digit counts. -/
  exponent : Int
  deriving DecidableEq, Repr

/-- Takes trailing zeros off a positive number of digits. -/
def trimZeros (digits : Nat) (exponent : Int) : Digits :=
  if digits % 10 = 0 ∧ 0 < digits then trimZeros (digits / 10) (exponent + 1)
  else ⟨digits, exponent⟩
termination_by digits
decreasing_by omega

end Decimal

/-- A finite binary value `mantissa * 2 ^ exponent`, with what is needed to tell which reals round
to it. -/
structure Binary where
  /-- The significand. -/
  mantissa : Nat
  /-- The power of two that the last bit of the significand counts. -/
  exponent : Int
  /-- Whether the next value below is only half as far away as the next value above. -/
  closeBelow : Bool
  deriving DecidableEq, Repr

namespace Binary

open Decimal

/-- The finite value of the 64-bit format with a given sign-free bit pattern: eleven bits of
exponent above fifty-two bits of significand. -/
def ofMagnitudeBits (bits : Nat) : Binary :=
  let field : Nat := bits >>> 52
  let fraction : Nat := bits % (1 <<< 52)
  if field = 0 then ⟨fraction, -1074, false⟩
  else ⟨fraction + (1 <<< 52), (field : Int) - 1075, fraction = 0 && 1 < field⟩

/-- The numerator and the denominator of a quarter of the last bit's weight. -/
def quarterUnit (b : Binary) : Nat × Nat :=
  let e := b.exponent - 2
  if 0 ≤ e then (1 <<< e.toNat, 1) else (1, 1 <<< (-e).toNat)

/-- Whether `c * 10 ^ k`, counted in quarter units, lies among the reals that round to `b`. The ends
of that range round to `b` exactly when its significand is even. -/
def readsBack (b : Binary) (c : Nat) (k : Int) : Bool :=
  let (num, den) := b.quarterUnit
  let low := (if b.closeBelow then 4 * b.mantissa - 1 else 4 * b.mantissa - 2) * num
  let high := (4 * b.mantissa + 2) * num
  let (value, scale) := if 0 ≤ k then (c * tenPow k.toNat * den, 1) else (c * den, tenPow (-k).toNat)
  if b.mantissa % 2 = 0 then decide (low * scale ≤ value) && decide (value ≤ high * scale)
  else decide (low * scale < value) && decide (value < high * scale)

/-- The two neighbours of a value on the grid of multiples of `10 ^ k`, as the lower one and the
comparison of the distance to it with the distance to the upper one. -/
def neighbour (b : Binary) (k : Int) : Nat × Ordering :=
  let (num, den) := b.quarterUnit
  let top := 4 * b.mantissa * num
  let (top, bottom) := if 0 ≤ k then (top, den * tenPow k.toNat) else (top * tenPow (-k).toNat, den)
  (top / bottom, compare (2 * (top % bottom)) bottom)

/-- The digits on the grid of multiples of `10 ^ k` that read back to a value, if either neighbour
does; of both the nearer, and of two equally near ones the upper. -/
def onGrid? (b : Binary) (k : Int) : Option Digits :=
  let (c, nearer) := b.neighbour k
  let lower := b.readsBack c k
  let upper := b.readsBack (c + 1) k
  if lower && upper then some (trimZeros (if nearer == .lt then c else c + 1) k)
  else if lower then some (trimZeros c k)
  else if upper then some (trimZeros (c + 1) k)
  else none

/-- The fewest digits that read back to a positive value. Seventeen always suffice. -/
def shortest (b : Binary) : Digits :=
  let (num, den) := b.quarterUnit
  let e := log10 (4 * b.mantissa * num) den
  ((List.range 17).findSome? fun n : Nat => b.onGrid? (e - n)).getD ⟨0, 0⟩

/-- The value in units of `10 ^ -places`, rounded to the nearest whole number. -/
def fixed (b : Binary) (places : Nat) : Nat :=
  let (num, den) := b.quarterUnit
  roundDivEven (4 * b.mantissa * num * tenPow places) den

end Binary

namespace Decimal

/-! ### Layout -/

/-- A natural number in decimal, with zeros in front up to a least width. -/
def padded (n width : Nat) : String :=
  let ds := Nat.toDigits 10 n
  String.ofList (List.replicate (width - ds.length) '0' ++ ds)

/-- The value `n * 10 ^ -places` with a point before the last `places` digits. -/
def withPlaces (n places : Nat) : String :=
  if places = 0 then padded n 1
  else padded (n / tenPow places) 1 ++ "." ++ padded (n % tenPow places) places

/-- Digits laid out without an exponent. -/
def positional (d : Digits) : String :=
  if 0 ≤ d.exponent then padded (d.digits * tenPow d.exponent.toNat) 1
  else withPlaces d.digits (-d.exponent).toNat

/-- Digits laid out with one digit before the point and a power of ten after them. -/
def scientific (d : Digits) : String :=
  let ds := Nat.toDigits 10 d.digits
  let e := d.exponent + (ds.length : Int) - 1
  let rest := ds.drop 1
  let mark := if rest.isEmpty then "" else "."
  String.ofList (ds.take 1) ++ mark ++ String.ofList rest ++ "e" ++ toString e

end Decimal

end IntervalDag
