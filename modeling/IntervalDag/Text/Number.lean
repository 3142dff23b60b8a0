import IntervalDag.Scalar
import IntervalDag.Text.Decimal

/-!
# Numbers as text

Three written forms of a scalar: `plain` for labels, formulas and messages, `tagged` for the text of
faults, and `places3` for traced values. Binary values are written with the fewest digits that read
back.
-/

namespace IntervalDag

/-- The written forms of a scalar. -/
class NumberText (α : Type) where
  /-- The fewest digits that read back, never with an exponent. -/
  plain : α → String
  /-- As `plain`, but a whole number shows a decimal place, and very small and very large numbers
  have an exponent. -/
  tagged : α → String
  /-- The exact value, rounded to three decimal places. -/
  places3 : α → String

namespace Binary64

/-- Writes a value: not-a-number and the infinities by name, anything else as the text of its
magnitude behind its sign. The sign of a zero is kept. -/
def textWith (magnitude : Binary → String) (x : Float) : String :=
  let bits := x.toBits.toNat
  let sign := if bits >>> 63 = 1 then "-" else ""
  if x.isNaN then "NaN"
  else if x.isInf then sign ++ "inf"
  else sign ++ magnitude (Binary.ofMagnitudeBits (bits % (1 <<< 63)))

/-- A magnitude without an exponent. -/
def plainMagnitude (b : Binary) : String :=
  if b.mantissa = 0 then "0" else Decimal.positional b.shortest

/-- A magnitude that shows at least one decimal place, with an exponent below `10 ^ -4` and from
`10 ^ 16` on. -/
def taggedMagnitude (b : Binary) : String :=
  if b.mantissa = 0 then "0.0"
  else
    let d := b.shortest
    let top := d.exponent + (Decimal.digitCount d.digits : Int)
    if top ≤ -4 ∨ 16 < top then Decimal.scientific d
    else if 0 ≤ d.exponent then Decimal.positional d ++ ".0"
    else Decimal.positional d

instance : NumberText Float where
  plain := textWith plainMagnitude
  tagged := textWith taggedMagnitude
  places3 := textWith fun b => Decimal.withPlaces (b.fixed 3) 3

end Binary64

end IntervalDag
