import IntervalDag.Settings
import IntervalDag.Text.Json.Value

/-!
# Settings from text

The reader that programs run with. Settings are read from a JSON object with a member per setting, or from an
array with the settings in order. What is missing keeps its default. Members of other names are passed over, but
a setting that is given twice is refused, and so is an array with too many entries.

A number keeps as many leading digits as fit in a 64-bit word, and is scaled by powers of ten from
there. Numbers beyond the finite ones are refused.
-/

namespace IntervalDag

variable {α : Type} [Scalar α]

namespace Json

/-- The greatest number of a 64-bit word. -/
def wordMax : Nat := UInt64.size - 1

/-- The leading digits of a number as far as they fit in a word. -/
structure Significand where
  /-- The digits taken, as one number. -/
  digits : Nat
  /-- The power of ten that the last digit taken counts. -/
  exponent : Int
  /-- Whether digits were left out. -/
  isCut : Bool

namespace Significand

/-- Takes the digits before a point. From the first that does not fit on, each one left out counts
for a power of ten. -/
def takeWhole (s : Significand) (d : Nat) : Significand :=
  if s.isCut || decide (wordMax < s.digits * 10 + d) then
    { s with exponent := s.exponent + 1, isCut := true }
  else { s with digits := s.digits * 10 + d }

/-- Takes the digits after a point, up to the first that does not fit. -/
def takeFraction (s : Significand) : List Nat → Significand
  | [] => s
  | d :: ds =>
    if wordMax < s.digits * 10 + d then { s with isCut := true }
    else takeFraction { s with digits := s.digits * 10 + d, exponent := s.exponent - 1 } ds

end Significand

/-- The number that a list of digits is. -/
def ofDigits (ds : List Nat) : Nat := ds.foldl (fun n d => n * 10 + d) 0

/-- The leading digits of a numeral, its exponent taken into account. -/
def Numeral.significand (n : Numeral) : Significand :=
  let s := n.whole.foldl Significand.takeWhole ⟨0, 0, false⟩
  let s := s.takeFraction (n.fraction.getD [])
  match n.exponent with
  | none => s
  | some (true, ds) => { s with exponent := s.exponent - ofDigits ds }
  | some (false, ds) => { s with exponent := s.exponent + ofDigits ds }

/-- The power of ten with a natural exponent. -/
def pow10 (n : Nat) : α := OfScientific.ofScientific 1 false n

/-- Scales a value by a power of ten, in one step of at most `10 ^ 308` or, downward, in as many as it
takes. There is no result beyond the finite values. -/
def scaleByPow10? (f : α) (e : Int) : Option α :=
  if 0 ≤ e then
    if e ≤ 308 then
      let f := f * pow10 e.toNat
      if Scalar.isFinite f then some f else none
    else if f == 0 then some f
    else none
  else if -308 ≤ e then some (f / pow10 (-e).toNat)
  else if f == 0 then some f
  else scaleByPow10? (f / pow10 308) (e + 308)
termination_by (-e).toNat
decreasing_by omega

/-- The scalar that a numeral stands for. -/
def Numeral.toScalar? (n : Numeral) : Option α := do
  let s := n.significand
  let f ← scaleByPow10? (OfScientific.ofScientific s.digits false 0) s.exponent
  return if n.negative then -f else f

/-- The natural number up to a limit that a numeral stands for, written with digits alone. -/
def Numeral.toNat? (n : Numeral) (limit : Nat) : Option Nat :=
  let value := ofDigits n.whole
  if n.negative = false ∧ n.fraction = none ∧ n.exponent = none ∧ value ≤ limit then some value
  else none

end Json

namespace Settings

open Json

/-- The settings, as they are addressed in texts. -/
inductive Field where
  | minZeroDistance | minTightening | maxRounds | warnOnPole
  deriving DecidableEq, Repr

namespace Field

/-- All settings, in the order of an array of them. -/
def all : List Field := [minZeroDistance, minTightening, maxRounds, warnOnPole]

/-- The name of a setting's member. -/
def name : Field → String
  | minZeroDistance => "min_zero_distance"
  | minTightening => "min_tightening"
  | maxRounds => "max_rounds"
  | warnOnPole => "warn_on_pole"

end Field

/-- The greatest number of rounds that can be asked for. -/
def maxRoundsLimit : Nat := UInt32.size - 1

/-- Takes over the value given for one setting, if it is of the right sort. -/
def take? (s : Settings α) (field : Field) (v : Value) : Option (Settings α) :=
  match field, v with
  | .minZeroDistance, .number n => n.toScalar?.map fun x => { s with minZeroDistance := x }
  | .minTightening, .number n => n.toScalar?.map fun x => { s with minTightening := x }
  | .maxRounds, .number n => (n.toNat? maxRoundsLimit).map fun k => { s with maxRounds := k }
  | .warnOnPole, .bool b => some { s with warnOnPole := b }
  | _, _ => none

/-- Takes over the entries of an array, setting by setting. -/
def takeInOrder? (s : Settings α) : List Field → List Value → Option (Settings α)
  | _, [] => some s
  | [], _ :: _ => none
  | field :: fields, v :: vs => do takeInOrder? (← s.take? field v) fields vs

/-- Takes over the members of an object. `seen` lists the settings already given. Every key must be
well formed, whether it names a setting or not. -/
def takeMembers? (s : Settings α) (seen : List Field) :
    List (List Nat × Value) → Option (Settings α)
  | [] => some s
  | (key, v) :: members => do
    let key ← textOfUnits? key
    match Field.all.find? fun field => field.name.toList == key with
    | none => takeMembers? s seen members
    | some field =>
      if seen.contains field then none
      else takeMembers? (← s.take? field v) (field :: seen) members

/-- The settings that a value gives. -/
def ofValue? (v : Value) : Option (Settings α) :=
  match v with
  | .object members => takeMembers? default [] members
  | .array items => takeInOrder? default Field.all items
  | _ => none

/-- The settings in a JSON text. -/
def read? (text : String) : Option (Settings α) := (Value.ofText? text).bind ofValue?

/-- Reads and checks the settings in a JSON text. -/
def ofText (text : String) : Except (SettingsError α) (Settings α) := ofTextBy read? text

end Settings

end IntervalDag
