import IntervalDag.Scalar

/-!
# Settings

The tunable numbers of interval evaluation and bound propagation, their defaults, and the check that a
set of settings makes sense. Settings may be given as a text. How it is read is left to a library, so the
reader is a parameter.
-/

namespace IntervalDag

variable {α : Type} [Scalar α]

/-- The settings of a graph. -/
structure Settings (α : Type) where
  /-- The smallest distance to a pole at zero that interval evaluation and reverse propagation
  assume. -/
  minZeroDistance : α
  /-- The relative improvement that an end needs to count as a tightening. -/
  minTightening : α
  /-- The greatest number of rounds of a propagation. -/
  maxRounds : Nat
  /-- Whether each handler reports the first time it keeps an operand away from a pole. -/
  warnOnPole : Bool
  deriving Repr

/-- Why settings were refused. -/
inductive SettingsError (α : Type) where
  /-- The text that should hold them could not be read. -/
  | malformed
  /-- The distance to a pole is not a finite number from zero on. -/
  | zeroDistance (given : α)
  /-- The tightening threshold is not a finite number from zero on. -/
  | tightening (given : α)
  /-- No round is allowed. -/
  | noRounds
  deriving Repr

namespace Settings

/-- A billionth for both thresholds, ten rounds, and warnings. -/
instance : Inhabited (Settings α) := ⟨⟨1e-9, 1e-9, 10, true⟩⟩

/-- Whether a threshold is finite and not negative. -/
def isThreshold (v : α) : Bool := Scalar.isFinite v && decide (0 ≤ v)

/-- Accepts settings whose thresholds are thresholds and which allow a round. The first fault found, in
the order of the fields, is the one reported. -/
def validate (s : Settings α) : Except (SettingsError α) Unit :=
  if !isThreshold s.minZeroDistance then .error (.zeroDistance s.minZeroDistance)
  else if !isThreshold s.minTightening then .error (.tightening s.minTightening)
  else if s.maxRounds = 0 then .error .noRounds
  else .ok ()

/-- Checks the settings that `read` finds in a text. -/
def ofTextBy (read : String → Option (Settings α)) (text : String) : Except (SettingsError α) (Settings α) := do
  match read text with
  | none => .error .malformed
  | some s =>
    s.validate
    return s

end Settings

end IntervalDag
