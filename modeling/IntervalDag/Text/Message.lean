import IntervalDag.Fault
import IntervalDag.Graph.Error
import IntervalDag.Graph.SlotPool
import IntervalDag.Log
import IntervalDag.Text.Number

/-!
# Messages

The texts of intervals, kinds, faults, declined requests, refused settings and log records.
-/

namespace IntervalDag

variable {α : Type} [NumberText α]

open NumberText

/-- The written form of a node's number. -/
def nodeText (n : NodeId) : String := "NodeId(" ++ toString n ++ ")"

/-! ### Intervals -/

namespace Interval

variable [Scalar α]

/-- The text of an end. Zeros are written without a sign. -/
def endText (v : α) : String := if v == 0 then plain (0 : α) else plain v

/-- The text of an interval. -/
def text (x : Interval α) : String :=
  if x.isEmpty then "[empty]" else "[" ++ endText x.inf ++ ", " ++ endText x.sup ++ "]"

end Interval

/-! ### Kinds -/

/-- The text of a kind with all its data. -/
def Kind.text (k : Kind α) : String :=
  match k with
  | .var id => "Var(VarId(" ++ toString id ++ "))"
  | .value v => "Value(" ++ tagged v ++ ")"
  | .sum coefs constant =>
    "Sum \x7b coefs: [" ++ ", ".intercalate (coefs.map tagged) ++ "], constant: " ++ tagged constant ++
      " \x7d"
  | .product coef => "Product \x7b coef: " ++ tagged coef ++ " \x7d"
  | .pow exponent => "Pow \x7b exponent: " ++ tagged exponent ++ " \x7d"
  | .exp | .log | .sin | .cos | .abs | .entropy => k.op.name

/-! ### Faults -/

/-- The words for a depth-first request. -/
def DepthFirstOnly.text : DepthFirstOnly → String
  | restart => "restart_dfs on"
  | skip => "skip on"
  | stage => "stage of"
  | parent => "parent of"

/-- The text of a fault, without the mark that starts it. Reading outside a list has none. -/
def Fault.text? : Fault α → Option String
  | nanBound => some "NaN interval bound"
  | wrongKind op kind => some (op.name.toLower ++ " handler on " ++ kind.text)
  | accessReleased n => some ("access to released node " ++ nodeText n)
  | captureReleased n => some ("capture of released node " ++ nodeText n)
  | releaseReleased n => some ("release of released node " ++ nodeText n)
  | slotsExhausted => some ("more than " ++ toString SlotPool.limit ++ " active iterators on one graph")
  | foreignGraph => some "iterator used with a foreign graph"
  | noSlot => some "iterator holds no slot"
  | atEnd => some "iterator is at its end"
  | notDepthFirst request mode => some (request.text ++ " a " ++ mode.name ++ " iterator")
  | skipAtLeave => some "skip called at the leave stage"
  | notAtChild => some "child queries need a DFS at a child stage"
  | noChild n i => some (nodeText n ++ " has no child " ++ toString i)
  | outOfRange => none
  | diverged => some "loop did not end"

/-- The message of a fault, which marks it as an error of the calling program. -/
def Fault.message? (f : Fault α) : Option String := f.text?.map ("BUG: " ++ ·)

/-! ### Declined requests -/

/-- The message about a declined request. -/
def GraphError.message : GraphError → String
  | childCount op expected got =>
    op.name ++ " takes " ++ toString expected ++ " children, got " ++ toString got
  | coefficientCount children coefs =>
    "Sum has " ++ toString children ++ " children but " ++ toString coefs ++ " coefficients"
  | notAssociative n op =>
    "Cannot append a child to " ++ op.name ++ " node " ++ nodeText n ++
      ": operator is not associative"
  | wouldCreateCycle parent child =>
    "Appending " ++ nodeText child ++ " under " ++ nodeText parent ++ " would create a cycle"
  | cycleDetected n => "Cycle detected involving node " ++ nodeText n

/-! ### Settings -/

/-- The name of the field that is at fault and what is wrong with it. -/
def SettingsError.reason? : SettingsError α → Option (String × String)
  | malformed => none
  | zeroDistance v =>
    some ("min_zero_distance", "expected a finite non-negative number, got " ++ plain v)
  | tightening v => some ("min_tightening", "expected a finite non-negative number, got " ++ plain v)
  | noRounds => some ("max_rounds", "at least one round is required")

/-- The message about refused settings. Text that could not be read has none. -/
def SettingsError.message? (e : SettingsError α) : Option String :=
  e.reason?.map fun (field, reason) => "Invalid value for '" ++ field ++ "': " ++ reason

/-! ### Log records -/

/-- What was done to an operand near a pole. -/
def PoleSide.text : PoleSide → String
  | lowerRaised => "child lower bound raised"
  | upperRelaxed => "child upper bound relaxed"

/-- The text of the report of a pole. -/
def PoleNotice.text (n : PoleNotice α) : String :=
  n.handler ++ ": " ++ n.side.text ++ " to min_zero_distance " ++ plain n.distance ++
    " to stay clear of the pole at zero"

/-- The text of a log record. -/
def LogRecord.text [Scalar α] : LogRecord α → String
  | pole notice => notice.text
  | emptyActivity n => "forward propagation: empty activity at " ++ nodeText n
  | disjoint n asked known => nodeText n ++ ": " ++ asked.text ++ " does not meet " ++ known.text
  | narrowed n known tightened => nodeText n ++ ": " ++ known.text ++ " -> " ++ tightened.text
  | noConsistentOperands n bounds =>
    "reverse propagation: " ++ nodeText n ++ " has no consistent children under " ++ bounds.text
  | roundDone round tightenings infeasible =>
    "propagation round " ++ toString round ++ ": " ++ toString tightenings ++ " tightenings" ++
      if infeasible then ", infeasible" else ""

/-- The line of a log record: its level and its text. -/
def LogRecord.line [Scalar α] (r : LogRecord α) : String := r.level.name ++ " " ++ r.text

end IntervalDag
