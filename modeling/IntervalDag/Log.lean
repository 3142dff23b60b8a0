import IntervalDag.Operator.Handler

/-!
# Log records

What propagation reports while it runs, as data. Each record has a level; its line of text is made in
`IntervalDag.Text.Message`.
-/

namespace IntervalDag

/-- The importance of a record. -/
inductive LogLevel where
  | warn | debug | trace
  deriving DecidableEq, Repr, Inhabited

namespace LogLevel

/-- The name that starts a log line. -/
def name : LogLevel → String
  | warn => "WARN"
  | debug => "DEBUG"
  | trace => "TRACE"

/-- How many levels are more important. -/
def rank : LogLevel → Nat
  | warn => 0
  | debug => 1
  | trace => 2

end LogLevel

/-- Something that propagation reports. -/
inductive LogRecord (α : Type) where
  /-- A handler kept an operand away from a pole for the first time. -/
  | pole (notice : PoleNotice α)
  /-- Forward propagation found an empty activity. -/
  | emptyActivity (node : NodeId)
  /-- The bounds asked of a node do not meet those it has. -/
  | disjoint (node : NodeId) (asked known : Interval α)
  /-- The bounds of a node were tightened. -/
  | narrowed (node : NodeId) (known tightened : Interval α)
  /-- No operand values are consistent with the bounds of a node. -/
  | noConsistentOperands (node : NodeId) (bounds : Interval α)
  /-- A round of propagation ended. -/
  | roundDone (round tightenings : Nat) (infeasible : Bool)

namespace LogRecord

variable {α : Type}

/-- The level of a record. -/
def level : LogRecord α → LogLevel
  | pole _ => .warn
  | narrowed _ _ _ => .trace
  | emptyActivity _ | disjoint _ _ _ | noConsistentOperands _ _ | roundDone _ _ _ => .debug

/-- Whether a record is shown when levels from `least` up are. -/
def isShown (least : LogLevel) (r : LogRecord α) : Bool := decide (r.level.rank ≤ least.rank)

end LogRecord

end IntervalDag
