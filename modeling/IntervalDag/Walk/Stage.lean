/-!
# Walk orders and stages

A walk visits the nodes below a root in one of three orders. A depth-first walk passes through *stages*
at each node and stops at those that its `StageSet` selects.
-/

namespace IntervalDag

/-- The order of a walk. -/
inductive Mode where
  /-- Depth first, stopping at selected stages. -/
  | depthFirst
  /-- Breadth first from the root. -/
  | breadthFirst
  /-- Operands before the operators that use them; the root comes last. -/
  | reverseTopological
  deriving DecidableEq, Repr, Inhabited

namespace Mode

/-- The capitalised name of an order, as messages and exchanged data spell it. -/
def name : Mode → String
  | depthFirst => "Dfs"
  | breadthFirst => "Bfs"
  | reverseTopological => "ReverseTopological"

/-- The order of a capitalised name. -/
def ofName? (s : String) : Option Mode :=
  [depthFirst, breadthFirst, reverseTopological].find? (·.name == s)

end Mode

/-- Where a depth-first walk stands at its current node. -/
inductive Stage where
  /-- First arrival at the node. -/
  | enter
  /-- About to descend into the child at the cursor. -/
  | visitingChild
  /-- Back from the child at the cursor. -/
  | visitedChild
  /-- All children are done and the node is about to be left. -/
  | leave
  deriving DecidableEq, Repr, Inhabited

namespace Stage

/-- All stages, in the order in which a node can reach them. -/
def all : List Stage := [enter, visitingChild, visitedChild, leave]

/-- The capitalised name of a stage, as exchanged data spells it. -/
def name : Stage → String
  | enter => "Enter"
  | visitingChild => "VisitingChild"
  | visitedChild => "VisitedChild"
  | leave => "Leave"

/-- The stage of a capitalised name. -/
def ofName? (s : String) : Option Stage := all.find? (·.name == s)

/-- The two stages at which a walk is concerned with one child. -/
def isAtChild : Stage → Bool
  | visitingChild | visitedChild => true
  | enter | leave => false

end Stage

/-- A set of stages at which a depth-first walk hands control back. -/
structure StageSet where
  /-- Whether `Stage.enter` is selected. -/
  enter : Bool
  /-- Whether `Stage.visitingChild` is selected. -/
  visitingChild : Bool
  /-- Whether `Stage.visitedChild` is selected. -/
  visitedChild : Bool
  /-- Whether `Stage.leave` is selected. -/
  leave : Bool
  deriving DecidableEq, Repr

namespace StageSet

/-- Whether a stage is selected. -/
def contains (s : StageSet) : Stage → Bool
  | .enter => s.enter
  | .visitingChild => s.visitingChild
  | .visitedChild => s.visitedChild
  | .leave => s.leave

/-- The set that selects a stage exactly when `p` holds of it. -/
def ofPredicate (p : Stage → Bool) : StageSet := ⟨p .enter, p .visitingChild, p .visitedChild, p .leave⟩

/-- The set of the stages in a list. -/
def ofList (stages : List Stage) : StageSet := ofPredicate (stages.contains ·)

/-- The selected stages, in the order of `Stage.all`. -/
def toList (s : StageSet) : List Stage := Stage.all.filter s.contains

/-- The stages selected by either set. -/
def union (s t : StageSet) : StageSet := ofPredicate fun stage => s.contains stage || t.contains stage

instance : Union StageSet := ⟨union⟩

/-- Every stage. -/
def all : StageSet := ofPredicate fun _ => true

/-- A fresh walk stops on first arrival only. -/
instance : Inhabited StageSet := ⟨ofList [.enter]⟩

end StageSet

end IntervalDag
