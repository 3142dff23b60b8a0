import IntervalDag.Fifo
import IntervalDag.Graph.Basic
import IntervalDag.Loop

/-!
# Walks

A `Walk` visits the nodes below a root and can be resumed: it hands out one node at a time, and between
two steps the graph may be read and its caches changed. It keeps its own stack or queue. What it knows
about a node, such as the child to consider next and the way back, is in the node's scratch slot at the
walk's slot index, which it leases from the graph.

* Without revisits every node is visited at most once per walk, which the walk's own visit tag records.
  With revisits a shared node is visited once per way to it, and the visit tag is zero.
* A depth-first walk stops at the selected stages of each node (`Stage`), and can skip what is left of a
  node or restart elsewhere with its visit tag kept.
* Every function that takes a step returns the walk and the graph after it. The node reached is the
  walk's `current` one.

No order of walking recurses over the depth of the expression.
-/

namespace IntervalDag

variable {α : Type}

/-- A walk, suspended between two steps. -/
structure Walk where
  /-- The identity of the graph that the walk belongs to. -/
  home : Nat
  /-- The order of the walk. -/
  mode : Mode
  /-- The node the walk stands at; none before the start and after the end. -/
  current : Option NodeId
  /-- The slot that the walk has leased. -/
  slot : Option Nat
  /-- The tag of the nodes this walk has finished; zero when revisits are allowed. -/
  visitTag : Nat
  /-- The stage of a depth-first walk at its current node. -/
  stage : Stage
  /-- The stages at which a depth-first walk stops. -/
  stops : StageSet
  /-- The pending nodes of a reverse topological walk with the position of their next child, innermost
  first. -/
  stack : List (NodeId × Nat)
  /-- The frontier of a breadth-first walk. -/
  queue : Fifo NodeId

/-- A walk that has not started. -/
def Graph.newWalk (g : Graph α) : Walk where
  home := g.identity
  mode := .depthFirst
  current := none
  slot := none
  visitTag := 0
  stage := .enter
  stops := default
  stack := []
  queue := .empty

/-- The exponent of a number of steps in which every walk over a graph without cycles ends: the ways
down from a root are at most two to the number of operand positions. -/
def Graph.walkExponent (g : Graph α) : Nat := g.arena.edgeCount + 3

namespace Walk

/-! ### Slots and tags -/

/-- The slot that a walk holds, which it must. -/
def slotIndex (w : Walk) : Checked α Nat :=
  match w.slot with
  | some i => .ok i
  | none => .error .noSlot

/-- Whether a walk may visit nodes again. -/
def allowsRevisits (w : Walk) : Bool := w.visitTag == 0

/-- Whether a node was finished in this walk; never, when revisits are allowed. -/
def isVisited (w : Walk) (g : Graph α) (n : NodeId) : Checked α Bool :=
  if w.allowsRevisits then .ok false
  else do return (← g.arena.slot n (← w.slotIndex)).visited == w.visitTag

/-- Changes the scratch slot of a node. -/
def modifySlot (w : Walk) (g : Graph α) (n : NodeId) (f : Slot → Slot) : Checked α (Graph α) := do
  return { g with arena := ← g.arena.modifySlot n (← w.slotIndex) f }

/-- Marks a node as finished in this walk. -/
def markVisited (w : Walk) (g : Graph α) (n : NodeId) : Checked α (Graph α) :=
  if w.allowsRevisits then .ok g
  else w.modifySlot g n fun slot => { slot with visited := w.visitTag }

/-! ### Depth first -/

/-- The position of the first of some children, counted from a cursor, that was not finished in this
walk. If there is none it is the position behind the last. -/
def skipVisited (w : Walk) (g : Graph α) : List NodeId → Nat → Checked α Nat
  | [], cursor => .ok cursor
  | child :: children, cursor => do
    if ← w.isVisited g child then w.skipVisited g children (cursor + 1) else return cursor

/-- Moves the cursor of a node to the next child that was not finished in this walk. The walk is about to
visit that child or, if there is none, to leave the node. -/
def selectChild (w : Walk) (g : Graph α) (n : NodeId) : Checked α (Walk × Graph α) := do
  let i ← w.slotIndex
  let children ← g.arena.children n
  let cursor := (← g.arena.slot n i).cursor
  let cursor ← w.skipVisited g (children.drop cursor) cursor
  let g ← w.modifySlot g n fun slot => { slot with cursor }
  return ({ w with stage := if cursor < children.length then .visitingChild else .leave }, g)

/-- Goes to a node as a child of another one, or as a root. -/
def arrive (w : Walk) (g : Graph α) (parent : Option NodeId) (n : NodeId) :
    Checked α (Walk × Graph α) := do
  let g ← w.modifySlot g n fun slot => { slot with cursor := 0, parent }
  return ({ w with current := some n, stage := .enter }, g)

/-- Goes from one stage of a node to the next stage, at this node or at a neighbour. -/
def depthFirstStep (w : Walk) (g : Graph α) (n : NodeId) : Checked α (Walk × Graph α) := do
  match w.stage with
  | .enter => w.selectChild g n
  | .visitingChild =>
    let cursor := (← g.arena.slot n (← w.slotIndex)).cursor
    w.arrive g (some n) (← Checked.get (← g.arena.children n) cursor)
  | .visitedChild =>
    let g ← w.modifySlot g n fun slot => { slot with cursor := slot.cursor + 1 }
    w.selectChild g n
  | .leave =>
    let g ← w.modifySlot g n fun slot =>
      { slot with visited := if w.allowsRevisits then slot.visited else w.visitTag }
    let slot ← g.arena.slot n (← w.slotIndex)
    return ({ w with current := slot.parent, stage := .visitedChild }, g)

/-- A step of a depth-first walk that goes on until a selected stage or the end. -/
def depthFirstTurn : Walk × Graph α → Checked α (Turn (Walk × Graph α) (Walk × Graph α))
  | (w, g) =>
    match w.current with
    | none => .ok (.done (w, g))
    | some n => do
      let (w, g) ← w.depthFirstStep g n
      return if w.current.isSome && w.stops.contains w.stage then .done (w, g) else .next (w, g)

/-! ### Breadth first -/

/-- Puts those of a node's children in line that are not in line or finished yet. -/
def enqueue (w : Walk) (g : Graph α) : List NodeId → Checked α (Walk × Graph α)
  | [] => .ok (w, g)
  | child :: children => do
    if ← w.isVisited g child then w.enqueue g children
    else
      let g ← w.markVisited g child
      enqueue { w with queue := w.queue.push child } g children

/-- Goes to the next node in line. -/
def breadthFirstNext (w : Walk) (g : Graph α) : Checked α (Walk × Graph α) := do
  match w.queue.pop? with
  | none => return ({ w with current := none }, g)
  | some (n, queue) => enqueue { w with current := some n, queue } g (← g.arena.children n)

/-! ### Reverse topological -/

/-- A step of a reverse topological walk: it puts the next child of the innermost pending node on the
stack or, when there is none, takes the node off and visits it. -/
def reverseTurn : Walk × Graph α → Checked α (Turn (Walk × Graph α) (Walk × Graph α))
  | (w, g) =>
    match w.stack with
    | [] => .ok (.done ({ w with current := none }, g))
    | (n, cursor) :: stack => do
      match (← g.arena.children n)[cursor]? with
      | none =>
        let w := { w with stack }
        if ← w.isVisited g n then return .next (w, g)
        return .done ({ w with current := some n }, ← w.markVisited g n)
      | some child =>
        let w := { w with stack := (n, cursor + 1) :: stack }
        if ← w.isVisited g child then return .next (w, g)
        return .next ({ w with stack := (child, 0) :: w.stack }, g)

/-! ### Starting and stepping -/

/-- Goes to the next node or stage. -/
def next (w : Walk) (g : Graph α) : Checked α (Walk × Graph α) :=
  let exponent : Walk × Graph α → Checked α Nat := fun (_, g) => .ok g.walkExponent
  match w.mode with
  | .depthFirst => Loop.run α exponent depthFirstTurn (w, g)
  | .breadthFirst => w.breadthFirstNext g
  | .reverseTopological => Loop.run α exponent reverseTurn (w, g)

/-- The fault of asking a walk of another order for something that is depth first. -/
def requireDepthFirst (w : Walk) (request : DepthFirstOnly) : Checked α Unit :=
  if w.mode = .depthFirst then .ok () else .error (.notDepthFirst request w.mode)

/-- Starts a depth-first walk at a root again. The visit tag is kept, so what was finished in this walk is
not entered again below the new root. -/
def restart (w : Walk) (g : Graph α) (root : NodeId) : Checked α (Walk × Graph α) := do
  w.requireDepthFirst .restart
  let (w, g) ← w.arrive g none root
  if w.stops.contains .enter then return (w, g) else w.next g

/-- Skips what is pending in a depth-first walk. On arrival at a node, or back from one of its children,
the rest of the node is dropped and the walk goes on from leaving it. When a child is about to be visited
that child is dropped. -/
def skip (w : Walk) (g : Graph α) : Checked α (Walk × Graph α) := do
  w.requireDepthFirst .skip
  match w.stage with
  | .enter | .visitedChild =>
    let w := { w with stage := .leave }
    if w.stops.contains .leave then return (w, g) else w.next g
  | .visitingChild => next { w with stage := .visitedChild } g
  | .leave => .error .skipAtLeave

/-- Gives the slot back that a walk holds. -/
def releaseSlot (w : Walk) (g : Graph α) : Walk × Graph α :=
  match w.slot with
  | some i => ({ w with slot := none }, { g with walks := g.walks.giveBack i })
  | none => (w, g)

/-- Takes a slot, unless the walk holds one. -/
def leaseSlot (w : Walk) (g : Graph α) : Checked α (Walk × Graph α) :=
  match w.slot with
  | some _ => .ok (w, g)
  | none => do
    let (i, walks) ← g.walks.lease
    return ({ w with slot := some i }, { g with walks })

/-- Takes the tag of a walk without revisits, and none for a walk with revisits. -/
def takeTag (w : Walk) (g : Graph α) (revisits : Bool) : Walk × Graph α :=
  if revisits then ({ w with visitTag := 0 }, g)
  else
    let (visitTag, walks) := g.walks.nextVisitTag
    ({ w with visitTag }, { g with walks })

/-- Starts a walk from a root and goes to its first node. Without a root the walk ends at once.
Depth-first walks and walks without revisits hold a slot from then on, all others none. -/
def start (w : Walk) (g : Graph α) (root : Option NodeId) (mode : Mode) (revisits : Bool) :
    Checked α (Walk × Graph α) := do
  if w.home ≠ g.identity then throw .foreignGraph
  let w := { w with mode, current := none, stack := [], queue := .empty }
  let (w, g) ←
    if mode = .depthFirst ∨ revisits = false then w.leaseSlot g else .ok (w.releaseSlot g)
  let (w, g) := w.takeTag g revisits
  match root, mode with
  | none, _ => return (w, g)
  | some root, .depthFirst => w.restart g root
  | some root, .breadthFirst =>
    let g ← w.markVisited g root
    next { w with queue := w.queue.push root } g
  | some root, .reverseTopological => next { w with stack := [(root, 0)] } g

/-- Ends a walk for good. Its slot is free again. -/
def finish (w : Walk) (g : Graph α) : Graph α := (w.releaseSlot g).2

/-! ### Questions to a suspended walk -/

/-- Whether the walk has ended. -/
def isAtEnd (w : Walk) : Bool := w.current.isNone

/-- The current node, which there must be. -/
def currentNode (w : Walk) : Checked α NodeId :=
  match w.current with
  | some n => .ok n
  | none => .error .atEnd

/-- The current stage of a depth-first walk. -/
def stageOf (w : Walk) : Checked α Stage := do
  w.requireDepthFirst .stage
  return w.stage

/-- The scratch slot of the current node. -/
def currentSlot (w : Walk) (g : Graph α) : Checked α Slot := do
  let n ← w.currentNode
  g.arena.slot n (← w.slotIndex)

/-- The position of the child that a depth-first walk is concerned with. -/
def childIndex (w : Walk) (g : Graph α) : Checked α Nat :=
  if w.mode = .depthFirst ∧ w.stage.isAtChild = true then (·.cursor) <$> w.currentSlot g
  else .error .notAtChild

/-- The child that a depth-first walk is concerned with. -/
def currentChild (w : Walk) (g : Graph α) : Checked α NodeId := do
  let i ← w.childIndex g
  Checked.get (← g.children (← w.currentNode)) i

/-- The node from which a depth-first walk came to the current one; none at the root. -/
def parent (w : Walk) (g : Graph α) : Checked α (Option NodeId) := do
  w.requireDepthFirst .parent
  return (← w.currentSlot g).parent

/-- The word that the walk's slot of a node holds. -/
def userData (w : Walk) (g : Graph α) (n : NodeId) : Checked α UInt64 := do
  return (← g.arena.slot n (← w.slotIndex)).userData

/-- Puts a word into the walk's slot of a node. -/
def setUserData (w : Walk) (g : Graph α) (n : NodeId) (word : UInt64) : Checked α (Graph α) :=
  w.modifySlot g n fun slot => { slot with userData := word }

/-! ### Whole walks -/

/-- Goes on to the end of a walk. At every node or stage reached `visit` may change the graph and a state
of its own. -/
@[specialize] def visitAll {σ : Type} (visit : Walk → NodeId → Graph α × σ → Checked α (Graph α × σ))
    (w : Walk) (g : Graph α) (s : σ) : Checked α (Walk × Graph α × σ) :=
  Loop.run α (fun (_, g, _) => .ok (Graph.walkExponent g))
    (fun (w, g, s) =>
      match w.current with
      | none => .ok (.done (w, g, s))
      | some n => do
        let (g, s) ← visit w n (g, s)
        let (w, g) ← w.next g
        return .next (w, g, s))
    (w, g, s)

end Walk

end IntervalDag
