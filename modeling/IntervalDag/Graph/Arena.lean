import IntervalDag.Interval.Basic

/-!
# The node arena

Nodes live in an arena and are counted by reference. An entry whose count is zero is free: it has no
operands, and its number is on the free list until a new node takes it over. A node keeps, beside its kind
and its operands, what analyses have cached on it and the scratch slots of the walks that pass through
it.

* `Arena.add` makes a node with one reference and takes a reference to each operand.
* `Arena.release` drops a reference. A node that loses its last one is freed and drops its references to
  its operands in turn. It works off an explicit list of pending releases, and each step of it drops one
  reference of the arena's total, which is why it ends.
-/

namespace IntervalDag

variable {α : Type}

/-- The scratch state of one walk on one node. -/
structure Slot where
  /-- The visit tag of the last walk in this slot that finished the node; zero for none. -/
  visited : Nat
  /-- The position of the child that a depth-first walk considers next. -/
  cursor : Nat
  /-- The node from which a depth-first walk came. It is meaningful only while that walk runs. -/
  parent : Option NodeId
  /-- A word at the disposal of the walk's owner. -/
  userData : UInt64
  deriving DecidableEq, Repr

instance : Inhabited Slot := ⟨⟨0, 0, none, 0⟩⟩

/-- A node with everything that is kept on it. -/
structure Node (α : Type) where
  /-- The operator and its data. -/
  kind : Kind α
  /-- The operands, in order. -/
  children : List NodeId
  /-- The number of references; zero marks a free entry. -/
  refs : Nat
  /-- The range last computed, narrowed by what was propagated since. -/
  activity : Interval α
  /-- The epoch of the bounds that the activity was computed from. -/
  activityTag : Nat
  /-- The bounds last propagated onto the node. -/
  propBounds : Interval α
  /-- The round in which they were. -/
  propTag : Nat
  /-- Whether the node waits for reverse propagation. -/
  queued : Bool
  /-- The result of the last evaluation that reached the node. -/
  value : Option α
  /-- The scratch slots that were written so far. -/
  slots : Array Slot

namespace Node

variable [Scalar α]

/-- An entry of which nothing is cached. -/
def fresh (kind : Kind α) (children : List NodeId) (refs : Nat) : Node α where
  kind := kind
  children := children
  refs := refs
  activity := .entire
  activityTag := 0
  propBounds := .entire
  propTag := 0
  queued := false
  value := none
  slots := #[]

/-- A free entry. -/
def free : Node α := fresh (.value 0) [] 0

omit [Scalar α] in
/-- The scratch slot at a position. One that was never written is blank. -/
def slot (n : Node α) (i : Nat) : Slot := n.slots[i]?.getD default

omit [Scalar α] in
/-- Changes the scratch slot at a position, adding blank slots below it as needed. -/
def modifySlot (n : Node α) (i : Nat) (f : Slot → Slot) : Node α :=
  let padding := Array.replicate (i + 1 - n.slots.size) default
  { n with slots := (n.slots ++ padding).modify i f }

end Node

/-- Nodes by number, and the numbers of the free entries, next one to be taken first. -/
structure Arena (α : Type) where
  /-- All entries, in use or free. -/
  nodes : Array (Node α)
  /-- The free entries. -/
  free : List NodeId

namespace Arena

/-- The arena without entries. -/
def empty : Arena α := ⟨#[], []⟩

instance : Inhabited (Arena α) := ⟨empty⟩

/-- The number of entries, in use or free. -/
def capacity (a : Arena α) : Nat := a.nodes.size

/-- The number of nodes in use. -/
def count (a : Arena α) : Nat := a.nodes.size - a.free.length

/-- The entry of a number, in use or free. -/
def node? (a : Arena α) (n : NodeId) : Option (Node α) := a.nodes[n]?

/-- The number of references to a node; zero when there is no such node. -/
def refs (a : Arena α) (n : NodeId) : Nat := (a.node? n).elim 0 (·.refs)

/-- Whether a node is in use. -/
def isAlive (a : Arena α) (n : NodeId) : Bool := 0 < a.refs n

/-- The entry of a number, or the fault that it is outside the arena. -/
def get (a : Arena α) (n : NodeId) : Checked α (Node α) :=
  match a.node? n with
  | some node => .ok node
  | none => .error .outOfRange

/-- The operands of an entry. -/
def children (a : Arena α) (n : NodeId) : Checked α (List NodeId) := (·.children) <$> a.get n

/-- Replaces the entry of a number, if there is one. -/
def set (a : Arena α) (n : NodeId) (node : Node α) : Arena α :=
  { a with nodes := a.nodes.setIfInBounds n node }

/-- Changes the entry of a number, if there is one. -/
def modify (a : Arena α) (n : NodeId) (f : Node α → Node α) : Arena α :=
  { a with nodes := a.nodes.modify n f }

/-- Replacing an entry leaves all others. -/
theorem node?_set (a : Arena α) (n k : NodeId) (node : Node α) :
    (a.set n node).node? k = if k = n ∧ n < a.capacity then some node else a.node? k := by
  unfold node? set capacity
  simp only [Array.getElem?_setIfInBounds]
  grind

/-- Changing an entry leaves all others. -/
theorem node?_modify (a : Arena α) (n k : NodeId) (f : Node α → Node α) :
    (a.modify n f).node? k = if k = n then (a.node? k).map f else a.node? k := by
  unfold node? modify
  simp only [Array.getElem?_modify]
  grind

@[simp] theorem capacity_set (a : Arena α) (n : NodeId) (node : Node α) :
    (a.set n node).capacity = a.capacity := by simp [capacity, set]

@[simp] theorem capacity_modify (a : Arena α) (n : NodeId) (f : Node α → Node α) :
    (a.modify n f).capacity = a.capacity := by simp [capacity, modify]

/-- Changes the entry of a number, which must be inside the arena. -/
def update (a : Arena α) (n : NodeId) (f : Node α → Node α) : Checked α (Arena α) :=
  if n < a.nodes.size then .ok (a.modify n f) else .error .outOfRange

/-- The number of operand positions in the whole arena. -/
def edgeCount (a : Arena α) : Nat := a.nodes.foldl (fun k node => k + node.children.length) 0

/-! ### References -/

/-- Takes a reference to a node, which must be in use. -/
def capture (a : Arena α) (n : NodeId) : Checked α (Arena α) :=
  if a.isAlive n then .ok (a.modify n fun node => { node with refs := node.refs + 1 })
  else .error (.captureReleased n)

/-- Makes a node with one reference, and takes a reference to each operand. The number freed last is
used first. -/
def add [Scalar α] (a : Arena α) (kind : Kind α) (children : List NodeId) :
    Checked α (NodeId × Arena α) := do
  let a ← children.foldlM capture a
  let node := Node.fresh kind children 1
  match a.free with
  | n :: free => return (n, { a.set n node with free })
  | [] => return (a.nodes.size, { a with nodes := a.nodes.push node })

/-- Appends an operand to a node, taking a reference to it. -/
def pushChild (a : Arena α) (parent child : NodeId) : Checked α (Arena α) := do
  (← a.capture child).update parent fun node => { node with children := node.children ++ [child] }

/-- The number of all references. -/
def totalRefs (a : Arena α) : Nat := a.nodes.toList.foldr (fun node total => node.refs + total) 0

theorem foldr_refs_set {nodes : List (Node α)} {i : Nat} {old : Node α} (new : Node α) (h : nodes[i]? = some old) :
    (nodes.set i new).foldr (fun node total => node.refs + total) 0 + old.refs =
      nodes.foldr (fun node total => node.refs + total) 0 + new.refs := by
  induction nodes generalizing i with
  | nil => simp at h
  | cons node nodes ih =>
    cases i with
    | zero =>
      simp only [List.getElem?_cons_zero, Option.some.injEq] at h
      simp only [List.set_cons_zero, List.foldr_cons, h]
      omega
    | succ i =>
      have := ih (by simpa using h)
      simp only [List.set_cons_succ, List.foldr_cons]
      omega

/-- Replacing an entry changes the total by the difference of the two counts. -/
theorem totalRefs_set {a : Arena α} {n : NodeId} {old : Node α} (new : Node α)
    (h : a.node? n = some old) : (a.set n new).totalRefs + old.refs = a.totalRefs + new.refs := by
  unfold totalRefs set
  have h : a.nodes.toList[n]? = some old := by simpa [node?] using h
  rw [Array.toList_setIfInBounds]
  exact foldr_refs_set new h

/-- Frees the entry of a number. -/
def recycle [Scalar α] (a : Arena α) (n : NodeId) : Arena α :=
  { nodes := a.nodes.setIfInBounds n .free, free := n :: a.free }

/-- Drops one reference to each pending node, the first one first. The operands of a node that is freed
are released next, the last one first. The freed nodes are listed with the kinds they had, last one
first. -/
def releaseAll [Scalar α] (a : Arena α) (freed : List (NodeId × Kind α)) :
    List NodeId → Checked α (Arena α × List (NodeId × Kind α))
  | [] => .ok (a, freed)
  | n :: pending =>
    match _h : a.node? n with
    | none => .error (.releaseReleased n)
    | some node =>
      if node.refs = 0 then .error (.releaseReleased n)
      else if node.refs = 1 then
        releaseAll (a.recycle n) ((n, node.kind) :: freed) (node.children.reverse ++ pending)
      else releaseAll (a.set n { node with refs := node.refs - 1 }) freed pending
termination_by a.totalRefs
decreasing_by
  · have := totalRefs_set (Node.free : Node α) _h
    have : (a.recycle n).totalRefs = (a.set n .free).totalRefs := rfl
    simp only [Node.free, Node.fresh] at *
    omega
  · have := totalRefs_set { node with refs := node.refs - 1 } _h
    simp only at this
    omega

/-- Drops one reference to a node. Answers with the nodes freed, in the order in which they were, and
the kinds they had. -/
def release [Scalar α] (a : Arena α) (n : NodeId) :
    Checked α (Arena α × List (NodeId × Kind α)) := do
  let (a, freed) ← a.releaseAll [] [n]
  return (a, freed.reverse)

/-! ### Scratch slots -/

/-- The scratch slot of a node for the walks that hold slot `i`. -/
def slot (a : Arena α) (n : NodeId) (i : Nat) : Checked α Slot := (·.slot i) <$> a.get n

/-- Changes the scratch slot of a node for the walks that hold slot `i`. -/
def modifySlot (a : Arena α) (n : NodeId) (i : Nat) (f : Slot → Slot) : Checked α (Arena α) :=
  a.update n (·.modifySlot i f)

end Arena

end IntervalDag
