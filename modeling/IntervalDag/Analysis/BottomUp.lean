import IntervalDag.Walk.Basic

/-!
# Analyses from the leaves up

Three analyses compute a result for each node from the results for its operands: constant folding, the
digest of an expression, and its curvature. They share one pass. It walks depth first and, on leaving a
node, keeps the node's result as a word in the walk's own scratch slot. A shared node is visited once.

Curvature reads the cached activities, so forward propagation is run first when it should reflect the
current variable bounds. So does the monotonicity of a node in one operand, which needs no walk.
-/

namespace IntervalDag.Graph

variable {α : Type}

/-- The word of a root, where `combine` makes the word of a node from those of its operands. -/
def bottomUp (g : Graph α) (root : NodeId)
    (combine : Graph α → NodeId → List UInt64 → Checked α UInt64) :
    Checked α (Graph α × UInt64) := do
  let w := { g.newWalk with stops := .ofList [.leave] }
  let (w, g) ← w.start g (some root) .depthFirst false
  let (w, g, _) ← w.visitAll
    (fun w n (g, _) => do
      let words ← (← g.children n).mapM (w.userData g)
      let word ← combine g n words
      return (← w.setUserData g n word, ()))
    g ()
  let word ← w.userData g root
  return (w.finish g, word)

/-! ### Constant folding -/

/-- The word for a node that is not constant. -/
def notConstant : UInt64 := 0xffffffffffffffff

/-- The constant that a word stands for. Words of values that are not numbers stand for none. -/
def constantOfWord [Scalar α] [BitPattern α] (word : UInt64) : Option α :=
  let value : α := BitPattern.ofBits word
  if word = notConstant ∨ Scalar.isNaN value = true then none else some value

/-- The word for a constant, or for there being none. -/
def wordOfConstant [BitPattern α] (constant : Option α) : UInt64 :=
  constant.elim notConstant BitPattern.toBits

/-- The value of an expression that depends on no variable. -/
def foldConstant [Scalar α] [BitPattern α] (g : Graph α) (root : NodeId) :
    Checked α (Graph α × Option α) := do
  let (g, word) ← g.bottomUp root fun g n words => do
    let kind ← g.kind n
    return wordOfConstant (← (g.handlerFor kind).simplify kind (words.map constantOfWord))
  return (g, constantOfWord word)

/-! ### Digests -/

/-- The digest of an expression, words being mixed by a given function. Expressions that differ only in
the order of terms and factors have one digest. -/
def digest (mix : List UInt64 → UInt64) (g : Graph α) (root : NodeId) :
    Checked α (Graph α × UInt64) :=
  g.bottomUp root fun g n words => do
    let kind ← g.kind n
    (g.handlerFor kind).digest mix kind words

/-! ### Shape -/

/-- The curvature of an expression over the activities cached below it. -/
def curvature (g : Graph α) (root : NodeId) : Checked α (Graph α × Curvature) := do
  let (g, word) ← g.bottomUp root fun g n words => do
    let activities ← g.childActivities n
    let kind ← g.kind n
    return (← (g.handlerFor kind).curvature kind (words.map Curvature.ofCode) activities).code
  return (g, Curvature.ofCode word)

/-- The monotonicity of a node in the operand at a position, over the activities cached on its
operands. -/
def monotonicity (g : Graph α) (n : NodeId) (child : Nat) : Checked α Monotonicity := do
  if (← g.children n).length ≤ child then throw (.noChild n child)
  let activities ← g.childActivities n
  let kind ← g.kind n
  (g.handlerFor kind).monotonicity kind child activities

end IntervalDag.Graph
