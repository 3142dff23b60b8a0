import IntervalDag.Proofs.Analysis.Evaluation
import IntervalDag.Proofs.Propagation.ForwardPass
import IntervalDag.Proofs.Walk.Postorder

/-!
# Expressions written out

`Graph.unfold` writes the expression at a node out as a tree, with what is shared repeated. What an analysis is to
answer is said by plain recursion over such trees: `Expression.value`, `Expression.constant`, `Expression.digest` and
`Expression.curvature` are folds.

A fold meets the fault that it comes to first, from left to right and operands first. So a pass that visits shared
nodes once, but in the order of `Postorder`, meets the same one (`Pending.eq_error`).
-/

namespace IntervalDag

variable {α β : Type}

/-- An expression. -/
inductive Expression (α : Type) where
  /-- An operator with the activity cached on it, over operands. -/
  | node (kind : Kind α) (activity : Interval α) (operands : List (Expression α))

namespace Expression

/-- The activity cached at the top. -/
def activity : Expression α → Interval α
  | .node _ activity _ => activity

/-! ### Folds -/

mutual

/-- The result of an expression, where `step` makes that of an operator from the activities and the results of its
operands. -/
def fold (step : Kind α → List (Interval α) → List β → Checked α β) : Expression α → Checked α β
  | .node kind _ operands => do
    let results ← foldAll step operands
    step kind (operands.map activity) results

/-- The results of expressions. -/
def foldAll (step : Kind α → List (Interval α) → List β → Checked α β) :
    List (Expression α) → Checked α (List β)
  | [] => .ok []
  | e :: es => do
    let result ← fold step e
    let results ← foldAll step es
    return result :: results

end

theorem foldAll_eq_mapM {step : Kind α → List (Interval α) → List β → Checked α β} (es : List (Expression α)) :
    foldAll step es = es.mapM (fold step) := by
  induction es with
  | nil => rfl
  | cons e es ih => rw [foldAll, ih, List.mapM_cons]

/-! ### What analyses answer -/

variable (handlers : Kind α → Handler α)

/-- The value at a point. There is none where an operand has none. -/
def value (point : Point α) : Expression α → Checked α (Option α) :=
  fold fun kind _ operands =>
    match Handler.allValues operands with
    | none => .ok none
    | some values => (handlers kind).eval kind values point

/-- The constant that an expression is. One that is not a number does not count. -/
def constant [Scalar α] : Expression α → Checked α (Option α) :=
  fold fun kind _ constants => Option.filter (fun v => !Scalar.isNaN v) <$> (handlers kind).simplify kind constants

/-- The digest. -/
def digest (mix : List UInt64 → UInt64) : Expression α → Checked α UInt64 :=
  fold fun kind _ digests => (handlers kind).digest mix kind digests

/-- The curvature over the activities that are cached. -/
def curvature : Expression α → Checked α Curvature :=
  fold fun kind activities curvatures => (handlers kind).curvature kind curvatures activities

end Expression

/-! ### Graphs -/

namespace Graph

variable [Scalar α]

/-- The kind of an entry. -/
def kindAt (g : Graph α) (n : NodeId) : Kind α := (g.arena.node? n).elim (.value 0) (·.kind)

/-- The expression at a node, written out. -/
def unfold (g : Graph α) (h : g.arena.Acyclic) (n : NodeId) : Expression α :=
  .node (g.kindAt n) (g.activityAt n) ((g.arena.operands n).attach.map fun c => g.unfold h c.1)
termination_by h.wrap n
decreasing_by exact c.2

variable (g : Graph α) (h : g.arena.Acyclic)

theorem unfold_eq (n : NodeId) :
    g.unfold h n = .node (g.kindAt n) (g.activityAt n) ((g.arena.operands n).map (g.unfold h)) := by
  rw [unfold, List.attach_map_val]

/-- The fold over the expression at a node, from those at its operands. -/
theorem fold_unfold (step : Kind α → List (Interval α) → List β → Checked α β) (n : NodeId) :
    (g.unfold h n).fold step = (g.arena.operands n).mapM (fun c => (g.unfold h c).fold step) >>=
      step (g.kindAt n) ((g.arena.operands n).map g.activityAt) := by
  have hactivity : ∀ c, (g.unfold h c).activity = g.activityAt c := fun c => by
    rw [unfold_eq]
    rfl
  rw [unfold_eq, Expression.fold, Expression.foldAll_eq_mapM, List.mapM_map, List.map_map]
  simp only [Function.comp_def, hactivity]

end Graph

/-! ### Faults -/

section Faults

variable {f : NodeId → Checked α β} {operands : NodeId → List NodeId} {done : NodeId → Prop} {root n : NodeId}
  {rest : List (NodeId × Nat)} {e : Fault α}

/-- **The first fault** of a recursion over operands is met at the root. -/
theorem Pending.eq_error {combine : NodeId → List β → Checked α β}
    (hf : ∀ n, f n = (operands n).mapM f >>= combine n) (h : Pending operands done root n rest)
    (hdone : ∀ m, done m → ∃ b, f m = .ok b) (hn : f n = .error e) : f root = .error e := by
  induction h with
  | root => exact hn
  | @child m n c rest _ hop hleft ih =>
    refine ih ?_
    rw [hf m, Checked.mapM_eq_error hop (fun j d hj hd => hdone d (hleft j d hj hd)) hn]
    rfl

end Faults

end IntervalDag
