import IntervalDag.Propagation.State
import IntervalDag.Proofs.Outcome
import IntervalDag.Proofs.Walk.Marks

/-!
# Rules for programs that propagate

What the building blocks of propagation come to, as equivalences to rewrite with. Together with the rules of
`Proofs/Outcome` they run a step of propagation symbolically: what is left are the states that it goes
through.
-/

namespace IntervalDag.Propagation

variable {σ α β : Type} {s : Propagation σ α} {E : Fault α → Prop}

/-- What a run of a program shows. -/
theorem meets_iff_run {x : PropagationM σ α β} {Q : β → Propagation σ α → Prop} :
    Meets x s E Q ↔ match x.run s with
      | .ok b s' => Q b s'
      | .error e _ => E e := by
  simp only [Meets, Observed.observe]
  cases x.run s <;> rfl

/-- A program with a result ends in a state. -/
theorem exists_run_of_result {x : PropagationM σ α β} {b : β} (h : x.run' s = some b) : ∃ s', x.run s = .ok b s' := by
  delta EStateM.run' at h
  cases hrun : x.run s with
  | ok b' s' =>
    rw [hrun] at h
    exact ⟨s', congrArg (EStateM.Result.ok · s') (Option.some.inj h)⟩
  | error e s' =>
    rw [hrun] at h
    cases h

@[simp] theorem meets_get {Q : Propagation σ α → Propagation σ α → Prop} :
    Meets (get : PropagationM σ α _) s E Q ↔ Q s s := Iff.rfl

@[simp] theorem meets_modify {f : Propagation σ α → Propagation σ α}
    {Q : Unit → Propagation σ α → Prop} :
    Meets (modify f : PropagationM σ α _) s E Q ↔ Q () (f s) := Iff.rfl

@[simp] theorem meets_check {c : Checked α β} {Q : β → Propagation σ α → Prop} :
    Meets (check c : PropagationM σ α β) s E Q ↔ Meets c () E fun b _ => Q b s := by
  cases c <;> rfl

@[simp] theorem meets_record {r : LogRecord α} {Q : Unit → Propagation σ α → Prop} :
    Meets (record r) s E Q ↔ Q () { s with records := r :: s.records } := Iff.rfl

@[simp] theorem meets_modifyGraph {f : Graph α → Graph α} {Q : Unit → Propagation σ α → Prop} :
    Meets (modifyGraph f) s E Q ↔ Q () { s with graph := f s.graph } := Iff.rfl

@[simp] theorem meets_modifyPropagator {f : Propagator → Propagator}
    {Q : Unit → Propagation σ α → Prop} :
    Meets (modifyPropagator f) s E Q ↔ Q () { s with propagator := f s.propagator } := Iff.rfl

@[simp] theorem meets_modifyStats {f : PropagationStats → PropagationStats}
    {Q : Unit → Propagation σ α → Prop} :
    Meets (modifyStats f) s E Q ↔
      Q () { s with propagator := { s.propagator with stats := f s.propagator.stats } } := Iff.rfl

@[simp] theorem meets_markInfeasible {Q : Unit → Propagation σ α → Prop} :
    Meets markInfeasible s E Q ↔
      Q () { s with propagator := { s.propagator with infeasible := true } } := Iff.rfl

/-- A report changes which handlers have reported, and may be recorded. -/
theorem meets_takeNoted_of_suffix {op : Op} {n : Noted α β} {Q : β → Propagation σ α → Prop}
    (hQ : ∀ reported records, s.records <:+ records → Q n.value { s with
      graph := { s.graph with operators := ⟨s.graph.operators.handler, reported⟩ }, records }) :
    Meets (takeNoted op n) s E Q := by
  have hop : (s.graph.operators.report op n.notice).1 =
      ⟨s.graph.operators.handler, (s.graph.operators.report op n.notice).1.hasReported⟩ := by
    rw [← OperatorTable.report_handler s.graph.operators op n.notice]
  rw [takeNoted]
  simp only [meets_bind, meets_get, meets_modifyGraph]
  rw [hop]
  cases (s.graph.operators.report op n.notice).2 with
  | none => exact hQ _ _ (List.suffix_refl _)
  | some notice => exact hQ _ _ (List.suffix_cons _ _)

theorem meets_takeNoted {op : Op} {n : Noted α β} {Q : β → Propagation σ α → Prop}
    (hQ : ∀ reported records, Q n.value { s with
      graph := { s.graph with operators := ⟨s.graph.operators.handler, reported⟩ }, records }) :
    Meets (takeNoted op n) s E Q :=
  meets_takeNoted_of_suffix fun reported records _ => hQ reported records

/-- Bounds are met with those propagated onto a node in the current round, if there are any. -/
theorem meets_inter_propBounds? [Scalar α] {g : Graph α} {n : NodeId} {base : Interval α}
    {Q : Interval α → Unit → Prop} (hn : g.arena.isAlive n = true ∨ E (.accessReleased n))
    (hQ : ∀ node, g.arena.node? n = some node → Q ((g.entryBounds? node).elim base base.inter) ()) :
    Meets (do
      match ← g.propBounds? n with
      | some bounds => return base.inter bounds
      | none => return base) () E Q := by
  rw [Graph.propBounds?, map_eq_pure_bind, bind_assoc]
  refine meets_bind.mpr (Graph.meets_node hn fun node _ hnode => ?_)
  have hmet := hQ node hnode
  simp only [pure_bind]
  cases hbounds : g.entryBounds? node with
  | none =>
    rw [hbounds] at hmet
    exact meets_pure.mpr hmet
  | some bounds =>
    rw [hbounds] at hmet
    exact meets_pure.mpr hmet

end IntervalDag.Propagation
