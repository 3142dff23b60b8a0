import IntervalDag.Proofs.Operator.Algebraic

/-!
# Evaluation and propagation in exact arithmetic

Evaluation goes over an expression with numbers, forward propagation with intervals, each by implementations of
the operators of its own. In exact arithmetic the two agree on expressions of algebraic operators: where evaluation
is defined, a pass finds the values in the activities (`Workspace.activities_hold_values`). A pass that finds a
contradiction therefore shows that evaluation is defined nowhere within the variable bounds.
-/

namespace IntervalDag

open Exact

section

variable [BitPattern Exact]

/-- Below a node with algebraic operators only, values at real points are real, and ranges hold them. -/
theorem Graph.enclosesBelow_of_isAlgebraic {g : Graph Exact} {settings : Settings Exact} {root : NodeId}
    (hhandler : g.operators.handler = .default settings)
    (hkinds : ∀ n node, g.arena.Below n root → g.arena.node? n = some node → node.kind.IsAlgebraic)
    (x : VarId → Option ℝ) : g.EnclosesBelow (point x) IsReal root := by
  intro n node operands v hn hnode hoperands hv
  rw [handlerFor, OperatorTable.forKind, hhandler] at hv ⊢
  exact Handler.enclosesAt_default settings (hkinds n node hn hnode) (fun _ _ => isReal_of_point) hoperands hv

namespace Workspace

/-- **Activities hold values.** Take the operators' own handlers and a root with algebraic operators only at and
below it. At a real point within the variable bounds where the root evaluates to a value, a pass at the start of a
round finds no contradiction, and every node has a value that the activity then cached on it holds. So if a pass
finds a contradiction, the root has no value anywhere within the bounds. -/
theorem activities_hold_values (settings : Settings Exact) (identity : Nat) (store : BoundTable Exact)
    {cs : List (Command Exact)} {w : Workspace Exact} (hrun : (new settings identity store).serveAll cs = .ok w)
    {settings' : Settings Exact} (hhandler : w.state.graph.operators.handler = .default settings') {root : NodeId}
    (hkinds : ∀ n node, w.state.graph.arena.Below n root → w.state.graph.arena.node? n = some node →
      node.kind.IsAlgebraic) :
    (∀ x g v, (point x).Within w.state.store.bounds →
      w.state.graph.evaluate root (point x) = .ok (g, some v) →
        ∃ f s', (Propagation.freshPass root).run { w.state with graph := g } = .ok f s' ∧ f.infeasible = false ∧
          ∀ n, g.arena.Below n root → ∃ u activity, g.value? n = .ok (some u) ∧
            s'.graph.activity n = .ok activity ∧ u ∈ activity) ∧
    ∀ f s', (Propagation.freshPass root).run w.state = .ok f s' → f.infeasible = true →
      ∀ x g v, (point x).Within w.state.store.bounds →
        w.state.graph.evaluate root (point x) ≠ .ok (g, some v) := by
  have hresting := resting_of_serveAll (.empty settings identity) hrun
  have hencloses := Graph.enclosesBelow_of_isAlgebraic hhandler hkinds
  have hevaluated : ∀ {x g v}, w.state.graph.evaluate root (point x) = .ok (g, some v) →
      w.state.graph.Evaluates (point x) root (some v) ∧ w.state.graph.Valued g ∧ g.walks.taken = [] ∧
        g.TagsGiven ∧ ∀ n, w.state.graph.arena.Below n root →
          w.state.graph.Evaluates (point x) n (g.cached n) := by
    intro x g v hg
    have hmeets : Meets (w.state.graph.evaluate root (point x)) () (fun _ => True) _ :=
      Graph.meets_evaluate hresting.tagsGiven (Or.inr fun _ => trivial)
    rw [hg] at hmeets
    exact hresting.taken_eq ▸ hmeets
  refine ⟨fun x g v hpoint hg => ?_, fun f s' hpass hinfeasible x g v hpoint hg => ?_⟩
  · obtain ⟨hv, hvalued, htaken, htags, hcached⟩ := hevaluated hg
    have hterms := hvalued.sameTerms
    have hkinds' : ∀ n node, g.arena.Below n root → g.arena.node? n = some node → node.kind.IsAlgebraic := by
      intro n node hn hnode
      obtain ⟨node', hnode', hkind, -⟩ := hterms.symm.exists_node? hnode
      rw [hterms.children.below_eq] at hn
      exact hkind ▸ hkinds n node' hn hnode'
    obtain ⟨f, s', hpass, hfeasible, hactivity⟩ := Propagation.freshPass_encloses
      (s := { w.state with graph := g }) (Graph.Advanced.of_valued hresting.dated hvalued).dated htags htaken
      (hv.sameTerms hterms) (Graph.enclosesBelow_of_isAlgebraic (hterms.handler_eq ▸ hhandler) hkinds' x) hpoint
    refine ⟨f, s', hpass, hfeasible, fun n hn => ?_⟩
    have hn' : w.state.graph.arena.Below n root := by rwa [hterms.children.below_eq] at hn
    obtain ⟨u, hu⟩ := hv.exists_some_of_below hn'
    have hvalue : g.cached n = some u := (hcached n hn').unique hu
    obtain ⟨activity, hrange, hmem⟩ := hactivity n u hn (hu.sameTerms hterms)
    refine ⟨u, activity, ?_, hrange, hmem⟩
    rw [← hvalue]
    exact Graph.value?_eq_cached (hterms.isAlive_eq ▸ hu.isAlive)
  · obtain ⟨hv, -⟩ := hevaluated hg
    obtain ⟨f', s₁, hpass', hfeasible, -⟩ := Propagation.freshPass_encloses hresting.dated hresting.tagsGiven
      hresting.taken_eq hv (hencloses x) hpoint
    rw [hpass] at hpass'
    cases hpass'
    rw [hinfeasible] at hfeasible
    cases hfeasible

end Workspace

/-! ### A reciprocal square -/

/-- A graph of the variable zero and its reciprocal square. -/
structure Graph.Reciprocal (g : Graph Exact) : Prop where
  arena : g.arena =
    ⟨#[{ Node.fresh (.var 0) [] 1 with refs := 2 }, .fresh (.pow (real (-2 : ℤ))) [0] 1], []⟩
  handler : ∃ settings, g.operators.handler = .default settings

namespace Graph.Reciprocal

variable {g : Graph Exact} {n : NodeId}

theorem node?_zero (h : g.Reciprocal) : g.arena.node? 0 = some { Node.fresh (.var 0) [] 1 with refs := 2 } := by
  rw [h.arena]
  rfl

theorem node?_one (h : g.Reciprocal) : g.arena.node? 1 = some (.fresh (.pow (real (-2 : ℤ))) [0] 1) := by
  rw [h.arena]
  rfl

theorem isAlgebraic (h : g.Reciprocal) {node : Node Exact} (hn : g.arena.node? n = some node) :
    node.kind.IsAlgebraic := by
  rw [h.arena] at hn
  rcases n with _ | _ | n
  · obtain rfl := Option.some.inj hn
    trivial
  · obtain rfl := Option.some.inj hn
    change (Scalar.integral? _).isSome = true
    rw [integral?_real (by decide)]
    rfl
  · cases hn

theorem evaluates (h : g.Reciprocal) {x : VarId → Option ℝ} (hx : x 0 = some 2) :
    g.Evaluates (point x) 1 (some (real (2 ^ (-2 : ℤ)))) := by
  obtain ⟨settings, hhandler⟩ := h.handler
  have hzero : g.Evaluates (point x) 0 (some (real 2)) := by
    refine @Graph.Evaluates.node _ _ _ _ _ (fun _ => none) _ (by rw [h.arena]; rfl) h.node?_zero nofun ?_
    change (g.operators.handler .var).eval (.var 0) [] (point x) = _
    rw [hhandler]
    exact congrArg (fun r => Except.ok (r.map real)) hx
  refine @Graph.Evaluates.node _ _ _ _ _ (fun _ => some (real 2)) _ (by rw [h.arena]; rfl) h.node?_one
    (fun c hc => ?_) ?_
  · obtain rfl : c = 0 := List.mem_singleton.mp hc
    exact hzero
  · change (g.operators.handler .pow).eval (.pow (real (-2 : ℤ))) [real 2] (point x) = _
    rw [hhandler]
    change Except.ok (if Scalar.isFinite (Scalar.pow (real 2) (real (-2 : ℤ))) = true then _ else none) = _
    have hfinite : Scalar.isFinite (real (2 ^ (-2 : ℤ))) = true :=
      isFinite_number.mpr ⟨EReal.coe_ne_bot _, EReal.coe_ne_top _⟩
    rw [pow_real_int (by norm_num), if_pos hfinite]

end Graph.Reciprocal

end

namespace Workspace

/-- The variable lies between -1 and 3. Where it is 2, the pass finds the value in the activity of its reciprocal
square, although the variable's domain has the pole inside. -/
theorem activities_hold_values_of_reciprocal :
    let _ : BitPattern Exact := ⟨fun _ => 0, fun _ => 0⟩
    let cs : List (Command Exact) := [.request (.var 0), .request (.add (.pow (real (-2 : ℤ))) [0])]
    let x : VarId → Option ℝ := fun v => if v = 0 then some 2 else none
    ∃ w g v f s', (new default 0 (.ofList [⟨real (-1), real 3⟩])).serveAll cs = .ok w ∧
      (point x).Within w.state.store.bounds ∧ w.state.graph.evaluate 1 (point x) = .ok (g, some v) ∧
      (Propagation.freshPass 1).run { w.state with graph := g } = .ok f s' ∧ f.infeasible = false ∧
      ∃ u activity, g.value? 1 = .ok (some u) ∧ s'.graph.activity 1 = .ok activity ∧ u ∈ activity := by
  intro _ cs x
  obtain ⟨w, hrun, hgraph, hstore⟩ : ∃ w, (new default 0 (.ofList [⟨real (-1), real 3⟩])).serveAll cs = .ok w ∧
      w.state.graph.Reciprocal ∧ w.state.store = .ofList [⟨real (-1), real 3⟩] := by
    rw [serveAll, List.foldlM_cons, serve_var_new, Checked.ok_bind]
    exact ⟨_, rfl, ⟨rfl, default, rfl⟩, rfl⟩
  have hresting := resting_of_serveAll (.empty default 0) hrun
  have hpoint : (point x).Within w.state.store.bounds := by
    intro v r hr
    rw [hstore]
    by_cases hv : v = 0
    · subst hv
      obtain rfl := Option.some.inj hr
      refine Interval.real_mem_iff.mpr ⟨_, _, rfl, ?_, ?_⟩
      · exact EReal.coe_le_coe_iff.mpr (by norm_num)
      · exact EReal.coe_le_coe_iff.mpr (by norm_num)
    · simp [point, x, hv] at hr
  have hv := hgraph.evaluates (show x 0 = some 2 from rfl)
  have hmeets : Meets (w.state.graph.evaluate 1 (point x)) () NoFault _ :=
    Graph.meets_evaluate hresting.tagsGiven
      (Or.inl ⟨⟨_, hv⟩, SlotPool.lowestFree?_ne_none hresting.taken_eq⟩)
  obtain ⟨⟨g, u⟩, hg, hu, -⟩ := meets_noFault_iff.mp hmeets
  obtain rfl := hu.unique hv
  obtain ⟨f, s', hpass, hfeasible, hactivity⟩ := (activities_hold_values default 0 _ hrun hgraph.handler.choose_spec
    fun n node _ => hgraph.isAlgebraic).1 x g _ hpoint hg
  exact ⟨w, g, _, f, s', hrun, hpoint, hg, hpass, hfeasible, hactivity 1 (.refl _ _)⟩

end Workspace

end IntervalDag
