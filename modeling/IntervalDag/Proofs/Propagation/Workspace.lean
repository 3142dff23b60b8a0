import IntervalDag.Proofs.Graph.Caches
import IntervalDag.Proofs.Propagation.Frames

/-!
# Workspaces

A workspace is a graph with its callers, a table of variable bounds and a propagator. A run of commands to it
may build, propagate and evaluate in any order, change variable bounds and replace handlers.

* `Workspace.resting_of_serveAll`: after every run that met no fault the tags on nodes are in order and no walk
  is open, whatever the callers did.
* `Workspace.tidy_of_serveAll`: if the callers kept to the rules, the graph is sound and fresh activities lie
  above fresh ones.
-/

namespace IntervalDag

variable {α : Type}

/-- A call to a propagator. -/
inductive Call (α : Type) where
  /-- Opens a round. -/
  | beginRound
  /-- Refreshes the stale activities below a root, or with `force` all of them. -/
  | forward (root : NodeId) (force : Bool)
  /-- Meets the bounds of a node with an interval. -/
  | tighten (n : NodeId) (x : Interval α)
  /-- Works off the line of reverse propagation. -/
  | drain
  /-- Propagates constraints in rounds. -/
  | propagate (constraints : List (Constraint α))

/-- Makes a call. Answers whether it reports a contradiction. -/
def Call.run {σ : Type} [Scalar α] [BoundStore σ α] : Call α → PropagationM σ α Bool
  | .beginRound => do
    Propagation.beginRound
    return false
  | .forward root force => return (← Propagation.forward root force).infeasible
  | .tighten n x => return (← Propagation.tighten n x).infeasible
  | .drain => return (← Propagation.drain).infeasible
  | .propagate constraints => return (← Propagation.propagate constraints).infeasible

/-- A command to a workspace. -/
inductive Command (α : Type) where
  /-- Builds, or takes or gives back a reference. -/
  | request (r : Request α)
  /-- Propagates. -/
  | call (c : Call α)
  /-- Changes variable bounds and raises their epoch. -/
  | changeBounds (f : BoundTable α → BoundTable α)
  /-- Evaluates a root at a point. -/
  | evaluate (root : NodeId) (point : Point α)
  /-- Replaces a handler. -/
  | register (op : Op) (h : Handler α)
  /-- Goes on with a new propagator. -/
  | renew

/-- A graph, its callers' references, a bound table and a propagator. -/
structure Workspace (α : Type) where
  /-- The number of references to each node that callers hold. -/
  held : Holding
  /-- The propagation. -/
  state : Propagation (BoundTable α) α

theorem Call.keeps_run {σ : Type} [Scalar α] [BoundStore σ α] (c : Call α) :
    Propagation.Keeps (c.run : PropagationM σ α Bool) := by
  cases c with
  | beginRound => exact Propagation.keeps_beginRound.bind fun _ => .pure _
  | forward root force => exact (Propagation.keeps_forward root force).bind fun _ => .pure _
  | tighten n x => exact (Propagation.keeps_tighten n x).bind fun _ => .pure _
  | drain => exact Propagation.keeps_drain.bind fun _ => .pure _
  | propagate constraints => exact (Propagation.keeps_propagate constraints).bind fun _ => .pure _

namespace Workspace

variable [Scalar α]

/-- A workspace with a new graph and a new propagator. -/
def new [BitPattern α] (settings : Settings α) (identity : Nat) (store : BoundTable α) : Workspace α :=
  ⟨fun _ => 0, Graph.empty settings identity, store, default, []⟩

omit [Scalar α] in
/-- The graph and its callers. -/
def session (w : Workspace α) : Session α := ⟨w.state.graph, w.held⟩

/-- Serves a command. -/
def serve (w : Workspace α) : Command α → Checked α (Workspace α)
  | .request r => do
    let s ← w.session.serve r
    return ⟨s.held, { w.state with graph := s.graph }⟩
  | .call c => do
    let (_, state) ← Observed.observe c.run w.state
    return { w with state }
  | .changeBounds f =>
    .ok { w with state := { w.state with
      graph := w.state.graph.bumpBoundsEpoch, store := f w.state.store } }
  | .evaluate root point => do
    let (graph, _) ← w.state.graph.evaluate root point
    return { w with state := { w.state with graph } }
  | .register op h => .ok { w with state := { w.state with graph := w.state.graph.register op h } }
  | .renew => .ok { w with state := { w.state with propagator := default } }

/-- Serves commands one after another. -/
def serveAll (w : Workspace α) (cs : List (Command α)) : Checked α (Workspace α) := cs.foldlM serve w

/-- The rules are those for requests to the graph. -/
def Permits (w : Workspace α) : Command α → Prop
  | .request r => w.session.Permits r
  | _ => True

/-- Each of the commands keeps to the rules when its turn comes. -/
def PermitsAll (w : Workspace α) (cs : List (Command α)) : Prop := Run.Keeps serve Permits w cs

instance (w : Workspace α) : (c : Command α) → Decidable (w.Permits c)
  | .request r => inferInstanceAs (Decidable (w.session.Permits r))
  | .call _ | .changeBounds _ | .evaluate _ _ | .register _ _ | .renew => isTrue trivial

/-- In a new workspace, the first variable asked for gets the first number. -/
theorem serve_var_new [BitPattern α] (settings : Settings α) (identity : Nat) (store : BoundTable α) (v : VarId) :
    (new settings identity store).serve (.request (.var v)) = .ok
      ⟨(Holding.plus (fun _ => 0) [0]).minus [], { (new settings identity store).state with
        graph := { Graph.empty settings identity with
          arena := ⟨#[Node.fresh (.var v) [] 1], []⟩
          varNodes := (Graph.empty settings identity).varNodes.insert v 0 } }⟩ := by
  have hnone : (new settings identity store).state.graph.varNode? v = none := Std.HashMap.getElem?_empty
  simp only [serve, Session.serve, Graph.serve, session, Graph.var, hnone]
  rfl

/-! ### What every run preserves -/

variable {w w' : Workspace α} {c : Command α}

/-- A command is a request to the graph, replaces a handler or only propagates. -/
theorem serve_cases (h : w.state.graph.Ordered) (hrun : w.serve c = .ok w') :
    (∃ r, c = .request r ∧ w.session.serve r = .ok w'.session) ∨
    (∃ op handler, c = .register op handler ∧ w'.state.graph = w.state.graph.register op handler ∧ w'.held = w.held) ∨
    w.state.graph.Propagated w'.state.graph ∧ w'.held = w.held := by
  cases c with
  | request r =>
    obtain ⟨s, hserve, hrun⟩ := Checked.bind_eq_ok.mp hrun
    cases hrun
    exact Or.inl ⟨r, rfl, hserve⟩
  | call c =>
    obtain ⟨⟨b, state⟩, hcall, hrun⟩ := Checked.bind_eq_ok.mp hrun
    cases hrun
    exact Or.inr (Or.inr ⟨(c.keeps_run w.state h.dated h.tagsGiven).of_observe hcall, rfl⟩)
  | changeBounds f =>
    cases hrun
    exact Or.inr (Or.inr ⟨.of_sameWay (.bumpBoundsEpoch h.dated) h.tagsGiven ⟨.refl _ _, rfl⟩, rfl⟩)
  | evaluate root point =>
    obtain ⟨⟨g, v⟩, hevaluate, hrun⟩ := Checked.bind_eq_ok.mp hrun
    cases hrun
    have hmeets : Meets (w.state.graph.evaluate root point) () (fun _ => True) _ :=
      (Graph.meets_evaluate h.tagsGiven (Or.inr fun _ => trivial)).and (Graph.passed_evaluate h.tagsGiven root point)
    rw [hevaluate] at hmeets
    obtain ⟨⟨-, hvalued, -⟩, hpassed⟩ := hmeets
    exact Or.inr (Or.inr ⟨⟨.of_valued h.dated hvalued, hpassed⟩, rfl⟩)
  | register op handler =>
    cases hrun
    exact Or.inr (Or.inl ⟨op, handler, rfl, rfl, rfl⟩)
  | renew =>
    cases hrun
    exact Or.inr (Or.inr ⟨.refl h.dated h.tagsGiven, rfl⟩)

/-- **One command.** The tags stay in order. The slots that are taken stay so, and so do the identity of the graph
and the tags of walks. -/
theorem ordered_of_serve (h : w.state.graph.Ordered) (hrun : w.serve c = .ok w') :
    w'.state.graph.Ordered ∧ w'.state.graph.identity = w.state.graph.identity ∧
      w'.state.graph.walks.taken = w.state.graph.walks.taken ∧
      w.state.graph.walks.visitTags.last ≤ w'.state.graph.walks.visitTags.last := by
  rcases serve_cases h hrun with ⟨r, -, hserve⟩ | ⟨op, handler, -, hgraph, -⟩ | ⟨hprop, -⟩
  · rw [Session.serve] at hserve
    obtain ⟨⟨given, g'⟩, hgraph, hserve⟩ := Checked.bind_eq_ok.mp hserve
    obtain ⟨hordered, hstemmed⟩ := h.serve hgraph
    have hg' : g' = w'.state.graph := congrArg Session.graph (Except.ok.inj hserve)
    rw [hg'] at hordered hstemmed
    exact ⟨hordered, hstemmed.identity_eq, by rw [hstemmed.walks_eq], by rw [hstemmed.walks_eq]⟩
  · rw [hgraph]
    exact ⟨h.register op handler, rfl, rfl, Nat.le_refl _⟩
  · exact ⟨h.of_advanced hprop.toAdvanced hprop.tagsGiven, hprop.terms.identity_eq, hprop.taken_eq, hprop.last_le⟩

/-- No walk stays open. -/
theorem resting_of_serve (h : w.state.graph.Resting) (hrun : w.serve c = .ok w') : w'.state.graph.Resting := by
  obtain ⟨hordered, -, htaken, -⟩ := ordered_of_serve h.toOrdered hrun
  exact ⟨hordered, htaken.trans h.taken_eq⟩

/-- **Runs of commands.** -/
theorem resting_of_serveAll {cs : List (Command α)} (h : w.state.graph.Resting)
    (hrun : w.serveAll cs = .ok w') : w'.state.graph.Resting :=
  Run.invariant (I := fun w => w.state.graph.Resting) (fun h _ => resting_of_serve h) h (.of_true w cs) hrun

/-- A workspace whose callers have kept to the rules. -/
structure Tidy (w : Workspace α) : Prop where
  resting : w.state.graph.Resting
  sound : w.state.graph.Sound w.held
  freshClosed : w.state.graph.FreshClosed

theorem tidy_new [BitPattern α] (settings : Settings α) (identity : Nat) (store : BoundTable α) :
    (new settings identity store).Tidy where
  resting := .empty settings identity
  sound := .empty settings identity
  freshClosed n c halive := by cases halive

/-- Callers who keep to the rules leave the graph sound. -/
theorem sound_of_serve (h : w.state.graph.Ordered) (hsound : w.state.graph.Sound w.held) (hc : w.Permits c)
    (hrun : w.serve c = .ok w') : w'.state.graph.Sound w'.held := by
  rcases serve_cases h hrun with ⟨r, rfl, hserve⟩ | ⟨op, handler, -, hgraph, hheld⟩ | ⟨hprop, hheld⟩
  · obtain ⟨s', hserve', hsound'⟩ := Session.exists_serve (s := w.session) hsound hc
    rw [hserve] at hserve'
    cases hserve'
    exact hsound'
  · rw [hgraph, hheld]
    exact ⟨hsound.counted, hsound.acyclic, hsound.var_alive⟩
  · rw [hheld]
    exact hsound.of_sameTerms hprop.terms

theorem tidy_of_serve (h : w.Tidy) (hc : w.Permits c) (hrun : w.serve c = .ok w') : w'.Tidy := by
  have hresting := resting_of_serve h.resting hrun
  have hsound := sound_of_serve h.resting.toOrdered h.sound hc hrun
  refine ⟨hresting, hsound, ?_⟩
  rcases serve_cases h.resting.toOrdered hrun with ⟨r, -, hserve⟩ | ⟨op, handler, -, hgraph, -⟩ | ⟨hprop, -⟩
  · rw [Session.serve] at hserve
    obtain ⟨⟨given, g'⟩, hgraph, hserve⟩ := Checked.bind_eq_ok.mp hserve
    have hserved := Graph.Served.stable.serve hgraph h.resting.intact
    have hg' : g' = w'.state.graph := congrArg Session.graph (Except.ok.inj hserve)
    rw [hg'] at hserved
    exact hserved.freshClosed h.sound hsound h.resting.dated hresting.dated h.freshClosed
  · rw [hgraph]
    exact h.freshClosed
  · exact hprop.freshClosed h.freshClosed

/-- **Runs of commands that keep to the rules.** -/
theorem tidy_of_serveAll {cs : List (Command α)} (h : w.Tidy) (hcs : w.PermitsAll cs)
    (hrun : w.serveAll cs = .ok w') : w'.Tidy :=
  Run.invariant tidy_of_serve h hcs hrun

end Workspace

end IntervalDag
