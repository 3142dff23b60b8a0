import IntervalDag.Proofs.Propagation.Enclosure
import IntervalDag.Proofs.Propagation.Workspace

/-!
# Soundness of propagation runs

A run opens a round and then makes calls in any order. If it starts where no activity is fresh, then no call cuts
off a point that satisfies all requests made, as long as handlers are locally sound at the values that the
expressions have there (`Workspace.runAll_feasible`). Nothing that is known of a node at the end rules its value
out either (`Propagation.Admits`).
-/

namespace IntervalDag

variable {α : Type} [Scalar α]

/-! ### Calls -/

namespace Call

omit [Scalar α] in
/-- The nodes that a call names. -/
def nodes : Call α → List NodeId
  | .beginRound => []
  | .forward root _ => [root]
  | .tighten n _ => [n]
  | .drain => []
  | .propagate constraints => constraints.map (·.root)

omit [Scalar α] in
/-- What a call requests: that the values of nodes lie in intervals. -/
def requests : Call α → List (NodeId × Interval α)
  | .beginRound => []
  | .forward _ _ => []
  | .tighten n x => [(n, x)]
  | .drain => []
  | .propagate constraints => constraints.map fun c => (c.root, c.bounds)

/-- Opens a round and makes calls one after another. Answers which of them report a contradiction. -/
def runAll {σ : Type} [BoundStore σ α] (calls : List (Call α)) : PropagationM σ α (List Bool) := do
  Propagation.beginRound
  calls.mapM run

variable [OrderedScalar α] {g₀ : Graph α} {point : Point α} {T : NodeId → Prop} {val : NodeId → α}
  {s : Propagation (BoundTable α) α}

/-- **One call.** -/
theorem meets_run (c : Call α) (h : Propagation.Enclosing g₀ point T val s) (hval : g₀.Sampled point T val)
    (hslot : g₀.walks.lowestFree? ≠ none) (hnodes : ∀ n ∈ c.nodes, T n)
    (hrequests : ∀ r ∈ c.requests, val r.1 ∈ r.2) :
    Meets c.run s NoFault fun b s' => b = false ∧ Propagation.Enclosing g₀ point T val s' := by
  cases c with
  | beginRound => exact h.meets_beginRound.bind fun _ s' hs => meets_pure.mpr ⟨rfl, hs⟩
  | forward root force =>
    have hroot := hnodes root (List.mem_singleton.mpr rfl)
    exact (h.meets_forward hval hslot hroot force).bind fun r s' hs => meets_pure.mpr hs
  | tighten n x =>
    have hn := hnodes n (List.mem_singleton.mpr rfl)
    have hx : val n ∈ x := hrequests (n, x) (List.mem_singleton.mpr rfl)
    exact (h.meets_tighten hval hn hx).bind fun t s' hs => meets_pure.mpr ⟨hs.1.1, hs.2⟩
  | drain => exact (h.meets_drain hval).bind fun t s' hs => meets_pure.mpr hs
  | propagate constraints =>
    have hcs : ∀ c ∈ constraints, T c.root ∧ val c.root ∈ c.bounds := fun c hc =>
      ⟨hnodes _ (List.mem_map_of_mem hc),
        hrequests (c.root, c.bounds) (List.mem_map_of_mem (f := fun c => (c.root, c.bounds)) hc)⟩
    exact (h.meets_propagate hval hslot hcs).bind fun r s' hs => meets_pure.mpr hs

/-- **Runs of calls.** -/
theorem meets_mapM_run {calls : List (Call α)} (h : Propagation.Enclosing g₀ point T val s)
    (hval : g₀.Sampled point T val) (hslot : g₀.walks.lowestFree? ≠ none)
    (hnodes : ∀ c ∈ calls, ∀ n ∈ c.nodes, T n) (hrequests : ∀ c ∈ calls, ∀ r ∈ c.requests, val r.1 ∈ r.2) :
    Meets (calls.mapM run) s NoFault fun bs s' =>
      bs = calls.map (fun _ => false) ∧ Propagation.Enclosing g₀ point T val s' := by
  induction calls generalizing s with
  | nil => exact meets_pure.mpr ⟨rfl, h⟩
  | cons c calls ih =>
    rw [List.mapM_cons]
    obtain ⟨hnode, hnodes⟩ := List.forall_mem_cons.mp hnodes
    obtain ⟨hrequest, hrequests⟩ := List.forall_mem_cons.mp hrequests
    refine (c.meets_run h hval hslot hnode hrequest).bind fun b s₁ hs₁ => ?_
    obtain ⟨rfl, h₁⟩ := hs₁
    refine (ih h₁ hnodes hrequests).bind fun bs s₂ hs₂ => ?_
    obtain ⟨rfl, h₂⟩ := hs₂
    exact meets_pure.mpr ⟨rfl, h₂⟩

end Call

/-! ### Runs from a stale state -/

/-- When a round is opened where no activity is fresh, propagation uses no range of a node. -/
theorem Propagation.meets_beginRound_of_stale {s : Propagation (BoundTable α) α} {point : Point α}
    {T : NodeId → Prop} (val : NodeId → α) (hdated : s.graph.Dated) (htags : s.graph.TagsGiven)
    (hstale : ∀ n, T n → ¬ s.graph.IsFreshAt n) (hpoint : point.Within s.store.bounds) :
    Meets beginRound s NoFault fun _ s' => Enclosing s.graph.opened point T val s' := by
  have hsame : s.graph.SameWay s.graph.opened := ⟨s.graph.agreeOn_opened _ fun _ => rfl, rfl⟩
  have hencloses : s.graph.opened.Encloses s.graph.boundsEpoch T val := by
    refine ⟨fun {n node'} hn hnode' htag => ?_, fun {n node'} hn hnode' htag => ?_⟩
    · obtain ⟨node, hnode, heq⟩ := (s.graph.agreeOn_opened Node.activityTag fun _ => rfl).symm.exists_node? hnode'
      have hle := hdated.activityTag_le n node hnode
      exact absurd ⟨node, hnode, Nat.le_antisymm hle (heq ▸ htag)⟩ (hstale n hn)
    · obtain ⟨node, hnode, heq⟩ := (s.graph.agreeOn_opened Node.propTag fun _ => rfl).symm.exists_node? hnode'
      have hle := hdated.propTag_le n node hnode
      have hlast := hdated.roundEpoch_le
      have hnew : s.graph.opened.roundEpoch = s.graph.epochs.last + 1 := rfl
      omega
  exact ⟨.refl (Graph.Advanced.opened hdated).dated (hsame.tagsGiven htags), hencloses, hpoint, nofun, rfl⟩

/-- **Runs from a stale state.** -/
theorem Call.meets_runAll [OrderedScalar α] {s : Propagation (BoundTable α) α} {point : Point α} {T : NodeId → Prop}
    {val : NodeId → α} {calls : List (Call α)} (hdated : s.graph.Dated) (htags : s.graph.TagsGiven)
    (hstale : ∀ n, T n → ¬ s.graph.IsFreshAt n) (hpoint : point.Within s.store.bounds)
    (hval : s.graph.Sampled point T val) (hslot : s.graph.walks.lowestFree? ≠ none)
    (hnodes : ∀ c ∈ calls, ∀ n ∈ c.nodes, T n) (hrequests : ∀ c ∈ calls, ∀ r ∈ c.requests, val r.1 ∈ r.2) :
    Meets (runAll calls) s NoFault fun bs s' =>
      bs = calls.map (fun _ => false) ∧ Propagation.Enclosing s.graph.opened point T val s' := by
  refine (Propagation.meets_beginRound_of_stale val hdated htags hstale hpoint).bind fun _ s₁ h₁ => ?_
  exact meets_mapM_run h₁ (hval.sameTerms (Graph.Advanced.opened hdated).terms) hslot hnodes hrequests

/-- What is known of a node does not rule a value out: it lies in the bounds of the current round, and in the
activity if that is in use. -/
structure Propagation.Admits (s : Propagation (BoundTable α) α) (n : NodeId) (v : α) : Prop where
  bounds : ∃ x, currentBounds s.graph s.store n = .ok x ∧ v ∈ x
  activity : ∀ node, s.graph.arena.node? n = some node → s.graph.isUsable node = true → v ∈ node.activity

/-- The values that a run has not cut off are admitted. -/
theorem Propagation.Enclosing.admits [OrderedScalar α] {g₀ : Graph α} {point : Point α} {T : NodeId → Prop}
    {val : NodeId → α} {s : Propagation (BoundTable α) α} (h : Enclosing g₀ point T val s)
    (hval : g₀.Sampled point T val) {n : NodeId} (hn : T n) : s.Admits n (val n) := by
  have hval' := hval.sameTerms h.propagated.terms
  have hepoch := h.propagated.roundBoundsEpoch_le
  refine ⟨meets_noFault_iff.mp (h.encloses.meets_currentBounds hval' hepoch hn), fun node hnode husable => ?_⟩
  exact h.encloses.graph.activity hn hnode (Nat.le_trans hepoch (of_decide_eq_true husable))

namespace Workspace

/-- **Propagation is sound.** Take a workspace after any run of commands, in which no activity is fresh. Let a
round be opened and any calls be made after that, in any order. Take a point in the variable bounds at which
evaluation is defined on all nodes that the calls name and the handlers below them are sound. If it satisfies all
requests of the calls, then they end without a fault, none of them reports a contradiction, and the point is
still in the variable bounds. What is known then of the nodes that the calls name, and of those below
them, admits their values. -/
theorem runAll_feasible [OrderedScalar α] [BitPattern α] (settings : Settings α) (identity : Nat)
    (store : BoundTable α) {cs : List (Command α)} {w : Workspace α} (hrun : (new settings identity store).serveAll cs = .ok w)
    (hstale : ∀ n, w.state.graph.isAlive n = true → ¬ w.state.graph.IsFreshAt n) {point : Point α}
    (hpoint : point.Within w.state.store.bounds) {calls : List (Call α)}
    (hdefined : ∀ c ∈ calls, ∀ n ∈ c.nodes, (w.state.graph.valueAt? point n).isSome = true)
    (hsound : ∀ c ∈ calls, ∀ root ∈ c.nodes, ∀ n, w.state.graph.arena.Below n root →
      w.state.graph.SoundAt point n)
    (hrequests : ∀ c ∈ calls, ∀ r ∈ c.requests, ∃ v, w.state.graph.valueAt? point r.1 = some v ∧ v ∈ r.2) :
    ∃ s, (Call.runAll calls).run w.state = .ok (calls.map fun _ => false) s ∧
      s.propagator.infeasible = false ∧ point.Within s.store.bounds ∧
      ∀ c ∈ calls, ∀ root ∈ c.nodes, ∀ n, w.state.graph.arena.Below n root →
        ∃ v, w.state.graph.valueAt? point n = some v ∧ s.Admits n v := by
  have hresting := resting_of_serveAll (.empty settings identity) hrun
  have hslot := SlotPool.lowestFree?_ne_none hresting.taken_eq
  -- the nodes that the calls can reach, with the values that evaluation computes
  have hval := Graph.sampled_below (R := fun root => ∃ c ∈ calls, root ∈ c.nodes) hresting.tagsGiven hslot
    (fun root ⟨c, hc, hroot⟩ => hdefined c hc root hroot)
    (fun root n ⟨c, hc, hroot⟩ hn => hsound c hc root hroot n hn)
  have hmeets := Call.meets_runAll hresting.dated hresting.tagsGiven (fun n hn => hstale n (hval.isAlive hn)) hpoint
    hval hslot (fun c hc n hn => ⟨n, ⟨c, hc, hn⟩, .refl _ _⟩) fun c hc r hr => by
      obtain ⟨v, hv, hmem⟩ := hrequests c hc r hr
      rw [hv]
      exact hmem
  rw [Propagation.meets_iff_run] at hmeets
  split at hmeets
  · rename_i bs s hs
    obtain ⟨rfl, henclosing⟩ := hmeets
    have hval' := hval.sameTerms (Graph.Advanced.opened hresting.dated).terms
    refine ⟨s, hs, henclosing.encloses.feasible, henclosing.encloses.store, fun c hc root hroot n hn => ?_⟩
    obtain ⟨v, hv⟩ := Graph.exists_valueAt?_of_below hresting.tagsGiven hslot (hdefined c hc root hroot) hn
    have hadmits := henclosing.admits hval' ⟨root, ⟨c, hc, hroot⟩, hn⟩
    rw [hv] at hadmits
    exact ⟨v, hv, hadmits⟩
  · exact hmeets.elim

end Workspace

/-! ### A run with a handler of its own -/

/-- The handler of an operator that passes on the value of its only operand. -/
def Handler.relay [BitPattern α] : Handler α :=
  .ofCore "relay" (fun _ operands _ => some <$> Checked.first operands)
    (fun _ operands _ => .plain <$> Checked.first operands)
    (fun _ x operands => narrowFirst (fun y => .ok (.plain (x.inter y))) operands)

theorem Handler.soundAt_relay [OrderedScalar α] [BitPattern α] {point : Point α} {kind : Kind α} {v : α} :
    (relay : Handler α).SoundAt point kind [v] v where
  interval vars xs _ hxs := by
    obtain ⟨x, _, hx, hnil, rfl⟩ := List.forall₂_cons_left_iff.mp hxs
    cases hnil
    exact ⟨.plain x, rfl, hx⟩
  reverse x xs hv hxs := by
    obtain ⟨y, _, hy, hnil, rfl⟩ := List.forall₂_cons_left_iff.mp hxs
    cases hnil
    have hmem : v ∈ x.inter y := Interval.mem_inter hv hy
    refine ⟨.plain ⟨.ofOperands [x.inter y], [x.inter y]⟩, rfl, ?_, .cons hmem .nil⟩
    simp [Noted.plain, Feasibility.ofOperands, Feasibility.ofBool, Interval.isEmpty_of_mem hmem]

/-- A graph of the variable zero and a function that relays it. -/
structure Graph.Relaying [BitPattern α] (g : Graph α) : Prop where
  arena : g.arena = ⟨#[{ Node.fresh (.var 0) [] 1 with refs := 2 }, .fresh .exp [0] 1], []⟩
  var : g.operators.handler .var = .var
  value : g.operators.handler .value = .value
  exp : g.operators.handler .exp = .relay

namespace Graph.Relaying

variable [BitPattern α] {g : Graph α} {point : Point α} {n : NodeId} {v : α}

theorem node?_zero (h : g.Relaying) : g.arena.node? 0 = some { Node.fresh (.var 0) [] 1 with refs := 2 } := by
  rw [h.arena]
  rfl

theorem node?_one (h : g.Relaying) : g.arena.node? 1 = some (.fresh .exp [0] 1) := by
  rw [h.arena]
  rfl

theorem below_one (h : g.Relaying) (hn : g.arena.Below n 1) : n = 1 ∨ n = 0 := by
  rcases Arena.below_iff.mp hn with hn | ⟨c, hc, hn⟩
  · exact Or.inl hn
  obtain rfl : c = 0 := List.mem_singleton.mp ((Arena.isOperand_iff h.node?_one).mp hc)
  rcases Arena.below_iff.mp hn with hn | ⟨d, hd, -⟩
  · exact Or.inr hn
  · cases (Arena.isOperand_iff h.node?_zero).mp hd

theorem evaluates_zero (h : g.Relaying) (hv : point 0 = some v) : g.Evaluates point 0 (some v) := by
  refine @Graph.Evaluates.node _ _ _ _ _ (fun _ => none) _ (by rw [h.arena]; rfl) h.node?_zero nofun ?_
  change (g.operators.handler .var).eval (.var 0) [] point = _
  rw [h.var]
  exact congrArg Except.ok hv

theorem evaluates_one (h : g.Relaying) (hv : point 0 = some v) : g.Evaluates point 1 (some v) := by
  refine @Graph.Evaluates.node _ _ _ _ _ (fun _ => some v) _ (by rw [h.arena]; rfl) h.node?_one (fun c hc => ?_) ?_
  · obtain rfl : c = 0 := List.mem_singleton.mp hc
    exact h.evaluates_zero hv
  · change (g.operators.handler .exp).eval .exp [v] point = _
    rw [h.exp]
    rfl

/-- Both nodes have the value that a point gives the variable, and their handlers are sound there. -/
theorem soundAt [OrderedScalar α] (h : g.Relaying) (hg : g.Resting) (hv : point 0 = some v) :
    g.valueAt? point 1 = some v ∧ ∀ n, g.arena.Below n 1 → g.SoundAt point n := by
  have hvalue : ∀ {n : NodeId} {u : α}, g.valueAt? point n = some u ↔ g.Evaluates point n (some u) :=
    Graph.valueAt?_eq_some_iff hg.tagsGiven (SlotPool.lowestFree?_ne_none hg.taken_eq)
  refine ⟨hvalue.mpr (h.evaluates_one hv), fun n hn => ⟨fun node u hnode hu => ?_,
    fun node u operands hnode hu hops => ?_⟩⟩
  · exact Graph.hasLeafValue_of_default h.var h.value hnode (hvalue.mp hu)
  rcases h.below_one hn with rfl | rfl
  · obtain rfl := Option.some.inj (h.node?_one.symm.trans hnode)
    obtain rfl : v = u := Option.some.inj ((h.evaluates_one hv).unique (hvalue.mp hu))
    change [g.valueAt? point 0] = _ at hops
    rw [hvalue.mpr (h.evaluates_zero hv)] at hops
    obtain rfl : [v] = operands := List.map_injective_iff.mpr (Option.some_injective α) hops
    change (g.operators.handler .exp).SoundAt point .exp [v] v
    rw [h.exp]
    exact Handler.soundAt_relay
  · obtain rfl := Option.some.inj (h.node?_zero.symm.trans hnode)
    obtain rfl : v = u := Option.some.inj ((h.evaluates_zero hv).unique (hvalue.mp hu))
    obtain rfl : operands = [] := List.map_eq_nil_iff.mp hops.symm
    change (g.operators.handler .var).SoundAt point (.var 0) [] v
    rw [h.var]
    exact Handler.soundAt_var hv

end Graph.Relaying

namespace Workspace

theorem serveAll_relay [BitPattern α] (settings : Settings α) (identity : Nat) (store : BoundTable α) :
    ∃ w : Workspace α, (new settings identity store).serveAll
        [.request (.var 0), .register .exp .relay, .request (.apply .exp 0 rfl)] = .ok w ∧
      w.state.graph.Relaying ∧ w.state.graph.boundsEpoch = 1 ∧ w.state.store = store := by
  rw [serveAll, List.foldlM_cons, serve_var_new, Checked.ok_bind]
  exact ⟨_, rfl, ⟨rfl, rfl, rfl, rfl⟩, rfl, rfl⟩

/-- The variable starts between -10 and 10, and its relayed value is requested to lie between 0 and 1 and then
between 0.25 and 4. A point where it is 0.5 gets through. -/
theorem runAll_feasible_of_relay :
    let calls : List (Call Float) := [.forward 1 false, .tighten 1 ⟨0, 1⟩, .drain, .propagate [⟨1, ⟨0.25, 4⟩⟩]]
    let point : Point Float := fun v => if v = 0 then some 0.5 else none
    ∃ w, (new default 0 (.ofList [⟨-10, 10⟩])).serveAll
        [.request (.var 0), .register .exp .relay, .request (.apply .exp 0 rfl)] = .ok w ∧
      ∃ s, (Call.runAll calls).run w.state = .ok [false, false, false, false] s ∧
        s.propagator.infeasible = false ∧ point.Within s.store.bounds ∧ s.Admits 1 0.5 := by
  intro calls point
  obtain ⟨w, hrun, hrelay, hepoch, hstore⟩ := serveAll_relay default 0 (.ofList [⟨-10, 10⟩] : BoundTable Float)
  have hresting := resting_of_serveAll (.empty default 0) hrun
  obtain ⟨hone, hsound⟩ := hrelay.soundAt hresting (show point 0 = some 0.5 from rfl)
  have hnodes : ∀ c ∈ calls, ∀ n ∈ c.nodes, n = 1 := by decide
  have hbounds : ∀ c ∈ calls, ∀ r ∈ c.requests, r.1 = 1 ∧ 0.5 ∈ r.2 := by decide +kernel
  have hstale : ∀ n, w.state.graph.isAlive n = true → ¬ w.state.graph.IsFreshAt n := by
    rintro n - ⟨node, hnode, hfresh⟩
    rw [hrelay.arena] at hnode
    rw [hepoch] at hfresh
    rcases n with _ | _ | n
    · cases hnode
      cases hfresh
    · cases hnode
      cases hfresh
    · cases hnode
  have hpoint : point.Within w.state.store.bounds := by
    intro v r hr
    rw [hstore]
    by_cases hv : v = 0
    · subst hv
      cases hr
      decide +kernel
    · simp only [point, if_neg hv] at hr
      cases hr
  have hdefined : ∀ c ∈ calls, ∀ n ∈ c.nodes, (w.state.graph.valueAt? point n).isSome = true := by
    intro c hc n hn
    rw [hnodes c hc n hn, hone]
    rfl
  have hlocal : ∀ c ∈ calls, ∀ root ∈ c.nodes, ∀ n, w.state.graph.arena.Below n root →
      w.state.graph.SoundAt point n := by
    intro c hc root hroot n hn
    rw [hnodes c hc root hroot] at hn
    exact hsound n hn
  have hrequests : ∀ c ∈ calls, ∀ r ∈ c.requests, ∃ v, w.state.graph.valueAt? point r.1 = some v ∧ v ∈ r.2 := by
    intro c hc r hr
    obtain ⟨hroot, hmem⟩ := hbounds c hc r hr
    exact ⟨0.5, hroot ▸ hone, hmem⟩
  obtain ⟨s, hs, hinfeasible, hwithin, hadmits⟩ :=
    runAll_feasible default 0 _ hrun hstale hpoint hdefined hlocal hrequests
  obtain ⟨v, hv, hadmitted⟩ := hadmits (.forward 1 false) (List.mem_cons_self ..) 1
    (List.mem_singleton.mpr rfl) 1 (.refl _ _)
  obtain rfl : 0.5 = v := Option.some.inj (hone.symm.trans hv)
  exact ⟨w, hrun, s, hs, hinfeasible, hwithin, hadmitted⟩

end Workspace

/-! ### A run in which a variable has another value than the point gives it -/

/-- The handler of an operator whose nodes all have the same value. -/
def Handler.fixed [BitPattern α] (c : α) : Handler α :=
  .ofCore "fixed" (fun _ _ _ => .ok (some c)) (fun _ _ _ => .ok (.plain ⟨c, c⟩)) fun _ _ operands =>
    keepOperands operands

theorem Handler.soundAt_fixed [BitPattern α] {point : Point α} {kind : Kind α} {operands : List α} {c : α}
    (hc : c ∈ (⟨c, c⟩ : Interval α)) : (fixed c : Handler α).SoundAt point kind operands c where
  interval _ _ _ _ := ⟨.plain ⟨c, c⟩, rfl, hc⟩
  reverse _ xs _ hxs := ⟨.plain ⟨.feasible, xs⟩, rfl, rfl, hxs⟩

/-- A graph of one variable, whose value is fixed. -/
structure Graph.Fixing [BitPattern α] (g : Graph α) (c : α) : Prop where
  arena : g.arena = ⟨#[.fresh (.var 0) [] 1], []⟩
  var : g.operators.handler .var = .fixed c

namespace Graph.Fixing

variable [BitPattern α] {g : Graph α} {point : Point α} {n : NodeId} {c : α}

theorem node?_zero (h : g.Fixing c) : g.arena.node? 0 = some (.fresh (.var 0) [] 1) := by
  rw [h.arena]
  rfl

theorem evaluates (h : g.Fixing c) : g.Evaluates point 0 (some c) := by
  refine @Graph.Evaluates.node _ _ _ _ _ (fun _ => none) _ (by rw [h.arena]; rfl) h.node?_zero nofun ?_
  change (g.operators.handler .var).eval (.var 0) [] point = _
  rw [h.var]
  rfl

/-- The variable has the fixed value at every point, and its handler is sound there. -/
theorem handlerSoundAt (h : g.Fixing c) (point : Point α) (hg : g.Resting) (hc : c ∈ (⟨c, c⟩ : Interval α)) :
    g.valueAt? point 0 = some c ∧ ∀ n, g.arena.Below n 0 → g.HandlerSoundAt point n := by
  have hvalue : g.valueAt? point 0 = some c :=
    (Graph.valueAt?_eq_some_iff hg.tagsGiven (SlotPool.lowestFree?_ne_none hg.taken_eq)).mpr h.evaluates
  refine ⟨hvalue, fun n hn node v operands hnode hv _ => ?_⟩
  obtain rfl : n = 0 := (Arena.below_iff.mp hn).resolve_right fun ⟨d, hd, _⟩ => by
    cases (Arena.isOperand_iff h.node?_zero).mp hd
  obtain rfl := Option.some.inj (h.node?_zero.symm.trans hnode)
  obtain rfl := Option.some.inj (hvalue.symm.trans hv)
  change (g.operators.handler .var).SoundAt point (.var 0) operands c
  rw [h.var]
  exact Handler.soundAt_fixed hc

end Graph.Fixing

namespace Workspace

theorem serveAll_fixed : ∃ w : Workspace Float, (new default 0 (.ofList [⟨0, 1⟩])).serveAll
      [.request (.var 0), .register .var (.fixed 5)] = .ok w ∧
    w.state.graph.Fixing 5 ∧ w.state.graph.boundsEpoch = 1 ∧ w.state.store = .ofList [⟨0, 1⟩] ∧
    (Call.runAll [.tighten 0 ⟨5, 5⟩]).run' w.state = some [true] := by
  rw [serveAll, List.foldlM_cons, serve_var_new, Checked.ok_bind]
  exact ⟨_, rfl, ⟨rfl, rfl⟩, rfl, rfl, by decide +kernel⟩

/-- Sound handlers alone are not enough. A handler may give a variable the value 5 wherever the point lies, but
propagation goes by the domain of the variable, so a request for that value is found contradictory. -/
theorem not_forall_feasible_of_handlers : ¬ ∀ (cs : List (Command Float)) (w : Workspace Float) (point : Point Float)
    (calls : List (Call Float)), (new default 0 (.ofList [⟨0, 1⟩])).serveAll cs = .ok w →
    (∀ n, w.state.graph.isAlive n = true → ¬ w.state.graph.IsFreshAt n) → point.Within w.state.store.bounds →
    (∀ c ∈ calls, ∀ n ∈ c.nodes, (w.state.graph.valueAt? point n).isSome = true) →
    (∀ c ∈ calls, ∀ root ∈ c.nodes, ∀ n, w.state.graph.arena.Below n root → w.state.graph.HandlerSoundAt point n) →
    (∀ c ∈ calls, ∀ r ∈ c.requests, ∃ v, w.state.graph.valueAt? point r.1 = some v ∧ v ∈ r.2) →
    ∃ s, (Call.runAll calls).run w.state = .ok (calls.map fun _ => false) s := by
  intro hall
  obtain ⟨w, hrun, hfixing, hepoch, hstore, hcontradiction⟩ := serveAll_fixed
  have hfive : (5 : Float) ∈ (⟨5, 5⟩ : Interval Float) := by decide +kernel
  let point : Point Float := fun v => if v = 0 then some 0.5 else none
  obtain ⟨hvalue, hsound⟩ := hfixing.handlerSoundAt point (resting_of_serveAll (.empty default 0) hrun) hfive
  refine absurd (hall _ w point [.tighten 0 ⟨5, 5⟩] hrun ?_ ?_ ?_ ?_ ?_) ?_
  · rintro n - ⟨node, hnode, hfresh⟩
    rw [hfixing.arena] at hnode
    rw [hepoch] at hfresh
    rcases n with _ | n
    · cases hnode
      cases hfresh
    · cases hnode
  · intro v r hr
    rw [hstore]
    by_cases hv : v = 0
    · subst hv
      cases hr
      decide +kernel
    · simp only [point, if_neg hv] at hr
      cases hr
  · intro c hc n hn
    obtain rfl := List.mem_singleton.mp hc
    obtain rfl := List.mem_singleton.mp hn
    rw [hvalue]
    rfl
  · intro c hc root hroot
    obtain rfl := List.mem_singleton.mp hc
    obtain rfl := List.mem_singleton.mp hroot
    exact hsound
  · intro c hc r hr
    obtain rfl := List.mem_singleton.mp hc
    obtain rfl := List.mem_singleton.mp hr
    exact ⟨5, hvalue, hfive⟩
  · rintro ⟨s, hs⟩
    obtain ⟨s', hs'⟩ := Propagation.exists_run_of_result hcontradiction
    cases hs.symm.trans hs'

end Workspace

end IntervalDag
