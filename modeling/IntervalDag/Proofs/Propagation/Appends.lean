import IntervalDag.Proofs.Propagation.Soundness

/-!
# Appending operands in a round

Appending an operand changes the values of its new parent and of the nodes above it. It raises the epoch of the
bounds, so a forward pass computes their activities again, but propagation goes on to use those that were computed
earlier in the round. So a round in which nothing was requested so far stays sound as long as none of these leaves
out the new value (`Workspace.append_feasible`). The activities of all other nodes can be relied on as before.

Where a forward pass came before, requests that the new expression satisfies may be found contradictory
(`Workspace.not_forall_append_feasible`).
-/

namespace IntervalDag

variable {α : Type}

/-- The activity of a node, if it is in use, holds a value. -/
def Graph.CacheHolds [Scalar α] (g : Graph α) (n : NodeId) (v : α) : Prop :=
  ∀ node, g.arena.node? n = some node → g.isUsable node = true → v ∈ node.activity

/-- Nothing was requested in the current round: no bounds were propagated onto nodes in use, nothing waits in line,
and no contradiction is known. -/
structure Propagation.Unasked {σ : Type} (s : Propagation σ α) : Prop where
  bounds : ∀ n node, s.graph.arena.isAlive n = true → s.graph.arena.node? n = some node →
    s.graph.entryBounds? node = none
  queue_eq : s.propagator.queue.toList = []
  feasible : s.propagator.infeasible = false

namespace Graph.Appended

variable [Scalar α] {g g' : Graph α} {parent child n : NodeId} {coef : α}

/-- Only the counts of other nodes can differ. -/
theorem exists_node? (h : g.Appended g' parent child coef) (hn : n ≠ parent) {node' : Node α}
    (hnode' : g'.arena.node? n = some node') :
    ∃ node, g.arena.node? n = some node ∧ node' = { node with refs := node'.refs } := by
  by_cases hc : n = child
  · subst hc
    rw [h.child_eq] at hnode'
    obtain ⟨node, hnode, rfl⟩ := Option.map_eq_some_iff.mp hnode'
    exact ⟨node, hnode, rfl⟩
  · rw [h.other_eq n hn hc] at hnode'
    exact ⟨node', hnode', rfl⟩

/-- The caches stay as they are. -/
theorem exists_ranges (h : g.Appended g' parent child coef) {node' : Node α}
    (hnode' : g'.arena.node? n = some node') :
    ∃ node, g.arena.node? n = some node ∧ node'.ranges = node.ranges := by
  by_cases hn : n = parent
  · subst hn
    rw [h.parent_eq] at hnode'
    obtain ⟨node, hnode, rfl⟩ := Option.map_eq_some_iff.mp hnode'
    exact ⟨node, hnode, rfl⟩
  · obtain ⟨node, hnode, heq⟩ := h.exists_node? hn hnode'
    exact ⟨node, hnode, by rw [heq]; rfl⟩

/-- No node comes into use. -/
theorem isAlive (h : g.Appended g' parent child coef) (hne : child ≠ parent) (hc : g.arena.isAlive child = true)
    (hn : g'.arena.isAlive n = true) : g.arena.isAlive n = true := by
  by_cases hnc : n = child
  · exact hnc ▸ hc
  · rw [Arena.isAlive_iff, h.refs_eq hne hc, List.count_singleton, if_neg (by simpa using Ne.symm hnc),
      Nat.add_zero] at hn
    exact Arena.isAlive_iff.mpr hn

/-- **Values of other nodes** are what they were, unless the parent lies below them. -/
theorem evaluates (h : g.Appended g' parent child coef) (hne : child ≠ parent) (hc : g.arena.isAlive child = true)
    {point : Point α} {v : Option α} (hv : g'.Evaluates point n v) (hn : ¬ g'.arena.Below parent n) :
    g.Evaluates point n v := by
  induction hv with
  | node halive hnode hops hv ih =>
    rename_i n node' value v
    have hnp : n ≠ parent := by
      rintro rfl
      exact hn (.refl _ _)
    obtain ⟨node, hnode₀, heq⟩ := h.exists_node? hnp hnode
    have hkind : node'.kind = node.kind := by rw [heq]
    have hchildren : node'.children = node.children := by rw [heq]
    have hhandler : g'.valueFrom point = g.valueFrom point := by
      have hoperators : g'.operators = g.operators := by rw [h.rest_eq]
      funext kind operands
      rw [valueFrom, valueFrom, handlerFor, handlerFor, hoperators]
    refine .node (h.isAlive hne hc halive) hnode₀ (fun c hmem => ?_) (by rw [← hhandler, ← hkind, ← hchildren, hv])
    refine ih c (hchildren ▸ hmem) fun hbelow => hn (hbelow.trans ?_)
    exact Arena.IsOperand.below ((Arena.isOperand_iff hnode).mpr (hchildren ▸ hmem))

end Graph.Appended

/-- A point of one variable. -/
theorem Point.Within.of_zero [Scalar α] {bounds : VarId → Interval α} {v : α} (h : v ∈ bounds 0) :
    Point.Within (fun x => if x = 0 then some v else none) bounds := by
  intro x r hr
  by_cases hx : x = 0
  · subst hx
    cases hr
    exact h
  · simp only [if_neg hx] at hr
    cases hr

namespace Workspace

variable [Scalar α]

/-- **Appending an operand in a round.** Take a workspace after any run of commands, in a round in which nothing was
requested, and let an operand be appended. Take a point in the variable bounds at which evaluation of the new
expressions is defined on all nodes that calls name and the handlers below them are sound. Let the activities in use
hold the values there: of nodes that the parent is not below, those that they had before, and of the parent and the
nodes above it, the new ones. If the point satisfies all requests of the calls, then they end without a fault, none
of them reports a contradiction, and the point is still in the variable bounds. -/
theorem append_feasible [OrderedScalar α] [BitPattern α] (settings : Settings α) (identity : Nat)
    (store : BoundTable α) {cs : List (Command α)} {w : Workspace α}
    (hrun : (new settings identity store).serveAll cs = .ok w) (hunasked : w.state.Unasked)
    {parent child : NodeId} {coef : α} {g : Graph α} (happend : w.state.graph.append parent child coef = .ok (.ok g))
    {point : Point α} (hpoint : point.Within w.state.store.bounds) {calls : List (Call α)}
    (hdefined : ∀ c ∈ calls, ∀ n ∈ c.nodes, (g.valueAt? point n).isSome = true)
    (hsound : ∀ c ∈ calls, ∀ root ∈ c.nodes, ∀ n, g.arena.Below n root → g.SoundAt point n)
    (hbefore : ∀ c ∈ calls, ∀ root ∈ c.nodes, ∀ n v, g.arena.Below n root → ¬ g.arena.Below parent n →
      w.state.graph.valueAt? point n = some v → w.state.graph.CacheHolds n v)
    (habove : ∀ c ∈ calls, ∀ root ∈ c.nodes, ∀ n v, g.arena.Below n root → g.arena.Below parent n →
      g.valueAt? point n = some v → g.CacheHolds n v)
    (hrequests : ∀ c ∈ calls, ∀ r ∈ c.requests, ∃ v, g.valueAt? point r.1 = some v ∧ v ∈ r.2) :
    ∃ s, (calls.mapM Call.run).run { w.state with graph := g } = .ok (calls.map fun _ => false) s ∧
      s.propagator.infeasible = false ∧ point.Within s.store.bounds := by
  have hresting := resting_of_serveAll (.empty settings identity) hrun
  obtain ⟨hne, -, hchild, happ⟩ := hresting.intact.exists_appended happend
  have hserve : w.state.graph.serve (.append parent child coef) = .ok ([], g) := by
    rw [Graph.serve, happend]
    rfl
  obtain ⟨hordered, hstemmed⟩ := hresting.toOrdered.serve hserve
  have hslot := SlotPool.lowestFree?_ne_none hresting.taken_eq
  have hslot' : g.walks.lowestFree? ≠ none := hstemmed.walks_eq ▸ hslot
  have hval := Graph.sampled_below (R := fun root => ∃ c ∈ calls, root ∈ c.nodes) hordered.tagsGiven hslot'
    (fun root hroot => hroot.elim fun c h => hdefined c h.1 root h.2)
    (fun root n hroot hn => hroot.elim fun c h => hsound c h.1 root h.2 n hn)
  have hencloses : g.Encloses g.roundBoundsEpoch (fun n => ∃ root, (∃ c ∈ calls, root ∈ c.nodes) ∧ g.arena.Below n root)
      fun n => (g.valueAt? point n).getD 0 := by
    constructor
    · rintro n node ⟨root, ⟨c, hc, hroot⟩, hn⟩ hnode htag
      obtain ⟨v, hv⟩ := Graph.exists_valueAt?_of_below hordered.tagsGiven hslot' (hdefined c hc root hroot) hn
      have husable : g.isUsable node = true := decide_eq_true htag
      rw [hv]
      by_cases hparent : g.arena.Below parent n
      · exact habove c hc root hroot n v hn hparent hv node hnode husable
      · -- the value and the activity are those from before
        have hnp : n ≠ parent := by
          rintro rfl
          exact hparent (.refl _ _)
        obtain ⟨node₀, hnode₀, heq⟩ := happ.exists_node? hnp hnode
        have hold := happ.evaluates hne hchild ((Graph.valueAt?_eq_some_iff hordered.tagsGiven hslot').mp hv) hparent
        have hcache := hbefore c hc root hroot n v hn hparent
          ((Graph.valueAt?_eq_some_iff hresting.tagsGiven hslot).mpr hold) node₀ hnode₀
        rw [heq]
        refine hcache ?_
        rw [heq, Graph.isUsable, hstemmed.roundBoundsEpoch_eq] at husable
        exact husable
    · rintro n node hn hnode htag
      obtain ⟨node₀, hnode₀, hranges⟩ := happ.exists_ranges hnode
      have htag₀ : node₀.propTag = w.state.graph.roundEpoch := by
        rw [← hstemmed.roundEpoch_eq, ← htag]
        exact (congrArg (fun ranges => ranges.2.2) hranges).symm
      have hnone := hunasked.bounds n node₀ (happ.isAlive hne hchild (hval.isAlive hn)) hnode₀
      rw [Graph.entryBounds?, if_pos htag₀] at hnone
      cases hnone
  have hqueue : ∀ n ∈ w.state.propagator.queue.toList,
      ∃ root, (∃ c ∈ calls, root ∈ c.nodes) ∧ g.arena.Below n root := by
    rw [hunasked.queue_eq]
    exact fun n hn => absurd hn List.not_mem_nil
  have henclosing : Propagation.Enclosing g point _ _ { w.state with graph := g } :=
    ⟨.refl hordered.dated hordered.tagsGiven, hencloses, hpoint, hqueue, hunasked.feasible⟩
  have hmeets := Call.meets_mapM_run henclosing hval hslot' (fun c hc n hn => ⟨n, ⟨c, hc, hn⟩, .refl _ _⟩)
    fun c hc r hr => by
      obtain ⟨v, hv, hmem⟩ := hrequests c hc r hr
      rw [hv]
      exact hmem
  rw [Propagation.meets_iff_run] at hmeets
  split at hmeets
  · rename_i bs s hs
    obtain ⟨rfl, henclosing⟩ := hmeets
    exact ⟨s, hs, henclosing.encloses.feasible, henclosing.encloses.store⟩
  · exact hmeets.elim

end Workspace

/-! ### A node that counts its operands -/

/-- The value that counts up to a number. -/
def Scalar.tallyOf [Scalar α] : Nat → α
  | 0 => 0
  | n + 1 => tallyOf n + 1

open Scalar

/-- The handler of an operator whose value is the number of operands. -/
def Handler.tally [Scalar α] [BitPattern α] : Handler α :=
  .ofCore "tally" (fun _ operands _ => .ok (some (tallyOf operands.length)))
    (fun _ operands _ => .ok (.plain ⟨tallyOf operands.length, tallyOf operands.length⟩))
    (fun _ _ operands => keepOperands operands)

theorem Handler.soundAt_tally [Scalar α] [BitPattern α] {point : Point α} {kind : Kind α} {operands : List α}
    (hnumber : (tallyOf operands.length : α) ≤ tallyOf operands.length) :
    (tally : Handler α).SoundAt point kind operands (tallyOf operands.length) where
  interval vars xs _ hxs := by
    refine ⟨_, rfl, Interval.mem_iff.mpr ?_⟩
    rw [← hxs.length_eq]
    exact ⟨hnumber, hnumber⟩
  reverse _ xs _ hxs := ⟨.plain ⟨.feasible, xs⟩, rfl, rfl, hxs⟩

/-- A graph of the variable zero and a sum that counts how often it uses the variable. -/
structure Graph.Tallies [Scalar α] [BitPattern α] (g : Graph α) (operands : List NodeId) : Prop where
  zero : ∃ node, g.arena.node? 0 = some node ∧ node.kind = .var 0 ∧ node.children = [] ∧ 0 < node.refs
  one : ∃ node, g.arena.node? 1 = some node ∧ node.kind.op = .sum ∧ node.children = operands ∧ 0 < node.refs
  operands_eq : ∀ c ∈ operands, c = 0
  var : g.operators.handler .var = .var
  value : g.operators.handler .value = .value
  sum : g.operators.handler .sum = .tally

namespace Graph.Tallies

variable [Scalar α] [BitPattern α] {g g' : Graph α} {operands : List NodeId} {point : Point α} {n : NodeId} {v : α}

theorem sameTerms (h : g.Tallies operands) (hsame : SameTerms g g') : g'.Tallies operands where
  zero := by
    obtain ⟨node, hnode, hkind, hchildren, hrefs⟩ := h.zero
    obtain ⟨node', hnode', hkind', hchildren', hrefs'⟩ := hsame.exists_node? hnode
    exact ⟨node', hnode', hkind'.trans hkind, hchildren'.trans hchildren, hrefs' ▸ hrefs⟩
  one := by
    obtain ⟨node, hnode, hop, hchildren, hrefs⟩ := h.one
    obtain ⟨node', hnode', hkind', hchildren', hrefs'⟩ := hsame.exists_node? hnode
    exact ⟨node', hnode', hkind' ▸ hop, hchildren'.trans hchildren, hrefs' ▸ hrefs⟩
  operands_eq := h.operands_eq
  var := hsame.handler_eq ▸ h.var
  value := hsame.handler_eq ▸ h.value
  sum := hsame.handler_eq ▸ h.sum

/-- The sum may use the variable once more. -/
theorem append (h : g.Tallies operands) {coef : α} (happ : g.Appended g' 1 0 coef) : g'.Tallies (operands ++ [0]) := by
  obtain ⟨node₀, hnode₀, hkind₀, hchildren₀, -⟩ := h.zero
  obtain ⟨node₁, hnode₁, hop₁, hchildren₁, hrefs₁⟩ := h.one
  have hoperators : g'.operators = g.operators := by rw [happ.rest_eq]
  have hzero := happ.child_eq
  have hone := happ.parent_eq
  rw [hnode₀, Option.map_some] at hzero
  rw [hnode₁, Option.map_some] at hone
  refine ⟨⟨_, hzero, hkind₀, hchildren₀, Nat.succ_pos _⟩, ⟨_, hone, ?_, by rw [hchildren₁], hrefs₁⟩, fun c hc => ?_,
    hoperators ▸ h.var, hoperators ▸ h.value, hoperators ▸ h.sum⟩
  · obtain ⟨coefs, constant, -, heq⟩ | ⟨factor, hkind, -⟩ := happ.kind_eq node₁ hnode₁
    · rw [heq]
      rfl
    · rw [hkind] at hop₁
      cases hop₁
  · exact (List.mem_append.mp hc).elim (h.operands_eq c) List.mem_singleton.mp

/-- The variable uses nothing, so it can be appended. -/
theorem exists_append (h : g.Tallies operands) (hintact : g.Intact) (coef : α) :
    ∃ g', g.append 1 0 coef = .ok (.ok g') ∧ g.Appended g' 1 0 coef := by
  obtain ⟨node₀, hnode₀, -, hchildren₀, hrefs₀⟩ := h.zero
  obtain ⟨node₁, hnode₁, hop₁, -, hrefs₁⟩ := h.one
  refine Graph.exists_append coef hintact.operandsInside (Arena.isAlive_iff.mpr (Arena.refs_eq_of_node? hnode₁ ▸ hrefs₁))
    hnode₁ (Arena.isAlive_iff.mpr (Arena.refs_eq_of_node? hnode₀ ▸ hrefs₀)) ?_ fun hbelow => ?_
  · cases hkind : node₁.kind with
    | sum => rfl
    | _ =>
      rw [hkind] at hop₁
      cases hop₁
  · rcases Arena.below_iff.mp hbelow with hn | ⟨d, hd, -⟩
    · cases hn
    · rw [Arena.isOperand_iff hnode₀, hchildren₀] at hd
      cases hd

theorem below_one (h : g.Tallies operands) (hn : g.arena.Below n 1) : n = 1 ∨ n = 0 := by
  obtain ⟨node₀, hnode₀, -, hchildren₀, -⟩ := h.zero
  obtain ⟨node₁, hnode₁, -, hchildren₁, -⟩ := h.one
  rcases Arena.below_iff.mp hn with hn | ⟨c, hc, hn⟩
  · exact Or.inl hn
  rw [Arena.isOperand_iff hnode₁, hchildren₁] at hc
  obtain rfl := h.operands_eq c hc
  rcases Arena.below_iff.mp hn with hn | ⟨d, hd, -⟩
  · exact Or.inr hn
  · rw [Arena.isOperand_iff hnode₀, hchildren₀] at hd
    cases hd

theorem evaluates_zero (h : g.Tallies operands) (hv : point 0 = some v) : g.Evaluates point 0 (some v) := by
  obtain ⟨node, hnode, hkind, hchildren, hrefs⟩ := h.zero
  refine @Graph.Evaluates.node _ _ _ _ _ (fun _ => none) _
    (Arena.isAlive_iff.mpr (Arena.refs_eq_of_node? hnode ▸ hrefs)) hnode ?_ ?_
  · rw [hchildren]
    exact fun c hc => absurd hc List.not_mem_nil
  · rw [hchildren, hkind]
    change (g.operators.handler .var).eval (.var 0) [] point = _
    rw [h.var]
    exact congrArg Except.ok hv

theorem evaluates_one (h : g.Tallies operands) (hv : point 0 = some v) :
    g.Evaluates point 1 (some (tallyOf operands.length)) := by
  obtain ⟨node, hnode, hop, hchildren, hrefs⟩ := h.one
  refine @Graph.Evaluates.node _ _ _ _ _ (fun _ => some v) _
    (Arena.isAlive_iff.mpr (Arena.refs_eq_of_node? hnode ▸ hrefs)) hnode (fun c hc => ?_) ?_
  · obtain rfl := h.operands_eq c (hchildren ▸ hc)
    exact h.evaluates_zero hv
  · have hvalues : Handler.allValues (node.children.map fun _ => some v) = some (node.children.map fun _ => v) :=
      Handler.allValues_eq_some_iff.mpr (by rw [List.map_map]; rfl)
    rw [valueFrom, hvalues]
    change (g.operators.handler node.kind.op).eval node.kind _ point = _
    rw [hop, h.sum, hchildren]
    change Except.ok (some (tallyOf (operands.map fun _ => v).length)) = _
    rw [List.length_map]

/-- Both nodes have values, and their handlers are sound there. -/
theorem soundAt [OrderedScalar α] (h : g.Tallies operands) (htags : g.TagsGiven) (hslot : g.walks.lowestFree? ≠ none)
    (hv : point 0 = some v) (hnumber : (tallyOf operands.length : α) ≤ tallyOf operands.length) :
    g.valueAt? point 1 = some (tallyOf operands.length) ∧ ∀ n, g.arena.Below n 1 → g.SoundAt point n := by
  have hvalue : ∀ {n : NodeId} {u : α}, g.valueAt? point n = some u ↔ g.Evaluates point n (some u) :=
    Graph.valueAt?_eq_some_iff htags hslot
  refine ⟨hvalue.mpr (h.evaluates_one hv), fun n hn => ⟨fun node u hnode hu => ?_,
    fun node u values hnode hu hops => ?_⟩⟩
  · exact Graph.hasLeafValue_of_default h.var h.value hnode (hvalue.mp hu)
  rcases h.below_one hn with rfl | rfl
  · obtain ⟨node', hnode', hop, hchildren, -⟩ := h.one
    obtain rfl := Option.some.inj (hnode'.symm.trans hnode)
    obtain rfl : tallyOf operands.length = u := Option.some.inj ((h.evaluates_one hv).unique (hvalue.mp hu))
    have hlength : operands.length = values.length := by
      rw [← hchildren, ← List.length_map (g.valueAt? point), hops, List.length_map]
    change (g.operators.handler node'.kind.op).SoundAt point node'.kind values _
    rw [hop, h.sum, hlength]
    exact Handler.soundAt_tally (hlength ▸ hnumber)
  · obtain ⟨node', hnode', hkind, hchildren, -⟩ := h.zero
    obtain rfl := Option.some.inj (hnode'.symm.trans hnode)
    obtain rfl : v = u := Option.some.inj ((h.evaluates_zero hv).unique (hvalue.mp hu))
    rw [hchildren] at hops
    obtain rfl : values = [] := List.map_eq_nil_iff.mp hops.symm
    change (g.operators.handler node'.kind.op).SoundAt point node'.kind [] v
    rw [hkind]
    change (g.operators.handler .var).SoundAt point (.var 0) [] v
    rw [h.var]
    exact Handler.soundAt_var hv

end Graph.Tallies

namespace Workspace

/-- A round is opened on a sum that counts one use of a variable. -/
def tallyCommands [Scalar α] [BitPattern α] : List (Command α) :=
  [.request (.var 0), .register .sum .tally, .request (.add (.sum [1] 0) [0]), .call .beginRound]

theorem serveAll_tally [Scalar α] [BitPattern α] (settings : Settings α) (identity : Nat) (store : BoundTable α) :
    ∃ w : Workspace α, (new settings identity store).serveAll tallyCommands = .ok w ∧
      w.state.graph.Tallies [0] ∧ w.state.Unasked ∧ w.state.store = store ∧
      ∀ n node, w.state.graph.arena.node? n = some node → w.state.graph.isUsable node = false := by
  let entries : Array (Node α) := #[{ Node.fresh (.var 0) [] 1 with refs := 2 }, .fresh (.sum [1] 0) [0] 1]
  have h : ∃ w : Workspace α, (new settings identity store).serveAll tallyCommands = .ok w ∧
      w.state.graph.arena = ⟨entries.map fun node => { node with queued := false }, []⟩ ∧
      (w.state.graph.operators.handler .var = .var ∧ w.state.graph.operators.handler .value = .value ∧
        w.state.graph.operators.handler .sum = .tally) ∧
      (w.state.graph.roundBoundsEpoch = 1 ∧ w.state.graph.roundEpoch = 3) ∧
      (w.state.propagator.queue.toList = [] ∧ w.state.propagator.infeasible = false) ∧ w.state.store = store := by
    rw [serveAll, tallyCommands, List.foldlM_cons, serve_var_new, Checked.ok_bind]
    exact ⟨_, rfl, rfl, ⟨rfl, rfl, rfl⟩, ⟨rfl, rfl⟩, ⟨rfl, rfl⟩, rfl⟩
  obtain ⟨w, hrun, harena, ⟨hvar, hvalue, hsum⟩, ⟨hbounds, hround⟩, ⟨hqueue, hfeasible⟩, hstore⟩ := h
  replace harena : w.state.graph.arena = ⟨entries, []⟩ := harena.trans (by simp [entries, Node.fresh])
  have hcases : ∀ n node, w.state.graph.arena.node? n = some node → node.activityTag = 0 ∧ node.propTag = 0 := by
    intro n node hnode
    rw [harena] at hnode
    rcases n with _ | _ | n
    · cases hnode
      exact ⟨rfl, rfl⟩
    · cases hnode
      exact ⟨rfl, rfl⟩
    · cases hnode
  have hzero : w.state.graph.arena.node? 0 = some { Node.fresh (.var 0) [] 1 with refs := 2 } := by
    rw [harena]
    rfl
  have hone : w.state.graph.arena.node? 1 = some (.fresh (.sum [1] 0) [0] 1) := by
    rw [harena]
    rfl
  refine ⟨w, hrun, ⟨⟨_, hzero, rfl, rfl, Nat.succ_pos _⟩, ⟨_, hone, rfl, rfl, Nat.succ_pos _⟩,
    fun c hc => List.mem_singleton.mp hc, hvar, hvalue, hsum⟩, ⟨fun n node _ hnode => ?_, hqueue, hfeasible⟩, hstore,
    fun n node hnode => ?_⟩
  · rw [Graph.entryBounds?, (hcases n node hnode).2, hround]
    rfl
  · rw [Graph.isUsable, (hcases n node hnode).1, hbounds]
    rfl

/-- The variable lies between 0 and 1. The sum is made to use it twice before any forward pass, so it may be
requested to count two. -/
theorem append_feasible_of_tally :
    let calls : List (Call Float) := [.tighten 1 ⟨2, 2⟩, .drain]
    let point : Point Float := fun v => if v = 0 then some 0.5 else none
    ∃ w g, (new default 0 (.ofList [⟨0, 1⟩])).serveAll tallyCommands = .ok w ∧ w.state.Unasked ∧
      w.state.graph.append 1 0 1 = .ok (.ok g) ∧
      ∃ s, (calls.mapM Call.run).run { w.state with graph := g } = .ok [false, false] s ∧
        s.propagator.infeasible = false ∧ point.Within s.store.bounds := by
  intro calls point
  obtain ⟨w, hrun, htallies, hunasked, hstore, hunusable⟩ :=
    serveAll_tally default 0 (.ofList [⟨0, 1⟩] : BoundTable Float)
  have hresting := resting_of_serveAll (.empty default 0) hrun
  obtain ⟨g, happend, happ⟩ := htallies.exists_append hresting.intact 1
  have htallies' := htallies.append happ
  have hserve : w.state.graph.serve (.append 1 0 1) = .ok ([], g) := by
    rw [Graph.serve, happend]
    rfl
  obtain ⟨hordered, hstemmed⟩ := hresting.toOrdered.serve hserve
  have hslot' : g.walks.lowestFree? ≠ none := hstemmed.walks_eq ▸ SlotPool.lowestFree?_ne_none hresting.taken_eq
  obtain ⟨hone, hsound⟩ := htallies'.soundAt hordered.tagsGiven hslot' (show point 0 = some 0.5 from rfl)
    (by decide +kernel)
  have hnodes : ∀ c ∈ calls, ∀ n ∈ c.nodes, n = 1 := by decide
  have hbounds : ∀ c ∈ calls, ∀ r ∈ c.requests, r.1 = 1 ∧ Scalar.tallyOf 2 ∈ r.2 := by decide +kernel
  refine ⟨w, g, hrun, hunasked, happend, append_feasible default 0 _ hrun hunasked happend ?_ ?_ ?_ ?_ ?_ ?_⟩
  · exact .of_zero (by rw [hstore]; decide +kernel)
  · intro c hc n hn
    rw [hnodes c hc n hn, hone]
    rfl
  · intro c hc root hroot n hn
    exact hsound n (hnodes c hc root hroot ▸ hn)
  · intro c hc root hroot n v _ _ _ node hnode husable
    rw [hunusable n node hnode] at husable
    cases husable
  · intro c hc root hroot n v _ _ _ node hnode husable
    obtain ⟨node₀, hnode₀, hranges⟩ := happ.exists_ranges hnode
    have htag : node.activityTag = node₀.activityTag := congrArg (fun ranges => ranges.1.2) hranges
    have hunused := hunusable n node₀ hnode₀
    rw [Graph.isUsable, hstemmed.roundBoundsEpoch_eq, htag] at husable
    rw [Graph.isUsable, husable] at hunused
    cases hunused
  · intro c hc r hr
    obtain ⟨hn, hmem⟩ := hbounds c hc r hr
    exact ⟨_, hn ▸ hone, hmem⟩

/-- A forward pass comes first, and then the sum is made to use the variable twice. It still has the activity that
was computed for one use, and the request to count two is found contradictory. -/
theorem forwarded_tally :
    let cs : List (Command Float) := tallyCommands ++ [.call (.forward 1 false)]
    (new default 0 (.ofList [⟨0, 1⟩])).PermitsAll cs ∧
    ∃ w g, (new default 0 (.ofList [⟨0, 1⟩])).serveAll cs = .ok w ∧ w.state.graph.Tallies [0] ∧ w.state.Unasked ∧
      w.state.graph.append 1 0 1 = .ok (.ok g) ∧ 0.5 ∈ w.state.store.bounds 0 ∧ w.state.graph.CacheHolds 0 0.5 ∧
      ∃ s, ([Call.tighten 1 ⟨2, 2⟩].mapM Call.run).run { w.state with graph := g } = .ok [true] s := by
  intro cs
  have hvar := serve_var_new default 0 (BoundTable.ofList [⟨0, 1⟩] : BoundTable Float) 0
  have hfirst : (new default 0 (BoundTable.ofList [⟨0, 1⟩])).serveAll cs = _ >>= fun w => serveAll w cs.tail :=
    List.foldlM_cons ..
  have hpermits : (new default 0 (BoundTable.ofList [⟨0, 1⟩] : BoundTable Float)).PermitsAll cs := by
    refine ⟨trivial, fun w₁ hw₁ => ?_⟩
    rw [hvar] at hw₁
    cases hw₁
    decide +kernel
  let unasked (s : Propagation (BoundTable Float) Float) : Bool :=
    s.graph.arena.nodes.toList.all (s.graph.entryBounds? · |>.isNone) && s.propagator.queue.toList.isEmpty &&
      !s.propagator.infeasible
  let holds (s : Propagation (BoundTable Float) Float) : Bool :=
    decide (0.5 ∈ s.store.bounds 0) && (s.graph.arena.node? 0).all fun node => decide (0.5 ∈ node.activity)
  let answers (s : Propagation (BoundTable Float) Float) : Option (List Bool) := do
    let g ← (← (s.graph.append 1 0 1).toOption).toOption
    ([Call.tighten 1 ⟨2, 2⟩].mapM Call.run).run' { s with graph := g }
  have hread : ((new default 0 (BoundTable.ofList [⟨0, 1⟩])).serveAll cs).toOption.map (fun w =>
      (unasked w.state, holds w.state, answers w.state)) = some (true, true, some [true]) := by
    rw [hfirst, hvar, Checked.ok_bind]
    decide +kernel
  obtain ⟨w, hrun, hread⟩ := Checked.exists_ok_of_toOption hread
  simp only [Prod.mk.injEq, unasked, holds, Bool.and_eq_true, decide_eq_true_iff, List.all_eq_true,
    List.isEmpty_iff, Bool.not_eq_true', Option.all_eq_true] at hread
  obtain ⟨⟨⟨hbounds, hqueue⟩, hfeasible⟩, ⟨hstore, hcache⟩, hanswers⟩ := hread
  have htallies : w.state.graph.Tallies [0] := by
    obtain ⟨w₀, hopen, htallies, -⟩ := serveAll_tally default 0 (.ofList [⟨0, 1⟩] : BoundTable Float)
    obtain ⟨w₁, hopen', hlast⟩ := Run.append_eq_ok.mp hrun
    cases hopen.symm.trans hopen'
    obtain ⟨w', hforward, hlast⟩ := Run.cons_eq_ok.mp hlast
    cases hlast
    obtain ⟨⟨_, state⟩, hcall, hforward⟩ := Checked.bind_eq_ok.mp hforward
    cases hforward
    have hresting := resting_of_serveAll (.empty default 0) hopen
    exact htallies.sameTerms
      ((Call.keeps_run _ w₀.state hresting.dated hresting.tagsGiven).of_observe hcall).terms
  obtain ⟨g, happend, -⟩ := htallies.exists_append (resting_of_serveAll (.empty default 0) hrun).intact 1
  refine ⟨hpermits, w, g, hrun, htallies, ⟨fun n node _ hnode => ?_, hqueue, hfeasible⟩, happend, hstore,
    fun node hnode _ => hcache node hnode, ?_⟩
  · exact Option.isNone_iff_eq_none.mp
      (hbounds node (Array.mem_toList_iff.mpr (Array.mem_of_getElem? hnode)))
  · simp only [answers, happend] at hanswers
    exact Propagation.exists_run_of_result hanswers

/-- Without regard to the activities from before, appending in a round is not sound, not even for requests of the new
parent and what lies above it. -/
theorem not_forall_append_feasible : ¬ ∀ (cs : List (Command Float)) (w : Workspace Float) (parent child : NodeId)
    (coef : Float) (g : Graph Float) (point : Point Float) (calls : List (Call Float)),
    (new default 0 (.ofList [⟨0, 1⟩])).PermitsAll cs →
    (new default 0 (.ofList [⟨0, 1⟩])).serveAll cs = .ok w → w.state.Unasked →
    w.state.graph.append parent child coef = .ok (.ok g) → point.Within w.state.store.bounds →
    (∀ c ∈ calls, c = .drain ∨ ∃ n x, c = .tighten n x ∧ g.arena.Below parent n) →
    (∀ c ∈ calls, ∀ n ∈ c.nodes, (g.valueAt? point n).isSome = true) →
    (∀ c ∈ calls, ∀ root ∈ c.nodes, ∀ n, g.arena.Below n root → g.SoundAt point n) →
    (∀ c ∈ calls, ∀ root ∈ c.nodes, ∀ n v, g.arena.Below n root → ¬ g.arena.Below parent n →
      w.state.graph.valueAt? point n = some v → w.state.graph.CacheHolds n v) →
    (∀ c ∈ calls, ∀ r ∈ c.requests, ∃ v, g.valueAt? point r.1 = some v ∧ v ∈ r.2) →
    ∃ s, (calls.mapM Call.run).run { w.state with graph := g } = .ok (calls.map fun _ => false) s ∧
      s.propagator.infeasible = false ∧ point.Within s.store.bounds := by
  intro hall
  obtain ⟨hpermits, w, g, hrun, htallies, hunasked, happend, hstore, hcache, s, hs⟩ := forwarded_tally
  have hresting := resting_of_serveAll (.empty default 0) hrun
  have hslot := SlotPool.lowestFree?_ne_none hresting.taken_eq
  obtain ⟨g', happend', happ⟩ := htallies.exists_append hresting.intact 1
  obtain rfl : g' = g := by
    rw [happend] at happend'
    cases happend'
    rfl
  have htallies' := htallies.append happ
  have hserve : w.state.graph.serve (.append 1 0 1) = .ok ([], g') := by
    rw [Graph.serve, happend]
    rfl
  obtain ⟨hordered, hstemmed⟩ := hresting.toOrdered.serve hserve
  let point : Point Float := fun v => if v = 0 then some 0.5 else none
  have hpoint : point 0 = some 0.5 := rfl
  obtain ⟨hone, hsound⟩ := htallies'.soundAt hordered.tagsGiven (hstemmed.walks_eq ▸ hslot) hpoint (by decide +kernel)
  refine absurd (hall _ w 1 0 1 g' point [.tighten 1 ⟨2, 2⟩] hpermits hrun hunasked happend ?_ ?_ ?_ ?_ ?_ ?_) ?_
  · exact .of_zero hstore
  · intro c hc
    obtain rfl := List.mem_singleton.mp hc
    exact Or.inr ⟨1, ⟨2, 2⟩, rfl, .refl _ _⟩
  · intro c hc n hn
    obtain rfl := List.mem_singleton.mp hc
    obtain rfl := List.mem_singleton.mp hn
    rw [hone]
    rfl
  · intro c hc root hroot
    obtain rfl := List.mem_singleton.mp hc
    obtain rfl := List.mem_singleton.mp hroot
    exact hsound
  · intro c hc root hroot n v hn hparent hv
    obtain rfl := List.mem_singleton.mp hc
    obtain rfl := List.mem_singleton.mp hroot
    rcases htallies'.below_one hn with rfl | rfl
    · exact absurd (.refl _ _) hparent
    · obtain rfl : 0.5 = v := Option.some.inj
        ((htallies.evaluates_zero hpoint).unique ((Graph.valueAt?_eq_some_iff hresting.tagsGiven hslot).mp hv))
      exact hcache
  · intro c hc r hr
    obtain rfl := List.mem_singleton.mp hc
    obtain rfl := List.mem_singleton.mp hr
    exact ⟨_, hone, by decide +kernel⟩
  · rintro ⟨s', hs', -⟩
    rw [hs] at hs'
    cases hs'

end Workspace

end IntervalDag
