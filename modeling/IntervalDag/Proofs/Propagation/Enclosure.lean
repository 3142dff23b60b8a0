import IntervalDag.Proofs.Graph.Search
import IntervalDag.Proofs.Propagation.Frames
import IntervalDag.Proofs.Propagation.LocalSoundness

/-!
# What propagation encloses

Take a part of a graph whose nodes have values at a point, with handlers that are sound there. Propagation never
cuts these values off: it keeps them inside every range that it still uses. These are the activities computed
since a run began, the bounds propagated in the current round and the domains of variables (`Propagation.Encloses`).

Every step of propagation has one lemma here. Each says that the step ends without a fault, finds no contradiction
and keeps the values inside. For reverse propagation the lemmas also bound what waits in line, by the weights of
the nodes in it, because a node outweighs its operands: so the line is worked off at last.
-/

namespace IntervalDag

variable {α : Type}

/-! ### Ranges on nodes -/

/-- The ranges kept on a node, and when they were found. -/
def Node.ranges (node : Node α) : (Interval α × Nat) × Interval α × Nat :=
  ((node.activity, node.activityTag), node.propBounds, node.propTag)

variable [Scalar α]

namespace Graph

/-- The ranges in use hold the values of the nodes in `T`: activities from an epoch of the bounds on, and the
bounds propagated in the current round. -/
structure Encloses (g : Graph α) (epoch : Nat) (T : NodeId → Prop) (val : NodeId → α) : Prop where
  activity : ∀ {n node}, T n → g.arena.node? n = some node → epoch ≤ node.activityTag → val n ∈ node.activity
  propBounds : ∀ {n node}, T n → g.arena.node? n = some node → node.propTag = g.roundEpoch →
    val n ∈ node.propBounds

namespace Encloses

variable {g g' : Graph α} {epoch : Nat} {T : NodeId → Prop} {val : NodeId → α}

/-- Entries that keep their ranges or get ones that hold the values. -/
theorem of_entries (h : g.Encloses epoch T val) (hround : g'.roundEpoch = g.roundEpoch)
    (hentries : ∀ n node', T n → g'.arena.node? n = some node' → ∃ node, g.arena.node? n = some node ∧
      (val n ∈ node'.activity ∨ node'.ranges.1 = node.ranges.1) ∧
      (val n ∈ node'.propBounds ∨ node'.ranges.2 = node.ranges.2)) : g'.Encloses epoch T val where
  activity {n node'} hn hnode' htag := by
    obtain ⟨node, hnode, hmem | hsame, -⟩ := hentries n node' hn hnode'
    · exact hmem
    · rw [Node.ranges, Node.ranges, Prod.mk.injEq] at hsame
      rw [hsame.1]
      exact h.activity hn hnode (hsame.2 ▸ htag)
  propBounds {n node'} hn hnode' htag := by
    obtain ⟨node, hnode, -, hmem | hsame⟩ := hentries n node' hn hnode'
    · exact hmem
    · rw [Node.ranges, Node.ranges, Prod.mk.injEq] at hsame
      rw [hsame.1]
      exact h.propBounds hn hnode (by rw [← hsame.2, htag, hround])

/-- Graphs with the same ranges in the same round. -/
theorem of_agree (h : g.Encloses epoch T val) (hround : g'.roundEpoch = g.roundEpoch)
    (hagree : Arena.AgreeOn Node.ranges g.arena g'.arena) : g'.Encloses epoch T val := by
  refine h.of_entries hround fun n node' _ hnode' => ?_
  obtain ⟨node, hnode, heq⟩ := hagree.symm.exists_node? hnode'
  exact ⟨node, hnode, Or.inr (congrArg Prod.fst heq.symm), Or.inr (congrArg Prod.snd heq.symm)⟩

/-- Changing one entry. -/
theorem modify (h : g.Encloses epoch T val) {n : NodeId} {f : Node α → Node α}
    (hf : ∀ node, T n → g.arena.node? n = some node →
      (val n ∈ (f node).activity ∨ (f node).ranges.1 = node.ranges.1) ∧
      (val n ∈ (f node).propBounds ∨ (f node).ranges.2 = node.ranges.2)) :
    (g.modify n f).Encloses epoch T val := by
  refine h.of_entries rfl fun m node' hm hnode' => ?_
  rw [Graph.modify, Arena.node?_modify] at hnode'
  split at hnode'
  · rename_i hmn
    obtain ⟨node, hnode, rfl⟩ := Option.map_eq_some_iff.mp hnode'
    subst hmn
    exact ⟨node, hnode, hf node hm hnode⟩
  · exact ⟨node', hnode', Or.inr rfl, Or.inr rfl⟩

/-- In a new round, no bounds have been propagated yet. -/
theorem opened (h : g.Encloses epoch T val) (hdated : g.Dated) : g.opened.Encloses epoch T val where
  activity hn hnode' htag := by
    obtain ⟨node, hnode, heq⟩ := (g.agreeOn_opened Node.ranges fun _ => rfl).symm.exists_node? hnode'
    simp only [Node.ranges, Prod.mk.injEq] at heq
    rw [← heq.1.1]
    exact h.activity hn hnode (heq.1.2 ▸ htag)
  propBounds hn hnode' htag := by
    obtain ⟨node, hnode, heq⟩ := (g.agreeOn_opened Node.ranges fun _ => rfl).symm.exists_node? hnode'
    simp only [Node.ranges, Prod.mk.injEq] at heq
    have hle := hdated.propTag_le _ node hnode
    have hlast := hdated.roundEpoch_le
    have hnew : g.opened.roundEpoch = g.epochs.last + 1 := rfl
    omega

end Encloses

omit [Scalar α] in
/-- The work that waits in line, measured by the weights of the nodes. -/
noncomputable def load (g : Graph α) (queue : Fifo NodeId) : Nat := (queue.toList.map g.arena.weight).sum

omit [Scalar α] in
theorem load_push (g : Graph α) (queue : Fifo NodeId) (n : NodeId) :
    g.load (queue.push n) = g.load queue + g.arena.weight n := by
  rw [load, Fifo.toList_push, List.map_append, List.sum_append, List.map_singleton, List.sum_singleton, load]

end Graph

namespace Propagation

/-! ### States -/

/-- Nothing that propagation uses in a state cuts off the point or the values `val` of the nodes in `T`, and only
such nodes wait in line. -/
structure Encloses (epoch : Nat) (point : Point α) (T : NodeId → Prop) (val : NodeId → α)
    (s : Propagation (BoundTable α) α) : Prop where
  graph : s.graph.Encloses epoch T val
  store : point.Within s.store.bounds
  queue : ∀ n ∈ s.propagator.queue.toList, T n
  feasible : s.propagator.infeasible = false

/-- A state of a run that began with the graph `g₀`, in which nothing was cut off so far. -/
structure Enclosing (g₀ : Graph α) (point : Point α) (T : NodeId → Prop) (val : NodeId → α)
    (s : Propagation (BoundTable α) α) : Prop where
  propagated : g₀.Propagated s.graph
  encloses : Encloses g₀.roundBoundsEpoch point T val s

variable {β : Type} {g₀ : Graph α} {epoch : Nat} {point : Point α} {T : NodeId → Prop} {val : NodeId → α}
  {s : Propagation (BoundTable α) α} {n : NodeId}

/-- Counters and records do not matter. -/
theorem Encloses.aside (h : Encloses epoch point T val s) (stats : PropagationStats)
    (records : List (LogRecord α)) :
    Encloses epoch point T val { s with propagator := { s.propagator with stats }, records } :=
  ⟨h.graph, h.store, h.queue, h.feasible⟩

theorem Enclosing.aside (h : Enclosing g₀ point T val s) (stats : PropagationStats)
    (records : List (LogRecord α)) :
    Enclosing g₀ point T val { s with propagator := { s.propagator with stats }, records } :=
  ⟨h.propagated, h.encloses.aside stats records⟩

/-- What is the same for all programs need not be shown of each. -/
theorem Enclosing.of_keeps (h : Enclosing g₀ point T val s) {x : PropagationM (BoundTable α) α β}
    {P : β → Propagation (BoundTable α) α → Prop} (hx : Keeps x)
    (hmeets : Meets x s NoFault fun b s' => P b s' ∧ Encloses g₀.roundBoundsEpoch point T val s') :
    Meets x s NoFault fun b s' => P b s' ∧ Enclosing g₀ point T val s' := by
  refine (hmeets.and (hx s h.propagated.dated h.propagated.tagsGiven)).imp fun b s' hs => ?_
  obtain ⟨⟨hP, hencloses⟩, hpropagated⟩ := hs
  exact ⟨hP, h.propagated.trans hpropagated, hencloses⟩

variable [OrderedScalar α]

/-! ### Reading bounds -/

/-- The bounds of a node as far as they are known hold its value. -/
theorem Encloses.meets_currentBounds (h : Encloses epoch point T val s) (hval : s.graph.Sampled point T val)
    (hepoch : epoch ≤ s.graph.roundBoundsEpoch) (hn : T n) {E : Fault α → Prop} :
    Meets (currentBounds s.graph s.store n) () E fun x _ => val n ∈ x := by
  have halive := hval.isAlive hn
  have hentire := hval.mem_entire h.store hn
  rw [currentBounds]
  refine meets_bind.mpr (Graph.meets_get (Or.inl (Arena.lt_capacity_of_isAlive halive)) fun node hnode => ?_)
  have hleaf := hval.leaf hn hnode
  -- whatever the bounds come from, they are met with those propagated in the round
  have hmet : ∀ base : Interval α, val n ∈ base → ∀ node, s.graph.arena.node? n = some node →
      val n ∈ (s.graph.entryBounds? node).elim base base.inter := by
    intro base hbase node hnode
    rw [Graph.entryBounds?]
    split_ifs with htag
    · exact Interval.mem_inter hbase (h.graph.propBounds hn hnode htag)
    · exact hbase
  dsimp only
  split
  · rename_i v hkind
    rw [hkind] at hleaf
    exact meets_inter_propBounds? (Or.inl halive) (hmet _ (h.store v _ hleaf))
  · rename_i c hkind
    rw [hkind] at hleaf
    obtain ⟨y, hy, hmem⟩ := Interval.exists_point_of_mem hentire
    rw [show c = val n from hleaf, hy]
    exact meets_inter_propBounds? (Or.inl halive) (hmet y hmem)
  · refine meets_inter_propBounds? (Or.inl halive) (hmet _ ?_)
    split_ifs with husable
    · exact h.graph.activity hn hnode (Nat.le_trans hepoch (of_decide_eq_true husable))
    · exact hentire

/-! ### Tightening -/

/-- Bounds that hold the value of a node may be written down on it. -/
theorem Encloses.meets_writeBounds (h : Encloses epoch point T val s)
    (hepoch : epoch ≤ s.graph.roundBoundsEpoch) {x : Interval α} (hx : val n ∈ x) {E : Fault α → Prop} :
    Meets (writeBounds n x) s E fun _ s' => Encloses epoch point T val s' ∧
      s'.propagator.queue = s.propagator.queue := by
  rw [writeBounds]
  simp only [meets_bind, meets_modifyGraph, meets_modifyStats]
  refine ⟨⟨h.graph.modify fun node hn hnode => ⟨?_, Or.inl hx⟩, h.store, h.queue, h.feasible⟩, trivial⟩
  by_cases husable : s.graph.isUsable node = true
  · refine Or.inl ?_
    simp only [husable, if_true]
    exact Interval.mem_inter (h.graph.activity hn hnode (Nat.le_trans hepoch (of_decide_eq_true husable))) hx
  · refine Or.inr ?_
    simp only [Node.ranges, husable, if_false, Bool.false_eq_true]

omit [OrderedScalar α] in
/-- Putting a node in line. -/
theorem Encloses.meets_enqueue (h : Encloses epoch point T val s) (hn : T n) (entry : Node α)
    {E : Fault α → Prop} :
    Meets (enqueue n entry) s E fun _ s' => Encloses epoch point T val s' ∧
      (s'.propagator.queue = s.propagator.queue ∨ s'.propagator.queue = s.propagator.queue.push n) := by
  rw [enqueue]
  split_ifs
  · exact meets_pure.mpr ⟨h, Or.inl rfl⟩
  · simp only [meets_bind, meets_modifyGraph, meets_modifyPropagator]
    refine ⟨⟨h.graph.modify fun _ _ _ => ⟨Or.inr rfl, Or.inr rfl⟩, h.store, fun m hm => ?_, h.feasible⟩,
      Or.inr trivial⟩
    rw [Fifo.toList_push, List.mem_append, List.mem_singleton] at hm
    rcases hm with hm | rfl
    · exact h.queue m hm
    · exact hn

/-- Passing on bounds that hold the value of a node. -/
theorem Encloses.meets_passOn (h : Encloses epoch point T val s) (hn : T n) {entry : Node α}
    (hleaf : entry.kind.HasLeafValue point (val n)) {x : Interval α} (hx : val n ∈ x) {E : Fault α → Prop} :
    Meets (passOn n entry x) s E fun t s' => t.infeasible = false ∧ Encloses epoch point T val s' ∧
      (s'.propagator.queue = s.propagator.queue ∨ s'.propagator.queue = s.propagator.queue.push n) := by
  rw [passOn]
  split
  · rename_i v hkind
    rw [hkind] at hleaf
    obtain ⟨hfeasible, hwithin⟩ := BoundTable.tighten_of_mem h.store hleaf hx
    refine meets_bind.mpr (meets_get.mpr ?_)
    change (BoundStore.tighten s.store v x).2 ≠ _ at hfeasible
    change point.Within (BoundTable.bounds (BoundStore.tighten s.store v x).1) at hwithin
    rcases htighten : BoundStore.tighten s.store v x with ⟨store, change⟩
    rw [htighten] at hfeasible hwithin
    simp only [meets_bind, meets_modify]
    cases change with
    | tightened =>
      simp only [meets_bind, meets_modifyGraph, meets_pure]
      exact ⟨trivial, ⟨h.graph.of_agree rfl (.refl _ _), hwithin, h.queue, h.feasible⟩, Or.inl trivial⟩
    | unchanged =>
      simp only [meets_pure]
      exact ⟨trivial, ⟨h.graph, hwithin, h.queue, h.feasible⟩, Or.inl trivial⟩
    | infeasible => exact absurd rfl hfeasible
  · exact meets_pure.mpr ⟨rfl, h, Or.inl rfl⟩
  · exact (h.meets_enqueue hn entry).bind fun _ s' hs => meets_pure.mpr ⟨rfl, hs⟩

/-- **Tightening.** An interval that holds the value of a node is no contradiction, whatever is known of the
node. -/
theorem Enclosing.meets_tighten (h : Enclosing g₀ point T val s) (hval : g₀.Sampled point T val) (hn : T n)
    {x : Interval α} (hx : val n ∈ x) :
    Meets (tighten n x) s NoFault fun t s' => (t.infeasible = false ∧
      g₀.load s'.propagator.queue ≤ g₀.load s.propagator.queue + g₀.arena.weight n) ∧ Enclosing g₀ point T val s' := by
  have hval' := hval.sameTerms h.propagated.terms
  have hepoch := h.propagated.roundBoundsEpoch_le
  refine h.of_keeps (keeps_tighten n x) ?_
  rw [tighten]
  simp only [meets_bind, meets_get, meets_check]
  refine (h.encloses.meets_currentBounds hval' hepoch hn).imp fun current _ hcurrent => ?_
  have hnarrowed : val n ∈ current.inter x := Interval.mem_inter hcurrent hx
  simp only [Interval.isEmpty_of_mem hnarrowed, Bool.false_eq_true, if_false]
  split_ifs
  · exact meets_pure.mpr ⟨⟨rfl, Nat.le_add_right _ _⟩, h.encloses⟩
  simp only [meets_bind, meets_record, meets_check]
  refine Graph.meets_get (Or.inl (Arena.lt_capacity_of_isAlive (hval'.isAlive hn))) fun entry hentry => ?_
  have hrecorded := h.encloses.aside s.propagator.stats (.narrowed n current (current.inter x) :: s.records)
  refine (hrecorded.meets_writeBounds hepoch hnarrowed).imp fun _ s₁ hs₁ => ?_
  obtain ⟨hwritten, hqueue⟩ := hs₁
  refine (hwritten.meets_passOn hn (hval'.leaf hn hentry) hnarrowed).imp fun t s₂ hs₂ => ?_
  obtain ⟨ht, hencloses, hqueue'⟩ := hs₂
  rw [hqueue] at hqueue'
  refine ⟨⟨ht, ?_⟩, hencloses⟩
  rcases hqueue' with hqueue' | hqueue'
  · rw [hqueue']
    exact Nat.le_add_right _ _
  · rw [hqueue', Graph.load_push]

/-- Tightening several nodes. -/
theorem Enclosing.meets_tightenEach {requests : List (NodeId × Interval α)} (h : Enclosing g₀ point T val s)
    (hval : g₀.Sampled point T val) (hrequests : ∀ r ∈ requests, T r.1 ∧ val r.1 ∈ r.2) (count : Nat) :
    Meets (tightenEach requests count) s NoFault fun t s' => (t.infeasible = false ∧
      g₀.load s'.propagator.queue ≤ g₀.load s.propagator.queue + (requests.map fun r => g₀.arena.weight r.1).sum) ∧
      Enclosing g₀ point T val s' := by
  induction requests generalizing s count with
  | nil => exact meets_pure.mpr ⟨⟨rfl, Nat.le_refl _⟩, h⟩
  | cons request requests ih =>
    obtain ⟨hn, hx⟩ := hrequests request (List.mem_cons_self ..)
    refine (h.meets_tighten hval hn hx).bind fun t s₁ hs₁ => ?_
    obtain ⟨⟨ht, hload⟩, h₁⟩ := hs₁
    simp only [ht, Bool.false_eq_true, if_false]
    refine (ih h₁ (fun r hr => hrequests r (List.mem_cons_of_mem _ hr)) _).imp fun t s₂ hs₂ => ?_
    obtain ⟨⟨ht', hload'⟩, h₂⟩ := hs₂
    refine ⟨⟨ht', ?_⟩, h₂⟩
    rw [List.map_cons, List.sum_cons]
    omega

/-! ### Working off the line -/

omit [OrderedScalar α] in
theorem Enclosing.meets_setQueued (h : Enclosing g₀ point T val s) (queued : Bool) :
    Meets (modifyGraph fun g => g.modify n fun entry => { entry with queued } : PropagationM _ _ _) s NoFault
      fun _ s' => s'.propagator = s.propagator ∧ Enclosing g₀ point T val s' := by
  refine h.of_keeps (keeps_setQueued n queued) ⟨rfl, ?_, h.encloses.store, h.encloses.queue, h.encloses.feasible⟩
  exact h.encloses.graph.modify fun _ _ _ => ⟨Or.inr rfl, Or.inr rfl⟩

/-- **The inverse relation.** It finds operands consistent, and asks for bounds on them that hold their values. -/
theorem Enclosing.meets_reverseNode (h : Enclosing g₀ point T val s) (hval : g₀.Sampled point T val) (hn : T n) :
    Meets (reverseNode n) s NoFault fun r s' => (s'.propagator.queue = s.propagator.queue ∧
      ∃ requests, r = some requests ∧ requests.map Prod.fst = g₀.arena.operands n ∧
        ∀ request ∈ requests, T request.1 ∧ val request.1 ∈ request.2) ∧ Enclosing g₀ point T val s' := by
  have hval' := hval.sameTerms h.propagated.terms
  have hepoch := h.propagated.roundBoundsEpoch_le
  refine h.of_keeps (keeps_reverseNode n) ?_
  rw [reverseNode]
  simp only [meets_bind, meets_get, meets_check]
  refine (h.encloses.meets_currentBounds hval' hepoch hn).imp fun bounds _ hbounds => ?_
  refine Graph.meets_get (Or.inl (Arena.lt_capacity_of_isAlive (hval'.isAlive hn))) fun entry hentry => ?_
  have hops : ∀ c ∈ entry.children, T c := fun c hc => hval'.operand hn (by
    rwa [Arena.isOperand_iff hentry])
  refine Meets.imp (meets_mapM_forall₂ (R := fun c (x : Interval α) => val c ∈ x) fun c hc =>
    h.encloses.meets_currentBounds hval' hepoch (hops c hc)) fun operands _ hoperands => ?_
  obtain ⟨noted, hrun, hverdict, hnarrowed⟩ :=
    (hval'.handler hn hentry).reverse bounds operands hbounds (List.forall₂_map_left_iff.mpr hoperands)
  rw [hrun]
  refine meets_pure.mpr ?_
  refine meets_takeNoted fun reported records => ?_
  simp only [meets_modifyStats, hverdict, meets_pure]
  rw [List.forall₂_map_left_iff, List.forall₂_iff_zip] at hnarrowed
  refine ⟨⟨trivial, _, rfl, ?_, fun request hrequest => ?_⟩, ?_⟩
  · rw [List.map_fst_zip (Nat.le_of_eq hnarrowed.1), ← h.propagated.terms.children.operands_eq,
      Arena.operands_eq_of_node? hentry]
  · exact ⟨hops _ (List.of_mem_zip hrequest).1, hnarrowed.2 hrequest⟩
  · exact ⟨h.encloses.graph.of_agree rfl (.refl _ _), h.encloses.store, h.encloses.queue, h.encloses.feasible⟩

/-- **One turn.** Less waits in line than before, as the node that was worked off outweighs its operands. -/
theorem Enclosing.meets_drainTurn (h : Enclosing g₀ point T val s) (hval : g₀.Sampled point T val) (count : Nat) :
    Meets (drainTurn count) s NoFault (Turn.Allowed
      (fun _ s' => g₀.load s'.propagator.queue < g₀.load s.propagator.queue ∧ Enclosing g₀ point T val s')
      fun t s' => t.infeasible = false ∧ Enclosing g₀ point T val s') := by
  rw [drainTurn]
  refine meets_bind.mpr (meets_get.mpr ?_)
  rcases hpop : s.propagator.queue.pop? with _ | ⟨n, queue⟩
  · exact meets_pure.mpr ⟨rfl, h⟩
  have hqueue := Fifo.pop?_eq_some hpop
  have hn : T n := h.encloses.queue n (hqueue ▸ List.mem_cons_self ..)
  have hload : g₀.load s.propagator.queue = g₀.arena.weight n + g₀.load queue := by
    rw [Graph.load, hqueue, List.map_cons, List.sum_cons, Graph.load]
  have hpopped : Enclosing g₀ point T val { s with propagator := { s.propagator with queue } } :=
    ⟨h.propagated, h.encloses.graph, h.encloses.store,
      fun m hm => h.encloses.queue m (hqueue ▸ List.mem_cons_of_mem _ hm), h.encloses.feasible⟩
  refine meets_bind.mpr (meets_modifyPropagator.mpr ((hpopped.meets_setQueued false).bind fun _ s₁ hs₁ => ?_))
  obtain ⟨hpropagator, h₁⟩ := hs₁
  refine (h₁.meets_reverseNode hval hn).bind fun r s₂ hs₂ => ?_
  obtain ⟨⟨hqueue₂, requests, rfl, hfst, hrequests⟩, h₂⟩ := hs₂
  refine (h₂.meets_tightenEach hval hrequests count).bind fun t s₃ hs₃ => ?_
  obtain ⟨⟨ht, hload₃⟩, h₃⟩ := hs₃
  simp only [ht, Bool.false_eq_true, if_false]
  refine meets_pure.mpr ⟨?_, h₃⟩
  have hweights : (requests.map fun r => g₀.arena.weight r.1).sum < g₀.arena.weight n := by
    have hsum := Arena.sum_weight_operands_lt (hval.acc hn)
    rwa [← hfst, List.map_map] at hsum
  rw [hqueue₂, hpropagator] at hload₃
  dsimp only at hload₃
  omega

/-- **Working off the line.** It ends, as what waits in line goes down with every turn. -/
theorem Enclosing.meets_drain (h : Enclosing g₀ point T val s) (hval : g₀.Sampled point T val) :
    Meets drain s NoFault fun t s' => t.infeasible = false ∧ Enclosing g₀ point T val s' := by
  rw [drain]
  refine Meets.bind (P := fun t s' => t.infeasible = false ∧ Enclosing g₀ point T val s') ?_ fun t s' hs => ?_
  · refine meets_run (I := fun k _ s' => g₀.load s'.propagator.queue = k ∧ Enclosing g₀ point T val s')
      (fun k count s₁ hs => ?_) (fun k count s₁ hs => ?_) ⟨rfl, h⟩
    · obtain ⟨rfl, h₁⟩ := hs
      refine meets_bind.mpr (meets_get.mpr (meets_pure.mpr ⟨rfl, ?_⟩))
      rw [h₁.propagated.terms.children.edgeCount_eq]
      calc g₀.load s₁.propagator.queue
          ≤ s₁.propagator.queue.size * 2 ^ g₀.arena.edgeCount := by
            have hle := List.sum_le_card_nsmul (s₁.propagator.queue.toList.map g₀.arena.weight)
              (2 ^ g₀.arena.edgeCount) (by simpa using fun n _ => g₀.arena.weight_le n)
            rwa [List.length_map, Fifo.length_toList] at hle
        _ < 2 ^ (s₁.propagator.queue.size + 1) * 2 ^ g₀.arena.edgeCount := by
            refine Nat.mul_lt_mul_of_pos_right ?_ (Nat.two_pow_pos _)
            exact Nat.lt_of_succ_lt Nat.lt_two_pow_self
        _ = 2 ^ (g₀.arena.edgeCount + s₁.propagator.queue.size + 1) := by
            rw [← Nat.pow_add]
            congr 1
            omega
    · obtain ⟨rfl, h₁⟩ := hs
      refine (h₁.meets_drainTurn hval count).imp fun turn s₂ hturn => ?_
      cases turn with
      | done t => exact hturn
      | next count => exact ⟨_, hturn.1, rfl, hturn.2⟩
  · obtain ⟨ht, h'⟩ := hs
    simp only [ht, Bool.false_eq_true, if_false]
    exact meets_pure.mpr ⟨ht, h'⟩

/-! ### Forward passes -/

/-- The range of a node over activities that hold its operands' values. -/
theorem Encloses.meets_rangeOver (h : Encloses epoch point T val s) (hval : s.graph.Sampled point T val)
    (hn : T n) {entry : Node α} (hentry : s.graph.arena.node? n = some entry)
    (hops : ∀ c ∈ entry.children, val c ∈ s.graph.activityAt c) {E : Fault α → Prop} :
    Meets (s.graph.rangeOver (BoundStore.bounds s.store) entry.kind (entry.children.map s.graph.activityAt)) () E
      fun x _ => val n ∈ x := by
  have hnonempty : ¬ (entry.children.map s.graph.activityAt).any (·.isEmpty) = true := by
    rw [List.any_eq_true]
    rintro ⟨x, hx, hempty⟩
    obtain ⟨c, hc, rfl⟩ := List.mem_map.mp hx
    rw [Interval.isEmpty_of_mem (hops c hc)] at hempty
    cases hempty
  obtain ⟨noted, hrun, hmem⟩ := (hval.handler hn hentry).interval (BoundStore.bounds s.store) _ h.store
    (Graph.Sampled.forall₂_mem s.graph.activityAt hops)
  rw [Graph.rangeOver, if_neg hnonempty, hrun]
  exact hmem

omit [OrderedScalar α] in
theorem Encloses.recomputed (h : Encloses epoch point T val s) {x : Interval α} (hx : val n ∈ x)
    (reported : Op → Bool) (records : List (LogRecord α)) (stats : PropagationStats) :
    Encloses epoch point T val (s.recomputed n x reported records stats) := by
  refine ⟨h.graph.of_entries rfl fun m node' _ hnode' => ?_, h.store, h.queue, h.feasible⟩
  rw [node?_recomputed] at hnode'
  split_ifs at hnode' with hmn
  · obtain ⟨node, hnode, rfl⟩ := Option.map_eq_some_iff.mp hnode'
    exact ⟨node, hnode, Or.inl (hmn ▸ hx), Or.inr rfl⟩
  · exact ⟨node', hnode', Or.inr rfl, Or.inr rfl⟩

/-- Visiting a node whose operands were visited keeps its value inside. -/
theorem refreshes_of_encloses (hval : g₀.Sampled point T val) {root : NodeId} (hroot : T root) (force : Bool) :
    Refreshes root force NoFault
      (fun seen _ s => Encloses g₀.roundBoundsEpoch point T val s ∧ g₀.Advanced s.graph ∧
        ∀ n, seen n → s.graph.IsFreshAt n)
      (fun _ _ => False) where
  meets {n rest seen count s} hJ hbelow hnew hops hpending := by
    obtain ⟨h, hadvanced, hseen⟩ := hJ
    have hval' := hval.sameTerms hadvanced.terms
    have hn : T n := hval'.below hroot hbelow
    have hepoch : g₀.roundBoundsEpoch ≤ s.graph.boundsEpoch :=
      Nat.le_trans hadvanced.roundBoundsEpoch_le hadvanced.dated.roundBoundsEpoch_le
    have hinside : ∀ c, s.graph.arena.IsOperand c n → c < s.graph.arena.capacity := fun c hc =>
      Arena.lt_capacity_of_isAlive (hval'.isAlive (hval'.operand hn hc))
    refine meets_refresh (Or.inl (hval'.isAlive hn)) (Or.inl hinside) (fun entry hentry _ hfresh => ?_)
      fun entry hentry _ => ?_
    · have hfresh : entry.activityTag = s.graph.boundsEpoch := by simpa [Graph.isFresh] using hfresh
      have hmem := h.graph.activity hn hentry (hfresh ▸ hepoch)
      simp only [Interval.isEmpty_of_mem hmem, Bool.false_eq_true, if_false]
      refine ⟨⟨.refl _ _, rfl⟩, h, hadvanced, fun m hm => ?_⟩
      rcases hm with rfl | hm
      · exact ⟨entry, hentry, hfresh⟩
      · exact hseen m hm
    · -- the operands were visited, so their activities are in use and hold their values
      have hactivities : ∀ c ∈ entry.children, val c ∈ s.graph.activityAt c := by
        intro c hc
        have hop : s.graph.arena.IsOperand c n := by rwa [Arena.isOperand_iff hentry]
        obtain ⟨child, hchild, hfresh⟩ := hseen c (hops c hop)
        rw [Graph.activityAt, hchild]
        exact h.graph.activity (hval'.operand hn hop) hchild (hfresh ▸ hepoch)
      refine (h.meets_rangeOver hval' hn hentry hactivities).imp fun x _ hx count reported records stats => ?_
      have hnarrowed : val n ∈ (s.graph.entryBounds? entry).elim x x.inter := by
        rw [Graph.entryBounds?]
        split_ifs with htag
        · exact Interval.mem_inter hx (h.graph.propBounds hn hentry htag)
        · exact hx
      obtain ⟨hstep, hmono⟩ := advanced_recomputed hadvanced.dated (Arena.lt_capacity_of_node? hentry)
        (fun c hc => hseen c (hops c hc)) ((s.graph.entryBounds? entry).elim x x.inter) reported records stats
      refine ⟨sameWay_recomputed s n _ reported records stats, ?_⟩
      simp only [Interval.isEmpty_of_mem hnarrowed, Bool.false_eq_true, if_false]
      exact ⟨h.recomputed hnarrowed reported records stats, hadvanced.trans hstep,
        fun m hm => hmono m (hm.imp_right (hseen m))⟩
  walked_J {seen count s g} hJ hwalked := by
    obtain ⟨h, hadvanced, hseen⟩ := hJ
    have hround : g.roundEpoch = s.graph.roundEpoch := by rw [hwalked.rest_eq]
    refine ⟨⟨h.graph.of_agree hround (hwalked.agree.map Node.ranges), h.store, h.queue, h.feasible⟩,
      hadvanced.trans (.of_walked hadvanced.dated hwalked), fun n hn => ?_⟩
    rw [Graph.isFreshAt_eq (hwalked.agree.map Node.activityTag) (by rw [hwalked.rest_eq])]
    exact hseen n hn
  walked_K h _ := h

/-- **Forward passes.** They meet no empty activity. -/
theorem Enclosing.meets_forward (h : Enclosing g₀ point T val s) (hval : g₀.Sampled point T val)
    (hslot : g₀.walks.lowestFree? ≠ none) {root : NodeId} (hroot : T root) (force : Bool) :
    Meets (forward root force) s NoFault fun r s' => r.infeasible = false ∧ Enclosing g₀ point T val s' := by
  have hval' := hval.sameTerms h.propagated.terms
  have hgood : s.graph.Walkable root NoFault := Or.inl ⟨hval'.acc hroot, fun m hm =>
    Arena.lt_capacity_of_isAlive (hval'.isAlive (hval'.below hroot hm))⟩
  have hslot' : s.graph.walks.lowestFree? ≠ none := by
    rwa [SlotPool.lowestFree?, h.propagated.taken_eq, ← SlotPool.lowestFree?]
  refine ((Propagation.meets_forward (refreshes_of_encloses hval hroot force)
    ⟨h.encloses, h.propagated.toAdvanced, fun _ => False.elim⟩ h.propagated.tagsGiven hgood
    (Or.inl hslot')).and (passed_forward root force h.propagated.tagsGiven)).imp fun r s' hr => ?_
  obtain ⟨⟨-, -, hr⟩, hpassed⟩ := hr
  split at hr
  · exact hr.2.elim
  · rename_i hfeasible
    obtain ⟨-, seen, -, hencloses, hadvanced, -⟩ := hr
    exact ⟨Bool.not_eq_true _ ▸ hfeasible, ⟨hadvanced, h.propagated.toPassed.trans hpassed⟩, hencloses⟩

/-! ### Rounds -/

omit [OrderedScalar α] in
theorem Enclosing.meets_beginRound (h : Enclosing g₀ point T val s) :
    Meets beginRound s NoFault fun _ s' => Enclosing g₀ point T val s' := by
  refine (h.of_keeps (P := fun _ _ => True) keeps_beginRound ⟨trivial, ?_⟩).imp fun _ _ hs => hs.2
  exact ⟨h.encloses.graph.opened h.propagated.dated, h.encloses.store, nofun, rfl⟩

/-- One constraint that the point satisfies. -/
theorem Enclosing.meets_applyConstraint (h : Enclosing g₀ point T val s) (hval : g₀.Sampled point T val)
    (hslot : g₀.walks.lowestFree? ≠ none) {c : Constraint α} (hc : T c.root ∧ val c.root ∈ c.bounds) :
    Meets (applyConstraint c) s NoFault fun t s' => t.infeasible = false ∧ Enclosing g₀ point T val s' := by
  refine (h.meets_forward hval hslot hc.1 false).bind fun r s₁ hs₁ => ?_
  obtain ⟨hr, h₁⟩ := hs₁
  simp only [hr, Bool.false_eq_true, if_false]
  refine (h₁.meets_tighten hval hc.1 hc.2).bind fun t s₂ hs₂ => ?_
  obtain ⟨⟨ht, -⟩, h₂⟩ := hs₂
  simp only [ht, Bool.false_eq_true, if_false]
  exact (h₂.meets_drain hval).bind fun d s₃ hs₃ => meets_pure.mpr hs₃

theorem Enclosing.meets_applyConstraints {cs : List (Constraint α)} (h : Enclosing g₀ point T val s)
    (hval : g₀.Sampled point T val) (hslot : g₀.walks.lowestFree? ≠ none)
    (hcs : ∀ c ∈ cs, T c.root ∧ val c.root ∈ c.bounds) (count : Nat) :
    Meets (applyConstraints cs count) s NoFault fun t s' =>
      t.infeasible = false ∧ Enclosing g₀ point T val s' := by
  induction cs generalizing s count with
  | nil => exact meets_pure.mpr ⟨rfl, h⟩
  | cons c cs ih =>
    refine (h.meets_applyConstraint hval hslot (hcs c (List.mem_cons_self ..))).bind fun t s₁ hs₁ => ?_
    obtain ⟨ht, h₁⟩ := hs₁
    simp only [ht, Bool.false_eq_true, if_false]
    exact ih h₁ (fun d hd => hcs d (List.mem_cons_of_mem _ hd)) _

theorem Enclosing.meets_runRounds {cs : List (Constraint α)} (h : Enclosing g₀ point T val s)
    (hval : g₀.Sampled point T val) (hslot : g₀.walks.lowestFree? ≠ none)
    (hcs : ∀ c ∈ cs, T c.root ∧ val c.root ∈ c.bounds) (more : Nat) {outcome : PropagationOutcome}
    (houtcome : outcome.infeasible = false) :
    Meets (runRounds cs more outcome) s NoFault fun r s' =>
      r.infeasible = false ∧ Enclosing g₀ point T val s' := by
  induction more generalizing s outcome with
  | zero => exact meets_pure.mpr ⟨houtcome, h⟩
  | succ more ih =>
    rw [runRounds]
    refine h.meets_beginRound.bind fun _ s₁ h₁ => ?_
    simp only [meets_bind, meets_modifyStats, meets_get]
    refine ((h₁.aside _ _).meets_applyConstraints hval hslot hcs 0).imp fun t s₂ hs₂ => ?_
    obtain ⟨ht, h₂⟩ := hs₂
    simp only [meets_record, ht, Bool.false_or]
    have h₂' := h₂.aside s₂.propagator.stats (.roundDone (outcome.rounds + 1) t.count false :: s₂.records)
    split_ifs
    · exact meets_pure.mpr ⟨rfl, h₂'⟩
    · exact ih h₂' rfl

/-- **Propagation in rounds.** -/
theorem Enclosing.meets_propagate {cs : List (Constraint α)} (h : Enclosing g₀ point T val s)
    (hval : g₀.Sampled point T val) (hslot : g₀.walks.lowestFree? ≠ none)
    (hcs : ∀ c ∈ cs, T c.root ∧ val c.root ∈ c.bounds) :
    Meets (propagate cs) s NoFault fun r s' => r.infeasible = false ∧ Enclosing g₀ point T val s' :=
  meets_bind.mpr (meets_get.mpr (h.meets_runRounds hval hslot hcs _ rfl))

end Propagation

end IntervalDag
