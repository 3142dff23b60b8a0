import IntervalDag.Propagation.Reverse
import IntervalDag.Proofs.Graph.Search
import IntervalDag.Proofs.Graph.SameTerms
import IntervalDag.Proofs.Propagation.Rules

/-!
# Steps of reverse propagation

Reverse propagation goes from state to state in few ways. `Tightens` lists what tightening a node can come to, with
the state that it leaves behind, and `meets_tighten_cases` says that there is nothing else.

What is to be shown of a whole run is then an invariant. `meets_drain_of_inv` carries it through the line, and asks
of it that taking a node out, counting and tightening an operand preserve it.
-/

namespace IntervalDag

variable {σ α : Type}

/-- The bounds of an entry before those propagated onto it: the domain of a variable, the value of a constant, or a
usable activity. -/
def Graph.ownBounds [Scalar α] [BoundStore σ α] (g : Graph α) (store : σ) (entry : Node α) :
    Checked α (Interval α) :=
  match entry.kind with
  | .var v => .ok (BoundStore.bounds store v)
  | .value v => Interval.point v
  | _ => .ok (if g.isUsable entry then entry.activity else .entire)

/-- A graph in which the nodes of a list that are in use were marked as not being in line. -/
def Graph.unqueue (g : Graph α) (ns : List NodeId) : Graph α :=
  ns.foldl (fun g n => if g.isAlive n then g.modify n fun entry => { entry with queued := false } else g) g

namespace Propagation

variable {s s₁ : Propagation σ α} {n : NodeId} {E : Fault α → Prop}

theorem inter_propBounds?_eq [Scalar α] (g : Graph α) (n : NodeId) (base : Interval α) :
    (do
      match ← g.propBounds? n with
      | some bounds => return base.inter bounds
      | none => return base : Checked α (Interval α)) =
    (do return (← g.propBounds? n).elim base base.inter) := by
  refine bind_congr fun bounds? => ?_
  cases bounds? with
  | none => rfl
  | some bounds => rfl

theorem currentBounds_eq [Scalar α] [BoundStore σ α] (g : Graph α) (store : σ) (n : NodeId) :
    currentBounds g store n = do
      let entry ← g.arena.get n
      let base ← g.ownBounds store entry
      return (← g.propBounds? n).elim base base.inter := by
  rw [currentBounds]
  refine bind_congr fun entry => ?_
  rw [Graph.ownBounds]
  cases entry.kind <;> exact bind_congr fun base => inter_propBounds?_eq g n base

/-- The bounds of a node are known exactly if it is in use and no constant that is not a number. -/
theorem currentBounds_eq_ok_iff [Scalar α] [BoundStore σ α] {g : Graph α} {store : σ} {x : Interval α} :
    currentBounds g store n = .ok x ↔ g.arena.isAlive n = true ∧ ∃ entry, g.arena.node? n = some entry ∧
      ∃ base, g.ownBounds store entry = .ok base ∧ x = (g.entryBounds? entry).elim base base.inter := by
  rw [currentBounds_eq]
  by_cases halive : g.arena.isAlive n = true
  · simp only [Checked.bind_eq_ok, Arena.get_eq_ok_iff, Graph.propBounds?, Graph.node, Graph.isAlive, halive,
      if_true, Checked.map_eq_ok, true_and]
    refine exists_congr fun entry => and_congr_right fun hentry => ?_
    refine exists_congr fun base => and_congr_right fun _ => ?_
    constructor
    · rintro ⟨_, ⟨node, hnode, rfl⟩, hx⟩
      rw [hentry] at hnode
      cases hnode
      exact (Except.ok.inj hx).symm
    · rintro rfl
      exact ⟨_, ⟨entry, hentry, rfl⟩, rfl⟩
  · simp only [Checked.bind_eq_ok, Graph.propBounds?, Graph.node, Graph.isAlive, halive, if_false,
      Bool.false_eq_true, Checked.map_eq_ok, false_and, iff_false]
    rintro ⟨entry, -, base, -, bounds?, ⟨node, hnode, -⟩, -⟩
    cases hnode

/-! ### Single steps -/

/-- A state in which a contradiction was found. -/
def contradicted (s : Propagation σ α) (records : List (LogRecord α)) : Propagation σ α :=
  { s with propagator := { s.propagator with infeasible := true }, records }

/-- A state in which bounds were written down on a node. -/
def written [Scalar α] (s : Propagation σ α) (n : NodeId) (known x : Interval α) : Propagation σ α where
  graph := s.graph.modify n fun entry =>
    { entry with
      propBounds := x
      propTag := s.graph.roundEpoch
      activity := if s.graph.isUsable entry then entry.activity.inter x else entry.activity }
  store := s.store
  propagator := { s.propagator with
    stats := { s.propagator.stats with tightenings := s.propagator.stats.tightenings + 1 } }
  records := .narrowed n known x :: s.records

/-- A state in which a node was put in line. -/
def lined (s : Propagation σ α) (n : NodeId) : Propagation σ α :=
  { s with
    graph := s.graph.modify n fun entry => { entry with queued := true }
    propagator := { s.propagator with queue := s.propagator.queue.push n } }

/-- A state in which a node was taken from the line, which leaves `queue`. -/
def takenOut (s : Propagation σ α) (n : NodeId) (queue : Fifo NodeId) : Propagation σ α :=
  { s with
    graph := s.graph.modify n fun entry => { entry with queued := false }
    propagator := { s.propagator with queue } }

/-- A state in which handlers may have reported, and which may have been counted. -/
def noted (s : Propagation σ α) (reported : Op → Bool) (records : List (LogRecord α))
    (stats : PropagationStats) : Propagation σ α where
  graph := { s.graph with operators := ⟨s.graph.operators.handler, reported⟩ }
  store := s.store
  propagator := { s.propagator with stats }
  records := records

/-- A state in which the line was dropped after a contradiction. -/
def dropped (s : Propagation σ α) : Propagation σ α :=
  { s with
    graph := s.graph.unqueue s.propagator.queue.toList
    propagator := { s.propagator with infeasible := true, queue := .empty } }

theorem meets_unqueueAll (ns : List NodeId) (s : Propagation σ α) :
    Meets (forIn ns PUnit.unit fun n _ => do
      if (← get).graph.isAlive n then
        modifyGraph fun g => g.modify n fun entry => { entry with queued := false }
      pure (.yield PUnit.unit) : PropagationM σ α PUnit) s E fun _ s' =>
        s' = { s with graph := s.graph.unqueue ns } := by
  induction ns generalizing s with
  | nil => exact meets_pure.mpr rfl
  | cons n ns ih =>
    rw [List.forIn_cons, bind_assoc]
    refine meets_bind.mpr (meets_get.mpr ?_)
    rw [Graph.unqueue, List.foldl_cons]
    split_ifs
    · exact ih _
    · exact ih _

/-- Clearing the line. -/
theorem meets_clearQueue_eq : Meets clearQueue s E fun _ s' => s' =
    { s with graph := s.graph.unqueue s.propagator.queue.toList, propagator := { s.propagator with queue := .empty } } := by
  refine meets_bind.mpr (meets_get.mpr ((meets_unqueueAll _ s).bind fun _ s' hs' => ?_))
  rw [hs']
  exact meets_modifyPropagator.mpr rfl

variable [Scalar α] [BoundStore σ α]

/-- What passing on the bounds `x` of a node can come to. -/
inductive PassesOn (n : NodeId) (entry : Node α) (x : Interval α) (s : Propagation σ α) :
    Tightened → Propagation σ α → Prop where
  | tightened {v store} (hkind : entry.kind = .var v)
      (hstore : BoundStore.tighten s.store v x = (store, .tightened)) :
      PassesOn n entry x s ⟨false, 1⟩ { s with store, graph := s.graph.bumpBoundsEpoch }
  | unchanged {v store} (hkind : entry.kind = .var v)
      (hstore : BoundStore.tighten s.store v x = (store, .unchanged)) :
      PassesOn n entry x s ⟨false, 1⟩ { s with store }
  | refused {v store} (hkind : entry.kind = .var v)
      (hstore : BoundStore.tighten s.store v x = (store, .infeasible)) :
      PassesOn n entry x s ⟨true, 1⟩ (contradicted { s with store } s.records)
  | constant {c} (hkind : entry.kind = .value c) : PassesOn n entry x s ⟨false, 1⟩ s
  | waiting (hinner : entry.kind.isLeaf = false) (hqueued : entry.queued = true) :
      PassesOn n entry x s ⟨false, 1⟩ s
  | lined (hinner : entry.kind.isLeaf = false) (hqueued : entry.queued = false) :
      PassesOn n entry x s ⟨false, 1⟩ (s.lined n)

/-- What tightening a node to `x` can come to. -/
inductive Tightens (n : NodeId) (x : Interval α) (s : Propagation σ α) :
    Tightened → Propagation σ α → Prop where
  | disjoint {known} (hknown : currentBounds s.graph s.store n = .ok known)
      (hempty : (known.inter x).isEmpty = true) :
      Tightens n x s ⟨true, 0⟩ (s.contradicted (.disjoint n x known :: s.records))
  | kept {known} (hknown : currentBounds s.graph s.store n = .ok known)
      (hempty : (known.inter x).isEmpty = false)
      (htight : (known.inter x).isTighter known s.graph.settings.minTightening = false) :
      Tightens n x s ⟨false, 0⟩ s
  | taken {known entry t s'} (hknown : currentBounds s.graph s.store n = .ok known)
      (hempty : (known.inter x).isEmpty = false)
      (htight : (known.inter x).isTighter known s.graph.settings.minTightening = true)
      (hentry : s.graph.arena.node? n = some entry)
      (hpass : PassesOn n entry (known.inter x) (s.written n known (known.inter x)) t s') :
      Tightens n x s t s'

omit [Scalar α] in
theorem meets_passOn_cases (n : NodeId) (entry : Node α) (x : Interval α) :
    Meets (passOn n entry x) s E fun t s' => PassesOn n entry x s t s' := by
  rw [passOn]
  split
  · rename_i v hkind
    refine meets_bind.mpr (meets_get.mpr ?_)
    rcases hstore : BoundStore.tighten s.store v x with ⟨store, change⟩
    refine meets_bind.mpr (meets_modify.mpr ?_)
    cases change with
    | tightened => exact .tightened hkind hstore
    | unchanged => exact .unchanged hkind hstore
    | infeasible => exact .refused hkind hstore
  · rename_i c hkind
    exact meets_pure.mpr (.constant hkind)
  · rename_i hvar hvalue
    have hinner : entry.kind.isLeaf = false := by
      cases hkind : entry.kind with
      | var v => exact absurd hkind (hvar v)
      | value c => exact absurd hkind (hvalue c)
      | _ => rfl
    rw [enqueue]
    split_ifs with hqueued
    · exact meets_pure.mpr (.waiting hinner hqueued)
    · exact .lined hinner (Bool.eq_false_iff.mpr hqueued)

/-- **Tightening a node** comes to one of the cases, unless the bounds of the node are not known. -/
theorem meets_tighten_cases (n : NodeId) (x : Interval α) :
    Meets (tighten n x) s (fun e => currentBounds s.graph s.store n = .error e)
      fun t s' => Tightens n x s t s' := by
  rw [tighten]
  simp only [meets_bind, meets_get, meets_check]
  rcases hknown : currentBounds s.graph s.store n with e | known
  · exact rfl
  refine meets_pure.mpr ?_
  split_ifs with hempty htight
  · exact .disjoint hknown hempty
  · exact meets_pure.mpr (.kept hknown (Bool.eq_false_iff.mpr hempty) (by simpa using htight))
  · obtain ⟨-, entry, hentry, -⟩ := currentBounds_eq_ok_iff.mp hknown
    simp only [meets_bind, meets_record, meets_check]
    rw [Arena.get_eq_ok_iff.mpr hentry]
    refine meets_pure.mpr ((meets_passOn_cases n entry _).imp fun t s' hpass => ?_)
    exact .taken hknown (Bool.eq_false_iff.mpr hempty) (by simpa using htight) hentry hpass

/-- Working at a node asks for bounds on operands of it. -/
theorem meets_reverseNode_cases (n : NodeId) : Meets (reverseNode n) s (fun _ => True) fun r s' =>
    (∃ reported records stats, s.records <:+ records ∧ s' = s.noted reported records stats) ∧
      ∀ requests, r = some requests → ∀ request ∈ requests, s.graph.arena.IsOperand request.1 n := by
  rw [reverseNode]
  simp only [meets_bind, meets_get, meets_check]
  rcases currentBounds s.graph s.store n with e | bounds
  · exact trivial
  refine meets_pure.mpr (Graph.meets_get (Or.inr trivial) fun entry hentry => ?_)
  rcases entry.children.mapM (currentBounds s.graph s.store) with e | operands
  · exact trivial
  refine meets_pure.mpr ?_
  rcases (s.graph.handlerFor entry.kind).reverse entry.kind bounds operands with e | narrowed
  · exact trivial
  refine meets_pure.mpr (meets_takeNoted_of_suffix fun reported records hsuffix => ?_)
  simp only [meets_modifyStats]
  split
  · refine meets_pure.mpr ⟨⟨reported, records, _, hsuffix, rfl⟩, fun requests hrequests request hrequest => ?_⟩
    obtain rfl := Option.some.inj hrequests
    rw [Arena.isOperand_iff hentry]
    exact (List.of_mem_zip hrequest).1
  · refine meets_bind.mpr (meets_record.mpr (meets_pure.mpr ⟨⟨reported, _, _, ?_, rfl⟩, ?_⟩))
    · exact hsuffix.trans (List.suffix_cons _ _)
    · intro requests hrequests
      cases hrequests

/-! ### Runs -/

/-- What reverse propagation preserves: `I` until a contradiction is found, and `K` when one is. Bounds are asked
of nodes in `A` only. -/
structure Preserves (A : NodeId → Prop) (I K : Propagation σ α → Prop) : Prop where
  takenOut : ∀ {s n queue}, I s → s.propagator.queue.pop? = some (n, queue) →
    I (s.takenOut n queue) ∧ ∀ c, s.graph.arena.IsOperand c n → A c
  noted : ∀ {s} reported records stats, s.records <:+ records → I s → I (s.noted reported records stats)
  tightens : ∀ {s n x t s'}, I s → A n → Tightens n x s t s' → if t.infeasible then K s' else I s'
  stop : ∀ {s}, I s → K s

namespace Preserves

variable {A : NodeId → Prop} {I K : Propagation σ α → Prop}

theorem meets_tightenEach (h : Preserves A I K) {requests : List (NodeId × Interval α)}
    (hrequests : ∀ r ∈ requests, A r.1) (hs : I s) (count : Nat) :
    Meets (tightenEach requests count) s (fun _ => True) fun t s' => if t.infeasible then K s' else I s' := by
  induction requests generalizing s count with
  | nil => exact meets_pure.mpr hs
  | cons request requests ih =>
    obtain ⟨hrequest, hrequests⟩ := List.forall_mem_cons.mp hrequests
    refine ((meets_tighten_cases request.1 request.2).mono (fun _ _ => trivial) fun _ _ ht => ht).bind
      fun t s₁ ht => ?_
    have h₁ := h.tightens hs hrequest ht
    split_ifs with hinfeasible
    · rw [if_pos hinfeasible] at h₁
      exact meets_pure.mpr h₁
    · rw [if_neg hinfeasible] at h₁
      exact ih hrequests h₁ _

/-- One turn. -/
theorem meets_drainTurn (h : Preserves A I K) (hs : I s) (count : Nat) :
    Meets (drainTurn count) s (fun _ => True) (Turn.Allowed (fun _ => I) fun t s' =>
      if t.infeasible then K s' else I s' ∧ s'.propagator.queue.toList = []) := by
  rw [drainTurn]
  refine meets_bind.mpr (meets_get.mpr ?_)
  rcases hpop : s.propagator.queue.pop? with _ | ⟨n, queue⟩
  · exact meets_pure.mpr ⟨hs, Fifo.pop?_eq_none hpop⟩
  obtain ⟨hout, hops⟩ := h.takenOut hs hpop
  simp only [meets_bind, meets_modifyPropagator, meets_modifyGraph]
  refine (meets_reverseNode_cases (s := s.takenOut n queue) n).imp fun r s₁ hr => ?_
  obtain ⟨⟨reported, records, stats, hsuffix, rfl⟩, hrequests⟩ := hr
  have hnoted := h.noted reported records stats hsuffix hout
  cases r with
  | none => exact meets_pure.mpr (h.stop hnoted)
  | some requests =>
    have hA : ∀ request ∈ requests, A request.1 := fun request hrequest => hops _ (by
      have hop := hrequests requests rfl request hrequest
      have hsame : Arena.AgreeOn (·.children) s.graph.arena (s.takenOut n queue).graph.arena :=
        .of_modify fun _ => rfl
      rwa [hsame.isOperand_eq] at hop)
    refine meets_bind.mpr ((h.meets_tightenEach hA hnoted count).imp fun t s₂ ht => ?_)
    split_ifs with hinfeasible
    · rw [if_pos hinfeasible] at ht
      refine meets_pure.mpr ?_
      change if t.infeasible = true then _ else _
      rwa [if_pos hinfeasible]
    · rw [if_neg hinfeasible] at ht
      exact meets_pure.mpr ht

/-- **Runs of reverse propagation.** -/
theorem meets_drain (h : Preserves A I K) (hs : I s) : Meets drain s (fun _ => True) fun t s' =>
    if t.infeasible then ∃ s₁, K s₁ ∧ s' = s₁.dropped else I s' ∧ s'.propagator.queue.toList = [] := by
  rw [drain]
  refine (meets_run_of_diverged (I := fun (_ : Nat) => I) trivial
    (fun _ _ _ => meets_bind.mpr (meets_get.mpr (meets_pure.mpr rfl)))
    (fun count s₁ hs₁ => h.meets_drainTurn hs₁ count) hs).bind fun t s₁ ht => ?_
  split_ifs with hinfeasible
  · rw [if_pos hinfeasible] at ht
    simp only [meets_bind, meets_markInfeasible]
    refine meets_clearQueue_eq.imp fun _ s' hs' => meets_pure.mpr ?_
    rw [if_pos hinfeasible]
    exact ⟨s₁, ht, hs'⟩
  · refine meets_pure.mpr ?_
    rwa [if_neg hinfeasible] at ht ⊢

end Preserves

end Propagation

end IntervalDag
