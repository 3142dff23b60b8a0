import IntervalDag.Proofs.Graph.WellFormed
import IntervalDag.Proofs.Operator.Regularity
import IntervalDag.Proofs.Propagation.Lines

/-!
# Propagation over regular intervals

Ranges that are kept on nodes are fed to handlers again and again, so one irregular range makes a sum fault much later.
`Propagation.Regular` says that every entry has regular ranges and a handler that keeps intervals regular, and that the
domains of variables are regular. Every step of propagation preserves that, and no step meets a bound that is not a
number (`Propagation.Regular.meets_run`).

Hence no run of commands to a workspace does, as long as the numbers in it are real, the bounds in it are regular and no
power with a pole is asked for (`Workspace.regular_of_serveAll`).
-/

namespace IntervalDag

open Scalar Exact

/-- An entry with regular ranges, of a kind whose handler keeps intervals regular. -/
structure Node.Regular (handler : Op → Handler Exact) (node : Node Exact) : Prop where
  activity : node.activity.IsRegular
  propBounds : node.propBounds.IsRegular
  constant : ∀ v, node.kind = .value v → v.IsReal
  keeps : (handler node.kind.op).KeepsRegular node.kind node.children.length

/-- What of an entry matters for its being regular. -/
def Node.rangesOf (node : Node Exact) : Kind Exact × Nat × Interval Exact × Interval Exact :=
  (node.kind, node.children.length, node.activity, node.propBounds)

theorem Node.Regular.of_rangesOf {handler : Op → Handler Exact} {node node' : Node Exact} (h : node.Regular handler)
    (heq : node.rangesOf = node'.rangesOf) : node'.Regular handler := by
  simp only [Node.rangesOf, Prod.mk.injEq] at heq
  obtain ⟨hkind, hlen, hactivity, hpropBounds⟩ := heq
  exact ⟨hactivity ▸ h.activity, hpropBounds ▸ h.propBounds, hkind ▸ h.constant, hkind ▸ hlen ▸ h.keeps⟩

/-- Nodes at and below a root are in use and no way down from it goes on forever, or all faults are allowed. -/
def Graph.Callable (g : Graph Exact) (root : NodeId) (E : Fault Exact → Prop) : Prop :=
  (Acc g.arena.IsOperand root ∧ ∀ n, g.arena.Below n root → g.arena.isAlive n = true) ∨ ∀ e, E e

theorem Graph.Callable.of_sameTerms {g g' : Graph Exact} {root : NodeId} {E : Fault Exact → Prop}
    (h : g.Callable root E) (hsame : g.SameTerms g') : g'.Callable root E := by
  rw [Graph.Callable, hsame.children.isOperand_eq, hsame.children.below_eq, hsame.isAlive_eq]
  exact h

/-- Tightening regular domains to regular intervals leaves regular ones. -/
theorem BoundTable.isRegular_tighten {t : BoundTable Exact} (h : ∀ v, (t.bounds v).IsRegular) (v : VarId)
    {x : Interval Exact} (hx : x.IsRegular) : ∀ w, ((t.tighten v x).1.bounds w).IsRegular := by
  intro w
  rw [tighten]
  split_ifs
  · exact h w
  · dsimp only
    rw [bounds_set]
    split_ifs
    · exact (h v).inter hx
    · exact h w
  · exact h w

/-- A table of regular domains. Variables beyond it have all numbers. -/
theorem BoundTable.isRegular_ofList {xs : List (Interval Exact)} (h : ∀ x ∈ xs, x.IsRegular) (v : VarId) :
    ((ofList xs).bounds v).IsRegular := by
  rw [ofList, bounds, List.getElem?_toArray]
  cases hx : xs[v]? with
  | none => exact Interval.isRegular_entire
  | some x => exact h x (List.mem_of_getElem? hx)

namespace Propagation

/-- Ranges and domains are regular, and handlers keep them so. -/
structure Regular (s : Propagation (BoundTable Exact) Exact) : Prop where
  entry : ∀ n node, s.graph.arena.node? n = some node → node.Regular s.graph.operators.handler
  store : ∀ v, (s.store.bounds v).IsRegular

variable {s s' : Propagation (BoundTable Exact) Exact} {n : NodeId} {x : Interval Exact} {E : Fault Exact → Prop}

/-- States that differ in nothing that matters. -/
theorem Regular.of_agree (h : Regular s) (hagree : Arena.AgreeOn Node.rangesOf s.graph.arena s'.graph.arena)
    (hhandler : s'.graph.operators.handler = s.graph.operators.handler) (hstore : s'.store = s.store) : Regular s' where
  entry n node' hnode' := by
    obtain ⟨node, hnode, heq⟩ := hagree.symm.exists_node? hnode'
    rw [hhandler]
    exact (h.entry n node hnode).of_rangesOf heq
  store := hstore ▸ h.store

/-- One entry is changed. -/
theorem Regular.modify (h : Regular s) {f : Node Exact → Node Exact}
    (hf : ∀ node, node.Regular s.graph.operators.handler → (f node).Regular s.graph.operators.handler)
    (harena : s'.graph.arena = s.graph.arena.modify n f)
    (hhandler : s'.graph.operators.handler = s.graph.operators.handler) (hstore : s'.store = s.store) : Regular s' where
  entry m node' hnode' := by
    rw [hhandler]
    rw [harena, Arena.node?_modify] at hnode'
    split_ifs at hnode'
    · obtain ⟨node, hnode, rfl⟩ := Option.map_eq_some_iff.mp hnode'
      exact hf node (h.entry m node hnode)
    · exact h.entry m node' hnode'
  store := hstore ▸ h.store

/-! ### Reading bounds -/

theorem Regular.entryBounds (h : Regular s) {node : Node Exact} (hnode : s.graph.arena.node? n = some node)
    (hx : x.IsRegular) : ((s.graph.entryBounds? node).elim x x.inter).IsRegular := by
  rw [Graph.entryBounds?]
  split_ifs
  · exact hx.inter (h.entry n node hnode).propBounds
  · exact hx

variable (hE : ∀ e, e ≠ .nanBound → E e)

include hE

/-- **Bounds that are known** are regular. -/
theorem Regular.meets_currentBounds (h : Regular s) (n : NodeId) :
    Meets (currentBounds s.graph s.store n) () E fun x _ => x.IsRegular := by
  rw [currentBounds]
  refine meets_bind.mpr (Graph.meets_get (Or.inr (hE _ (by simp))) fun node hnode => ?_)
  have hmet {base : Interval Exact} (hbase : base.IsRegular) :
      ∀ node, s.graph.arena.node? n = some node → ((s.graph.entryBounds? node).elim base base.inter).IsRegular :=
    fun node hnode => h.entryBounds hnode hbase
  have hreleased : s.graph.arena.isAlive n = true ∨ E (.accessReleased n) := Or.inr (hE _ (by simp))
  have hregular := h.entry n node hnode
  dsimp only
  split
  · rename_i v hkind
    exact meets_inter_propBounds? hreleased (hmet (h.store v))
  · rename_i c hkind
    obtain ⟨r, rfl⟩ := hregular.constant c hkind
    rw [Interval.point_real]
    exact meets_inter_propBounds? hreleased (hmet (Interval.isRegular_real r r))
  · refine meets_inter_propBounds? hreleased (hmet ?_)
    split_ifs
    · exact hregular.activity
    · exact Interval.isRegular_entire

omit hE

/-! ### Tightening -/

theorem Regular.passesOn (h : Regular s) {entry : Node Exact} {t : Tightened} (hx : x.IsRegular)
    (hpass : PassesOn n entry x s t s') : Regular s' := by
  have hstored {v : VarId} {store : BoundTable Exact} {change : BoundChange}
      (hstore : BoundStore.tighten s.store v x = (store, change)) : ∀ w, (store.bounds w).IsRegular := by
    have htight := BoundTable.isRegular_tighten h.store v hx
    change ∀ w, ((BoundStore.tighten s.store v x).1.bounds w).IsRegular at htight
    rwa [hstore] at htight
  cases hpass with
  | tightened hkind hstore => exact ⟨h.entry, hstored hstore⟩
  | unchanged hkind hstore => exact ⟨h.entry, hstored hstore⟩
  | refused hkind hstore => exact ⟨h.entry, hstored hstore⟩
  | constant hkind => exact h
  | waiting hinner hqueued => exact h
  | lined hinner hqueued => exact h.of_agree (.of_modify fun _ => rfl) rfl rfl

/-- **Tightening a node** to a regular interval. -/
theorem Regular.tightens (h : Regular s) {t : Tightened} (hx : x.IsRegular) (ht : Tightens n x s t s') :
    Regular s' := by
  have hknown {known : Interval Exact} (hknown : currentBounds s.graph s.store n = .ok known) : known.IsRegular := by
    have hmeets := h.meets_currentBounds (fun _ he => he) n
    rwa [hknown] at hmeets
  cases ht with
  | disjoint => exact ⟨h.entry, h.store⟩
  | kept => exact h
  | taken hcurrent hempty htight hentry hpass =>
    rename_i known entry
    have hnarrowed := (hknown hcurrent).inter hx
    have hwritten : Regular (s.written n known (known.inter x)) := by
      refine h.modify ?_ rfl rfl rfl
      refine fun node hnode => ⟨?_, hnarrowed, hnode.constant, hnode.keeps⟩
      dsimp only
      split_ifs
      · exact hnode.activity.inter hnarrowed
      · exact hnode.activity
    exact hwritten.passesOn hnarrowed hpass

include hE

theorem Regular.meets_tighten (h : Regular s) (n : NodeId) (hx : x.IsRegular) :
    Meets (tighten n x) s E fun _ s' => Regular s' := by
  refine (meets_tighten_cases n x).mono (fun e he => ?_) fun t s' ht => h.tightens hx ht
  have hmeets := h.meets_currentBounds hE n
  rwa [he] at hmeets

theorem Regular.meets_tightenEach (h : Regular s) {requests : List (NodeId × Interval Exact)}
    (hrequests : ∀ r ∈ requests, r.2.IsRegular) (count : Nat) :
    Meets (tightenEach requests count) s E fun _ s' => Regular s' := by
  induction requests generalizing s count with
  | nil => exact meets_pure.mpr h
  | cons request requests ih =>
    obtain ⟨hrequest, hrequests⟩ := List.forall_mem_cons.mp hrequests
    refine (h.meets_tighten hE request.1 hrequest).bind fun t s₁ h₁ => ?_
    split_ifs
    · exact meets_pure.mpr h₁
    · exact ih h₁ hrequests _

/-! ### Reverse propagation -/

/-- **The inverse relation** of a node asks for regular bounds on its operands. -/
theorem Regular.meets_reverseNode (h : Regular s) (n : NodeId) : Meets (reverseNode n) s E fun r s' =>
    Regular s' ∧ ∀ requests, r = some requests → ∀ request ∈ requests, request.2.IsRegular := by
  rw [reverseNode]
  simp only [meets_bind, meets_get, meets_check]
  refine (h.meets_currentBounds hE n).imp fun bounds _ hbounds => ?_
  refine Graph.meets_get (Or.inr (hE _ (by simp))) fun entry hentry => ?_
  refine Meets.imp (meets_mapM_forall₂ (R := fun _ x => Interval.IsRegular x) fun c _ =>
    h.meets_currentBounds hE c) fun operands _ hoperands => ?_
  obtain ⟨hlen, hget⟩ := List.forall₂_iff_get.mp hoperands
  have hregular : ∀ x ∈ operands, x.IsRegular := by
    intro x hx
    obtain ⟨i, rfl⟩ := List.mem_iff_get.mp hx
    exact hget i (i.isLt.trans_eq hlen.symm) i.isLt
  obtain ⟨noted, hrun, hnarrowed⟩ := (h.entry n entry hentry).keeps.reverse hbounds hlen.symm hregular
  change Meets ((s.graph.operators.handler entry.kind.op).reverse entry.kind bounds operands) _ _ _
  rw [hrun]
  refine meets_pure.mpr (meets_takeNoted fun reported records => ?_)
  simp only [meets_modifyStats]
  split
  · refine meets_pure.mpr ⟨⟨h.entry, h.store⟩, fun requests hrequests request hrequest => ?_⟩
    cases hrequests
    exact hnarrowed _ (List.of_mem_zip hrequest).2
  · refine meets_bind.mpr (meets_record.mpr (meets_pure.mpr ⟨⟨h.entry, h.store⟩, fun requests hrequests => ?_⟩))
    cases hrequests

theorem Regular.meets_drainTurn (h : Regular s) (count : Nat) :
    Meets (drainTurn count) s E (Turn.Allowed (fun _ s' => Regular s') fun _ s' => Regular s') := by
  rw [drainTurn]
  refine meets_bind.mpr (meets_get.mpr ?_)
  rcases s.propagator.queue.pop? with _ | ⟨n, queue⟩
  · exact meets_pure.mpr h
  have hout : Regular (s.takenOut n queue) := h.of_agree (.of_modify fun _ => rfl) rfl rfl
  simp only [meets_bind, meets_modifyPropagator, meets_modifyGraph]
  refine (hout.meets_reverseNode hE n).imp fun r s₁ hr => ?_
  cases r with
  | none => exact meets_pure.mpr hr.1
  | some requests =>
    refine meets_bind.mpr ((hr.1.meets_tightenEach hE (hr.2 requests rfl) count).imp fun t s₂ h₂ => ?_)
    split_ifs
    · exact meets_pure.mpr h₂
    · exact meets_pure.mpr h₂

/-- **Working off the line.** -/
theorem Regular.meets_drain (h : Regular s) : Meets drain s E fun _ s' => Regular s' := by
  rw [drain]
  refine (meets_run_of_diverged (I := fun (_ : Nat) s' => Regular s') (hE _ (by simp))
    (fun _ _ _ => meets_bind.mpr (meets_get.mpr (meets_pure.mpr rfl)))
    (fun count s₁ h₁ => h₁.meets_drainTurn hE count) h).bind fun t s₁ h₁ => ?_
  split_ifs
  · simp only [meets_bind, meets_markInfeasible]
    refine meets_clearQueue_eq.imp fun _ s' hs' => meets_pure.mpr ?_
    rw [hs']
    exact h₁.of_agree (Graph.agreeOn_unqueue _ _ fun _ => rfl) (by rw [Graph.unqueue_eq]) rfl
  · exact meets_pure.mpr h₁

omit hE

/-! ### Forward propagation -/

variable {root : NodeId} {g₀ : Graph Exact}

theorem Regular.exists_rangeOver (h : Regular s) {node : Node Exact} (hnode : s.graph.arena.node? n = some node) :
    ∃ x, s.graph.rangeOver (BoundStore.bounds s.store) node.kind (node.children.map s.graph.activityAt) = .ok x ∧
      x.IsRegular := by
  have hactivity (c : NodeId) : (s.graph.activityAt c).IsRegular := by
    rw [Graph.activityAt]
    cases hentry : s.graph.arena.node? c with
    | none => exact Interval.isRegular_entire
    | some entry => exact (h.entry c entry hentry).activity
  rw [Graph.rangeOver]
  split_ifs
  · exact ⟨.empty, rfl, Interval.isRegular_empty⟩
  · obtain ⟨noted, hrun, hregular⟩ := (h.entry n node hnode).keeps.interval h.store (List.length_map _)
      (List.forall_mem_map.mpr fun c _ => hactivity c)
    exact ⟨noted.value, Checked.map_eq_ok.mpr ⟨noted, hrun, rfl⟩, hregular⟩

theorem Regular.recomputed (h : Regular s) (hx : x.IsRegular) (n : NodeId) (reported : Op → Bool)
    (records : List (LogRecord Exact)) (stats : PropagationStats) :
    Regular (s.recomputed n x reported records stats) := by
  refine h.modify ?_ rfl rfl rfl
  exact fun node hnode => ⟨hx, hnode.propBounds, hnode.constant, hnode.keeps⟩

theorem Regular.walked (h : Regular s) {g : Graph Exact} (hwalked : Graph.Walked s.graph g) :
    Regular { s with graph := g } :=
  h.of_agree (hwalked.agree.map Node.rangesOf) (by rw [hwalked.rest_eq]) rfl

/-- Visiting a node leaves a regular activity on it. -/
theorem refreshes_of_regular (E : Fault Exact → Prop) (root : NodeId) (force : Bool) :
    Refreshes root force E (fun _ _ s => Regular s ∧ s.graph.Callable root E) (fun _ s => Regular s) where
  meets {n rest seen count s} hs hbelow _ _ _ := by
    obtain ⟨h, hcallable⟩ := hs
    have halive : s.graph.arena.isAlive n = true ∨ ∀ e, E e := hcallable.imp_left fun hgood => hgood.2 n hbelow
    have hops : (∀ c, s.graph.arena.IsOperand c n → c < s.graph.arena.capacity) ∨ ∀ e, E e :=
      hcallable.imp_left fun hgood c hc => Arena.lt_capacity_of_isAlive (hgood.2 c (.head hc hbelow))
    have hstop {s : Propagation (BoundTable Exact) Exact} (h : Regular s) (n : NodeId) :
        Meets (stopAt n) s E fun _ s' => Regular s' :=
      meets_bind.mpr (meets_record.mpr (meets_markInfeasible.mpr ⟨h.entry, h.store⟩))
    refine meets_refresh halive hops (fun entry _ _ _ => ⟨⟨.refl _ _, rfl⟩, ?_⟩) fun entry hentry _ => ?_
    · split_ifs
      · exact hstop h n
      · exact ⟨h, hcallable⟩
    · obtain ⟨x, hrange, hx⟩ := h.exists_rangeOver hentry
      rw [hrange]
      intro count reported records stats
      have h' := h.recomputed (h.entryBounds hentry hx) n reported records stats
      refine ⟨sameWay_recomputed s n _ reported records stats, ?_⟩
      split_ifs
      · exact hstop h' n
      · have hterms : s.graph.SameTerms (s.recomputed n ((s.graph.entryBounds? entry).elim x x.inter) reported records
            stats).graph := ⟨.of_modify fun _ => rfl, rfl, rfl, rfl, rfl, rfl⟩
        exact ⟨h', hcallable.of_sameTerms hterms⟩
  walked_J hs hwalked := ⟨hs.1.walked hwalked, hs.2.of_sameTerms (.of_walked hwalked)⟩
  walked_K hs hwalked := hs.walked hwalked

/-- **Forward propagation.** -/
theorem Regular.meets_forward (h : Regular s) (htags : s.graph.TagsGiven)
    (hslot : s.graph.walks.lowestFree? ≠ none ∨ ∀ e, E e) (hcallable : s.graph.Callable root E) (force : Bool) :
    Meets (forward root force) s E fun _ s' => Regular s' := by
  have hgood : s.graph.Walkable root E := hcallable.imp_left fun hgood =>
    ⟨hgood.1, fun m hm => Arena.lt_capacity_of_isAlive (hgood.2 m hm)⟩
  refine (Propagation.meets_forward (refreshes_of_regular E root force) ⟨h, hcallable⟩ htags hgood hslot).imp
    fun r s' hr => ?_
  obtain ⟨-, -, hr⟩ := hr
  split_ifs at hr
  · exact hr.2
  · obtain ⟨-, seen, -, hs'⟩ := hr
    exact hs'.1

/-! ### Rounds -/

/-- A state of a run that began with the graph `g₀`. -/
structure RegularFrom (g₀ : Graph Exact) (s : Propagation (BoundTable Exact) Exact) : Prop where
  propagated : g₀.Propagated s.graph
  regular : Regular s

namespace RegularFrom

/-- What is the same for all programs need not be shown of each. -/
theorem of_keeps (h : RegularFrom g₀ s) {β : Type} {x : PropagationM (BoundTable Exact) Exact β} (hx : Keeps x)
    (hmeets : Meets x s E fun _ s' => Regular s') : Meets x s E fun _ s' => RegularFrom g₀ s' :=
  (hmeets.and (hx s h.propagated.dated h.propagated.tagsGiven)).imp fun _ _ hs =>
    ⟨h.propagated.trans hs.2, hs.1⟩

/-- Counters and records do not matter. -/
theorem aside (h : RegularFrom g₀ s) (stats : PropagationStats) (records : List (LogRecord Exact)) :
    RegularFrom g₀ { s with propagator := { s.propagator with stats }, records } :=
  ⟨h.propagated, h.regular.entry, h.regular.store⟩

theorem meets_beginRound (h : RegularFrom g₀ s) : Meets beginRound s E fun _ s' => RegularFrom g₀ s' := by
  refine h.of_keeps keeps_beginRound ?_
  exact h.regular.of_agree (s.graph.agreeOn_opened Node.rangesOf fun _ => rfl) rfl rfl

variable (hE : ∀ e, e ≠ .nanBound → E e) (hslot : g₀.walks.lowestFree? ≠ none ∨ ∀ e, E e)

include hslot in
theorem meets_forward (h : RegularFrom g₀ s) (hroot : g₀.Callable root E) (force : Bool) :
    Meets (forward root force) s E fun _ s' => RegularFrom g₀ s' := by
  have hslot' : s.graph.walks.lowestFree? ≠ none ∨ ∀ e, E e := by
    rwa [SlotPool.lowestFree?, h.propagated.taken_eq, ← SlotPool.lowestFree?]
  exact h.of_keeps (keeps_forward root force)
    (h.regular.meets_forward h.propagated.tagsGiven hslot' (hroot.of_sameTerms h.propagated.terms) force)

include hE

theorem meets_tighten (h : RegularFrom g₀ s) (n : NodeId) (hx : x.IsRegular) :
    Meets (tighten n x) s E fun _ s' => RegularFrom g₀ s' :=
  h.of_keeps (keeps_tighten n x) (h.regular.meets_tighten hE n hx)

theorem meets_drain (h : RegularFrom g₀ s) : Meets drain s E fun _ s' => RegularFrom g₀ s' :=
  h.of_keeps keeps_drain (h.regular.meets_drain hE)

include hslot

theorem meets_applyConstraint (h : RegularFrom g₀ s) {c : Constraint Exact}
    (hc : g₀.Callable c.root E ∧ c.bounds.IsRegular) :
    Meets (applyConstraint c) s E fun _ s' => RegularFrom g₀ s' := by
  refine (h.meets_forward hslot hc.1 false).bind fun forwarded s₁ h₁ => ?_
  split_ifs
  · exact meets_pure.mpr h₁
  refine (h₁.meets_tighten hE c.root hc.2).bind fun t s₂ h₂ => ?_
  split_ifs
  · exact meets_pure.mpr h₂
  exact (h₂.meets_drain hE).bind fun _ _ h₃ => meets_pure.mpr h₃

theorem meets_applyConstraints (h : RegularFrom g₀ s) {cs : List (Constraint Exact)}
    (hcs : ∀ c ∈ cs, g₀.Callable c.root E ∧ c.bounds.IsRegular) (count : Nat) :
    Meets (applyConstraints cs count) s E fun _ s' => RegularFrom g₀ s' := by
  induction cs generalizing s count with
  | nil => exact meets_pure.mpr h
  | cons c cs ih =>
    obtain ⟨hc, hcs⟩ := List.forall_mem_cons.mp hcs
    refine (h.meets_applyConstraint hE hslot hc).bind fun t s₁ h₁ => ?_
    split_ifs
    · exact meets_pure.mpr h₁
    · exact ih h₁ hcs _

theorem meets_runRounds (h : RegularFrom g₀ s) {cs : List (Constraint Exact)}
    (hcs : ∀ c ∈ cs, g₀.Callable c.root E ∧ c.bounds.IsRegular) (more : Nat) (outcome : PropagationOutcome) :
    Meets (runRounds cs more outcome) s E fun _ s' => RegularFrom g₀ s' := by
  induction more generalizing s outcome with
  | zero => exact meets_pure.mpr h
  | succ more ih =>
    rw [runRounds]
    refine h.meets_beginRound.bind fun _ s₁ h₁ => ?_
    simp only [meets_bind, meets_modifyStats, meets_get]
    refine ((h₁.aside _ _).meets_applyConstraints hE hslot hcs 0).imp fun t s₂ h₂ => ?_
    simp only [meets_record]
    have h₂' := h₂.aside s₂.propagator.stats
      (.roundDone (outcome.rounds + 1) t.count t.infeasible :: s₂.records)
    split_ifs
    · exact meets_pure.mpr h₂'
    · exact ih h₂' _

/-- **Every call.** -/
theorem meets_run (h : RegularFrom g₀ s) (c : Call Exact) (hnodes : ∀ n ∈ c.nodes, g₀.Callable n E)
    (hrequests : ∀ r ∈ c.requests, r.2.IsRegular) : Meets c.run s E fun _ s' => RegularFrom g₀ s' := by
  cases c with
  | beginRound => exact h.meets_beginRound.bind fun _ _ hs' => meets_pure.mpr hs'
  | forward root force =>
    have hroot := hnodes root (List.mem_singleton.mpr rfl)
    exact (h.meets_forward hslot hroot force).bind fun _ _ hs' => meets_pure.mpr hs'
  | tighten n x =>
    have hx : x.IsRegular := hrequests (n, x) (List.mem_singleton.mpr rfl)
    exact (h.meets_tighten hE n hx).bind fun _ _ hs' => meets_pure.mpr hs'
  | drain => exact (h.meets_drain hE).bind fun _ _ hs' => meets_pure.mpr hs'
  | propagate constraints =>
    have hcs : ∀ c ∈ constraints, g₀.Callable c.root E ∧ c.bounds.IsRegular := fun c hc =>
      ⟨hnodes c.root (List.mem_map_of_mem hc),
        hrequests (c.root, c.bounds) (List.mem_map_of_mem (f := fun c => (c.root, c.bounds)) hc)⟩
    refine Meets.bind (meets_bind.mpr (meets_get.mpr ?_)) fun _ _ hs' => meets_pure.mpr hs'
    exact h.meets_runRounds hE hslot hcs _ _

end RegularFrom

end Propagation

/-! ### Commands -/

/-- All numbers in a request are real, and it asks for no power with a pole. -/
def Request.IsRegular (r : Request Exact) : Prop :=
  (∀ kind cs, r.asks? = some (kind, cs) → kind.HasRealData ∧ ¬ kind.HasPole) ∧
    ∀ parent child coef, r = .append parent child coef → coef.IsReal

theorem Request.isRegular_var (v : VarId) : (Request.var v : Request Exact).IsRegular := by
  refine ⟨fun kind cs hasks => ?_, nofun⟩
  cases hasks
  exact ⟨trivial, nofun⟩

/-- The numbers and the bounds in a command are regular, and it replaces no handler. -/
def Command.IsRegular : Command Exact → Prop
  | .request r => r.IsRegular
  | .call c => ∀ r ∈ c.requests, r.2.IsRegular
  | .changeBounds f => ∀ t, (∀ v, (t.bounds v).IsRegular) → ∀ v, ((f t).bounds v).IsRegular
  | .register _ _ => False
  | .evaluate _ _ | .renew => True

namespace Kind

/-- A kind that belongs to a graph over regular intervals, with a number of operands that it takes. -/
def IsRegular (kind : Kind Exact) (count : Nat) : Prop := kind.Takes count ∧ kind.HasRealData ∧ ¬ kind.HasPole

theorem isRegular_zero : (Kind.value (0 : Exact)).IsRegular 0 :=
  ⟨(takes_iff_of_arity rfl).mpr rfl, ⟨0, real_zero.symm⟩, nofun⟩

theorem IsRegular.extended {kind : Kind Exact} {count : Nat} (h : kind.IsRegular count)
    (hassociative : kind.isAssociative = true) {coef : Exact} (hcoef : coef.IsReal) :
    (kind.extended coef).IsRegular (count + 1) := by
  refine ⟨h.1.extended hassociative coef, ?_⟩
  cases kind with
  | sum coefs constant =>
    exact ⟨⟨List.forall_mem_append.mpr ⟨h.2.1.1, List.forall_mem_singleton.mpr hcoef⟩, h.2.1.2⟩, nofun⟩
  | product c =>
    obtain ⟨c, rfl⟩ := h.2.1
    obtain ⟨coef, rfl⟩ := hcoef
    exact ⟨⟨c * coef, real_mul c coef⟩, nofun⟩
  | _ => cases hassociative

end Kind

/-! ### Workspaces -/

namespace Workspace

variable [BitPattern Exact] {settings : Settings Exact} {w w' : Workspace Exact} {c : Command Exact}

/-- A workspace with its own handlers over regular intervals, in which no power has a pole. -/
structure Regular (settings : Settings Exact) (w : Workspace Exact) : Prop where
  tidy : w.Tidy
  handler_eq : w.state.graph.operators.handler = Handler.default settings
  terms : w.state.graph.arena.ForallTerms Kind.IsRegular
  ranges : ∀ n node, w.state.graph.arena.node? n = some node → node.activity.IsRegular ∧ node.propBounds.IsRegular
  store : ∀ v, (w.state.store.bounds v).IsRegular

theorem regular_new (settings : Settings Exact) (identity : Nat) {store : BoundTable Exact}
    (hstore : ∀ v, (store.bounds v).IsRegular) : (new settings identity store).Regular settings where
  tidy := tidy_new settings identity store
  handler_eq := rfl
  terms n node hn := by cases hn
  ranges n node hn := by cases hn
  store := hstore

namespace Regular

/-- Each node of such a workspace has a handler that keeps intervals regular. -/
theorem propagation (h : w.Regular settings) (hdistance : settings.minZeroDistance < posInf) :
    Propagation.Regular w.state where
  entry n node hnode := by
    obtain ⟨htakes, hreal, hpole⟩ := h.terms n node hnode
    refine ⟨(h.ranges n node hnode).1, (h.ranges n node hnode).2, fun v hkind => ?_, ?_⟩
    · rwa [hkind] at hreal
    · rw [h.handler_eq]
      exact Handler.keepsRegular_default hdistance hreal hpole htakes
  store := h.store

/-- What changes ranges and domains only. -/
theorem of_propagation (h : w.Regular settings) (htidy : w'.Tidy) (hterms : w.state.graph.SameTerms w'.state.graph)
    (hregular : Propagation.Regular w'.state) : w'.Regular settings where
  tidy := htidy
  handler_eq := hterms.handler_eq.trans h.handler_eq
  terms := h.terms.of_sameTerms hterms
  ranges n node hnode := ⟨(hregular.entry n node hnode).activity, (hregular.entry n node hnode).propBounds⟩
  store := hregular.store

/-- **A request.** -/
theorem of_request (h : w.Regular settings) {r : Request Exact} (hc : w.Permits (.request r)) (hr : r.IsRegular)
    (hrun : w.serve (.request r) = .ok w') : w'.Regular settings := by
  have htidy := tidy_of_serve h.tidy hc hrun
  have hintact := h.tidy.resting.intact
  obtain ⟨s, hserve, hrun⟩ := Checked.bind_eq_ok.mp hrun
  obtain ⟨⟨given, g⟩, hgraph, hserve⟩ := Checked.bind_eq_ok.mp hserve
  cases hserve
  cases hrun
  have hresponds := Graph.responds_of_serve hgraph
  refine ⟨htidy, (congrArg (·.handler) (hresponds.operators_eq hintact)).trans h.handler_eq, ?_, ?_, h.store⟩
  · exact hresponds.forallTerms hintact h.terms Kind.isRegular_zero
      (fun kind cs hasks htakes => ⟨htakes, hr.1 kind cs hasks⟩)
      fun parent child coef happend kind count hassociative hkind =>
        hkind.extended hassociative (hr.2 parent child coef happend)
  · intro n node hnode
    rcases (Graph.Inherits.stable.serve hgraph hintact).entry n node hnode with
      ⟨kind, children, refs, rfl, -⟩ | ⟨old, hold, hinherits⟩
    · exact ⟨Interval.isRegular_entire, Interval.isRegular_entire⟩
    · rw [hinherits.eq]
      exact h.ranges n old hold

variable (hdistance : settings.minZeroDistance < posInf)

include hdistance

/-- **A call** meets no bound that is not a number. -/
theorem meets_run (h : w.Regular settings) {E : Fault Exact → Prop} (hE : ∀ e, e ≠ .nanBound → E e) {c : Call Exact}
    (hnodes : (∀ n ∈ c.nodes, w.state.graph.isAlive n = true) ∨ ∀ e, E e)
    (hrequests : ∀ r ∈ c.requests, r.2.IsRegular) :
    Meets c.run w.state E fun _ s' => w.state.graph.Propagated s'.graph ∧ Propagation.Regular s' := by
  have hordered := h.tidy.resting.toOrdered
  have hfrom : Propagation.RegularFrom w.state.graph w.state :=
    ⟨.refl hordered.dated hordered.tagsGiven, h.propagation hdistance⟩
  have hcallable : ∀ n ∈ c.nodes, w.state.graph.Callable n E := fun n hn => hnodes.imp_left fun halive =>
    ⟨h.tidy.sound.acyclic.apply n, fun m hm => h.tidy.sound.counted.isAlive_of_below hm (halive n hn)⟩
  exact (hfrom.meets_run hE (Or.inl (SlotPool.lowestFree?_ne_none h.tidy.resting.taken_eq)) c hcallable hrequests).imp
    fun _ _ hs => ⟨hs.propagated, hs.regular⟩

/-- **One command.** -/
theorem of_serve (h : w.Regular settings) (hc : w.Permits c) (hregular : c.IsRegular) (hrun : w.serve c = .ok w') :
    w'.Regular settings := by
  have htidy := tidy_of_serve h.tidy hc hrun
  have hpropagation := h.propagation hdistance
  cases c with
  | request r => exact h.of_request hc hregular hrun
  | call c =>
    obtain ⟨⟨b, state⟩, hcall, hrun⟩ := Checked.bind_eq_ok.mp hrun
    cases hrun
    obtain ⟨hpropagated, hstate⟩ := (h.meets_run hdistance (E := fun _ => True) (fun _ _ => trivial)
      (Or.inr fun _ => trivial) hregular).of_observe hcall
    exact h.of_propagation htidy hpropagated.terms hstate
  | changeBounds f =>
    cases hrun
    exact h.of_propagation htidy ⟨.refl _ _, rfl, rfl, rfl, rfl, rfl⟩
      ⟨hpropagation.entry, hregular _ hpropagation.store⟩
  | evaluate root point =>
    obtain ⟨⟨g, v⟩, hevaluate, hrun⟩ := Checked.bind_eq_ok.mp hrun
    cases hrun
    have hmeets : Meets (w.state.graph.evaluate root point) () (fun _ => True) _ :=
      Graph.meets_evaluate h.tidy.resting.tagsGiven (Or.inr fun _ => trivial)
    rw [hevaluate] at hmeets
    obtain ⟨-, hvalued, -⟩ := hmeets
    exact h.of_propagation htidy hvalued.sameTerms
      (hpropagation.of_agree (hvalued.agree.map Node.rangesOf) hvalued.sameTerms.handler_eq rfl)
  | register op handler => exact hregular.elim
  | renew =>
    cases hrun
    exact h.of_propagation htidy (.refl _) ⟨hpropagation.entry, hpropagation.store⟩

/-- **Runs of commands.** -/
theorem of_serveAll {cs : List (Command Exact)} (h : w.Regular settings) (hcs : w.PermitsAll cs)
    (hregular : ∀ c ∈ cs, c.IsRegular) (hrun : w.serveAll cs = .ok w') : w'.Regular settings :=
  Run.invariant (fun h hc hrun => h.of_serve hdistance hc.1 hc.2 hrun) h (hcs.and (.of_forall hregular)) hrun

end Regular

/-- **No bound is ever not a number**, as long as no power has a pole. Away from poles, handlers give regular ranges for
regular operands, and they always leave regular operands. So the ranges and domains of a workspace stay regular, and no
call fails over a bound. -/
theorem never_nanBound (settings : Settings Exact) (hdistance : settings.minZeroDistance < posInf) :
    (∀ (kind : Kind Exact) (vars : VarId → Interval Exact) (xs : List (Interval Exact)) (bounds : Interval Exact),
      kind.HasRealData → kind.Takes xs.length → (∀ v, (vars v).IsRegular) → (∀ x ∈ xs, x.IsRegular) → bounds.IsRegular →
        (∃ n, (Handler.default settings kind.op).interval kind xs vars = .ok n ∧
          (n.value.IsRegular ↔ ¬ kind.AtPole xs)) ∧
        (∃ n, (Handler.default settings kind.op).reverse kind bounds xs = .ok n ∧
          ∀ y ∈ n.value.operands, y.IsRegular) ∧
        ∀ z ∈ kind.clipped bounds, z.IsRegular) ∧
    ∀ (identity : Nat) (store : BoundTable Exact) (cs : List (Command Exact)) (w : Workspace Exact),
      (∀ v, (store.bounds v).IsRegular) → (new settings identity store).PermitsAll cs → (∀ c ∈ cs, c.IsRegular) →
      (new settings identity store).serveAll cs = .ok w →
        (∀ n node, w.state.graph.arena.node? n = some node →
          node.activity.IsRegular ∧ node.propBounds.IsRegular) ∧
        (∀ v, (w.state.store.bounds v).IsRegular) ∧
        ∀ c : Call Exact, (∀ r ∈ c.requests, r.2.IsRegular) → (∀ n ∈ c.nodes, w.state.graph.isAlive n = true) →
          w.serve (.call c) ≠ .error .nanBound := by
  refine ⟨fun kind vars xs bounds hreal htakes hvars hxs hbounds => ⟨?_, ?_, ?_⟩,
    fun identity store cs w hstore hcs hregular hrun => ?_⟩
  · exact Handler.exists_interval_default hdistance hreal htakes hxs hvars
  · exact Handler.exists_reverse_default settings hreal htakes hxs hbounds
  · exact Handler.isRegular_of_mem_clipped kind hbounds
  have hw := (regular_new settings identity hstore).of_serveAll hdistance hcs hregular hrun
  refine ⟨hw.ranges, hw.store, fun c hrequests hnodes hfault => ?_⟩
  have hmeets := hw.meets_run hdistance (E := (· ≠ .nanBound)) (fun _ he => he) (Or.inl hnodes) hrequests
  rw [Meets] at hmeets
  rw [serve] at hfault
  cases hcall : Observed.observe c.run w.state with
  | error e =>
    rw [hcall] at hmeets hfault
    cases hfault
    exact hmeets rfl
  | ok r =>
    rw [hcall] at hfault
    cases hfault

omit [BitPattern Exact] in
/-- A number less itself, where it has no upper bound. The reciprocal of a square root is regular next to its pole. -/
theorem never_nanBound_of_difference :
    let _ : BitPattern Exact := ⟨fun _ => 0, fun _ => 0⟩
    let settings : Settings Exact := ⟨real 1, real 0, 1, false⟩
    let cs : List (Command Exact) := [.request (.var 0), .request (.add (.sum [real 1, real (-1)] (real 0)) [0, 0])]
    settings.minZeroDistance < posInf ∧
      (∃ n, (Handler.pow settings).interval (.pow (real (-1 / 2))) [⟨real 0, real 1⟩] (fun _ => .entire) = .ok n ∧
        n.value.IsRegular) ∧
      ∃ w, (new settings 0 (.ofList [⟨real 1, posInf⟩])).serveAll cs = .ok w ∧
        w.serve (.call (.forward 1 true)) ≠ .error .nanBound := by
  intro _ settings cs
  have hdistance : settings.minZeroDistance < posInf := number_lt_number.mpr (EReal.coe_lt_top 1)
  obtain ⟨hhandlers, hruns⟩ := never_nanBound settings hdistance
  refine ⟨hdistance, ?_, ?_⟩
  · obtain ⟨⟨n, hn, hregular⟩, -⟩ := hhandlers (.pow (real (-1 / 2))) (fun _ => .entire) [⟨real 0, real 1⟩] .entire
      ⟨_, rfl⟩ ((Kind.takes_iff_of_arity rfl).mpr rfl) (fun _ => Interval.isRegular_entire)
      (List.forall_mem_singleton.mpr (Interval.isRegular_real 0 1)) Interval.isRegular_entire
    refine ⟨n, hn, hregular.mpr fun hpole => ?_⟩
    obtain ⟨-, x, hx, -, hsup⟩ := hpole
    cases hx
    rw [← real_zero] at hsup
    exact one_ne_zero (EReal.coe_eq_coe_iff.mp (number.inj hsup))
  · have hstore : ∀ v, ((BoundTable.ofList [⟨real 1, posInf⟩] : BoundTable Exact).bounds v).IsRegular := by
      refine BoundTable.isRegular_ofList (List.forall_mem_singleton.mpr ?_)
      exact Interval.isRegular_number (EReal.coe_ne_top 1) top_ne_bot
    have hcs : (new settings 0 (.ofList [⟨real 1, posInf⟩])).PermitsAll cs := by
      refine ⟨trivial, fun w₁ hw₁ => ⟨?_, fun _ _ => trivial⟩⟩
      rw [serve_var_new] at hw₁
      cases hw₁
      exact List.forall_mem_cons.mpr ⟨rfl, List.forall_mem_singleton.mpr rfl⟩
    have hasks : (Request.add (.sum [real 1, real (-1)] (real 0)) [0, 0]).IsRegular := by
      refine ⟨fun kind children hasks => ?_, fun parent child coef hasks => by cases hasks⟩
      cases hasks
      refine ⟨⟨List.forall_mem_cons.mpr ⟨⟨1, rfl⟩, List.forall_mem_singleton.mpr ⟨-1, rfl⟩⟩, ⟨0, rfl⟩⟩, ?_⟩
      rintro ⟨_, hpow, -⟩
      cases hpow
    have hregular : ∀ c ∈ cs, c.IsRegular :=
      List.forall_mem_cons.mpr ⟨Request.isRegular_var 0, List.forall_mem_singleton.mpr hasks⟩
    obtain ⟨w, hrun, halive⟩ : ∃ w, (new settings 0 (.ofList [⟨real 1, posInf⟩])).serveAll cs = .ok w ∧
        w.state.graph.isAlive 1 = true := by
      rw [serveAll, List.foldlM_cons, serve_var_new, Checked.ok_bind]
      exact ⟨_, rfl, rfl⟩
    obtain ⟨-, -, hnever⟩ := hruns 0 _ cs w hstore hcs hregular hrun
    exact ⟨w, hrun, hnever (.forward 1 true) (List.forall_mem_nil _) (List.forall_mem_singleton.mpr halive)⟩

omit [BitPattern Exact] in
/-- The reciprocal of the square root of zero has no regular range. -/
theorem not_forall_range_isRegular :
    ¬ ∀ [BitPattern Exact] (settings : Settings Exact) (kind : Kind Exact) (vars : VarId → Interval Exact)
      (xs : List (Interval Exact)), settings.minZeroDistance.IsReal → kind.HasRealData → kind.Takes xs.length →
        (∀ v, (vars v).IsRegular) → (∀ x ∈ xs, x.IsRegular) →
          ∃ n, (Handler.default settings kind.op).interval kind xs vars = .ok n ∧ n.value.IsRegular := by
  intro h
  let _ : BitPattern Exact := ⟨fun _ => 0, fun _ => 0⟩
  let settings : Settings Exact := ⟨real 1, real 0, 1, false⟩
  have htakes : (Kind.pow (real (-1 / 2))).Takes [(⟨real 0, real 0⟩ : Interval Exact)].length :=
    (Kind.takes_iff_of_arity rfl).mpr rfl
  have hxs : ∀ x ∈ [(⟨real 0, real 0⟩ : Interval Exact)], x.IsRegular :=
    List.forall_mem_singleton.mpr (Interval.isRegular_real 0 0)
  have hdistance : settings.minZeroDistance < posInf := number_lt_number.mpr (EReal.coe_lt_top 1)
  have hreal : (Kind.pow (real (-1 / 2))).HasRealData := ⟨_, rfl⟩
  obtain ⟨n, hn, hregular⟩ :=
    h settings _ (fun _ => .entire) _ ⟨1, rfl⟩ hreal htakes (fun _ => Interval.isRegular_entire) hxs
  obtain ⟨n', hn', hiff⟩ :=
    Handler.exists_interval_default hdistance hreal htakes hxs fun _ => Interval.isRegular_entire
  cases hn.symm.trans hn'
  have hempty : (⟨real 0, real 0⟩ : Interval Exact).isEmpty = false :=
    Interval.isEmpty_of_mem (Interval.real_mem_real.mpr ⟨le_rfl, le_rfl⟩ : real 0 ∈ _)
  exact hiff.mp hregular ⟨⟨_, rfl, Power.hasPole_real_iff.mpr ⟨by norm_num, integral?_neg_half⟩⟩, _, rfl, hempty, rfl⟩

end Workspace

end IntervalDag
