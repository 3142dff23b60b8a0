import IntervalDag.Propagation.Reverse
import IntervalDag.Scalar.Binary64
import IntervalDag.Proofs.Graph.Paths
import IntervalDag.Proofs.Graph.Search
import IntervalDag.Proofs.Graph.SameTerms
import IntervalDag.Proofs.Operator.Ends
import IntervalDag.Proofs.Propagation.Rules

/-!
# Working off the line ends

Reverse propagation ends because of the shape of the graph alone, whatever ranges its handlers find and however
small the improvements are that it takes over. A turn takes a node from the line and puts at most its operands in,
each as often as it occurs. So every turn can be charged to a way down from a node that stood in line at the start:
the turns together are at most as many as there are such ways (`Propagation.drain_ends`).
-/

namespace IntervalDag

variable {σ α β : Type} [Scalar α]

/-- Reverse propagation can work at a node, whatever is known of its range: the node is in use, it is no constant
that is not a number, and the inverse relation of its handler has a result on any intervals. -/
structure Graph.Reversible (g : Graph α) (n : NodeId) : Prop where
  isAlive : g.arena.isAlive n = true
  isNumber : ∀ {node c}, g.arena.node? n = some node → node.kind = .value c → Scalar.isNaN c = false
  reverse : ∀ {node}, g.arena.node? n = some node → ∀ x xs, xs.length = node.children.length →
    ∃ noted, (g.handlerFor node.kind).reverse node.kind x xs = .ok noted

/-- The faults that reverse propagation can meet at a node. The node is not in use, or it is a constant that is not a
number, or the inverse relation of its handler faults itself. -/
inductive Graph.ReverseFaultAt (g : Graph α) (n : NodeId) (e : Fault α) : Prop where
  | unused (hn : g.arena.isAlive n = false) (he : e ≠ .diverged)
  | constant {node c} (hn : g.arena.node? n = some node) (hkind : node.kind = .value c) (hnan : Scalar.isNaN c = true)
    (he : e ≠ .diverged)
  | handler {node x xs} (hn : g.arena.node? n = some node) (hlength : xs.length = node.children.length)
    (hrun : (g.handlerFor node.kind).reverse node.kind x xs = .error e)

namespace Graph.ReverseFaultAt

variable {g g₁ : Graph α} {n : NodeId} {e : Fault α}

theorem sameTerms (h : g₁.ReverseFaultAt n e) (hsame : SameTerms g g₁) : g.ReverseFaultAt n e := by
  cases h with
  | unused hn he => exact .unused (hsame.isAlive_eq ▸ hn) he
  | constant hn hkind hnan he =>
    obtain ⟨node, hnode, hkind', -⟩ := hsame.symm.exists_node? hn
    exact .constant hnode (hkind'.trans hkind) hnan he
  | handler hn hlength hrun =>
    obtain ⟨node, hnode, hkind, hchildren, -⟩ := hsame.symm.exists_node? hn
    rw [hsame.handlerFor_eq, ← hkind] at hrun
    exact .handler hnode (hchildren ▸ hlength) hrun

/-- There is none where reverse propagation can work. -/
theorem not_reversible (h : g.ReverseFaultAt n e) : ¬ g.Reversible n := by
  intro hrev
  cases h with
  | unused hn =>
    rw [hrev.isAlive] at hn
    cases hn
  | constant hn hkind hnan =>
    rw [hrev.isNumber hn hkind] at hnan
    cases hnan
  | handler hn hlength hrun =>
    obtain ⟨noted, hnoted⟩ := hrev.reverse hn _ _ hlength
    cases hrun.symm.trans hnoted

/-- An inverse relation that comes to an end is not cut off. -/
theorem ne_diverged (h : g.ReverseFaultAt n e)
    (hends : ∀ op kind x xs, ((g.operators.handler op).reverse kind x xs).Ends) : e ≠ .diverged := by
  cases h with
  | unused _ he | constant _ _ _ he => exact he
  | handler hn _ hrun => exact fun he => hends _ _ _ _ (he ▸ hrun)

end Graph.ReverseFaultAt

namespace Propagation

variable {s s₁ s₂ : Propagation σ α} {n : NodeId} {ns ms : List NodeId} {E : Fault α → Prop}

/-! ### Putting nodes in line -/

omit [Scalar α] in
/-- A state in which, compared to an earlier one, some of the nodes `ns` stand in line as well. The graph has the
same terms, and no node was taken from the line. -/
structure PutInLine (ns : List NodeId) (s s₁ : Propagation σ α) : Prop where
  terms : s.graph.SameTerms s₁.graph
  reverseCalls_eq : s₁.propagator.stats.reverseCalls = s.propagator.stats.reverseCalls
  queue : ∃ more, more.Sublist ns ∧ s₁.propagator.queue.toList = s.propagator.queue.toList ++ more

namespace PutInLine

omit [Scalar α] in
/-- A state with the same terms, line and count. -/
theorem of_terms (hterms : s.graph.SameTerms s₁.graph)
    (hcalls : s₁.propagator.stats.reverseCalls = s.propagator.stats.reverseCalls)
    (hqueue : s₁.propagator.queue = s.propagator.queue) : PutInLine ns s s₁ :=
  ⟨hterms, hcalls, [], List.nil_sublist _, by rw [hqueue, List.append_nil]⟩

omit [Scalar α] in
theorem trans (h₁ : PutInLine ns s s₁) (h₂ : PutInLine ms s₁ s₂) : PutInLine (ns ++ ms) s s₂ := by
  obtain ⟨more₁, hsub₁, hqueue₁⟩ := h₁.queue
  obtain ⟨more₂, hsub₂, hqueue₂⟩ := h₂.queue
  refine ⟨h₁.terms.trans h₂.terms, h₂.reverseCalls_eq.trans h₁.reverseCalls_eq, more₁ ++ more₂,
    hsub₁.append hsub₂, ?_⟩
  rw [hqueue₂, hqueue₁, List.append_assoc]

end PutInLine

omit [Scalar α] in
theorem meets_enqueue (n : NodeId) (entry : Node α) :
    Meets (enqueue n entry) s E fun _ s₁ => PutInLine [n] s s₁ := by
  rw [enqueue]
  split_ifs
  · exact meets_pure.mpr (.of_terms (.refl _) rfl rfl)
  · simp only [meets_bind, meets_modifyGraph, meets_modifyPropagator]
    exact ⟨.of_modify fun _ => rfl, rfl, [n], .refl _, Fifo.toList_push ..⟩

theorem meets_writeBounds (n : NodeId) (x : Interval α) :
    Meets (writeBounds n x) s E fun _ s₁ => PutInLine [] s s₁ := by
  rw [writeBounds]
  simp only [meets_bind, meets_modifyGraph, meets_modifyStats]
  exact .of_terms (.of_modify fun _ => rfl) rfl rfl

variable [BoundStore σ α]

omit [Scalar α] in
/-- Whatever the bound store answers, at most the node itself is put in line. -/
theorem meets_passOn (n : NodeId) (entry : Node α) (x : Interval α) :
    Meets (passOn n entry x) s E fun _ s₁ => PutInLine [n] s s₁ := by
  rw [passOn]
  split
  · rename_i v _
    refine meets_bind.mpr (meets_get.mpr ?_)
    rcases BoundStore.tighten s.store v x with ⟨store, change⟩
    refine meets_bind.mpr (meets_modify.mpr ?_)
    have hbumped : s.graph.SameTerms s.graph.bumpBoundsEpoch := ⟨.refl _ _, rfl, rfl, rfl, rfl, rfl⟩
    cases change with
    | tightened =>
      simp only [meets_bind, meets_modifyGraph, meets_pure]
      exact .of_terms hbumped rfl rfl
    | unchanged =>
      exact meets_pure.mpr (.of_terms (.refl _) rfl rfl)
    | infeasible =>
      simp only [meets_bind, meets_markInfeasible, meets_pure]
      exact .of_terms (.refl _) rfl rfl
  · exact meets_pure.mpr (.of_terms (.refl _) rfl rfl)
  · exact (meets_enqueue n entry).bind fun _ s₁ h₁ => meets_pure.mpr h₁

/-- A node that is not in use may give rise to any fault but being cut off. -/
theorem isAlive_or_allowed {g : Graph α} (hn : ∀ e, g.ReverseFaultAt n e → E e) :
    g.arena.isAlive n = true ∨ ∀ e, e ≠ .diverged → E e := by
  rcases halive : g.arena.isAlive n with _ | _
  · exact Or.inr fun e he => hn e (.unused halive he)
  · exact Or.inl rfl

/-- The bounds of a node are known, unless it gives rise to a fault. -/
theorem meets_currentBounds {g : Graph α} {store : σ} (hn : ∀ e, g.ReverseFaultAt n e → E e) :
    Meets (currentBounds g store n) () E fun _ _ => True := by
  have halive := isAlive_or_allowed hn
  rw [currentBounds]
  refine meets_bind.mpr (Graph.meets_get (halive.imp Arena.lt_capacity_of_isAlive fun hE => hE _ (by simp))
    fun node hnode => ?_)
  have halive : g.arena.isAlive n = true ∨ E (.accessReleased n) := halive.imp_right fun hE => hE _ (by simp)
  dsimp only
  split
  · exact meets_inter_propBounds? halive fun _ _ => trivial
  · rename_i c hkind
    rcases hpoint : Interval.point c with e | y
    · -- a constant that is not a number has no interval
      rw [Interval.point, Interval.ofBounds] at hpoint
      split at hpoint
      · rename_i hc
        obtain rfl := Except.error.inj hpoint
        exact hn _ (.constant hnode hkind (by simpa using hc) (by simp))
      · cases hpoint
    · exact meets_inter_propBounds? halive fun _ _ => trivial
  · exact meets_inter_propBounds? halive fun _ _ => trivial

/-- Tightening a node puts at most the node in line. -/
theorem meets_tighten (hn : ∀ e, s.graph.ReverseFaultAt n e → E e) (x : Interval α) :
    Meets (tighten n x) s E fun _ s₁ => PutInLine [n] s s₁ := by
  rw [tighten]
  simp only [meets_bind, meets_get, meets_check]
  refine (meets_currentBounds hn).imp fun current _ _ => ?_
  split_ifs
  · simp only [meets_bind, meets_record, meets_markInfeasible, meets_pure]
    exact .of_terms (.refl _) rfl rfl
  · exact meets_pure.mpr (.of_terms (.refl _) rfl rfl)
  · simp only [meets_bind, meets_record, meets_check]
    refine Graph.meets_get ((isAlive_or_allowed hn).imp Arena.lt_capacity_of_isAlive fun hE => hE _ (by simp))
      fun entry _ => ?_
    refine (meets_writeBounds n _).imp fun _ s₁ h₁ => (meets_passOn n entry _).imp fun _ s₂ h₂ => ?_
    have hwritten : PutInLine [] s s₁ := ⟨h₁.terms, h₁.reverseCalls_eq, h₁.queue⟩
    exact hwritten.trans h₂

/-- Tightening several nodes puts at most these in line. -/
theorem meets_tightenEach {requests : List (NodeId × Interval α)}
    (hrequests : ∀ r ∈ requests, ∀ e, s.graph.ReverseFaultAt r.1 e → E e) (count : Nat) :
    Meets (tightenEach requests count) s E fun _ s₁ => PutInLine (requests.map (·.1)) s s₁ := by
  induction requests generalizing s count with
  | nil => exact meets_pure.mpr (.of_terms (.refl _) rfl rfl)
  | cons request requests ih =>
    obtain ⟨hrequest, hrequests⟩ := List.forall_mem_cons.mp hrequests
    refine (meets_tighten hrequest request.2).bind fun t s₁ h₁ => ?_
    split_ifs
    · have hskipped : PutInLine (requests.map (·.1)) s₁ s₁ := .of_terms (.refl _) rfl rfl
      exact meets_pure.mpr (by simpa using h₁.trans hskipped)
    · refine (ih (fun r hr e he => hrequests r hr e (he.sameTerms h₁.terms)) _).imp fun t s₂ h₂ => ?_
      exact h₁.trans h₂

/-! ### Working off the line -/

omit [Scalar α] [BoundStore σ α] in
/-- Dropping the line counts no node as taken from it. -/
theorem meets_clearQueue : Meets clearQueue s E fun _ s₁ =>
    s₁.propagator.queue.toList = [] ∧ s₁.propagator.stats = s.propagator.stats := by
  have hloop : ∀ (ns : List NodeId) (s : Propagation σ α), Meets (forIn ns PUnit.unit fun n _ => do
      if (← get).graph.isAlive n then
        modifyGraph fun g => g.modify n fun entry => { entry with queued := false }
      pure (.yield PUnit.unit) : PropagationM σ α PUnit) s E fun _ s₁ => s₁.propagator = s.propagator := by
    intro ns
    induction ns with
    | nil => exact fun s => meets_pure.mpr rfl
    | cons n ns ih =>
      intro s
      rw [List.forIn_cons]
      refine Meets.bind (P := fun step s₁ => step = .yield PUnit.unit ∧ s₁.propagator = s.propagator) ?_
        fun step s₁ hs₁ => ?_
      · refine meets_bind.mpr (meets_get.mpr ?_)
        split_ifs
        · exact meets_bind.mpr (meets_modifyGraph.mpr (meets_pure.mpr ⟨rfl, rfl⟩))
        · exact meets_pure.mpr ⟨rfl, rfl⟩
      · obtain ⟨rfl, hs₁⟩ := hs₁
        exact (ih s₁).imp fun _ s₂ hs₂ => hs₂.trans hs₁
  refine meets_bind.mpr (meets_get.mpr ((hloop _ s).bind fun _ s₁ hs₁ => ?_))
  exact meets_modifyPropagator.mpr ⟨rfl, by rw [hs₁]⟩

omit [Scalar α] [BoundStore σ α] in
theorem map_fst_zip_sublist (ns : List NodeId) (xs : List β) : ((ns.zip xs).map (·.1)).Sublist ns := by
  induction ns generalizing xs with
  | nil => exact .slnil
  | cons n ns ih =>
    cases xs with
    | nil => exact List.nil_sublist _
    | cons x xs => exact (ih xs).cons_cons n

/-- Working at a node asks for bounds on operands of it, at most one for each time that they occur. -/
theorem meets_reverseNode (hn : ∀ e, s.graph.ReverseFaultAt n e → E e)
    (hops : ∀ c, s.graph.arena.IsOperand c n → ∀ e, s.graph.ReverseFaultAt c e → E e) :
    Meets (reverseNode n) s E fun r s₁ => s.graph.SameTerms s₁.graph ∧
      s₁.propagator.queue = s.propagator.queue ∧
      s₁.propagator.stats.reverseCalls = s.propagator.stats.reverseCalls + 1 ∧
      ∀ requests, r = some requests → (requests.map (·.1)).Sublist (s.graph.arena.operands n) := by
  rw [reverseNode]
  simp only [meets_bind, meets_get, meets_check]
  refine (meets_currentBounds hn).imp fun bounds _ _ => ?_
  refine Graph.meets_get ((isAlive_or_allowed hn).imp Arena.lt_capacity_of_isAlive fun hE => hE _ (by simp))
    fun entry hentry => ?_
  refine (meets_mapM_forall₂ (R := fun _ _ => True) fun c hc => meets_currentBounds
    (hops c ((Arena.isOperand_iff hentry).mpr hc))).imp fun operands _ hoperands => ?_
  rcases hrun : (s.graph.handlerFor entry.kind).reverse entry.kind bounds operands with e | noted
  · exact hn e (.handler hentry hoperands.length_eq.symm hrun)
  · refine meets_pure.mpr (meets_takeNoted fun reported records => ?_)
    have hterms : s.graph.SameTerms { s.graph with operators := ⟨s.graph.operators.handler, reported⟩ } :=
      ⟨.refl _ _, rfl, rfl, rfl, rfl, rfl⟩
    simp only [meets_modifyStats]
    cases noted.value.verdict with
    | feasible =>
      refine meets_pure.mpr ⟨hterms, rfl, rfl, fun requests hrequests => ?_⟩
      obtain rfl := Option.some.inj hrequests
      rw [Arena.operands_eq_of_node? hentry]
      exact map_fst_zip_sublist ..
    | infeasible =>
      exact meets_bind.mpr (meets_record.mpr (meets_pure.mpr ⟨hterms, rfl, rfl, by simp⟩))

omit [Scalar α] [BoundStore σ α] in
/-- A state of a run of reverse propagation that began in `s₀`. Only nodes stand in line that could be reached
from there, and the nodes taken from it are paid for by the ways down that are left. -/
structure Draining (s₀ s : Propagation σ α) : Prop where
  terms : s₀.graph.SameTerms s.graph
  reached : ∀ n ∈ s.propagator.queue.toList, ∃ m ∈ s₀.propagator.queue.toList, s₀.graph.arena.Below n m
  paid : s.propagator.stats.reverseCalls + s₀.graph.arena.wayCount s.propagator.queue.toList ≤
    s₀.propagator.stats.reverseCalls + s₀.graph.arena.wayCount s₀.propagator.queue.toList

variable {s₀ : Propagation σ α}

/-- **One turn** takes a node from the line. The ways down from it are one more than those from its operands. -/
theorem Draining.meets_drainTurn (h : Draining s₀ s) (hacyclic : s₀.graph.arena.Acyclic)
    (hgood : ∀ n m, m ∈ s₀.propagator.queue.toList → s₀.graph.arena.Below n m →
      ∀ e, s₀.graph.ReverseFaultAt n e → E e) (count : Nat) :
    Meets (drainTurn count) s E (Turn.Allowed
      (fun _ s₁ => s₀.graph.arena.wayCount s₁.propagator.queue.toList <
        s₀.graph.arena.wayCount s.propagator.queue.toList ∧ Draining s₀ s₁)
      fun t s₁ => (t.infeasible = false → s₁.propagator.queue.toList = []) ∧
        s₁.propagator.stats.reverseCalls ≤
          s₀.propagator.stats.reverseCalls + s₀.graph.arena.wayCount s₀.propagator.queue.toList) := by
  have hpaid := h.paid
  rw [drainTurn]
  refine meets_bind.mpr (meets_get.mpr ?_)
  rcases hpop : s.propagator.queue.pop? with _ | ⟨n, queue⟩
  · exact meets_pure.mpr ⟨fun _ => Fifo.pop?_eq_none hpop, Nat.le_of_add_right_le hpaid⟩
  have hqueue := Fifo.pop?_eq_some hpop
  obtain ⟨m, hm, hnm⟩ := h.reached n (hqueue ▸ List.mem_cons_self ..)
  rw [hqueue, Arena.wayCount_cons, Arena.ncard_ways (hacyclic.apply n)] at hpaid ⊢
  -- the node is taken out, and then marked as being out of line
  have htaken : s₀.graph.SameTerms (s.graph.modify n fun entry => { entry with queued := false }) :=
    h.terms.trans (.of_modify fun _ => rfl)
  have hoperands := htaken.children.operands_eq
  have hallowed : ∀ c, s₀.graph.arena.Below c m →
      ∀ e, (s.graph.modify n fun entry => { entry with queued := false }).ReverseFaultAt c e → E e :=
    fun c hc e he => hgood c m hm hc e (he.sameTerms htaken)
  simp only [meets_bind, meets_modifyPropagator, meets_modifyGraph]
  refine (meets_reverseNode (hallowed n hnm) fun c hc => hallowed c ?_).imp fun r s₁ hs₁ => ?_
  · rw [htaken.children.isOperand_eq] at hc
    exact (Arena.IsOperand.below hc).trans hnm
  obtain ⟨hterms₁, hqueue₁, hcalls₁, hrequests⟩ := hs₁
  cases r with
  | none =>
    refine meets_pure.mpr ⟨by simp, ?_⟩
    dsimp only at hcalls₁
    omega
  | some requests =>
    have hsub := hrequests requests rfl
    rw [hoperands] at hsub
    have hbelow : ∀ c ∈ requests.map (·.1), s₀.graph.arena.Below c m := fun c hc =>
      (Arena.IsOperand.below (hsub.subset hc)).trans hnm
    refine meets_bind.mpr ((meets_tightenEach (fun r hr => ?_) count).imp fun t s₂ hs₂ => ?_)
    · exact fun e he => hallowed r.1 (hbelow r.1 (List.mem_map_of_mem hr)) e (he.sameTerms hterms₁)
    obtain ⟨more, hmore, hqueue₂⟩ := hs₂.queue
    have hcalls₂ := hs₂.reverseCalls_eq
    rw [hqueue₁] at hqueue₂
    dsimp only at hcalls₁ hqueue₂
    have hcount := s₀.graph.arena.wayCount_le_of_sublist (hmore.trans hsub)
    split_ifs with ht
    · refine meets_pure.mpr ⟨fun hfeasible => ?_, ?_⟩
      · rw [ht] at hfeasible
        cases hfeasible
      · omega
    · have hdrained : s₀.graph.arena.wayCount s₂.propagator.queue.toList =
          s₀.graph.arena.wayCount queue.toList + s₀.graph.arena.wayCount more := by
        rw [hqueue₂, Arena.wayCount_append]
      refine meets_pure.mpr ⟨by omega, htaken.trans (hterms₁.trans hs₂.terms), fun c hc => ?_, by omega⟩
      rw [hqueue₂, List.mem_append] at hc
      rcases hc with hc | hc
      · exact h.reached c (hqueue ▸ List.mem_cons_of_mem n hc)
      · exact ⟨m, hm, hbelow c (hmore.subset hc)⟩

/-- Working off the line, with a count of the nodes taken from it. -/
theorem meets_drain (hacyclic : s.graph.arena.Acyclic)
    (hgood : ∀ n m, m ∈ s.propagator.queue.toList → s.graph.arena.Below n m →
      ∀ e, s.graph.ReverseFaultAt n e → E e) :
    Meets drain s E fun _ s₁ => s₁.propagator.queue.toList = [] ∧ s₁.propagator.stats.reverseCalls ≤
      s.propagator.stats.reverseCalls + s.graph.arena.wayCount s.propagator.queue.toList := by
  have hstart : Draining s s := ⟨.refl _, fun n hn => ⟨n, hn, .refl _ _⟩, Nat.le_refl _⟩
  rw [drain]
  refine Meets.bind (P := fun t s₁ => (t.infeasible = false → s₁.propagator.queue.toList = []) ∧
    s₁.propagator.stats.reverseCalls ≤
      s.propagator.stats.reverseCalls + s.graph.arena.wayCount s.propagator.queue.toList) ?_ fun t s₁ hs₁ => ?_
  · refine meets_run (I := fun k _ s₁ => s.graph.arena.wayCount s₁.propagator.queue.toList = k ∧ Draining s s₁)
      (fun k count s₁ hs₁ => ?_) (fun k count s₁ hs₁ => ?_) ⟨rfl, hstart⟩
    · -- what the loop grants covers the ways down that are left
      obtain ⟨rfl, h₁⟩ := hs₁
      refine meets_bind.mpr (meets_get.mpr (meets_pure.mpr ⟨rfl, ?_⟩))
      rw [h₁.terms.children.edgeCount_eq]
      calc s.graph.arena.wayCount s₁.propagator.queue.toList
          ≤ s₁.propagator.queue.size * 2 ^ s.graph.arena.edgeCount := by
            simpa using hacyclic.wayCount_le s₁.propagator.queue.toList
        _ < 2 ^ (s₁.propagator.queue.size + 1) * 2 ^ s.graph.arena.edgeCount :=
            Nat.mul_lt_mul_of_pos_right (Nat.lt_of_succ_lt Nat.lt_two_pow_self) (Nat.two_pow_pos _)
        _ = 2 ^ (s.graph.arena.edgeCount + s₁.propagator.queue.size + 1) := by
            rw [← Nat.pow_add]
            congr 1
            omega
    · obtain ⟨rfl, h₁⟩ := hs₁
      refine (h₁.meets_drainTurn hacyclic hgood count).imp fun turn s₂ hturn => ?_
      cases turn with
      | done t => exact hturn
      | next count => exact ⟨_, hturn.1, rfl, hturn.2⟩
  · obtain ⟨hempty, hcalls⟩ := hs₁
    split_ifs with ht
    · refine meets_bind.mpr (meets_markInfeasible.mpr (meets_clearQueue.bind fun _ s₂ hs₂ => ?_))
      exact meets_pure.mpr ⟨hs₂.1, by simpa only [hs₂.2] using hcalls⟩
    · exact meets_pure.mpr ⟨hempty (Bool.eq_false_iff.mpr ht), hcalls⟩

/-- Inverse relations that end may fault at nodes that are not all reversible. -/
theorem meets_drain_of_reversible (hacyclic : s.graph.arena.Acyclic)
    (hends : ∀ op kind x xs, ((s.graph.operators.handler op).reverse kind x xs).Ends)
    (hgood : ∀ n m, m ∈ s.propagator.queue.toList → s.graph.arena.Below n m →
      s.graph.Reversible n ∨ ∀ e, e ≠ .diverged → E e) :
    Meets drain s E fun _ s₁ => s₁.propagator.queue.toList = [] ∧ s₁.propagator.stats.reverseCalls ≤
      s.propagator.stats.reverseCalls + s.graph.arena.wayCount s.propagator.queue.toList :=
  meets_drain hacyclic fun n m hm hn e he => (hgood n m hm hn).resolve_left he.not_reversible e (he.ne_diverged hends)

/-- **Working off the line ends.** On a graph without cycles it is never cut off, and meets no fault but those that
a node at or below one in line gives rise to, at which reverse propagation cannot work. When it returns, nothing
stands in line, and no more nodes were taken from it than there were ways down from the nodes that stood in line
at the start. This holds for any contents of the line, any bound store, any threshold and any handlers whose
inverse relations come to an end themselves. -/
theorem drain_ends (s : Propagation σ α) (hacyclic : s.graph.arena.Acyclic)
    (hends : ∀ op kind x xs, ((s.graph.operators.handler op).reverse kind x xs).Ends) :
    match drain.run s with
    | .ok _ s' => s'.propagator.queue.toList = [] ∧ s'.propagator.stats.reverseCalls ≤
        s.propagator.stats.reverseCalls + s.graph.arena.wayCount s.propagator.queue.toList
    | .error e _ => e ≠ .diverged ∧
        ∃ m ∈ s.propagator.queue.toList, ∃ n, s.graph.arena.Below n m ∧ ¬ s.graph.Reversible n := by
  let blamed : Fault α → Prop := fun e => e ≠ .diverged ∧
    ∃ m ∈ s.propagator.queue.toList, ∃ n, s.graph.arena.Below n m ∧ ¬ s.graph.Reversible n
  have hgood : ∀ n m, m ∈ s.propagator.queue.toList → s.graph.arena.Below n m →
      s.graph.Reversible n ∨ ∀ e, e ≠ .diverged → blamed e := by
    intro n m hm hn
    by_cases hrev : s.graph.Reversible n
    · exact Or.inl hrev
    · exact Or.inr fun e he => ⟨he, m, hm, n, hn, hrev⟩
  have hmeets := meets_iff_run.mp (meets_drain_of_reversible hacyclic hends hgood)
  cases hrun : drain.run s with
  | ok t s' =>
    rw [hrun] at hmeets
    exact hmeets
  | error e s' =>
    rw [hrun] at hmeets
    exact hmeets

/-- A sum that uses a magnitude twice stands in line, with bounds between 0 and 4. Five ways lead down from it. -/
theorem drain_ends_of_shared :
    let arena : Arena Float := ⟨#[.fresh (.var 0) [] 1,
      { Node.fresh .abs [0] 2 with activity := ⟨0, 10⟩, activityTag := 1 },
      { Node.fresh (.sum [1, 1] 0) [1, 1] 1 with propBounds := ⟨0, 4⟩, propTag := 2 }], []⟩
    let s : Propagation (BoundTable Float) Float :=
      ⟨{ Graph.empty default 0 with arena }, .ofList [⟨-10, 10⟩],
        { (default : Propagator) with queue := ⟨[2], []⟩ }, []⟩
    arena.Acyclic ∧ arena.wayCount [2] = 5 ∧ ∃ t s', drain.run s = .ok t s' ∧
      s'.propagator.queue.toList = [] ∧ s'.propagator.stats.reverseCalls ≤ 5 := by
  intro arena s
  have hleaf : arena.operands 0 = [] := rfl
  have habs : arena.operands 1 = [0] := rfl
  have hsum : arena.operands 2 = [1, 1] := rfl
  have hacyclic : arena.Acyclic := .of_lt fun c n hc => by
    rcases n with _ | _ | _ | n
    · cases hc
    · obtain rfl : c = 0 := by simpa [Arena.IsOperand, habs] using hc
      decide
    · obtain rfl : c = 1 := by simpa [Arena.IsOperand, hsum] using hc
      decide
    · cases hc
  have hcount : arena.wayCount [2] = 5 := by
    have hways := fun n => Arena.ncard_ways (hacyclic.apply n)
    simp [hways, hleaf, habs, hsum]
  have hreturns : (drain.run' s).isSome = true := by decide +kernel
  have hgraph : s.graph.arena = arena := rfl
  have hqueue : s.propagator.queue.toList = [2] := rfl
  have hcalls : s.propagator.stats.reverseCalls = 0 := rfl
  have hhandlers : ∀ op kind x xs, ((s.graph.operators.handler op).reverse kind x xs).Ends :=
    Handler.ends_reverse_default (default : Settings Float)
  -- the state is hidden from here on, so that the run is not computed again
  clear_value s
  have hends := drain_ends s (hgraph ▸ hacyclic) hhandlers
  rw [hgraph, hqueue, hcalls, hcount] at hends
  refine ⟨hacyclic, hcount, ?_⟩
  cases hrun : drain.run s with
  | ok t s' =>
    rw [hrun] at hends
    exact ⟨t, s', rfl, hends⟩
  | error e s' =>
    delta EStateM.run' at hreturns
    rw [hrun] at hreturns
    cases hreturns

end Propagation

end IntervalDag
