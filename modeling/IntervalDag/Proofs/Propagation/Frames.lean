import IntervalDag.Propagation.Rounds
import IntervalDag.Proofs.Propagation.Epochs
import IntervalDag.Proofs.Propagation.ForwardPass

/-!
# What propagation leaves alone

Every program of propagation leaves the terms of a graph alone, gives back the walk slots that it takes and
keeps the epochs in order, unless it meets a fault. `Keeps` says this of a program. It is put together in the
way that programs are.
-/

namespace IntervalDag.Propagation

variable {σ α β γ : Type}

/-- A program that ends without a fault has only propagated. -/
def Keeps (x : PropagationM σ α β) : Prop :=
  ∀ s : Propagation σ α, s.graph.Dated → s.graph.TagsGiven →
    Meets x s (fun _ => True) fun _ s' => s.graph.Propagated s'.graph

/-! ### Putting programs together -/

namespace Keeps

theorem pure (b : β) : Keeps (pure b : PropagationM σ α β) := fun _ h ht => meets_pure.mpr (.refl h ht)

theorem bind {x : PropagationM σ α β} {f : β → PropagationM σ α γ} (hx : Keeps x) (hf : ∀ b, Keeps (f b)) :
    Keeps (x >>= f) := fun s h ht =>
  (hx s h ht).bind fun b s₁ h₁ => (hf b s₁ h₁.dated h₁.tagsGiven).imp fun _ _ => h₁.trans

theorem get : Keeps (get : PropagationM σ α _) := fun _ h ht =>
  meets_get.mpr (.refl h ht)

theorem check (c : Checked α β) : Keeps (check c : PropagationM σ α β) := by
  intro s h ht
  rw [meets_check]
  cases c with
  | error e => exact trivial
  | ok b => exact .refl h ht

theorem record (r : LogRecord α) : Keeps (record r : PropagationM σ α Unit) := fun _ h ht => .refl h ht

theorem modifyPropagator (f : Propagator → Propagator) :
    Keeps (modifyPropagator f : PropagationM σ α Unit) := fun _ h ht => .refl h ht

theorem modifyGraph {f : Graph α → Graph α} (hf : ∀ g : Graph α, g.Dated → g.Advanced (f g))
    (hway : ∀ g : Graph α, g.SameWay (f g)) : Keeps (modifyGraph f : PropagationM σ α Unit) :=
  fun s h ht => .of_sameWay (hf s.graph h) ht (hway s.graph)

theorem takeNoted (op : Op) (n : Noted α β) : Keeps (takeNoted op n : PropagationM σ α β) :=
  fun _ h ht => meets_takeNoted fun reported _ =>
    .of_sameWay (.of_reported h reported) ht ⟨.refl _ _, rfl⟩

/-- What is read from the state may be used. -/
theorem get_bind {f : Propagation σ α → PropagationM σ α β} (hf : ∀ s, Keeps (f s)) :
    Keeps (MonadState.get >>= f) := get.bind hf

theorem ite {p : Prop} [Decidable p] {x y : PropagationM σ α β} (hx : Keeps x) (hy : Keeps y) :
    Keeps (if p then x else y) := by
  split
  · exact hx
  · exact hy

/-- Every turn of a loop may be one of the allowed ones, as many as there are. -/
theorem run {exponent : γ → PropagationM σ α Nat} {step : γ → PropagationM σ α (Turn γ β)}
    (hexp : ∀ c s, Meets (exponent c) s (fun _ => True) fun _ s' => s' = s) (hstep : ∀ c, Keeps (step c))
    (c : γ) : Keeps (Loop.run α exponent step c) := by
  intro s h ht
  refine meets_run_of_diverged (I := fun _ s' => s.graph.Propagated s'.graph) trivial
    (fun c s' _ => hexp c s') (fun c s₁ h₁ => ?_) (.refl h ht)
  refine (hstep c s₁ h₁.dated h₁.tagsGiven).imp fun turn s₂ h₂ => ?_
  cases turn with
  | next _ => exact h₁.trans h₂
  | done _ => exact h₁.trans h₂

theorem forIn {δ : Type} (xs : List γ) (init : δ) {f : γ → δ → PropagationM σ α (ForInStep δ)}
    (hf : ∀ x d, Keeps (f x d)) : Keeps (forIn xs init f) := by
  induction xs generalizing init with
  | nil => exact Keeps.pure _
  | cons x xs ih =>
    rw [List.forIn_cons]
    refine (hf x init).bind fun step => ?_
    cases step with
    | yield d => exact ih d
    | done d => exact Keeps.pure d

end Keeps

/-! ### The programs -/

theorem keeps_modifyNode {n : NodeId} {f : Graph α → Node α → Node α}
    (hsame : ∀ g node, (f g node).term = node.term ∧ (f g node).slots = node.slots)
    (hprop : ∀ g node, (f g node).propTag = node.propTag ∨ (f g node).propTag = g.roundEpoch)
    (hact : ∀ g node, (f g node).activityTag = node.activityTag) :
    Keeps (modifyGraph fun g => g.modify n (f g) : PropagationM σ α Unit) := by
  refine .modifyGraph (fun g h => ?_) fun g => .of_modify fun node => ⟨?_, (hsame g node).2⟩
  · exact (Graph.Advanced.of_modify h (fun node => (hsame g node).1) (hprop g) (Or.inl (hact g))).1
  · exact congrArg (fun term => term.2.1) (hsame g node).1

theorem keeps_setQueued (n : NodeId) (queued : Bool) :
    Keeps (modifyGraph fun g => g.modify n fun entry => { entry with queued } : PropagationM σ α Unit) :=
  keeps_modifyNode (fun _ _ => ⟨rfl, rfl⟩) (fun _ _ => Or.inl rfl) fun _ _ => rfl

/-- Opening a round. -/
theorem meets_beginRound {s : Propagation σ α} {E : Fault α → Prop} {Q : Unit → Propagation σ α → Prop} :
    Meets beginRound s E Q ↔ Q () { s with
      graph := s.graph.opened
      propagator := { s.propagator with queue := .empty, infeasible := false } } := Iff.rfl

theorem keeps_beginRound : Keeps (beginRound : PropagationM σ α Unit) :=
  (Keeps.modifyGraph (fun _ => .opened) fun g => ⟨g.agreeOn_opened _ fun _ => rfl, rfl⟩).bind
    fun _ => .modifyPropagator _

theorem keeps_enqueue (n : NodeId) (entry : Node α) : Keeps (enqueue n entry : PropagationM σ α Unit) :=
  .ite (.pure _) ((keeps_setQueued n true).bind fun _ => .modifyPropagator _)

theorem keeps_clearQueue : Keeps (clearQueue : PropagationM σ α Unit) := by
  refine .get_bind fun s => (Keeps.forIn _ _ fun n _ => ?_).bind fun _ => .modifyPropagator _
  refine .get_bind fun s => .ite ?_ (.pure _)
  exact (keeps_setQueued n false).bind fun _ => .pure _

section Programs

variable [Scalar α] [BoundStore σ α]

omit [BoundStore σ α] in
theorem keeps_writeBounds (n : NodeId) (x : Interval α) : Keeps (writeBounds n x : PropagationM σ α Unit) := by
  refine Keeps.bind (keeps_modifyNode ?_ ?_ ?_) fun _ => .modifyPropagator _
  · exact fun _ _ => ⟨rfl, rfl⟩
  · exact fun _ _ => Or.inr rfl
  · exact fun _ _ => rfl

omit [Scalar α] in
theorem keeps_passOn (n : NodeId) (entry : Node α) (x : Interval α) :
    Keeps (passOn n entry x : PropagationM σ α Tightened) := by
  rw [passOn]
  split
  · refine .get_bind fun s => ?_
    split
    rename_i store change _
    refine Keeps.bind (fun s h ht => .refl h ht) fun _ => ?_
    cases change with
    | tightened =>
      exact (Keeps.modifyGraph (fun _ => .bumpBoundsEpoch) fun _ => ⟨.refl _ _, rfl⟩).bind fun _ => .pure _
    | unchanged => exact .pure _
    | infeasible => exact (Keeps.modifyPropagator _).bind fun _ => .pure _
  · exact .pure _
  · exact (keeps_enqueue n entry).bind fun _ => .pure _

theorem keeps_tighten (n : NodeId) (x : Interval α) : Keeps (tighten n x : PropagationM σ α Tightened) := by
  refine .get_bind fun s => (Keeps.check _).bind fun current => ?_
  refine .ite ((Keeps.record _).bind fun _ => (Keeps.modifyPropagator _).bind fun _ => .pure _) ?_
  refine .ite (.pure _) ((Keeps.record _).bind fun _ => (Keeps.check _).bind fun entry => ?_)
  exact (keeps_writeBounds n _).bind fun _ => keeps_passOn n entry _

theorem keeps_tightenEach (requests : List (NodeId × Interval α)) (count : Nat) :
    Keeps (tightenEach requests count : PropagationM σ α Tightened) := by
  induction requests generalizing count with
  | nil => exact .pure _
  | cons request requests ih =>
    refine (keeps_tighten request.1 request.2).bind fun t => ?_
    exact .ite (.pure _) (ih _)

theorem keeps_reverseNode (n : NodeId) :
    Keeps (reverseNode n : PropagationM σ α (Option (List (NodeId × Interval α)))) := by
  refine .get_bind fun s => (Keeps.check _).bind fun bounds => (Keeps.check _).bind fun entry => ?_
  refine (Keeps.check _).bind fun operands => (Keeps.check _).bind fun noted => ?_
  refine (Keeps.takeNoted _ _).bind fun narrowed => (Keeps.modifyPropagator _).bind fun _ => ?_
  split
  · exact .pure _
  · exact (Keeps.record _).bind fun _ => .pure _

theorem keeps_drainTurn (count : Nat) :
    Keeps (drainTurn count : PropagationM σ α (Turn Nat Tightened)) := by
  refine .get_bind fun s => ?_
  split
  · exact .pure _
  · rename_i n queue _
    refine (Keeps.modifyPropagator _).bind fun _ =>
      (keeps_setQueued n false).bind fun _ => ?_
    refine (keeps_reverseNode n).bind fun requests? => ?_
    split
    · exact .pure _
    · exact (keeps_tightenEach _ count).bind fun t => .ite (.pure _) (.pure _)

theorem keeps_drain : Keeps (drain : PropagationM σ α Tightened) := by
  refine (Keeps.run (fun _ _ => meets_bind.mpr (meets_get.mpr (meets_pure.mpr rfl))) keeps_drainTurn 0).bind fun t => ?_
  exact .ite ((Keeps.modifyPropagator _).bind fun _ => keeps_clearQueue.bind fun _ => .pure _) (.pure _)

omit [Scalar α] [BoundStore σ α] in
/-- Computing an activity again where the operands are fresh. -/
theorem advanced_recomputed {s : Propagation σ α} (h : s.graph.Dated) {n : NodeId}
    (hn : n < s.graph.arena.capacity) (hops : ∀ c, s.graph.arena.IsOperand c n → s.graph.IsFreshAt c)
    (x : Interval α) (reported : Op → Bool) (records : List (LogRecord α)) (stats : PropagationStats) :
    s.graph.Advanced (s.recomputed n x reported records stats).graph ∧
      ∀ m, m = n ∨ s.graph.IsFreshAt m → (s.recomputed n x reported records stats).graph.IsFreshAt m := by
  have hreported := Graph.Advanced.of_reported h reported
  obtain ⟨hadvanced, hmono⟩ := Graph.Advanced.of_modify hreported.dated (n := n)
    (f := fun entry => { entry with activity := x, activityTag := s.graph.boundsEpoch })
    (fun _ => rfl) (fun _ => Or.inl rfl) (Or.inr ⟨fun _ => rfl, hops⟩)
  refine ⟨hreported.trans hadvanced, fun m hm => ?_⟩
  rcases hm with rfl | hm
  · have hnode := s.node?_recomputed m m x reported records stats
    rcases hentry : s.graph.arena.node? m with _ | entry
    · exact absurd hn (Nat.not_lt.mpr (Arena.node?_eq_none_iff.mp hentry))
    · rw [if_pos rfl, hentry] at hnode
      exact ⟨_, hnode, rfl⟩
  · exact hmono m hm

omit [Scalar α] [BoundStore σ α] in
theorem sameWay_recomputed (s : Propagation σ α) (n : NodeId) (x : Interval α) (reported : Op → Bool)
    (records : List (LogRecord α)) (stats : PropagationStats) :
    s.graph.SameWay (s.recomputed n x reported records stats).graph :=
  ⟨.of_modify fun _ => rfl, rfl⟩

/-- A visited node is fresh, as its operands are. -/
theorem refreshes_of_keeps (s₀ : Propagation σ α) (root : NodeId) (force : Bool) :
    Refreshes root force (fun _ => True)
      (fun seen _ (s : Propagation σ α) =>
        s₀.graph.Advanced s.graph ∧ ∀ n, seen n → s.graph.IsFreshAt n)
      (fun _ s => s₀.graph.Advanced s.graph) where
  meets {n rest seen count s} hJ hbelow hnew hops hpending := by
    obtain ⟨hadvanced, hseen⟩ := hJ
    refine meets_refresh (Or.inr fun _ => trivial) (Or.inr fun _ => trivial) (fun entry hn _ hfresh => ?_)
      fun entry hn _ => ?_
    · refine ⟨⟨.refl _ _, rfl⟩, ?_⟩
      have hfresh : s.graph.IsFreshAt n := ⟨entry, hn, by simpa [Graph.isFresh] using hfresh⟩
      split
      · exact meets_bind.mpr hadvanced
      · exact ⟨hadvanced, fun m hm => hm.elim (fun hmn => hmn ▸ hfresh) (hseen m)⟩
    · rcases s.graph.rangeOver (BoundStore.bounds s.store) entry.kind
        (entry.children.map s.graph.activityAt) with e | x
      · exact trivial
      intro count reported records stats
      obtain ⟨hstep, hmono⟩ := advanced_recomputed hadvanced.dated (Arena.lt_capacity_of_node? hn)
        (fun c hc => hseen c (hops c hc)) ((s.graph.entryBounds? entry).elim x x.inter) reported records stats
      refine ⟨sameWay_recomputed s n _ reported records stats, ?_⟩
      split
      · exact meets_bind.mpr (hadvanced.trans hstep)
      · exact ⟨hadvanced.trans hstep, fun m hm => hmono m (hm.imp_right (hseen m))⟩
  walked_J h hwalked := by
    refine ⟨h.1.trans (.of_walked h.1.dated hwalked), fun n hn => ?_⟩
    rw [Graph.isFreshAt_eq (hwalked.agree.map Node.activityTag) (by rw [hwalked.rest_eq])]
    exact h.2 n hn
  walked_K h hwalked := h.trans (.of_walked h.dated hwalked)

/-- Visiting a node is no part of the walk. -/
theorem sameWay_refresh (force : Bool) (n : NodeId) (count : Nat) (s : Propagation σ α) :
    Meets (refresh force n count) s (fun _ => True) fun _ s' => s.graph.SameWay s'.graph := by
  refine meets_refresh (Or.inr fun _ => trivial) (Or.inr fun _ => trivial) (fun _ _ _ _ => ⟨.refl _ _, rfl⟩)
    fun entry _ _ => ?_
  rcases s.graph.rangeOver (BoundStore.bounds s.store) entry.kind
    (entry.children.map s.graph.activityAt) with e | x
  · exact trivial
  · exact fun _ reported records stats => sameWay_recomputed s n _ reported records stats

/-- A forward pass leaves other walks alone. -/
theorem passed_forward (root : NodeId) (force : Bool) {s : Propagation σ α} (htags : s.graph.TagsGiven) :
    Meets (forward root force) s (fun _ => True) fun _ s' => s.graph.Passed s'.graph := by
  rw [forward]
  simp only [meets_bind, meets_get, meets_check, meets_modifyGraph]
  refine (Walk.Guest.meets_start htags rfl rfl rfl (some root)).imp fun r _ hr => ?_
  refine (meets_run_of_diverged (I := fun r s' => Walk.Guest s.graph r.1 s'.graph)
    (Q := fun r s' => Walk.Guest s.graph r.1 s'.graph) trivial (fun _ s' _ => meets_bind.mpr
      (meets_get.mpr (meets_pure.mpr rfl))) (fun r s₁ h => ?_) hr.1).imp fun r s' h => ?_
  · obtain ⟨w, count⟩ := r
    rw [forwardTurn_eq]
    split
    · exact meets_pure.mpr h
    · refine (sameWay_refresh force _ count s₁).bind fun t s₂ hsame => ?_
      have h₂ := h.sameWay hsame
      dsimp only
      split
      · exact meets_bind.mpr h₂
      · simp only [meets_bind, meets_get, meets_check, meets_modifyGraph, meets_pure]
        exact Walk.moves_next.imp fun r _ hr => h₂.moved hr
  · exact (Walk.meets_any _).imp fun _ _ _ => meets_pure.mpr h.passed_finish

theorem keeps_forward (root : NodeId) (force : Bool) :
    Keeps (forward root force : PropagationM σ α (Forwarded α)) := by
  intro s h ht
  refine ((meets_forward (refreshes_of_keeps s root force) ⟨.refl h, fun _ => False.elim⟩ ht
    (Or.inr fun _ => trivial) (Or.inr fun _ => trivial)).and (passed_forward root force ht)).imp fun r s' hr => ?_
  obtain ⟨⟨-, -, hr⟩, hpassed⟩ := hr
  split at hr
  · exact ⟨hr.2, hpassed⟩
  · obtain ⟨-, seen, -, hadvanced, -⟩ := hr
    exact ⟨hadvanced, hpassed⟩

theorem keeps_applyConstraint (c : Constraint α) :
    Keeps (applyConstraint c : PropagationM σ α Tightened) := by
  refine (keeps_forward c.root false).bind fun _ => .ite (.pure _) ?_
  exact (keeps_tighten c.root c.bounds).bind fun _ => .ite (.pure _) (keeps_drain.bind fun _ => .pure _)

theorem keeps_applyConstraints (cs : List (Constraint α)) (count : Nat) :
    Keeps (applyConstraints cs count : PropagationM σ α Tightened) := by
  induction cs generalizing count with
  | nil => exact .pure _
  | cons c cs ih => exact (keeps_applyConstraint c).bind fun _ => .ite (.pure _) (ih _)

theorem keeps_runRounds (cs : List (Constraint α)) (more : Nat) (outcome : PropagationOutcome) :
    Keeps (runRounds cs more outcome : PropagationM σ α PropagationOutcome) := by
  induction more generalizing outcome with
  | zero => exact .pure _
  | succ more ih =>
    refine keeps_beginRound.bind fun _ => (Keeps.modifyPropagator _).bind fun _ => .get_bind fun s => ?_
    refine (keeps_applyConstraints cs 0).bind fun t => (Keeps.record _).bind fun _ => ?_
    exact .get_bind fun _ => .ite (.pure _) (ih _)

theorem keeps_propagate (cs : List (Constraint α)) :
    Keeps (propagate cs : PropagationM σ α PropagationOutcome) :=
  .get_bind fun _ => keeps_runRounds cs _ _

end Programs

end IntervalDag.Propagation
