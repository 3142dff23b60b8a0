import IntervalDag.Proofs.Propagation.Bookkeeping
import IntervalDag.Proofs.Propagation.Workspace
import IntervalDag.Proofs.Propagation.Worklist
import IntervalDag.Proofs.Scalar.Rounding

/-!
# What the outcome of a propagation promises

A whole propagation returns, unless a handler faults at a node at or below a constraint's root, and then its
outcome tells what happened (`Workspace.propagate_promised`): how many rounds there were, that the propagator is left
without waiting nodes and with a flag that agrees with the outcome, that each round but the last narrowed a domain
strictly, and that rounds stopped early because the last one changed nothing.
-/

namespace IntervalDag

variable {σ α : Type} [Scalar α]

/-- The faults that propagation can meet at a node: those of reverse propagation, and those of the node's handler
when it is asked for a range over as many intervals as the node has operands. -/
inductive Graph.FaultAt (g : Graph α) (n : NodeId) (e : Fault α) : Prop where
  | reverse (h : g.ReverseFaultAt n e)
  | interval {node xs vars} (hn : g.arena.node? n = some node) (hlength : xs.length = node.children.length)
    (hrun : (g.handlerFor node.kind).interval node.kind xs vars = .error e)

theorem Graph.FaultAt.sameTerms {g g₁ : Graph α} {n : NodeId} {e : Fault α} (h : g₁.FaultAt n e)
    (hsame : SameTerms g g₁) : g.FaultAt n e := by
  cases h with
  | reverse h => exact .reverse (h.sameTerms hsame)
  | interval hn hlength hrun =>
    obtain ⟨node, hnode, hkind, hchildren, -⟩ := hsame.symm.exists_node? hn
    rw [hsame.handlerFor_eq, ← hkind] at hrun
    exact .interval hnode (hchildren ▸ hlength) hrun

namespace Propagation

/-! ### Faults of propagation -/

variable [BoundStore σ α] {s s₁ : Propagation σ α} {root : NodeId} {E : Fault α → Prop}

/-- A state between two parts of a round. The nodes below a root are in use, and no other faults than those that are
allowed can be met there. -/
structure Ready (E : Fault α → Prop) (root : NodeId) (s : Propagation σ α) : Prop where
  acyclic : s.graph.arena.Acyclic
  isAlive : ∀ n, s.graph.arena.Below n root → s.graph.arena.isAlive n = true
  allowed : ∀ n, s.graph.arena.Below n root → ∀ e, s.graph.FaultAt n e → E e
  dated : s.graph.Dated
  tagsGiven : s.graph.TagsGiven
  taken_eq : s.graph.walks.taken = []

omit [BoundStore σ α] in
/-- Propagation leaves a graph ready. -/
theorem Ready.propagated (h : Ready E root s) (hprop : s.graph.Propagated s₁.graph) : Ready E root s₁ where
  acyclic := by
    have hops := hprop.terms.children.isOperand_eq
    rw [Arena.Acyclic, hops]
    exact h.acyclic
  isAlive n hn := by
    rw [hprop.terms.isAlive_eq]
    exact h.isAlive n (hprop.terms.children.below_eq ▸ hn)
  allowed n hn e he := h.allowed n (hprop.terms.children.below_eq ▸ hn) e (he.sameTerms hprop.terms)
  dated := hprop.dated
  tagsGiven := hprop.tagsGiven
  taken_eq := hprop.taken_eq.trans h.taken_eq

/-- Where a graph is ready, nodes are visited with no other faults. -/
theorem Ready.refreshes {s₀ : Propagation σ α} (h : Ready E root s₀) (force : Bool) :
    Refreshes root force E
      (fun _ _ (s : Propagation σ α) => s₀.graph.SameTerms s.graph ∧ s.propagator.queue = s₀.propagator.queue)
      (fun _ s => s₀.graph.SameTerms s.graph ∧ s.propagator.queue = s₀.propagator.queue) where
  meets {n rest seen count s} hJ hbelow _ _ _ := by
    obtain ⟨hsame, hqueue⟩ := hJ
    have halive : ∀ m, s.graph.arena.Below m root → s.graph.arena.isAlive m = true := fun m hm => by
      rw [hsame.isAlive_eq]
      exact h.isAlive m (hsame.children.below_eq ▸ hm)
    refine meets_refresh (Or.inl (halive n hbelow))
      (Or.inl fun c hc => Arena.lt_capacity_of_isAlive (halive c (hc.below.trans hbelow)))
      (fun entry hn _ _ => ?_) fun entry hn _ => ?_
    · refine ⟨⟨.refl _ _, rfl⟩, ?_⟩
      split_ifs
      · exact meets_bind.mpr ⟨hsame, hqueue⟩
      · exact ⟨hsame, hqueue⟩
    · rcases hrange : s.graph.rangeOver (BoundStore.bounds s.store) entry.kind
        (entry.children.map s.graph.activityAt) with e | x
      · -- only the handler can fail to find a range
        refine h.allowed n (hsame.children.below_eq ▸ hbelow) e (Graph.FaultAt.sameTerms ?_ hsame)
        rw [Graph.rangeOver] at hrange
        split_ifs at hrange
        rcases hrun : (s.graph.handlerFor entry.kind).interval entry.kind (entry.children.map s.graph.activityAt)
          (BoundStore.bounds s.store) with e' | noted
        · rw [hrun] at hrange
          cases hrange
          exact .interval hn (List.length_map _) hrun
        · rw [hrun] at hrange
          cases hrange
      intro count reported records stats
      refine ⟨sameWay_recomputed s n _ reported records stats, ?_⟩
      have hterms : s₀.graph.SameTerms
          (s.recomputed n ((s.graph.entryBounds? entry).elim x x.inter) reported records stats).graph :=
        hsame.trans ⟨.of_modify fun _ => rfl, rfl, rfl, rfl, rfl, rfl⟩
      split_ifs
      · exact meets_bind.mpr ⟨hterms, hqueue⟩
      · exact ⟨hterms, hqueue⟩
  walked_J h hwalked := ⟨h.1.trans (.of_walked hwalked), h.2⟩
  walked_K h hwalked := ⟨h.1.trans (.of_walked hwalked), h.2⟩

theorem Ready.meets_forward (h : Ready E root s) (force : Bool) : Meets (forward root force) s E fun _ s' =>
    s'.propagator.queue = s.propagator.queue ∧ s.graph.Propagated s'.graph := by
  refine ((Propagation.meets_forward (h.refreshes force) ⟨.refl _, rfl⟩ h.tagsGiven
    (Or.inl ⟨h.acyclic.apply root, fun n hn => Arena.lt_capacity_of_isAlive (h.isAlive n hn)⟩)
    (Or.inl (SlotPool.lowestFree?_ne_none h.taken_eq))).and
      (keeps_forward root force s h.dated h.tagsGiven)).imp fun r s' hr => ?_
  obtain ⟨⟨-, -, hr⟩, hprop⟩ := hr
  split_ifs at hr
  · exact ⟨hr.2.2, hprop⟩
  · obtain ⟨-, seen, -, hJ⟩ := hr
    exact ⟨hJ.2, hprop⟩

/-- Taking a constraint with nothing in line. -/
theorem meets_applyConstraint_ready {c : Constraint α} (h : Ready E c.root s)
    (hqueue : s.propagator.queue.toList = []) : Meets (applyConstraint c) s E fun t s' =>
      (t.infeasible = false → s'.propagator.queue.toList = []) ∧ s.graph.Propagated s'.graph := by
  rw [applyConstraint]
  refine (h.meets_forward false).bind fun forwarded s₁ hs₁ => ?_
  obtain ⟨hqueue₁, hprop₁⟩ := hs₁
  have h₁ := h.propagated hprop₁
  split_ifs
  · exact meets_pure.mpr ⟨by simp, hprop₁⟩
  refine ((meets_tighten (fun e he => h₁.allowed c.root (.refl _ _) e (.reverse he)) c.bounds).and
    (keeps_tighten c.root c.bounds s₁ h₁.dated h₁.tagsGiven)).bind fun t s₂ hs₂ => ?_
  obtain ⟨hlined, hprop₂⟩ := hs₂
  have h₂ := h₁.propagated hprop₂
  split_ifs
  · exact meets_pure.mpr ⟨by simp, hprop₁.trans hprop₂⟩
  -- at most the root waits in line
  have hallowed : ∀ n m, m ∈ s₂.propagator.queue.toList → s₂.graph.arena.Below n m →
      ∀ e, s₂.graph.ReverseFaultAt n e → E e := by
    intro n m hm hn e he
    obtain ⟨more, hsub, hlist⟩ := hlined.queue
    rw [hlist, hqueue₁, hqueue, List.nil_append] at hm
    obtain rfl := List.mem_singleton.mp (hsub.subset hm)
    exact h₂.allowed n hn e (.reverse he)
  refine ((meets_drain h₂.acyclic hallowed).and (keeps_drain s₂ h₂.dated h₂.tagsGiven)).bind
    fun drained s₃ hs₃ => ?_
  exact meets_pure.mpr ⟨fun _ => hs₃.1.1, hprop₁.trans (hprop₂.trans hs₃.2)⟩

theorem meets_applyConstraints_ready {cs : List (Constraint α)} (h : ∀ c ∈ cs, Ready E c.root s)
    (hqueue : s.propagator.queue.toList = []) (count : Nat) :
    Meets (applyConstraints cs count) s E fun _ _ => True := by
  induction cs generalizing s count with
  | nil => exact meets_pure.mpr trivial
  | cons c cs ih =>
    obtain ⟨hc, hcs⟩ := List.forall_mem_cons.mp h
    refine (meets_applyConstraint_ready hc hqueue).bind fun t s₁ hs₁ => ?_
    split_ifs with hcontradiction
    · exact meets_pure.mpr trivial
    · exact ih (fun c hc => (hcs c hc).propagated hs₁.2) (hs₁.1 (Bool.eq_false_iff.mpr hcontradiction)) _

/-- A round. -/
theorem meets_round_ready {cs : List (Constraint α)} (h : ∀ c ∈ cs, Ready E c.root s) (hdated : s.graph.Dated)
    (htags : s.graph.TagsGiven) (number : Nat) :
    Meets (round cs number) s E fun _ s' => s.graph.Propagated s'.graph := by
  refine Meets.and (Q := fun _ _ => True) ?_ (keeps_round cs number s hdated htags) |>.imp fun _ _ => And.right
  have hopened : s.graph.Propagated s.graph.opened := keeps_beginRound s hdated htags
  rw [round, meets_bind, meets_beginRound]
  simp only [meets_bind, meets_modifyStats, meets_record, meets_pure]
  exact (meets_applyConstraints_ready (fun c hc => (h c hc).propagated hopened) rfl 0).imp fun t s₁ _ => trivial

/-- **Rounds** meet no other faults than those that are allowed below the constraints' roots. -/
theorem meets_runRounds_ready {cs : List (Constraint α)} (h : ∀ c ∈ cs, Ready E c.root s) (hdated : s.graph.Dated)
    (htags : s.graph.TagsGiven) (more : Nat) :
    Meets (runRounds cs (more + 1) ⟨false, 0, 0⟩) s E fun _ _ => True := by
  let I (k : Nat) : Prop := (∀ c ∈ cs, Ready E c.root (afterRounds cs s k)) ∧
    (afterRounds cs s k).graph.Dated ∧ (afterRounds cs s k).graph.TagsGiven
  refine meets_runRounds_of (I := I) (fun k _ hI => ?_) (Nat.zero_add _) ⟨h, hdated, htags⟩
  obtain ⟨h, hdated, htags⟩ := hI
  refine (meets_round_ready h hdated htags _).imp fun t s₁ hprop hstate count => ?_
  subst hstate
  split_ifs
  exact ⟨fun c hc => (h c hc).propagated hprop, hprop.dated, hprop.tagsGiven⟩

/-! ### Outcomes of rounds -/

/-- What an outcome promises of at most `max` rounds that began in `s` and ended in `s'`. -/
structure Promised (constraints : List (Constraint α)) (max : Nat) (s : Propagation (BoundTable α) α)
    (outcome : PropagationOutcome) (s' : Propagation (BoundTable α) α) : Prop where
  rounds_pos : 1 ≤ outcome.rounds
  rounds_le : outcome.rounds ≤ max
  infeasible_eq : s'.propagator.infeasible = outcome.infeasible
  queue_eq : s'.propagator.queue.toList = []
  unmarked : ∀ n node, s'.graph.arena.node? n = some node → node.queued = false
  state_eq : s' = afterRounds constraints s outcome.rounds
  /-- each round but the last narrowed some domain strictly, and widened none -/
  narrowed : ∀ k, k + 1 < outcome.rounds →
    (afterRounds constraints s k).store.Narrowed (afterRounds constraints s (k + 1)).store
  /-- without a contradiction, rounds only stop early after one that changed no domain -/
  settled : outcome.infeasible = false → outcome.rounds < max →
    s'.store = (afterRounds constraints s (outcome.rounds - 1)).store

variable [ThresholdScalar α]

omit [ThresholdScalar α] in
/-- The last round. -/
theorem Idle.promised {s₀ s₂ : Propagation (BoundTable α) α} {constraints : List (Constraint α)} {k max : Nat}
    {outcome : PropagationOutcome}
    (h : Idle (afterRounds constraints s₀ k) s₂) (hflag : s₂.propagator.infeasible = outcome.infeasible)
    (hstate : s₂ = afterRounds constraints s₀ (k + 1)) (hrounds : outcome.rounds = k + 1) (hmax : k + 1 ≤ max)
    (hnarrowed : ∀ j, j < k →
      (afterRounds constraints s₀ j).store.Narrowed (afterRounds constraints s₀ (j + 1)).store)
    (hsettled : outcome.infeasible = false → k + 1 < max →
      s₂.graph.boundsEpoch = (afterRounds constraints s₀ k).graph.boundsEpoch) :
    Promised constraints max s₀ outcome s₂ where
  rounds_pos := hrounds ▸ Nat.le_add_left 1 k
  rounds_le := hrounds ▸ hmax
  infeasible_eq := hflag
  queue_eq := h.queue_eq
  unmarked n node hnode := by
    rw [Bool.eq_false_iff]
    intro hqueued
    have hmem := (h.queued n node hnode hqueued).2
    rw [h.queue_eq] at hmem
    cases hmem
  state_eq := hrounds ▸ hstate
  narrowed j hj := hnarrowed j (by omega)
  settled hfeasible hlt := by
    rw [hrounds] at hlt ⊢
    rcases h.revised with ⟨-, hsame⟩ | ⟨hepoch, -⟩
    · exact hsame
    · exact absurd (hsettled hfeasible hlt) (Nat.ne_of_gt hepoch)

/-- **Rounds** keep the promises. -/
theorem meets_runRounds_promised (constraints : List (Constraint α)) (s : Propagation (BoundTable α) α) (more : Nat)
    (hthreshold : 0 ≤ s.store.minTightening) (hdated : s.graph.Dated) (htags : s.graph.TagsGiven) :
    Meets (runRounds constraints (more + 1) ⟨false, 0, 0⟩) s (fun _ => True) fun outcome s' =>
      Promised constraints (more + 1) s outcome s' := by
  let I (k : Nat) : Prop := 0 ≤ (afterRounds constraints s k).store.minTightening ∧
    (afterRounds constraints s k).graph.Dated ∧ (afterRounds constraints s k).graph.TagsGiven ∧
    ∀ j, j < k → (afterRounds constraints s j).store.Narrowed (afterRounds constraints s (j + 1)).store
  refine meets_runRounds_of (I := I) (fun k hk hI => ?_) (Nat.zero_add _) ⟨hthreshold, hdated, htags, nofun⟩
  obtain ⟨hthreshold, hdated, htags, hnarrowed⟩ := hI
  refine (meets_round constraints (k + 1) hthreshold hdated htags).imp fun t s₁ hs₁ hstate count => ?_
  obtain ⟨⟨hidle, hflag⟩, hprop⟩ := hs₁
  split_ifs with hstop
  · refine hidle.promised hflag hstate rfl hk hnarrowed fun hfeasible hlt => ?_
    exact (hstop.resolve_left (Bool.eq_false_iff.mp hfeasible)).resolve_right (Nat.ne_of_lt hlt)
  · -- the epoch was raised, so a domain was narrowed
    rw [not_or, not_or] at hstop
    have hrevised := hidle.revised.resolve_left fun hsame => hstop.2.1 hsame.1
    subst hstate
    refine ⟨hidle.threshold, hprop.dated, hprop.tagsGiven, fun j hj => ?_⟩
    rcases Nat.lt_succ_iff_lt_or_eq.mp hj with hlt | rfl
    · exact hnarrowed j hlt
    · exact hrevised.2

end Propagation

/-- **The outcome of a propagation.** Take a workspace whose callers have kept to the rules, with settings that allow
a round and a bound table whose threshold is not negative. Propagation meets no fault but those of handlers and of
constants that are not numbers at or below the constraints' roots, and those of roots that are not in use. When it
returns, then with an outcome that tells what happened. -/
theorem Workspace.propagate_promised [BitPattern α] [ThresholdScalar α] (settings : Settings α) (identity : Nat)
    (store : BoundTable α) {cs : List (Command α)} {w : Workspace α} (hcs : (new settings identity store).PermitsAll cs)
    (hrun : (new settings identity store).serveAll cs = .ok w) (hrounds : 1 ≤ w.state.graph.settings.maxRounds)
    (hthreshold : 0 ≤ w.state.store.minTightening) (constraints : List (Constraint α)) :
    match (Propagation.propagate constraints).run w.state with
    | .ok outcome s' => Propagation.Promised constraints w.state.graph.settings.maxRounds w.state outcome s'
    | .error e _ => ∃ c ∈ constraints, w.state.graph.isAlive c.root = false ∨
        ∃ n, w.state.graph.arena.Below n c.root ∧ w.state.graph.FaultAt n e := by
  have htidy := tidy_of_serveAll (tidy_new settings identity store) hcs hrun
  let blamed : Fault α → Prop := fun e => ∃ c ∈ constraints, w.state.graph.isAlive c.root = false ∨
    ∃ n, w.state.graph.arena.Below n c.root ∧ w.state.graph.FaultAt n e
  have hpromised : Meets (Propagation.propagate constraints) w.state (fun _ => True) fun outcome s' =>
      Propagation.Promised constraints w.state.graph.settings.maxRounds w.state outcome s' := by
    refine meets_bind.mpr (Propagation.meets_get.mpr ?_)
    have hmeets := Propagation.meets_runRounds_promised constraints w.state (w.state.graph.settings.maxRounds - 1)
      hthreshold htidy.resting.dated htidy.resting.tagsGiven
    rwa [Nat.sub_add_cancel hrounds] at hmeets
  have hfaults : Meets (Propagation.propagate constraints) w.state blamed fun _ _ => True := by
    by_cases hroots : ∀ c ∈ constraints, w.state.graph.isAlive c.root = true
    · refine meets_bind.mpr (Propagation.meets_get.mpr ?_)
      rw [← Nat.sub_add_cancel hrounds]
      refine Propagation.meets_runRounds_ready (fun c hc => ?_) htidy.resting.dated htidy.resting.tagsGiven _
      refine ⟨htidy.sound.acyclic, fun n hn => htidy.sound.counted.isAlive_of_below hn (hroots c hc),
        fun n hn e he => ⟨c, hc, Or.inr ⟨n, hn, he⟩⟩, htidy.resting.dated, htidy.resting.tagsGiven,
        htidy.resting.taken_eq⟩
    · push Not at hroots
      obtain ⟨c, hc, hdead⟩ := hroots
      exact (Propagation.keeps_propagate constraints w.state htidy.resting.dated htidy.resting.tagsGiven).mono
        (fun e _ => ⟨c, hc, Or.inl (Bool.eq_false_iff.mpr hdead)⟩) fun _ _ _ => trivial
  rw [Propagation.meets_iff_run] at hpromised hfaults
  cases hresult : (Propagation.propagate constraints).run w.state with
  | ok outcome s' =>
    rw [hresult] at hpromised
    exact hpromised
  | error e s' =>
    rw [hresult] at hfaults
    exact hfaults

/-- A sum over a variable between -10 and 10 is constrained to lie between 0 and 1. The first round narrows the
variable, and the second one confirms it. -/
theorem Workspace.propagate_promised_of_sum :
    let cs : List (Command Float) := [.request (.var 0), .request (.add (.sum [1] 0) [0])]
    let constraints : List (Constraint Float) := [⟨1, ⟨0, 1⟩⟩]
    (new default 0 (.ofList [⟨-10, 10⟩])).PermitsAll cs ∧
      ∃ w, (new default 0 (.ofList [⟨-10, 10⟩])).serveAll cs = .ok w ∧ 1 ≤ w.state.graph.settings.maxRounds ∧
        0 ≤ w.state.store.minTightening ∧ ∃ outcome s', (Propagation.propagate constraints).run w.state = .ok outcome s' ∧
          outcome.rounds = 2 ∧ Propagation.Promised constraints w.state.graph.settings.maxRounds w.state outcome s' := by
  intro cs constraints
  have hvar := serve_var_new default 0 (BoundTable.ofList [⟨-10, 10⟩] : BoundTable Float) 0
  have hcs : (new default 0 (BoundTable.ofList [⟨-10, 10⟩] : BoundTable Float)).PermitsAll cs := by
    refine ⟨trivial, fun w₁ hw₁ => ?_⟩
    rw [hvar] at hw₁
    cases hw₁
    decide +kernel
  have hfirst : (new default 0 (BoundTable.ofList [⟨-10, 10⟩])).serveAll cs = _ >>= fun w => serveAll w cs.tail :=
    List.foldlM_cons ..
  have hread : ((new default 0 (BoundTable.ofList [⟨-10, 10⟩])).serveAll cs).toOption.map (fun w =>
      (decide (1 ≤ w.state.graph.settings.maxRounds), decide (0 ≤ w.state.store.minTightening),
        ((Propagation.propagate constraints).run' w.state).map (·.rounds))) = some (true, true, some 2) := by
    rw [hfirst, hvar, Checked.ok_bind]
    decide +kernel
  obtain ⟨w, hrun, hread⟩ := Checked.exists_ok_of_toOption hread
  simp only [Prod.mk.injEq, decide_eq_true_eq] at hread
  obtain ⟨hrounds, hthreshold, hresult⟩ := hread
  have hpromised := propagate_promised default 0 _ hcs hrun hrounds hthreshold constraints
  refine ⟨hcs, w, hrun, hrounds, hthreshold, ?_⟩
  obtain ⟨outcome, houtcome, htwo⟩ := Option.map_eq_some_iff.mp hresult
  obtain ⟨s', hpropagate⟩ := Propagation.exists_run_of_result houtcome
  rw [hpropagate] at hpromised
  exact ⟨outcome, s', hpropagate, htwo, hpromised⟩

end IntervalDag
