import IntervalDag.Proofs.Propagation.Calm
import IntervalDag.Proofs.Propagation.Promises

/-!
# Propagation reaches a fixpoint

When the last round of a propagation changed no domain, propagating the same constraints again confirms what was
found (`Workspace.propagate_confirmed`). Such a round ends in a state that is calm, which is to be `AtFixpoint`. The
next one opens on a state that is `Still`: all activities below the constraints are fresh, and the constraints spare
them. Forward passes then only look, nothing is tightened, and nothing waits in line.
-/

namespace IntervalDag

variable {α : Type} [Scalar α]

open Scalar

namespace Propagation

section Rules

variable {σ : Type} [BoundStore σ α] {s : Propagation σ α} {E : Fault α → Prop}

/-- Visiting a fresh node changes nothing. -/
theorem meets_refresh_of_fresh {n : NodeId} {count : Nat} {entry : Node α}
    {Q : Bool × Nat → Propagation σ α → Prop} (hn : s.graph.arena.node? n = some entry)
    (hfresh : s.graph.isFresh entry = true) (hQ : Q (entry.activity.isEmpty, count) s) :
    Meets (refresh false n count) s E Q := by
  have hget : s.graph.arena.get n = .ok entry := Arena.get_eq_ok_iff.mpr hn
  rw [refresh]
  simp only [meets_bind, meets_get, meets_check, hget]
  refine meets_pure.mpr ?_
  rw [hfresh, if_neg (by simp)]
  simp only [meets_bind, meets_get, meets_check, meets_pure, hget]
  exact meets_pure.mpr hQ

/-- Working off an empty line changes nothing. -/
theorem meets_drain_of_empty (hqueue : s.propagator.queue.toList = []) :
    Meets drain s E fun t s' => t = ⟨false, 0⟩ ∧ s' = s := by
  have hpop : s.propagator.queue.pop? = none := by
    rcases hpop : s.propagator.queue.pop? with _ | ⟨n, queue⟩
    · rfl
    · rw [Fifo.pop?_eq_some hpop] at hqueue
      cases hqueue
  rw [drain]
  refine (meets_run_or_diverged (I := fun k count s' => k = 0 ∧ count = 0 ∧ s' = s)
    (Q := fun t s' => t = ⟨false, 0⟩ ∧ s' = s) (fun k count s' hI => ?_) (fun k count s' hI => ?_)
    ⟨rfl, rfl, rfl⟩).bind fun t s' ht => ?_
  · obtain ⟨rfl, -, rfl⟩ := hI
    exact meets_bind.mpr (meets_get.mpr (meets_pure.mpr ⟨rfl, Or.inl (Nat.two_pow_pos _)⟩))
  · obtain ⟨-, rfl, rfl⟩ := hI
    rw [drainTurn]
    refine meets_bind.mpr (meets_get.mpr ?_)
    rw [hpop]
    exact meets_pure.mpr ⟨rfl, rfl⟩
  · obtain ⟨rfl, rfl⟩ := ht
    exact meets_pure.mpr ⟨rfl, rfl⟩

end Rules

/-- A state in which propagation finds nothing to do for the constraints of `done`: a calm one, of a round in which
nothing was propagated yet. -/
structure Still (covered : NodeId → Prop) (done : Constraint α → Prop) (s : Propagation (BoundTable α) α) : Prop where
  calm : Calm s.graph.boundsEpoch covered done s
  closed : ∀ n c, covered n → s.graph.arena.IsOperand c n → covered c
  unpropagated : ∀ n node, s.graph.arena.node? n = some node → node.propTag ≠ s.graph.roundEpoch
  queue_eq : s.propagator.queue.toList = []
  tagsGiven : s.graph.TagsGiven
  taken_eq : s.graph.walks.taken = []

/-- At most walks, the flag and records are different. -/
structure Untouched (s s' : Propagation (BoundTable α) α) : Prop where
  walked : s.graph.Walked s'.graph
  store_eq : s'.store = s.store
  stats_eq : s'.propagator.stats = s.propagator.stats

namespace Untouched

variable {s s₁ s₂ : Propagation (BoundTable α) α}

omit [Scalar α] in
theorem refl (s : Propagation (BoundTable α) α) : Untouched s s := ⟨.refl _, rfl, rfl⟩

omit [Scalar α] in
theorem trans (h₁ : Untouched s s₁) (h₂ : Untouched s₁ s₂) : Untouched s s₂ :=
  ⟨h₁.walked.trans h₂.walked, h₂.store_eq.trans h₁.store_eq, h₂.stats_eq.trans h₁.stats_eq⟩

end Untouched

namespace Still

variable {covered : NodeId → Prop} {done : Constraint α → Prop} {c : Constraint α} {root : NodeId}
  {s s₁ : Propagation (BoundTable α) α}

theorem covered_of_below (h : Still covered done s) {m n : NodeId} (hm : s.graph.arena.Below m n) (hn : covered n) :
    covered m := by
  induction hm using Relation.ReflTransGen.head_induction_on with
  | refl => exact hn
  | head hop _ ih => exact h.closed _ _ ih hop

variable [LinearScalar α]

theorem walked (h : Still covered done s) {g : Graph α} (hwalked : s.graph.Walked g) (htags : g.TagsGiven)
    (htaken : g.walks.taken = []) : Still covered done { s with graph := g } where
  calm := by
    have hepoch : g.boundsEpoch = s.graph.boundsEpoch := by rw [hwalked.rest_eq]
    change Calm g.boundsEpoch covered done _
    rw [hepoch]
    refine h.calm.of_agree (hwalked.agree.map fun node => (node.term, node.ranges)) ?_ ?_ rfl
    all_goals rw [hwalked.rest_eq]
    exact ⟨rfl, rfl, rfl⟩
  closed := by
    rw [hwalked.children.isOperand_eq]
    exact h.closed
  unpropagated n node hn := by
    obtain ⟨node₀, hn₀, heq⟩ := (hwalked.agree.map Node.propTag).symm.exists_node? hn
    have hround : g.roundEpoch = s.graph.roundEpoch := by rw [hwalked.rest_eq]
    change node.propTag ≠ g.roundEpoch
    exact fun htag => h.unpropagated n node₀ hn₀ (heq.trans (htag.trans hround))
  queue_eq := h.queue_eq
  tagsGiven := htags
  taken_eq := htaken

omit [LinearScalar α] in
/-- A visit finds a fresh activity that is not empty. -/
theorem refreshes (h : Still covered done s) (hroot : covered root) :
    Refreshes root false NoFault
      (fun _ count s₁ => count = 0 ∧ ∃ g, s.graph.Walked g ∧ s₁ = { s with graph := g }) fun _ _ => False where
  meets {n rest seen count s₁} hJ hbelow _ _ _ := by
    obtain ⟨rfl, g, hwalked, rfl⟩ := hJ
    have hn : covered n := h.covered_of_below (hwalked.children.below_eq ▸ hbelow) hroot
    obtain ⟨-, node, hnode, htag, hnonempty⟩ := h.calm.computed n hn
    obtain ⟨node₁, hnode₁, hranges⟩ := (hwalked.agree.map Node.ranges).exists_node? hnode
    have hactivity : node₁.activity = node.activity := congrArg (·.1.1) hranges
    have hfresh : g.isFresh node₁ = true := by
      have htag₁ : node₁.activityTag = node.activityTag := congrArg (·.1.2) hranges
      have hepoch : g.boundsEpoch = s.graph.boundsEpoch := by rw [hwalked.rest_eq]
      exact decide_eq_true (htag₁.trans (htag.trans hepoch.symm))
    refine meets_refresh_of_fresh hnode₁ hfresh ⟨⟨.refl _ _, rfl⟩, ?_⟩
    rw [hactivity, hnonempty, if_neg Bool.false_ne_true]
    exact ⟨rfl, g, hwalked, rfl⟩
  walked_J hJ hwalked := by
    obtain ⟨hcount, g, hg, rfl⟩ := hJ
    exact ⟨hcount, _, hg.trans hwalked, rfl⟩
  walked_K h _ := h

/-- A forward pass only looks. -/
theorem meets_forward (h : Still covered done s) (hroot : covered root) :
    Meets (forward root false) s NoFault fun r s' => r.infeasible = false ∧ r.count = 0 ∧ Untouched s s' ∧
      Still covered done s' := by
  have hin : ∀ n, s.graph.arena.Below n root → n < s.graph.arena.capacity := by
    intro n hn
    obtain ⟨-, node, hnode, -⟩ := h.calm.computed n (h.covered_of_below hn hroot)
    exact Arena.lt_capacity_of_node? hnode
  refine (Propagation.meets_forward (h.refreshes hroot) ⟨rfl, s.graph, .refl _, rfl⟩ h.tagsGiven
    (Or.inl ⟨(h.calm.computed root hroot).1, hin⟩) (Or.inl (SlotPool.lowestFree?_ne_none h.taken_eq))).imp
      fun r s' hr => ?_
  obtain ⟨htaken, htags, hr⟩ := hr
  split_ifs at hr with hinfeasible
  · exact hr.2.elim
  obtain ⟨-, seen, -, hcount, g, hwalked, rfl⟩ := hr
  exact ⟨Bool.eq_false_iff.mpr hinfeasible, hcount, ⟨hwalked, rfl, rfl⟩,
    h.walked hwalked htags (htaken.trans h.taken_eq)⟩

/-- Nothing is tightened at the root of a constraint. At most, there is a contradiction. -/
theorem meets_tighten (h : Still covered done s) (hc : done c) :
    Meets (tighten c.root c.bounds) s NoFault fun t s' => t.count = 0 ∧
      (s.graph.settings.minTightening = 0 → t.infeasible = false) ∧ Untouched s s' ∧
      (t.infeasible = false → s' = s) := by
  obtain ⟨-, halive, entry, known, hentry, hknown, hnonempty, hspares⟩ := h.calm.confirmed c hc
  have hcurrent : currentBounds s.graph s.store c.root = .ok known := by
    refine currentBounds_eq_ok_iff.mpr ⟨halive, entry, hentry, known, hknown, ?_⟩
    rw [Graph.entryBounds?, if_neg (by simpa using h.unpropagated c.root entry hentry)]
    rfl
  refine (meets_tighten_cases c.root c.bounds).mono (fun e he => ?_) fun t s' ht => ?_
  · rw [hcurrent] at he
    cases he
  cases ht with
  | disjoint hknown' hempty =>
    obtain rfl := Except.ok.inj (hcurrent.symm.trans hknown')
    refine ⟨rfl, fun hmargin => ?_, ⟨.refl _, rfl, rfl⟩, by simp⟩
    rw [hmargin] at hspares
    rw [hspares.inter_eq hnonempty, hnonempty] at hempty
    cases hempty
  | kept => exact ⟨rfl, fun _ => rfl, ⟨.refl _, rfl, rfl⟩, fun _ => rfl⟩
  | taken hknown' hempty htight =>
    obtain rfl := Except.ok.inj (hcurrent.symm.trans hknown')
    rw [(Interval.spares_iff h.calm.margin.1 hempty).mp hspares] at htight
    cases htight

theorem meets_applyConstraint (h : Still covered done s) (hc : done c) :
    Meets (applyConstraint c) s NoFault fun t s' => t.count = 0 ∧
      (s.graph.settings.minTightening = 0 → t.infeasible = false) ∧ Untouched s s' ∧
      (t.infeasible = false → Still covered done s') := by
  rw [applyConstraint]
  refine (h.meets_forward (h.calm.confirmed c hc).1).bind fun forwarded s₁ hs₁ => ?_
  obtain ⟨hfeasible, hcount, hlooked, h₁⟩ := hs₁
  rw [if_neg (Bool.eq_false_iff.mp hfeasible)]
  refine (h₁.meets_tighten hc).bind fun t s₂ hs₂ => ?_
  obtain ⟨hcount₂, hmargin, htouched, hsame⟩ := hs₂
  have hsettings : s₁.graph.settings = s.graph.settings := by rw [hlooked.walked.rest_eq]
  rw [hsettings] at hmargin
  split_ifs with hcontradiction
  · refine meets_pure.mpr ⟨?_, fun h₀ => ?_, hlooked.trans htouched, by simp⟩
    · rw [hcount, hcount₂]
    · rw [hmargin h₀] at hcontradiction
      cases hcontradiction
  · obtain rfl := hsame (Bool.eq_false_iff.mpr hcontradiction)
    refine (meets_drain_of_empty h₁.queue_eq).bind fun drained s₃ hs₃ => ?_
    obtain ⟨rfl, rfl⟩ := hs₃
    refine meets_pure.mpr ⟨?_, fun _ => rfl, hlooked, fun _ => h₁⟩
    exact congrArg₂ (· + · + 0) hcount hcount₂

theorem meets_applyConstraints (h : Still covered done s) {cs : List (Constraint α)} (hcs : ∀ c ∈ cs, done c)
    (count : Nat) : Meets (applyConstraints cs count) s NoFault fun t s' => t.count = count ∧
      (s.graph.settings.minTightening = 0 → t.infeasible = false) ∧ Untouched s s' := by
  induction cs generalizing s count with
  | nil => exact meets_pure.mpr ⟨rfl, fun _ => rfl, .refl s⟩
  | cons c cs ih =>
    obtain ⟨hc, hcs⟩ := List.forall_mem_cons.mp hcs
    refine (h.meets_applyConstraint hc).bind fun t s₁ hs₁ => ?_
    obtain ⟨hcount, hmargin, htouched, h₁⟩ := hs₁
    have hsettings : s₁.graph.settings = s.graph.settings := by rw [htouched.walked.rest_eq]
    rw [hcount, Nat.add_zero]
    split_ifs with hcontradiction
    · exact meets_pure.mpr ⟨rfl, fun h₀ => absurd hcontradiction (Bool.eq_false_iff.mp (hmargin h₀)), htouched⟩
    · refine (ih (h₁ (Bool.eq_false_iff.mpr hcontradiction)) hcs count).imp fun t' s' hs' => ?_
      obtain ⟨hcount', hmargin', htouched'⟩ := hs'
      exact ⟨hcount', hsettings ▸ hmargin', htouched.trans htouched'⟩

/-- Opening a round on a calm state. -/
theorem opened {e : Nat} (h : Calm e covered done s)
    (hclosed : ∀ n c, covered n → s.graph.arena.IsOperand c n → covered c) (hdated : s.graph.Dated)
    (htags : s.graph.TagsGiven) (htaken : s.graph.walks.taken = []) (stats : PropagationStats) :
    Still covered done { s with graph := s.graph.opened, propagator := ⟨.empty, false, stats⟩ } where
  calm := by
    have hentries : Arena.AgreeOn (fun node => (node.term, node.ranges)) s.graph.arena s.graph.opened.arena :=
      s.graph.agreeOn_opened _ fun _ => rfl
    obtain rfl := h.boundsEpoch_eq
    refine h.of_entries (hentries.map Prod.fst) ⟨rfl, h.roundBoundsEpoch_eq.symm, rfl⟩ rfl
      (fun n node₁ hn hnode₁ => ?_) (fun _ => id) (fun n hn hnew => absurd hn hnew)
      fun n node₁ hnode₁ htag => absurd htag (hdated.propTag_ne_of_opened hnode₁)
    obtain ⟨node, hnode, heq⟩ := hentries.symm.exists_node? hnode₁
    have hactivity : node₁.activity = node.activity := congrArg (·.2.1.1) heq.symm
    have htag : node₁.activityTag = node.activityTag := congrArg (·.2.1.2) heq.symm
    rw [hactivity]
    exact ⟨node, hnode, htag, .refl _, (h.isUsable hn hnode).2.2⟩
  closed := by
    have hops : Arena.AgreeOn (·.children) s.graph.arena s.graph.opened.arena := s.graph.agreeOn_opened _ fun _ => rfl
    change ∀ n c, covered n → s.graph.opened.arena.IsOperand c n → covered c
    rw [hops.isOperand_eq]
    exact hclosed
  unpropagated n node hn := hdated.propTag_ne_of_opened hn
  queue_eq := rfl
  tagsGiven := (keeps_beginRound s hdated htags).tagsGiven
  taken_eq := htaken

end Still

/-- Nothing is left to be done for constraints: the state is calm, with all of them confirmed. -/
def AtFixpoint (constraints : List (Constraint α)) (s : Propagation (BoundTable α) α) : Prop :=
  ∃ covered, (∀ n c, covered n → s.graph.arena.IsOperand c n → covered c) ∧
    Calm s.graph.boundsEpoch covered (· ∈ constraints) s

variable [LinearScalar α] {constraints : List (Constraint α)} {s : Propagation (BoundTable α) α}

/-- **A round at a fixpoint** tightens nothing. -/
theorem AtFixpoint.meets_round (h : AtFixpoint constraints s) (hdated : s.graph.Dated) (htags : s.graph.TagsGiven)
    (htaken : s.graph.walks.taken = []) (number : Nat) :
    Meets (round constraints number) s NoFault fun t s' => t.count = 0 ∧
      (s.graph.settings.minTightening = 0 → t.infeasible = false) ∧ s'.store = s.store ∧
      s'.propagator.stats = { s.propagator.stats with rounds := s.propagator.stats.rounds + 1 } ∧
      s'.graph.boundsEpoch = s.graph.boundsEpoch := by
  obtain ⟨covered, hclosed, hcalm⟩ := h
  rw [round, meets_bind, meets_beginRound]
  simp only [meets_bind, meets_modifyStats, meets_record, meets_pure]
  refine ((Still.opened hcalm hclosed hdated htags htaken _).meets_applyConstraints (fun c hc => hc) 0).imp
    fun t s' hs' => ?_
  obtain ⟨hcount, hmargin, htouched⟩ := hs'
  refine ⟨hcount, hmargin, htouched.store_eq, htouched.stats_eq, ?_⟩
  rw [htouched.walked.rest_eq]
  rfl

/-- **Propagating at a fixpoint** takes one round. -/
theorem AtFixpoint.meets_runRounds (h : AtFixpoint constraints s) (hdated : s.graph.Dated) (htags : s.graph.TagsGiven)
    (htaken : s.graph.walks.taken = []) (more : Nat) (outcome : PropagationOutcome) :
    Meets (runRounds constraints (more + 1) outcome) s NoFault fun again s' =>
      again.rounds = outcome.rounds + 1 ∧ again.tightenings = outcome.tightenings ∧ s'.store = s.store ∧
      s'.propagator.stats = { s.propagator.stats with rounds := s.propagator.stats.rounds + 1 } ∧
      (s.graph.settings.minTightening = 0 → again.infeasible = false) := by
  rw [runRounds_succ]
  refine meets_bind.mpr (meets_get.mpr ((h.meets_round hdated htags htaken _).bind fun t s₁ hs₁ => ?_))
  obtain ⟨hcount, hmargin, hstore, hstats, hepoch⟩ := hs₁
  refine meets_bind.mpr (meets_get.mpr ?_)
  rw [if_pos (Bool.or_eq_true_iff.mpr (Or.inr (beq_iff_eq.mpr hepoch)))]
  exact meets_pure.mpr ⟨rfl, congrArg (outcome.tightenings + ·) hcount, hstore, hstats, hmargin⟩

/-- **A round that changes no domain** ends at a fixpoint, unless there is a contradiction. -/
theorem meets_round_fixpoint (number : Nat) (hdated : s.graph.Dated) (htags : s.graph.TagsGiven)
    (hthreshold : s.store.minTightening = 0)
    (hmargin : 0 ≤ s.graph.settings.minTightening ∧ s.graph.settings.minTightening ≤ 1) :
    Meets (round constraints number) s (fun _ => True) fun t s' => s.graph.Propagated s'.graph ∧
      (t.infeasible = false → s'.store.minTightening = 0 ∧
        (s'.graph.boundsEpoch = s.graph.boundsEpoch ∨ (∀ v, s'.store.bounds v = s.store.bounds v) →
          AtFixpoint constraints s')) := by
  refine ((Propagation.meets_round constraints number (hthreshold ▸ le_refl _) hdated htags).and
    (Steady.meets_round constraints number hdated htags hthreshold hmargin)).imp fun t s' hs' => ?_
  obtain ⟨⟨⟨hidle, -⟩, hprop⟩, hsteady⟩ := hs'
  refine ⟨hprop, fun hfeasible => ?_⟩
  obtain ⟨covered, hsteady⟩ := hsteady hfeasible
  refine ⟨hsteady.threshold_eq, fun hsame => ⟨covered, hsteady.closed, ?_⟩⟩
  have hepoch : s'.graph.boundsEpoch = s.graph.boundsEpoch := by
    refine hsame.elim id fun hbounds => ?_
    rcases hidle.revised with ⟨hepoch, -⟩ | ⟨-, hnarrowed⟩
    · exact hepoch
    · obtain ⟨v, hv⟩ := hnarrowed.some
      rw [hbounds v] at hv
      exact absurd hv (Interval.not_narrowsStrictlyTo_self _)
  rw [hepoch]
  exact hsteady.calm.resolve_left (Nat.not_lt_of_le (Nat.le_of_eq hepoch))

/-- **Rounds** end at a fixpoint, if the last one finds no contradiction and changes no domain. -/
theorem meets_runRounds_fixpoint (more : Nat) (hdated : s.graph.Dated) (htags : s.graph.TagsGiven)
    (hthreshold : s.store.minTightening = 0)
    (hmargin : 0 ≤ s.graph.settings.minTightening ∧ s.graph.settings.minTightening ≤ 1) :
    Meets (runRounds constraints (more + 1) ⟨false, 0, 0⟩) s (fun _ => True) fun outcome s' =>
      outcome.infeasible = false → outcome.rounds < more + 1 ∨
        (∀ v, s'.store.bounds v = (afterRounds constraints s (outcome.rounds - 1)).store.bounds v) →
          AtFixpoint constraints s' := by
  let I (k : Nat) : Prop := (afterRounds constraints s k).graph.Dated ∧ (afterRounds constraints s k).graph.TagsGiven ∧
    (afterRounds constraints s k).store.minTightening = 0 ∧
    (afterRounds constraints s k).graph.settings = s.graph.settings
  refine meets_runRounds_of (I := I) (fun k _ hI => ?_) (Nat.zero_add _) ⟨hdated, htags, hthreshold, rfl⟩
  obtain ⟨hdated, htags, hthreshold, hsettings⟩ := hI
  rw [← hsettings] at hmargin
  refine (meets_round_fixpoint (k + 1) hdated htags hthreshold hmargin).imp fun t s₁ hs₁ hstate count => ?_
  obtain ⟨hprop, hfixpoint⟩ := hs₁
  split_ifs with hstop
  · refine fun hfeasible hlast => (hfixpoint hfeasible).2 ?_
    rcases hstop with hcontradiction | hepoch | hmax
    · exact absurd hcontradiction (Bool.eq_false_iff.mp hfeasible)
    · exact Or.inl hepoch
    · exact Or.inr (hlast.resolve_left (Nat.not_lt_of_le (Nat.le_of_eq hmax.symm)))
  · rw [not_or] at hstop
    subst hstate
    exact ⟨hprop.dated, hprop.tagsGiven, (hfixpoint (Bool.eq_false_iff.mpr hstop.1)).1,
      hprop.terms.settings_eq.trans hsettings⟩

omit [LinearScalar α] in
/-- Settings that allow no rounds. -/
theorem rounds_eq_zero_of_propagate {s₀ : Propagation (BoundTable α) α} {outcome : PropagationOutcome}
    (hmax : s₀.graph.settings.maxRounds = 0) (hrun : (propagate constraints).run s₀ = .ok outcome s) :
    outcome.rounds = 0 := by
  have hrounds : (runRounds constraints s₀.graph.settings.maxRounds ⟨false, 0, 0⟩).run s₀ = .ok outcome s := hrun
  rw [hmax] at hrounds
  cases hrounds
  rfl

/-- **Propagation reaches a fixpoint**, if it returns without a contradiction after a last round that changed no
domain. -/
theorem atFixpoint_of_propagate {s₀ : Propagation (BoundTable α) α} {more : Nat} {outcome : PropagationOutcome}
    (hdated : s₀.graph.Dated) (htags : s₀.graph.TagsGiven) (hthreshold : s₀.store.minTightening = 0)
    (hmargin : 0 ≤ s₀.graph.settings.minTightening ∧ s₀.graph.settings.minTightening ≤ 1)
    (hmax : s₀.graph.settings.maxRounds = more + 1) (hrun : (propagate constraints).run s₀ = .ok outcome s)
    (hfeasible : outcome.infeasible = false)
    (hlast : outcome.rounds < more + 1 ∨
      ∀ v, s.store.bounds v = (afterRounds constraints s₀ (outcome.rounds - 1)).store.bounds v) :
    AtFixpoint constraints s := by
  have hrounds : (runRounds constraints s₀.graph.settings.maxRounds ⟨false, 0, 0⟩).run s₀ = .ok outcome s := hrun
  rw [hmax] at hrounds
  have hmeets : Meets (runRounds constraints (more + 1) ⟨false, 0, 0⟩) s₀ _ _ :=
    meets_runRounds_fixpoint more hdated htags hthreshold hmargin
  rw [meets_iff_run, hrounds] at hmeets
  exact hmeets hfeasible hlast

/-- Which handlers are in place does not matter at a fixpoint. -/
theorem AtFixpoint.of_operators (h : AtFixpoint constraints s) (operators : OperatorTable α) :
    AtFixpoint constraints { s with graph := { s.graph with operators } } := by
  obtain ⟨covered, hclosed, hcalm⟩ := h
  exact ⟨covered, hclosed, hcalm.of_agree (.refl _ _) ⟨rfl, rfl, rfl⟩ rfl rfl⟩

end Propagation

/-- **A fixpoint is confirmed.** Take a workspace after any commands, over exact arithmetic, with a bound table
without a threshold and settings whose threshold lies between 0 and 1. Let propagation return without a contradiction,
after a last round that changed no domain, as it is whenever there could have been more rounds. Then propagating the
same constraints again takes one round. It changes no domain, computes no activity, tightens nothing, and comes to the
same with any handlers in place, as none is called. Without a threshold there is no contradiction either. -/
theorem Workspace.propagate_confirmed [LinearScalar α] [BitPattern α] (settings : Settings α) (identity : Nat)
    (store : BoundTable α) {cs : List (Command α)} {w : Workspace α}
    (hrun : (new settings identity store).serveAll cs = .ok w) (hthreshold : w.state.store.minTightening = 0)
    (hmin : 0 ≤ w.state.graph.settings.minTightening) (hmax : w.state.graph.settings.minTightening ≤ 1)
    {constraints : List (Constraint α)} {outcome : PropagationOutcome} {s : Propagation (BoundTable α) α}
    (hfirst : (Propagation.propagate constraints).run w.state = .ok outcome s) (hfeasible : outcome.infeasible = false)
    (hlast : outcome.rounds < w.state.graph.settings.maxRounds ∨ 1 ≤ outcome.rounds ∧ ∀ v,
      s.store.bounds v = (Propagation.afterRounds constraints w.state (outcome.rounds - 1)).store.bounds v)
    (operators : OperatorTable α) :
    ∃ again s', (Propagation.propagate constraints).run { s with graph := { s.graph with operators } } =
        .ok again s' ∧ again.rounds = 1 ∧ again.tightenings = 0 ∧ s'.store = s.store ∧
      s'.propagator.stats = { s.propagator.stats with rounds := s.propagator.stats.rounds + 1 } ∧
      (w.state.graph.settings.minTightening = 0 → again.infeasible = false) := by
  have hresting := resting_of_serveAll (.empty settings identity) hrun
  obtain ⟨more, hmore⟩ : ∃ more, w.state.graph.settings.maxRounds = more + 1 := by
    refine Nat.exists_eq_succ_of_ne_zero fun hnone => ?_
    rw [Propagation.rounds_eq_zero_of_propagate hnone hfirst, hnone] at hlast
    exact hlast.elim (Nat.lt_irrefl 0) fun h => Nat.not_succ_le_zero 0 h.1
  rw [hmore] at hlast
  have hfixpoint := Propagation.atFixpoint_of_propagate hresting.dated hresting.tagsGiven hthreshold ⟨hmin, hmax⟩ hmore
    hfirst hfeasible (hlast.imp_right And.right)
  have hprop := Propagation.keeps_propagate constraints w.state hresting.dated hresting.tagsGiven
  rw [Propagation.meets_iff_run, hfirst] at hprop
  have hdated : Graph.Dated { s.graph with operators } := ⟨hprop.dated.boundsEpoch_pos, hprop.dated.boundsEpoch_le,
    hprop.dated.roundEpoch_le, hprop.dated.roundBoundsEpoch_le, hprop.dated.activityTag_le, hprop.dated.propTag_le⟩
  have hagain : Meets (Propagation.propagate constraints) { s with graph := { s.graph with operators } } NoFault
      fun again s' => again.rounds = 1 ∧ again.tightenings = 0 ∧ s'.store = s.store ∧
        s'.propagator.stats = { s.propagator.stats with rounds := s.propagator.stats.rounds + 1 } ∧
        (w.state.graph.settings.minTightening = 0 → again.infeasible = false) := by
    refine meets_bind.mpr (Propagation.meets_get.mpr ?_)
    rw [← hprop.terms.settings_eq] at hmore ⊢
    rw [hmore]
    exact (hfixpoint.of_operators operators).meets_runRounds hdated hprop.tagsGiven
      (hprop.taken_eq.trans hresting.taken_eq) more ⟨false, 0, 0⟩
  rw [Propagation.meets_iff_run] at hagain
  cases hresult : (Propagation.propagate constraints).run { s with graph := { s.graph with operators } } with
  | ok again s' =>
    rw [hresult] at hagain
    exact ⟨again, s', rfl, hagain⟩
  | error e s' =>
    rw [hresult] at hagain
    exact hagain.elim

/-- A sum over a variable between -10 and 10 is constrained to lie between 0 and 1. The first round narrows the
variable, the second one changes nothing, and propagating again confirms it. -/
theorem Workspace.propagate_confirmed_of_sum :
    let _ : BitPattern Extended := ⟨fun _ => 0, fun _ => 0⟩
    let settings : Settings Extended := ⟨1e-9, 0.5, 10, true⟩
    let store : BoundTable Extended := .ofList [⟨-10.0, 10.0⟩]
    let cs : List (Command Extended) := [.request (.var 0), .request (.add (.sum [1] 0) [0])]
    let constraints : List (Constraint Extended) := [⟨1, ⟨0, 1⟩⟩]
    ∃ w, (new settings 0 store).serveAll cs = .ok w ∧ w.state.store.minTightening = 0 ∧
      0 ≤ w.state.graph.settings.minTightening ∧ w.state.graph.settings.minTightening ≤ 1 ∧
      ∃ outcome s, (Propagation.propagate constraints).run w.state = .ok outcome s ∧ outcome.infeasible = false ∧
        outcome.rounds = 2 ∧ outcome.rounds < w.state.graph.settings.maxRounds ∧ ∀ operators, ∃ again s',
          (Propagation.propagate constraints).run { s with graph := { s.graph with operators } } = .ok again s' ∧
            again.rounds = 1 ∧ again.tightenings = 0 ∧ s'.store = s.store := by
  intro _ settings store cs constraints
  have hvar := serve_var_new settings 0 store 0
  have hfirst : (new settings 0 store).serveAll cs = _ >>= fun w => serveAll w cs.tail := List.foldlM_cons ..
  have hread : ((new settings 0 store).serveAll cs).toOption.map (fun w =>
      (decide (w.state.store.minTightening = 0 ∧ 0 ≤ w.state.graph.settings.minTightening ∧
          w.state.graph.settings.minTightening ≤ 1), w.state.graph.settings.maxRounds,
        ((Propagation.propagate constraints).run' w.state).map fun outcome => (outcome.infeasible, outcome.rounds))) =
      some (true, 10, some (false, 2)) := by
    rw [hfirst, hvar, Checked.ok_bind]
    decide +kernel
  obtain ⟨w, hrun, hread⟩ := Checked.exists_ok_of_toOption hread
  simp only [Prod.mk.injEq, decide_eq_true_eq] at hread
  obtain ⟨⟨hthreshold, hmin, hmax⟩, hrounds, hresult⟩ := hread
  obtain ⟨outcome, houtcome, hread⟩ := Option.map_eq_some_iff.mp hresult
  obtain ⟨s, hpropagate⟩ := Propagation.exists_run_of_result houtcome
  simp only [Prod.mk.injEq] at hread
  obtain ⟨hfeasible, htwo⟩ := hread
  have hlt : outcome.rounds < w.state.graph.settings.maxRounds := by
    rw [htwo, hrounds]
    decide
  refine ⟨w, hrun, hthreshold, hmin, hmax, outcome, s, hpropagate, hfeasible, htwo, hlt, fun operators => ?_⟩
  obtain ⟨again, s', hagain, hone, hnone, hsame, -⟩ :=
    propagate_confirmed settings 0 store hrun hthreshold hmin hmax hpropagate hfeasible (Or.inl hlt) operators
  exact ⟨again, s', hagain, hone, hnone, hsame⟩

end IntervalDag
