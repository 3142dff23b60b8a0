import IntervalDag.Proofs.Interval.Narrowing
import IntervalDag.Proofs.Propagation.Frames
import IntervalDag.Proofs.Propagation.Steps

/-!
# Bookkeeping of a propagation

A propagator keeps books on its work: which nodes wait in line, whether a contradiction was found, and, by the epoch
of the bounds, whether a domain changed. `Worked` says that the books are in order at a state of a round.
Every step preserves it, so it holds wherever a round ends.

* `runRounds_succ`: rounds come one after another, and the epoch decides whether there is another one.
* `meets_runRounds_of`: what each round preserves is there at the last one.
* `meets_round`: after a round the line is empty, no node is marked as waiting, the flag tells whether a contradiction
  was found, and the epoch whether domains changed.
-/

namespace IntervalDag

variable {α : Type}

/-! ### Marks of waiting nodes -/

namespace Graph

/-- Only entries are changed. -/
theorem unqueue_eq (g : Graph α) (ns : List NodeId) : g.unqueue ns = { g with arena := (g.unqueue ns).arena } := by
  induction ns generalizing g with
  | nil => rfl
  | cons n ns ih =>
    rw [unqueue, List.foldl_cons]
    split_ifs
    · exact ih _
    · exact ih _

/-- Clearing a line changes no terms. -/
theorem sameTerms_unqueue (g : Graph α) (ns : List NodeId) : g.SameTerms (g.unqueue ns) := by
  induction ns generalizing g with
  | nil => exact .refl _
  | cons n ns ih =>
    rw [unqueue, List.foldl_cons]
    split_ifs
    · have hsame : g.SameTerms (g.modify n fun entry => { entry with queued := false }) := .of_modify fun _ => rfl
      exact hsame.trans (ih _)
    · exact ih _

/-- A node that is still marked was marked before, and is not one of the list that is in use. -/
theorem exists_queued_of_unqueue {g : Graph α} {ns : List NodeId} {n : NodeId} {node : Node α}
    (hnode : (g.unqueue ns).arena.node? n = some node) (hqueued : node.queued = true) :
    ∃ entry, g.arena.node? n = some entry ∧ entry.queued = true ∧ (n ∈ ns → g.arena.isAlive n = false) := by
  induction ns generalizing g with
  | nil => exact ⟨node, hnode, hqueued, nofun⟩
  | cons m ns ih =>
    rw [unqueue, List.foldl_cons] at hnode
    obtain ⟨entry, hentry, hentryQueued, hdead⟩ := ih hnode
    split_ifs at hentry hdead with halive
    · rw [Graph.modify, Arena.node?_modify] at hentry
      split_ifs at hentry with hnm
      · obtain ⟨old, -, rfl⟩ := Option.map_eq_some_iff.mp hentry
        cases hentryQueued
      · have hsame : Arena.AgreeOn (·.refs) g.arena (g.modify m fun entry => { entry with queued := false }).arena :=
          .of_modify fun _ => rfl
        rw [hsame.isAlive_eq] at hdead
        exact ⟨entry, hentry, hentryQueued, fun hn => hdead ((List.mem_cons.mp hn).resolve_left hnm)⟩
    · refine ⟨entry, hentry, hentryQueued, fun hn => ?_⟩
      rcases List.mem_cons.mp hn with rfl | hn
      · exact Bool.eq_false_iff.mpr halive
      · exact hdead hn

/-- No mark outlives the opening of a round. -/
theorem queued_of_opened {g : Graph α} {n : NodeId} {node : Node α} (hnode : g.opened.arena.node? n = some node) :
    node.queued = false := by
  have hentry : g.opened.arena.node? n = (g.arena.node? n).map fun node => { node with queued := false } :=
    Array.getElem?_map
  rw [hentry] at hnode
  obtain ⟨old, -, rfl⟩ := Option.map_eq_some_iff.mp hnode
  rfl

end Graph

namespace Propagation

/-! ### Changes of bounds -/

section

variable [Scalar α]

/-- The epoch of the bounds tells whether domains were changed since a state. If they were, then some was narrowed
strictly. -/
def Revised (s s' : Propagation (BoundTable α) α) : Prop :=
  s'.graph.boundsEpoch = s.graph.boundsEpoch ∧ s'.store = s.store ∨
    s.graph.boundsEpoch < s'.graph.boundsEpoch ∧ s.store.Narrowed s'.store

/-- A state of a round that began in `s₀`, with the books in order. -/
structure Worked (s₀ s : Propagation (BoundTable α) α) : Prop where
  queued : ∀ n node, s.graph.arena.node? n = some node → node.queued = true →
    s.graph.arena.isAlive n = true ∧ n ∈ s.propagator.queue.toList
  epoch_le : s.graph.boundsEpoch ≤ s.graph.epochs.last
  threshold : 0 ≤ s.store.minTightening
  revised : Revised s₀ s

variable {s₀ s s₁ : Propagation (BoundTable α) α}

/-- Steps that leave the marks, the line, the bounds and their epoch alone. -/
theorem Worked.of_agree (h : Worked s₀ s)
    (hmarks : Arena.AgreeOn (fun node => (node.queued, node.refs)) s.graph.arena s₁.graph.arena)
    (hepochs : s₁.graph.boundsEpoch = s.graph.boundsEpoch ∧ s₁.graph.epochs = s.graph.epochs)
    (hstore : s₁.store = s.store) (hqueue : s₁.propagator.queue = s.propagator.queue) : Worked s₀ s₁ where
  queued n node₁ hnode₁ hqueued := by
    obtain ⟨node, hnode, heq⟩ := hmarks.symm.exists_node? hnode₁
    rw [Prod.mk.injEq] at heq
    rw [(hmarks.map Prod.snd).isAlive_eq, hqueue]
    exact h.queued n node hnode (heq.1 ▸ hqueued)
  epoch_le := by
    rw [hepochs.1, hepochs.2]
    exact h.epoch_le
  threshold := hstore ▸ h.threshold
  revised := by
    rw [Revised, hepochs.1, hstore]
    exact h.revised

variable [ThresholdScalar α] {n : NodeId} {x : Interval α} {t : Tightened}

/-- A change on top of what was changed before. -/
theorem Revised.narrowed (h : Revised s₀ s) (hepoch : s.graph.boundsEpoch < s₁.graph.boundsEpoch)
    (hstore : s.store.Narrowed s₁.store) : Revised s₀ s₁ := by
  rcases h with ⟨heq, hsame⟩ | ⟨hlt, hnarrowed⟩
  · exact Or.inr ⟨heq ▸ hepoch, hsame ▸ hstore⟩
  · exact Or.inr ⟨Nat.lt_trans hlt hepoch, hnarrowed.trans hstore⟩

/-! ### Steps -/

/-- Passing bounds on keeps the books. -/
theorem Worked.passesOn (h : Worked s₀ s) (halive : s.graph.arena.isAlive n = true) {entry : Node α}
    (hpass : PassesOn n entry x s t s₁) :
    Worked s₀ s₁ ∧ s₁.propagator.infeasible = (s.propagator.infeasible || t.infeasible) ∧
      (t.infeasible = true → s₁.propagator.queue = s.propagator.queue) := by
  cases hpass with
  | tightened hkind hstore =>
    rename_i v store
    have hcases := BoundTable.tighten_cases h.threshold v x
    change (BoundTable.tighten s.store v x) = _ at hstore
    rw [hstore] at hcases
    obtain ⟨hne, -⟩ | ⟨-, hmin, hnarrowed⟩ := hcases
    · exact absurd rfl hne
    have hepoch : s.graph.boundsEpoch < s.graph.epochs.last + 1 := Nat.lt_succ_of_le h.epoch_le
    refine ⟨⟨h.queued, Nat.le_refl _, hmin ▸ h.threshold, h.revised.narrowed hepoch hnarrowed⟩, ?_, fun _ => rfl⟩
    exact (Bool.or_false _).symm
  | unchanged hkind hstore =>
    rename_i v store
    have hcases := BoundTable.tighten_cases h.threshold v x
    change (BoundTable.tighten s.store v x) = _ at hstore
    rw [hstore] at hcases
    obtain ⟨-, hsame⟩ | ⟨heq, -⟩ := hcases
    · exact ⟨h.of_agree (.refl _ _) ⟨rfl, rfl⟩ hsame rfl, (Bool.or_false _).symm, fun _ => rfl⟩
    · cases heq
  | refused hkind hstore =>
    rename_i v store
    have hcases := BoundTable.tighten_cases h.threshold v x
    change (BoundTable.tighten s.store v x) = _ at hstore
    rw [hstore] at hcases
    obtain ⟨-, hsame⟩ | ⟨heq, -⟩ := hcases
    · exact ⟨h.of_agree (.refl _ _) ⟨rfl, rfl⟩ hsame rfl, (Bool.or_true _).symm, fun _ => rfl⟩
    · cases heq
  | constant | waiting => exact ⟨h, (Bool.or_false _).symm, fun _ => rfl⟩
  | lined =>
    refine ⟨⟨fun m node hnode hqueued => ?_, h.epoch_le, h.threshold, h.revised⟩, (Bool.or_false _).symm, nofun⟩
    have hsame : Arena.AgreeOn (·.refs) s.graph.arena (s.lined n).graph.arena := .of_modify fun _ => rfl
    have hqueue : (s.lined n).propagator.queue.toList = s.propagator.queue.toList ++ [n] := Fifo.toList_push ..
    rw [hsame.isAlive_eq, hqueue, List.mem_append, List.mem_singleton]
    change (s.graph.modify n fun entry => { entry with queued := true }).arena.node? m = _ at hnode
    rw [Graph.modify, Arena.node?_modify] at hnode
    split_ifs at hnode with hmn
    · exact ⟨hmn ▸ halive, Or.inr hmn⟩
    · exact (h.queued m node hnode hqueued).imp_right Or.inl

/-- **Tightening a node** keeps the books. -/
theorem Worked.tightens (h : Worked s₀ s) (ht : Tightens n x s t s₁) :
    Worked s₀ s₁ ∧ s₁.propagator.infeasible = (s.propagator.infeasible || t.infeasible) ∧
      (t.infeasible = true → s₁.propagator.queue = s.propagator.queue) := by
  cases ht with
  | disjoint => exact ⟨h.of_agree (.refl _ _) ⟨rfl, rfl⟩ rfl rfl, (Bool.or_true _).symm, fun _ => rfl⟩
  | kept => exact ⟨h, (Bool.or_false _).symm, fun _ => rfl⟩
  | taken hknown hempty htight hentry hpass =>
    rename_i known entry
    have hsame : Arena.AgreeOn (fun node => (node.queued, node.refs)) s.graph.arena
        (s.written n known (known.inter x)).graph.arena := .of_modify fun _ => rfl
    have hwritten : Worked s₀ (s.written n known (known.inter x)) := h.of_agree hsame ⟨rfl, rfl⟩ rfl rfl
    refine hwritten.passesOn ?_ hpass
    rw [(hsame.map Prod.snd).isAlive_eq]
    exact (currentBounds_eq_ok_iff.mp hknown).1

/-- **Reverse propagation** keeps the books. -/
theorem preserves_worked (s₀ : Propagation (BoundTable α) α) :
    Preserves (fun _ => True) (fun s => Worked s₀ s ∧ s.propagator.infeasible = false) (Worked s₀) where
  takenOut {s n queue} h hpop := by
    have hqueue := Fifo.pop?_eq_some hpop
    refine ⟨⟨⟨fun m node hnode hqueued => ?_, h.1.epoch_le, h.1.threshold, h.1.revised⟩, h.2⟩, fun _ _ => trivial⟩
    have hsame : Arena.AgreeOn (·.refs) s.graph.arena (s.takenOut n queue).graph.arena := .of_modify fun _ => rfl
    rw [hsame.isAlive_eq]
    change (s.graph.modify n fun entry => { entry with queued := false }).arena.node? m = _ at hnode
    rw [Graph.modify, Arena.node?_modify] at hnode
    split_ifs at hnode with hmn
    · obtain ⟨old, -, rfl⟩ := Option.map_eq_some_iff.mp hnode
      cases hqueued
    · obtain ⟨halive, hmem⟩ := h.1.queued m node hnode hqueued
      rw [hqueue, List.mem_cons] at hmem
      exact ⟨halive, hmem.resolve_left hmn⟩
  noted _ _ _ _ h := ⟨h.1.of_agree (.refl _ _) ⟨rfl, rfl⟩ rfl rfl, h.2⟩
  tightens {s n x t s'} h _ ht := by
    obtain ⟨hworked, hinfeasible, -⟩ := h.1.tightens ht
    split_ifs with hcontradiction
    · exact hworked
    · rw [h.2, Bool.false_or] at hinfeasible
      exact ⟨hworked, hinfeasible.trans (Bool.eq_false_iff.mpr hcontradiction)⟩
  stop h := h.1

/-- A state between two parts of a round: nothing waits in line. -/
structure Idle (s₀ s : Propagation (BoundTable α) α) : Prop extends Worked s₀ s where
  queue_eq : s.propagator.queue.toList = []

theorem meets_drain_idle (h : Worked s₀ s) (hfeasible : s.propagator.infeasible = false) :
    Meets drain s (fun _ => True) fun t s' => Idle s₀ s' ∧ s'.propagator.infeasible = t.infeasible := by
  refine ((preserves_worked s₀).meets_drain ⟨h, hfeasible⟩).imp fun t s' ht => ?_
  split_ifs at ht with hcontradiction
  · obtain ⟨s₁, hworked, rfl⟩ := ht
    have hgraph := s₁.graph.unqueue_eq s₁.propagator.queue.toList
    refine ⟨⟨⟨fun n node hnode hqueued => ?_, ?_, hworked.threshold, ?_⟩, rfl⟩, hcontradiction.symm⟩
    · -- a node that is marked is in use and in line, so its mark was taken away
      obtain ⟨entry, hentry, hmarked, hdead⟩ := Graph.exists_queued_of_unqueue hnode hqueued
      obtain ⟨halive, hmem⟩ := hworked.queued n entry hentry hmarked
      rw [hdead hmem] at halive
      cases halive
    · rw [dropped, hgraph]
      exact hworked.epoch_le
    · rw [Revised, dropped, hgraph]
      exact hworked.revised
  · exact ⟨⟨ht.1.1, ht.2⟩, ht.1.2.trans (Bool.eq_false_iff.mpr hcontradiction).symm⟩

omit [ThresholdScalar α] in
theorem Idle.of_agree (h : Idle s₀ s)
    (hmarks : Arena.AgreeOn (fun node => (node.queued, node.refs)) s.graph.arena s₁.graph.arena)
    (hepochs : s₁.graph.boundsEpoch = s.graph.boundsEpoch ∧ s₁.graph.epochs = s.graph.epochs)
    (hstore : s₁.store = s.store) (hqueue : s₁.propagator.queue = s.propagator.queue) : Idle s₀ s₁ :=
  ⟨h.toWorked.of_agree hmarks hepochs hstore hqueue, hqueue ▸ h.queue_eq⟩

omit [ThresholdScalar α] in
/-- Forward propagation takes no part in the line and leaves the bounds alone. -/
theorem refreshes_of_idle (s₀ : Propagation (BoundTable α) α) (root : NodeId) (force : Bool) :
    Refreshes root force (fun _ => True) (fun _ _ s => Idle s₀ s ∧ s.propagator.infeasible = false)
      (fun _ s => Idle s₀ s ∧ s.propagator.infeasible = true) where
  meets {n rest seen count s} hJ _ _ _ _ := by
    refine meets_refresh (Or.inr fun _ => trivial) (Or.inr fun _ => trivial) (fun entry hn _ hfresh => ?_)
      fun entry hn _ => ?_
    · refine ⟨⟨.refl _ _, rfl⟩, ?_⟩
      split_ifs
      · exact meets_bind.mpr ⟨hJ.1.of_agree (.refl _ _) ⟨rfl, rfl⟩ rfl rfl, rfl⟩
      · exact hJ
    · rcases s.graph.rangeOver (BoundStore.bounds s.store) entry.kind
        (entry.children.map s.graph.activityAt) with e | x
      · exact trivial
      intro count reported records stats
      have hsame : Arena.AgreeOn (fun node => (node.queued, node.refs)) s.graph.arena
          (s.recomputed n ((s.graph.entryBounds? entry).elim x x.inter) reported records stats).graph.arena :=
        .of_modify fun _ => rfl
      refine ⟨sameWay_recomputed s n _ reported records stats, ?_⟩
      split_ifs
      · exact meets_bind.mpr ⟨hJ.1.of_agree hsame ⟨rfl, rfl⟩ rfl rfl, rfl⟩
      · exact ⟨hJ.1.of_agree hsame ⟨rfl, rfl⟩ rfl rfl, hJ.2⟩
  walked_J h hwalked := ⟨h.1.of_agree (hwalked.agree.map fun node => (node.queued, node.refs))
    (by rw [hwalked.rest_eq]; exact ⟨rfl, rfl⟩) rfl rfl, h.2⟩
  walked_K h hwalked := ⟨h.1.of_agree (hwalked.agree.map fun node => (node.queued, node.refs))
    (by rw [hwalked.rest_eq]; exact ⟨rfl, rfl⟩) rfl rfl, h.2⟩

omit [ThresholdScalar α] in
theorem meets_forward_idle (root : NodeId) (force : Bool) (h : Idle s₀ s) (hfeasible : s.propagator.infeasible = false)
    (htags : s.graph.TagsGiven) : Meets (forward root force) s (fun _ => True) fun r s' =>
      Idle s₀ s' ∧ s'.propagator.infeasible = r.infeasible := by
  refine (meets_forward (refreshes_of_idle s₀ root force) ⟨h, hfeasible⟩ htags (Or.inr fun _ => trivial)
    (Or.inr fun _ => trivial)).imp fun r s' hr => ?_
  obtain ⟨-, -, hr⟩ := hr
  split_ifs at hr with hcontradiction
  · exact ⟨hr.2.1, hr.2.2.trans hcontradiction.symm⟩
  · obtain ⟨-, seen, -, hJ⟩ := hr
    exact ⟨hJ.1, hJ.2.trans (Bool.eq_false_iff.mpr hcontradiction).symm⟩

/-! ### Rounds -/

/-- Taking one constraint keeps the books. -/
theorem meets_applyConstraint_idle (c : Constraint α) (h : Idle s₀ s) (hfeasible : s.propagator.infeasible = false)
    (hdated : s.graph.Dated) (htags : s.graph.TagsGiven) : Meets (applyConstraint c) s (fun _ => True) fun t s' =>
      (Idle s₀ s' ∧ s'.propagator.infeasible = t.infeasible) ∧ s.graph.Propagated s'.graph := by
  refine Meets.and ?_ (keeps_applyConstraint c s hdated htags)
  rw [applyConstraint]
  refine (meets_forward_idle c.root false h hfeasible htags).bind fun forwarded s₁ hs₁ => ?_
  obtain ⟨h₁, hflag₁⟩ := hs₁
  split_ifs with hcontradiction₁
  · exact meets_pure.mpr ⟨h₁, hflag₁.trans hcontradiction₁⟩
  rw [Bool.eq_false_iff.mpr hcontradiction₁] at hflag₁
  refine ((meets_tighten_cases c.root c.bounds).mono (fun _ _ => trivial) fun _ _ ht => ht).bind
    fun t s₂ ht => ?_
  obtain ⟨h₂, hflag₂, hqueue⟩ := h₁.toWorked.tightens ht
  rw [hflag₁, Bool.false_or] at hflag₂
  split_ifs with hcontradiction₂
  · exact meets_pure.mpr ⟨⟨h₂, hqueue hcontradiction₂ ▸ h₁.queue_eq⟩, hflag₂.trans hcontradiction₂⟩
  rw [Bool.eq_false_iff.mpr hcontradiction₂] at hflag₂
  exact (meets_drain_idle h₂ hflag₂).bind fun drained s₃ hs₃ => meets_pure.mpr hs₃

theorem meets_applyConstraints_idle (cs : List (Constraint α)) (count : Nat) (h : Idle s₀ s)
    (hfeasible : s.propagator.infeasible = false) (hdated : s.graph.Dated) (htags : s.graph.TagsGiven) :
    Meets (applyConstraints cs count) s (fun _ => True) fun t s' =>
      Idle s₀ s' ∧ s'.propagator.infeasible = t.infeasible := by
  induction cs generalizing s count with
  | nil => exact meets_pure.mpr ⟨h, hfeasible⟩
  | cons c cs ih =>
    refine (meets_applyConstraint_idle c h hfeasible hdated htags).bind fun t s₁ hs₁ => ?_
    obtain ⟨⟨h₁, hflag⟩, hpropagated⟩ := hs₁
    split_ifs with hcontradiction
    · exact meets_pure.mpr ⟨h₁, hflag.trans hcontradiction⟩
    · exact ih _ h₁ (hflag.trans (Bool.eq_false_iff.mpr hcontradiction)) hpropagated.dated hpropagated.tagsGiven

end

section Rounds

variable {σ : Type} [Scalar α] [BoundStore σ α]

/-- The round of a number. -/
def round (constraints : List (Constraint α)) (number : Nat) : PropagationM σ α Tightened := do
  beginRound
  modifyStats fun stats => { stats with rounds := stats.rounds + 1 }
  let t ← applyConstraints constraints 0
  record (.roundDone number t.count t.infeasible)
  return t

/-- Rounds come one after another. -/
theorem runRounds_succ (constraints : List (Constraint α)) (more : Nat) (outcome : PropagationOutcome) :
    (runRounds constraints (more + 1) outcome : PropagationM σ α PropagationOutcome) = (do
      let epochBefore := (← get).graph.boundsEpoch
      let t ← round constraints (outcome.rounds + 1)
      let outcome : PropagationOutcome := ⟨t.infeasible, outcome.rounds + 1, outcome.tightenings + t.count⟩
      if t.infeasible || (← get).graph.boundsEpoch == epochBefore then return outcome
      runRounds constraints more outcome) := by
  rw [runRounds, round]
  simp only [bind_assoc, pure_bind]
  rfl

theorem keeps_round (constraints : List (Constraint α)) (number : Nat) :
    Keeps (round constraints number : PropagationM σ α Tightened) :=
  keeps_beginRound.bind fun _ => (Keeps.modifyPropagator _).bind fun _ =>
    (keeps_applyConstraints constraints 0).bind fun _ => (Keeps.record _).bind fun _ => .pure _

/-- The state after a number of rounds. -/
def afterRounds (constraints : List (Constraint α)) (s : Propagation σ α) : Nat → Propagation σ α
  | 0 => s
  | k + 1 =>
    match (round constraints (k + 1)).run (afterRounds constraints s k) with
    | .ok _ s' | .error _ s' => s'

theorem meets_round_afterRounds (constraints : List (Constraint α)) (s : Propagation σ α) (k : Nat) :
    Meets (round constraints (k + 1)) (afterRounds constraints s k) (fun _ => True) fun _ s' =>
      s' = afterRounds constraints s (k + 1) := by
  rw [meets_iff_run, afterRounds]
  cases hrun : (round constraints (k + 1)).run (afterRounds constraints s k) with
  | ok t s' => rfl
  | error e s' => trivial

/-- **Rounds, one after another.** Each of them preserves `I`, which may depend on how many there were. Only the last
one, which finds a contradiction, changes no domain or is the last that is allowed, leaves `Q` behind instead. -/
theorem meets_runRounds_of {constraints : List (Constraint α)} {s : Propagation σ α} {E : Fault α → Prop} {max : Nat}
    {I : Nat → Prop} {Q : PropagationOutcome → Propagation σ α → Prop}
    (hround : ∀ k, k < max → I k → Meets (round constraints (k + 1)) (afterRounds constraints s k) E fun t s' =>
      s' = afterRounds constraints s (k + 1) → ∀ count,
        if t.infeasible = true ∨ s'.graph.boundsEpoch = (afterRounds constraints s k).graph.boundsEpoch ∨ k + 1 = max
        then Q ⟨t.infeasible, k + 1, count⟩ s' else I (k + 1))
    {more : Nat} {outcome : PropagationOutcome} (hmax : outcome.rounds + (more + 1) = max) (hI : I outcome.rounds) :
    Meets (runRounds constraints (more + 1) outcome) (afterRounds constraints s outcome.rounds) E Q := by
  induction more generalizing outcome with
  | zero =>
    rw [runRounds_succ]
    refine meets_bind.mpr (meets_get.mpr (((hround _ (by omega) hI).and (meets_round_afterRounds constraints s _)).bind
      fun t s₁ hs₁ => ?_))
    have hQ := hs₁.1 hs₁.2 (outcome.tightenings + t.count)
    rw [if_pos (Or.inr (Or.inr hmax))] at hQ
    refine meets_bind.mpr (meets_get.mpr ?_)
    split_ifs
    · exact meets_pure.mpr hQ
    · exact meets_pure.mpr hQ
  | succ more ih =>
    rw [runRounds_succ]
    refine meets_bind.mpr (meets_get.mpr (((hround _ (by omega) hI).and (meets_round_afterRounds constraints s _)).bind
      fun t s₁ hs₁ => ?_))
    obtain ⟨hs₁, rfl⟩ := hs₁
    have hnext := hs₁ rfl (outcome.tightenings + t.count)
    refine meets_bind.mpr (meets_get.mpr ?_)
    split_ifs with hstop
    · rw [Bool.or_eq_true, beq_iff_eq] at hstop
      rw [if_pos (hstop.imp_right Or.inl)] at hnext
      exact meets_pure.mpr hnext
    · rw [Bool.or_eq_true, beq_iff_eq, not_or] at hstop
      have hmore : outcome.rounds + 1 + (more + 1) = max := by omega
      rw [if_neg (not_or.mpr ⟨hstop.1, not_or.mpr ⟨hstop.2, by omega⟩⟩)] at hnext
      exact @ih ⟨t.infeasible, outcome.rounds + 1, outcome.tightenings + t.count⟩ hmore hnext

end Rounds

/-- **A round** ends with nothing in line, no node marked as waiting, a flag that tells whether a contradiction was
found and an epoch that tells whether domains changed. -/
theorem meets_round [Scalar α] [ThresholdScalar α] {s : Propagation (BoundTable α) α} (constraints : List (Constraint α))
    (number : Nat) (hthreshold : 0 ≤ s.store.minTightening) (hdated : s.graph.Dated) (htags : s.graph.TagsGiven) :
    Meets (round constraints number) s (fun _ => True) fun t s' =>
      (Idle s s' ∧ s'.propagator.infeasible = t.infeasible) ∧ s.graph.Propagated s'.graph := by
  refine Meets.and ?_ (keeps_round constraints number s hdated htags)
  rw [round]
  refine Meets.bind (P := fun _ s' => (Idle s s' ∧ s'.propagator.infeasible = false) ∧ s.graph.Propagated s'.graph)
    (Meets.and ?_ (keeps_beginRound s hdated htags)) fun _ s₁ hs₁ => ?_
  · refine ⟨⟨⟨fun n node hnode hqueued => ?_, ?_, hthreshold, Or.inl ⟨rfl, rfl⟩⟩, rfl⟩, rfl⟩
    · rw [Graph.queued_of_opened hnode] at hqueued
      cases hqueued
    · exact Nat.le_succ_of_le hdated.boundsEpoch_le
  obtain ⟨⟨h₁, hfeasible⟩, hprop⟩ := hs₁
  simp only [meets_bind, meets_modifyStats]
  have hcounted : Idle s { s₁ with propagator := { s₁.propagator with
      stats := { s₁.propagator.stats with rounds := s₁.propagator.stats.rounds + 1 } } } :=
    h₁.of_agree (.refl _ _) ⟨rfl, rfl⟩ rfl rfl
  refine (meets_applyConstraints_idle constraints 0 hcounted hfeasible hprop.dated hprop.tagsGiven).imp
    fun t s₂ hs₂ => ?_
  simp only [meets_record, meets_pure]
  exact ⟨hs₂.1.of_agree (.refl _ _) ⟨rfl, rfl⟩ rfl rfl, hs₂.2⟩

end Propagation

end IntervalDag
