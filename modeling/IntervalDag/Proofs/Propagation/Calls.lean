import IntervalDag.Proofs.Propagation.Bookkeeping
import IntervalDag.Proofs.Propagation.Soundness

/-!
# What calls preserve

Whatever a propagator is called for, its state changes in few ways: a round is opened, a walk moves on, an activity
is computed again, something is recorded or counted, a node is tightened, the line is worked off. A property that
outlives each of them outlives every call (`Propagation.Lasting.meets_run`). Forward propagation goes through the
first few of them only (`Propagation.Unmoved.meets_forward`).
-/

namespace IntervalDag.Propagation

variable {σ α : Type}

/-- A state in which a round was opened. -/
def reopened (s : Propagation σ α) : Propagation σ α :=
  { s with
    graph := s.graph.opened
    propagator := { s.propagator with queue := .empty, infeasible := false } }

/-- A property that outlives the steps of forward propagation. -/
structure Unmoved (I : Propagation σ α → Prop) : Prop where
  walked : ∀ {s g}, I s → Graph.Walked s.graph g → I { s with graph := g }
  recomputed : ∀ {s} n x reported records stats, s.records <:+ records → I s →
    I (s.recomputed n x reported records stats)
  contradicted : ∀ {s} records, s.records <:+ records → I s → I (s.contradicted records)

variable [Scalar α] [BoundStore σ α]

/-- A property that outlives the steps of propagation, where calls ask for bounds on nodes in `T` only. -/
structure Lasting (T : NodeId → Prop) (I : Propagation σ α → Prop) : Prop extends Unmoved I where
  reopened : ∀ {s}, I s → I s.reopened
  noted : ∀ {s} reported records stats, s.records <:+ records → I s → I (s.noted reported records stats)
  tightens : ∀ {s n x t s'}, I s → T n → Tightens n x s t s' → I s'
  drained : ∀ {s}, I s → Meets drain s (fun _ => True) fun _ s' => I s'

variable {T A : NodeId → Prop} {I J K : Propagation σ α → Prop} {s : Propagation σ α}

theorem Unmoved.refreshes (h : Unmoved I) (root : NodeId) (force : Bool) :
    Refreshes root force (fun _ => True) (fun _ _ s => I s) fun _ s => I s where
  meets {n rest seen count s} hs _ _ _ _ := by
    have hstop : ∀ {s : Propagation σ α} {n}, I s → Meets (stopAt n) s (fun _ => True) fun _ s' => I s' := by
      intro s n hs
      have hstopped : I (s.contradicted (.emptyActivity n :: s.records)) :=
        h.contradicted _ (List.suffix_cons _ _) hs
      exact meets_bind.mpr (meets_record.mpr (meets_markInfeasible.mpr hstopped))
    refine meets_refresh_of_suffix (Or.inr fun _ => trivial) (Or.inr fun _ => trivial) (fun entry _ _ _ => ?_)
      fun entry _ _ => ?_
    · refine ⟨⟨.refl _ _, rfl⟩, ?_⟩
      split_ifs
      · exact hstop hs
      · exact hs
    · rcases s.graph.rangeOver (BoundStore.bounds s.store) entry.kind
        (entry.children.map s.graph.activityAt) with e | x
      · exact trivial
      · intro count reported records stats hsuffix
        have hs' := h.recomputed n ((s.graph.entryBounds? entry).elim x x.inter) reported records stats hsuffix hs
        refine ⟨sameWay_recomputed s n _ reported records stats, ?_⟩
        split_ifs
        · exact hstop hs'
        · exact hs'
  walked_J hs hwalked := h.walked hs hwalked
  walked_K hs hwalked := h.walked hs hwalked

/-- **Forward propagation.** -/
theorem Unmoved.meets_forward (h : Unmoved I) (hs : I s) (htags : s.graph.TagsGiven) (root : NodeId) (force : Bool) :
    Meets (forward root force) s (fun _ => True) fun _ s' => I s' := by
  refine (Propagation.meets_forward (h.refreshes root force) hs htags (Or.inr fun _ => trivial)
    (Or.inr fun _ => trivial)).imp fun r s' hr => ?_
  obtain ⟨-, -, hr⟩ := hr
  split_ifs at hr
  · exact hr.2
  · obtain ⟨-, seen, -, hs'⟩ := hr
    exact hs'

/-- **Reverse propagation** ends with nothing in line, whether or not it finds a contradiction. -/
theorem Preserves.meets_drain_of_dropped (h : Preserves A I K) (hJ : ∀ {s}, I s → J s)
    (hdropped : ∀ {s}, K s → J s.dropped) (hs : I s) :
    Meets drain s (fun _ => True) fun _ s' => J s' ∧ s'.propagator.queue.toList = [] := by
  refine (h.meets_drain hs).imp fun t s' ht => ?_
  split_ifs at ht
  · obtain ⟨s₁, hs₁, rfl⟩ := ht
    exact ⟨hdropped hs₁, rfl⟩
  · exact ⟨hJ ht.1, ht.2⟩

namespace Lasting

theorem meets_tighten (h : Lasting T I) (hs : I s) {n : NodeId} (hn : T n) (x : Interval α) :
    Meets (tighten n x) s (fun _ => True) fun _ s' => I s' :=
  (meets_tighten_cases n x).mono (fun _ _ => trivial) fun _ _ ht => h.tightens hs hn ht

theorem meets_applyConstraint (h : Lasting T I) (hs : I s) (htags : s.graph.TagsGiven) {c : Constraint α}
    (hc : T c.root) : Meets (applyConstraint c) s (fun _ => True) fun _ s' => I s' := by
  refine (h.toUnmoved.meets_forward hs htags c.root false).bind fun forwarded s₁ h₁ => ?_
  split_ifs
  · exact meets_pure.mpr h₁
  refine (h.meets_tighten h₁ hc c.bounds).bind fun t s₂ h₂ => ?_
  split_ifs
  · exact meets_pure.mpr h₂
  exact (h.drained h₂).bind fun drained s₃ h₃ => meets_pure.mpr h₃

theorem meets_applyConstraints (h : Lasting T I) (hs : I s) (hdated : s.graph.Dated) (htags : s.graph.TagsGiven)
    {cs : List (Constraint α)} (hcs : ∀ c ∈ cs, T c.root) (count : Nat) :
    Meets (applyConstraints cs count) s (fun _ => True) fun _ s' => I s' := by
  induction cs generalizing s count with
  | nil => exact meets_pure.mpr hs
  | cons c cs ih =>
    obtain ⟨hc, hcs⟩ := List.forall_mem_cons.mp hcs
    refine ((h.meets_applyConstraint hs htags hc).and (keeps_applyConstraint c s hdated htags)).bind fun t s₁ hs₁ => ?_
    split_ifs
    · exact meets_pure.mpr hs₁.1
    · exact ih hs₁.1 hs₁.2.dated hs₁.2.tagsGiven hcs _

theorem meets_round (h : Lasting T I) (hs : I s) (hdated : s.graph.Dated) (htags : s.graph.TagsGiven)
    {cs : List (Constraint α)} (hcs : ∀ c ∈ cs, T c.root) (number : Nat) :
    Meets (round cs number) s (fun _ => True) fun _ s' => I s' := by
  have hopened : Meets beginRound s (fun _ => True) fun _ s' => I s' := meets_beginRound.mpr (h.reopened hs)
  refine (hopened.and (keeps_beginRound s hdated htags)).bind fun _ s₁ hs₁ => ?_
  refine meets_bind.mpr (meets_modifyStats.mpr ?_)
  have hcounted := h.noted s₁.graph.operators.hasReported s₁.records
    { s₁.propagator.stats with rounds := s₁.propagator.stats.rounds + 1 } (List.suffix_refl _) hs₁.1
  refine (h.meets_applyConstraints hcounted hs₁.2.dated hs₁.2.tagsGiven hcs 0).bind fun t s₂ hs₂ => ?_
  exact meets_bind.mpr (meets_record.mpr (meets_pure.mpr
    (h.noted s₂.graph.operators.hasReported _ s₂.propagator.stats (List.suffix_cons _ _) hs₂)))

theorem meets_runRounds (h : Lasting T I) (hs : I s) (hdated : s.graph.Dated) (htags : s.graph.TagsGiven)
    {cs : List (Constraint α)} (hcs : ∀ c ∈ cs, T c.root) (more : Nat) (outcome : PropagationOutcome) :
    Meets (runRounds cs more outcome) s (fun _ => True) fun _ s' => I s' := by
  induction more generalizing s outcome with
  | zero => exact meets_pure.mpr hs
  | succ more ih =>
    rw [runRounds_succ]
    refine meets_bind.mpr (meets_get.mpr (((h.meets_round hs hdated htags hcs _).and
      (keeps_round cs _ s hdated htags)).bind fun t s₁ hs₁ => meets_bind.mpr (meets_get.mpr ?_)))
    split_ifs
    · exact meets_pure.mpr hs₁.1
    · exact ih hs₁.1 hs₁.2.dated hs₁.2.tagsGiven _

/-- **Every call.** -/
theorem meets_run (h : Lasting T I) (hs : I s) (hdated : s.graph.Dated) (htags : s.graph.TagsGiven) (c : Call α)
    (hc : ∀ r ∈ c.requests, T r.1) :
    Meets c.run s (fun _ => True) fun _ s' => I s' ∧ s.graph.Propagated s'.graph := by
  refine Meets.and ?_ (c.keeps_run s hdated htags)
  cases c with
  | beginRound => exact meets_bind.mpr (meets_beginRound.mpr (meets_pure.mpr (h.reopened hs)))
  | forward root force =>
    exact (h.toUnmoved.meets_forward hs htags root force).bind fun _ _ hs' => meets_pure.mpr hs'
  | tighten n x =>
    have hn : T n := hc (n, x) (List.mem_singleton.mpr rfl)
    exact (h.meets_tighten hs hn x).bind fun _ _ hs' => meets_pure.mpr hs'
  | drain => exact (h.drained hs).bind fun _ _ hs' => meets_pure.mpr hs'
  | propagate constraints =>
    have hroots : ∀ c ∈ constraints, T c.root := fun c hmem =>
      hc (c.root, c.bounds) (List.mem_map_of_mem (f := fun c => (c.root, c.bounds)) hmem)
    refine Meets.bind (meets_bind.mpr (meets_get.mpr ?_)) fun _ _ hs' => meets_pure.mpr hs'
    exact h.meets_runRounds hs hdated htags hroots _ _

/-- **Runs of calls** to a workspace. -/
theorem of_serveAll {I : Propagation (BoundTable α) α → Prop} (h : Lasting T I) {w w' : Workspace α}
    {calls : List (Call α)} (hw : I w.state) (hordered : w.state.graph.Ordered)
    (hcalls : ∀ c ∈ calls, ∀ r ∈ c.requests, T r.1) (hrun : w.serveAll (calls.map .call) = .ok w') : I w'.state := by
  refine (Run.invariant (I := fun w => I w.state ∧ w.state.graph.Ordered)
    (R := fun _ c => ∃ call : Call α, c = .call call ∧ ∀ r ∈ call.requests, T r.1) ?_ ⟨hw, hordered⟩
    (.of_forall fun c hc => ?_) hrun).1
  · rintro w _ w₁ ⟨hw, hordered⟩ ⟨call, rfl, hrequests⟩ hserve
    refine ⟨?_, (Workspace.ordered_of_serve hordered hserve).1⟩
    obtain ⟨⟨b, s₁⟩, hcall, hserve⟩ := Checked.bind_eq_ok.mp hserve
    cases hserve
    exact ((h.meets_run hw hordered.dated hordered.tagsGiven call hrequests).of_observe hcall).1
  · obtain ⟨call, hcall, rfl⟩ := List.mem_map.mp hc
    exact ⟨call, rfl, hcalls call hcall⟩

end Lasting

end IntervalDag.Propagation
