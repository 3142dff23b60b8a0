import IntervalDag.Propagation.Forward
import IntervalDag.Proofs.Analysis.Evaluation
import IntervalDag.Proofs.Propagation.Rules
import IntervalDag.Proofs.Walk.Visits

/-!
# Forward passes

A forward pass is a reverse topological walk that refreshes every node it visits and ends early at an empty
activity. `meets_forward` is the rule for it. What is to be shown of a pass is given by two conditions: `J`
holds of the nodes visited so far and the state, and `K` holds when the pass ends early. What is left to
prove is about one node at a time (`refresh`), when its operands were visited and it was not.
-/

namespace IntervalDag

variable {σ α : Type} [Scalar α] [BoundStore σ α]

namespace Graph

/-- The activity cached on an entry. -/
def activityAt (g : Graph α) (n : NodeId) : Interval α := (g.arena.node? n).elim .entire (·.activity)

/-- The range of a node over the activities of its operands, before any bounds propagated onto it. -/
def rangeOver (g : Graph α) (vars : VarId → Interval α) (kind : Kind α) (operands : List (Interval α)) :
    Checked α (Interval α) :=
  if operands.any (·.isEmpty) then .ok .empty
  else (·.value) <$> (g.handlerFor kind).interval kind operands vars

end Graph

/-- The counters after one more activity was computed. -/
def PropagationStats.evaluated (stats : PropagationStats) : PropagationStats :=
  { stats with forwardEvals := stats.forwardEvals + 1 }

namespace Propagation

/-! ### One node -/

omit [Scalar α] [BoundStore σ α] in
/-- A state in which a node was given a new activity. Some handler may have reported. -/
def recomputed (s : Propagation σ α) (n : NodeId) (x : Interval α) (reported : Op → Bool)
    (records : List (LogRecord α)) (stats : PropagationStats) : Propagation σ α where
  graph := Graph.modify { s.graph with operators := ⟨s.graph.operators.handler, reported⟩ } n fun entry =>
    { entry with activity := x, activityTag := s.graph.boundsEpoch }
  store := s.store
  propagator := { s.propagator with stats }
  records := records

/-- What a forward pass does to the node it stands at, the count of narrowed activities being carried along.
Answers whether the activity is empty. -/
def refresh (force : Bool) (n : NodeId) (count : Nat) : PropagationM σ α (Bool × Nat) := do
  let g := (← get).graph
  let entry ← check (g.arena.get n)
  let narrowed ← if force || !g.isFresh entry then recompute n entry else pure false
  let empty := (← check ((← get).graph.arena.get n)).activity.isEmpty
  return (empty, if narrowed then count + 1 else count)

theorem meets_evaluateActivity {entry : Node α} {operands : List (Interval α)} {s : Propagation σ α}
    {E : Fault α → Prop} {Q : Interval α → Propagation σ α → Prop}
    (h : Meets (s.graph.rangeOver (BoundStore.bounds s.store) entry.kind operands) () E fun x _ =>
      ∀ reported records, s.records <:+ records → Q x { s with
        graph := { s.graph with operators := ⟨s.graph.operators.handler, reported⟩ }, records }) :
    Meets (evaluateActivity entry operands) s E Q := by
  rw [Graph.rangeOver] at h
  rw [evaluateActivity]
  split at h
  · rename_i hempty
    rw [if_pos hempty]
    exact meets_pure.mpr (h s.graph.operators.hasReported s.records (List.suffix_refl _))
  · rename_i hempty
    rw [if_neg hempty]
    rw [map_eq_pure_bind, meets_bind] at h
    simp only [meets_bind, meets_get, meets_check]
    exact h.imp fun noted _ hnoted => meets_takeNoted_of_suffix hnoted

/-- **Computing an activity again.** It is the range over the operands' activities, met with the bounds
propagated onto the node, and it is counted. -/
theorem meets_recompute {n : NodeId} {entry : Node α} {s : Propagation σ α} {E : Fault α → Prop}
    {Q : Bool → Propagation σ α → Prop} (hn : s.graph.arena.node? n = some entry)
    (halive : s.graph.arena.isAlive n = true ∨ ∀ e, E e)
    (hops : (∀ c, s.graph.arena.IsOperand c n → c < s.graph.arena.capacity) ∨ ∀ e, E e)
    (h : Meets (s.graph.rangeOver (BoundStore.bounds s.store) entry.kind
      (entry.children.map s.graph.activityAt)) () E fun x _ => ∀ narrowed reported records,
        s.records <:+ records → Q narrowed (s.recomputed n ((s.graph.entryBounds? entry).elim x x.inter)
          reported records s.propagator.stats.evaluated)) :
    Meets (recompute n entry) s E Q := by
  rw [recompute]
  simp only [meets_bind, meets_get, meets_check]
  refine meets_mapM s.graph.activityAt (fun c hc => ?_) ?_
  · have hin : c < s.graph.arena.capacity ∨ E .outOfRange := hops.imp
      (fun hall => hall c (by rwa [Arena.isOperand_iff hn])) fun hall => hall _
    rw [map_eq_pure_bind]
    refine meets_bind.mpr (Graph.meets_get hin fun node hnode => meets_pure.mpr ?_)
    rw [Graph.activityAt, hnode]
    rfl
  refine meets_evaluateActivity (h.imp fun x _ hx reported records hsuffix => ?_)
  simp only [meets_modifyStats, meets_modifyGraph, meets_pure]
  rw [Graph.propBounds?, map_eq_pure_bind]
  refine meets_bind.mpr (Graph.meets_node (halive.imp_right fun hE => hE _) fun node _ hnode => meets_pure.mpr ?_)
  obtain rfl : entry = node := Option.some.inj (hn.symm.trans hnode)
  rcases hbounds : s.graph.entryBounds? entry with _ | bounds
  · rw [hbounds] at hx
    exact hx _ _ _ hsuffix
  · rw [hbounds] at hx
    exact hx _ _ _ hsuffix

omit [Scalar α] [BoundStore σ α] in
theorem node?_recomputed (s : Propagation σ α) (n m : NodeId) (x : Interval α) (reported : Op → Bool)
    (records : List (LogRecord α)) (stats : PropagationStats) :
    (s.recomputed n x reported records stats).graph.arena.node? m =
      if m = n then (s.graph.arena.node? m).map fun entry =>
        { entry with activity := x, activityTag := s.graph.boundsEpoch }
      else s.graph.arena.node? m :=
  Arena.node?_modify _ _ _ _

/-- **Visiting a node.** Its activity is kept if it is fresh, unless all are asked for, and computed again
otherwise, which is counted. -/
theorem meets_refresh_of_counted {force : Bool} {n : NodeId} {count : Nat} {s : Propagation σ α} {E : Fault α → Prop}
    {Q : Bool × Nat → Propagation σ α → Prop} (halive : s.graph.arena.isAlive n = true ∨ ∀ e, E e)
    (hops : (∀ c, s.graph.arena.IsOperand c n → c < s.graph.arena.capacity) ∨ ∀ e, E e)
    (hkeep : ∀ entry, s.graph.arena.node? n = some entry → force = false → s.graph.isFresh entry = true →
      Q (entry.activity.isEmpty, count) s)
    (hrecompute : ∀ entry, s.graph.arena.node? n = some entry →
      (force = true ∨ s.graph.isFresh entry = false) →
      Meets (s.graph.rangeOver (BoundStore.bounds s.store) entry.kind
        (entry.children.map s.graph.activityAt)) () E fun x _ => ∀ count reported records, s.records <:+ records →
          Q (((s.graph.entryBounds? entry).elim x x.inter).isEmpty, count)
            (s.recomputed n ((s.graph.entryBounds? entry).elim x x.inter) reported records
              s.propagator.stats.evaluated)) :
    Meets (refresh force n count) s E Q := by
  have hin : n < s.graph.arena.capacity ∨ E .outOfRange :=
    halive.imp Arena.lt_capacity_of_isAlive fun hall => hall _
  rw [refresh]
  simp only [meets_bind, meets_get, meets_check]
  refine Graph.meets_get hin fun entry hn => ?_
  split
  · rename_i hdo
    have hdo : force = true ∨ s.graph.isFresh entry = false := by simpa using hdo
    refine meets_bind.mpr (meets_recompute hn halive hops ((hrecompute entry hn hdo).imp fun x _ hx => ?_))
    intro narrowed reported records hsuffix
    have hnode := s.node?_recomputed n n ((s.graph.entryBounds? entry).elim x x.inter) reported records
      s.propagator.stats.evaluated
    rw [if_pos rfl, hn] at hnode
    simp only [meets_bind, meets_get, meets_check]
    rw [Arena.get, hnode]
    exact meets_pure.mpr (hx _ reported records hsuffix)
  · rename_i hkept
    simp only [Bool.or_eq_true, Bool.not_eq_true', not_or, Bool.not_eq_true, Bool.not_eq_false] at hkept
    simp only [meets_bind, meets_get, meets_check]
    refine meets_pure.mpr ?_
    rw [Arena.get, hn]
    exact hkeep entry hn hkept.1 hkept.2

theorem meets_refresh_of_suffix {force : Bool} {n : NodeId} {count : Nat} {s : Propagation σ α} {E : Fault α → Prop}
    {Q : Bool × Nat → Propagation σ α → Prop} (halive : s.graph.arena.isAlive n = true ∨ ∀ e, E e)
    (hops : (∀ c, s.graph.arena.IsOperand c n → c < s.graph.arena.capacity) ∨ ∀ e, E e)
    (hkeep : ∀ entry, s.graph.arena.node? n = some entry → force = false → s.graph.isFresh entry = true →
      Q (entry.activity.isEmpty, count) s)
    (hrecompute : ∀ entry, s.graph.arena.node? n = some entry →
      (force = true ∨ s.graph.isFresh entry = false) →
      Meets (s.graph.rangeOver (BoundStore.bounds s.store) entry.kind
        (entry.children.map s.graph.activityAt)) () E fun x _ => ∀ count reported records stats,
          s.records <:+ records → Q (((s.graph.entryBounds? entry).elim x x.inter).isEmpty, count)
            (s.recomputed n ((s.graph.entryBounds? entry).elim x x.inter) reported records stats)) :
    Meets (refresh force n count) s E Q :=
  meets_refresh_of_counted halive hops hkeep fun entry hn hdo =>
    (hrecompute entry hn hdo).imp fun _ _ hx count reported records => hx count reported records _

theorem meets_refresh {force : Bool} {n : NodeId} {count : Nat} {s : Propagation σ α} {E : Fault α → Prop}
    {Q : Bool × Nat → Propagation σ α → Prop} (halive : s.graph.arena.isAlive n = true ∨ ∀ e, E e)
    (hops : (∀ c, s.graph.arena.IsOperand c n → c < s.graph.arena.capacity) ∨ ∀ e, E e)
    (hkeep : ∀ entry, s.graph.arena.node? n = some entry → force = false → s.graph.isFresh entry = true →
      Q (entry.activity.isEmpty, count) s)
    (hrecompute : ∀ entry, s.graph.arena.node? n = some entry →
      (force = true ∨ s.graph.isFresh entry = false) →
      Meets (s.graph.rangeOver (BoundStore.bounds s.store) entry.kind
        (entry.children.map s.graph.activityAt)) () E fun x _ => ∀ count reported records stats,
          Q (((s.graph.entryBounds? entry).elim x x.inter).isEmpty, count)
            (s.recomputed n ((s.graph.entryBounds? entry).elim x x.inter) reported records stats)) :
    Meets (refresh force n count) s E Q :=
  meets_refresh_of_suffix halive hops hkeep fun entry hn hdo =>
    (hrecompute entry hn hdo).imp fun _ _ hx count reported records stats _ => hx count reported records stats

/-- The end of a forward pass that met an empty activity. -/
def stopAt (n : NodeId) : PropagationM σ α Unit := do
  record (.emptyActivity n)
  markInfeasible

theorem forwardTurn_eq (force : Bool) (w : Walk) (count : Nat) :
    (forwardTurn force (w, count) : PropagationM σ α _) =
      match w.current with
      | none => pure (.done (w, false, count))
      | some n => do
        let (empty, count) ← refresh force n count
        if empty then
          stopAt n
          return .done (w, true, count)
        let (w, g) ← check (w.next (← get).graph)
        modifyGraph fun _ => g
        return .next (w, count) := by
  rw [forwardTurn]
  rcases w.current with _ | n
  · rfl
  · simp only [refresh, stopAt, bind_assoc, pure_bind]
    refine bind_congr fun s => bind_congr fun entry => ?_
    split
    · simp only [bind_assoc, pure_bind]
    · simp only [bind_assoc, pure_bind]

/-! ### Passes -/

/-- What the visit of one node has to achieve, the others `seen` before it being visited. -/
structure Refreshes (root : NodeId) (force : Bool) (E : Fault α → Prop)
    (J : (NodeId → Prop) → Nat → Propagation σ α → Prop) (K : Nat → Propagation σ α → Prop) : Prop where
  meets : ∀ {n : NodeId} {rest : List (NodeId × Nat)} {seen : NodeId → Prop} {count : Nat}
    {s : Propagation σ α}, J seen count s → s.graph.arena.Below n root → ¬ seen n →
    (∀ c, s.graph.arena.IsOperand c n → seen c) → Pending s.graph.arena.operands seen root n rest →
    Meets (refresh force n count) s E fun r s' => Graph.SameWay s.graph s'.graph ∧
      if r.1 then Meets (stopAt n) s' E fun _ => K r.2 else J (fun m => m = n ∨ seen m) r.2 s'
  /-- what walks keep does not matter -/
  walked_J : ∀ {seen count} {s : Propagation σ α} {g}, J seen count s → Graph.Walked s.graph g →
    J seen count { s with graph := g }
  walked_K : ∀ {count} {s : Propagation σ α} {g}, K count s → Graph.Walked s.graph g →
    K count { s with graph := g }

/-- A pass that is under way, with the walk `w`. -/
structure Passing (root : NodeId) (s : Propagation σ α) (slot : Nat) (w : Walk) (seen : NodeId → Prop)
    (s₁ : Propagation σ α) : Prop where
  visiting : Visiting root slot s₁.graph w seen
  agree : Arena.AgreeOn (·.children) s.graph.arena s₁.graph.arena
  taken_eq : s₁.graph.walks.taken = slot :: s.graph.walks.taken

namespace Passing

variable {root n : NodeId} {slot count : Nat} {w : Walk} {seen : NodeId → Prop} {s s₁ s₂ : Propagation σ α}
  {force : Bool} {E : Fault α → Prop} {J : (NodeId → Prop) → Nat → Propagation σ α → Prop}
  {K : Nat → Propagation σ α → Prop}

omit [Scalar α] [BoundStore σ α] in
theorem sameWay (h : Passing root s slot w seen s₁) (hsame : Graph.SameWay s₁.graph s₂.graph) :
    Passing root s slot w seen s₂ where
  visiting := h.visiting.sameWay hsame
  agree := h.agree.trans hsame.children
  taken_eq := hsame.walks_eq ▸ h.taken_eq

omit [Scalar α] [BoundStore σ α] in
theorem walkable (h : Passing root s slot w seen s₁) (hgood : s.graph.Walkable root E) :
    s₁.graph.Walkable root E := by
  rw [Graph.Walkable, h.agree.isOperand_eq, h.agree.below_eq, h.agree.capacity_eq]
  exact hgood

/-- One turn of a pass. -/
theorem meets_turn (h : Passing root s slot w seen s₁) (hJ : J seen count s₁)
    (hvisit : Refreshes root force E J K) (hgood : s.graph.Walkable root E) :
    Meets (forwardTurn force (w, count)) s₁ E (Turn.Allowed
      (fun r s₂ => (Acc s.graph.arena.IsOperand root → r.1.turns s₂.graph slot < w.turns s₁.graph slot) ∧
        ∃ seen, Passing root s slot r.1 seen s₂ ∧ J seen r.2 s₂)
      fun r s₂ => ∃ seen, Passing root s slot r.1 seen s₂ ∧
        if r.2.1 then K r.2.2 s₂ else r.1.current = none ∧ J seen r.2.2 s₂) := by
  rw [forwardTurn_eq]
  rcases hn : w.current with _ | n
  · exact meets_pure.mpr ⟨seen, h, hn, hJ⟩
  obtain ⟨hbelow, hnew, hops, hpending, -⟩ := h.visiting.atNode n hn
  refine (hvisit.meets hJ hbelow hnew hops hpending).bind fun r s₂ hr => ?_
  obtain ⟨empty, count'⟩ := r
  obtain ⟨hsame, hr⟩ := hr
  cases empty with
  | true =>
    have h₂ := h.sameWay hsame
    simp only [stopAt, meets_bind, meets_record, meets_markInfeasible, if_true, meets_pure] at hr ⊢
    exact ⟨seen, ⟨h₂.visiting, h₂.agree, h₂.taken_eq⟩, hr⟩
  | false =>
    refine meets_bind.mpr (meets_get.mpr (meets_bind.mpr (meets_check.mpr ?_)))
    refine (h.visiting.meets_next hn (h.walkable hgood) hsame).imp fun r _ hnext => ?_
    obtain ⟨hvisiting, hwalked, hwalks, hturns⟩ := hnext
    simp only [meets_bind, meets_modifyGraph, meets_pure]
    rw [h.agree.isOperand_eq] at hturns
    refine ⟨hturns, _, ⟨hvisiting, (h.agree.trans hsame.children).trans hwalked.children, ?_⟩,
      hvisit.walked_J hr hwalked⟩
    rw [hwalks]
    exact h.taken_eq

end Passing

/-- **Forward passes.** A pass ends with everything at or below the root visited and the root's activity for
an answer, or at an empty activity. It gives back the slot that it took. -/
theorem meets_forward {root : NodeId} {force : Bool} {E : Fault α → Prop}
    {J : (NodeId → Prop) → Nat → Propagation σ α → Prop} {K : Nat → Propagation σ α → Prop}
    {s : Propagation σ α} (h : Refreshes root force E J K) (hJ : J (fun _ => False) 0 s)
    (htags : s.graph.TagsGiven) (hgood : s.graph.Walkable root E)
    (hslot : s.graph.walks.lowestFree? ≠ none ∨ ∀ e, E e) :
    Meets (forward root force) s E fun r s' =>
      s'.graph.walks.taken = s.graph.walks.taken ∧ s'.graph.TagsGiven ∧
      if r.infeasible then r.activity = .empty ∧ K r.count s'
      else (∃ node, s'.graph.arena.node? root = some node ∧ r.activity = node.activity) ∧
        ∃ seen, (∀ n, seen n ↔ s.graph.arena.Below n root) ∧ J seen r.count s' := by
  rw [forward]
  simp only [meets_bind, meets_get, meets_check, meets_modifyGraph]
  refine (Walk.meets_start htags hgood hslot).imp fun r _ hr => ?_
  obtain ⟨slot, hvisiting, hbegun⟩ := hr
  have hpassing : Passing root s slot r.1 (fun _ => False) { s with graph := r.2 } :=
    ⟨hvisiting, hbegun.walked.children, hbegun.taken_eq⟩
  refine Meets.imp (Q := fun r s₂ => ∃ seen, Passing root s slot r.1 seen s₂ ∧
    if r.2.1 then K r.2.2 s₂ else r.1.current = none ∧ J seen r.2.2 s₂) ?_ fun r s₂ hr => ?_
  · -- the loop takes as many turns as the walk has left
    refine meets_run_or_diverged
      (I := fun k r s₂ => r.1.turns s₂.graph slot = k ∧ ∃ seen, Passing root s slot r.1 seen s₂ ∧ J seen r.2 s₂)
      (fun k r s₂ hI => ?_) (fun k r s₂ hI => ?_)
      ⟨rfl, _, hpassing, h.walked_J hJ hbegun.walked⟩
    · obtain ⟨hk, seen, hpassing, -⟩ := hI
      simp only [meets_bind, meets_get, meets_pure, true_and]
      refine (hpassing.walkable hgood).imp (fun hacc => ?_) fun hall => hall _
      rw [← hk]
      exact Visiting.turns_le hpassing.visiting.walking hacc.1
    · obtain ⟨hk, seen, hpassing, hJ⟩ := hI
      refine (hpassing.meets_turn hJ h hgood).imp fun turn s₃ hturn => ?_
      cases turn with
      | done r => exact hturn
      | next r =>
        obtain ⟨hlt, seen, hpassing, hJ⟩ := hturn
        exact ⟨_, hgood.imp (fun hacc => hk ▸ hlt hacc.1) fun hall => hall _, rfl, seen, hpassing, hJ⟩
  -- closing the walk changes no entry, so the root's activity is still the one computed
  obtain ⟨w, infeasible, count⟩ := r
  obtain ⟨seen, hpassing, hr⟩ := hr
  obtain ⟨hwalked, htaken, htags'⟩ := hpassing.visiting.walked_finish hpassing.taken_eq
  have hroot : root < (w.finish s₂.graph).arena.capacity ∨ E .outOfRange := by
    rw [hwalked.children.capacity_eq]
    exact (hpassing.walkable hgood).imp (fun hin => hin.2 root (.refl _ _)) fun hall => hall _
  refine Graph.meets_get hroot fun node hnode => meets_pure.mpr ⟨htaken, htags', ?_⟩
  cases infeasible with
  | true => exact ⟨rfl, h.walked_K hr hwalked⟩
  | false =>
    obtain ⟨hnone, hJ⟩ := hr
    refine ⟨⟨node, hnode, rfl⟩, seen, fun n => ?_, h.walked_J hJ hwalked⟩
    rw [hpassing.visiting.atEnd hnone n, hpassing.agree.below_eq]

end Propagation

end IntervalDag
