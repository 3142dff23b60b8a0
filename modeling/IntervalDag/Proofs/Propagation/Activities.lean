import IntervalDag.Proofs.Interval.Membership
import IntervalDag.Proofs.Propagation.LocalSoundness
import IntervalDag.Proofs.Propagation.Rounds

/-!
# What activities enclose

Where evaluation is defined at a point, forward propagation finds activities that hold the values, if the ranges of
the handlers do so one by one (`Handler.EnclosesAt`). Nothing is asked of inverse relations, as a pass that computes
all activities again at the start of a round uses none of their results.
-/

namespace IntervalDag

variable {σ α : Type} [Scalar α]

/-- The range of a handler holds the value `v` of a node of a kind at a point, whatever intervals around the
values of the operands and of the variables it is computed from. -/
def Handler.EnclosesAt (h : Handler α) (point : Point α) (kind : Kind α) (operands : List α) (v : α) : Prop :=
  ∀ vars xs, point.Within vars → List.Forall₂ (· ∈ ·) operands xs →
    ∃ noted, h.interval kind xs vars = .ok noted ∧ v ∈ noted.value

namespace Graph

variable {g : Graph α} {point : Point α} {n root : NodeId} {v : α}

/-- At and below a node, values with the property `P` have values with it, which ranges hold. -/
def EnclosesBelow (g : Graph α) (point : Point α) (P : α → Prop) (root : NodeId) : Prop :=
  ∀ n node operands v, g.arena.Below n root → g.arena.node? n = some node → (∀ u ∈ operands, P u) →
    (g.handlerFor node.kind).eval node.kind operands point = .ok (some v) →
    P v ∧ (g.handlerFor node.kind).EnclosesAt point node.kind operands v

/-- **Activities hold values.** A node with a value settles to a range that holds it, when all activities are
computed again. -/
theorem Evaluates.exists_settles [OrderedScalar α] {P : α → Prop} {vars : VarId → Interval α}
    (h : g.Evaluates point n (some v)) (hencloses : g.EnclosesBelow point P n) (hpoint : point.Within vars) :
    P v ∧ ∃ x, g.Settles vars true n (.range x) ∧ v ∈ x := by
  generalize hu : some v = u at h
  induction h generalizing v with
  | node halive hn hops hv ih =>
    rename_i n node value _
    subst hu
    rw [valueFrom] at hv
    split at hv
    · cases hv
    rename_i values hvalues
    rw [Handler.allValues_eq_some_iff] at hvalues
    -- the values of the operands, and the ranges around them
    have hop : ∀ c ∈ node.children, ∃ u, value c = some u ∧ P u ∧ ∃ x, g.Settles vars true c (.range x) ∧ u ∈ x := by
      intro c hc
      have hmem : value c ∈ values.map some := hvalues ▸ List.mem_map_of_mem hc
      obtain ⟨u, -, hu⟩ := List.mem_map.mp hmem
      have hbelow := Arena.IsOperand.below ((Arena.isOperand_iff hn).mpr hc)
      obtain ⟨hP, hx⟩ := ih c hc (fun m node operands w hm => hencloses m node operands w (hm.trans hbelow)) hu
      exact ⟨u, hu.symm, hP, hx⟩
    have hex : ∀ c, ∃ u x, c ∈ node.children → value c = some u ∧ P u ∧ g.Settles vars true c (.range x) ∧ u ∈ x := by
      intro c
      by_cases hc : c ∈ node.children
      · obtain ⟨u, hu, hP, x, hx, hmem⟩ := hop c hc
        exact ⟨u, x, fun _ => ⟨hu, hP, hx, hmem⟩⟩
      · exact ⟨v, .entire, fun h => absurd h hc⟩
    choose val range hrange using hex
    have hval : values = node.children.map val := by
      refine List.map_injective_iff.mpr (Option.some_injective α) ?_
      rw [← hvalues, List.map_map]
      exact List.map_congr_left fun c hc => (hrange c hc).1
    have hmem : List.Forall₂ (· ∈ ·) values (node.children.map range) := by
      rw [hval]
      exact Sampled.forall₂_mem range fun c hc => (hrange c hc).2.2.2
    obtain ⟨hP, hown⟩ := hencloses n node values v (.refl _ _) hn (fun u hu => by
      rw [hval] at hu
      obtain ⟨c, hc, rfl⟩ := List.mem_map.mp hu
      exact (hrange c hc).2.1) hv
    obtain ⟨noted, hrun, hnoted⟩ := hown vars _ hpoint hmem
    refine ⟨hP, noted.value, ?_, hnoted⟩
    have hsettles := Settles.node _ hn fun c hc => (hrange c hc).2.2.1
    have hnonempty : ¬ (node.children.map range).any (·.isEmpty) = true := by
      rw [List.any_eq_true]
      rintro ⟨x, hx, hempty⟩
      obtain ⟨c, hc, rfl⟩ := List.mem_map.mp hx
      rw [Interval.isEmpty_of_mem (hrange c hc).2.2.2] at hempty
      cases hempty
    rw [Settled.combine_map_range, settleOwn, if_pos (by rfl), rangeOver, if_neg hnonempty, hrun] at hsettles
    simpa [Settled.ofInterval, Interval.isEmpty_of_mem hnoted] using hsettles

end Graph

/-- A pass at the start of a round, which computes all activities again. -/
def Propagation.freshPass [BoundStore σ α] (root : NodeId) : PropagationM σ α (Forwarded α) := do
  beginRound
  forward root true

/-- **A pass where the root has a value** finds no contradiction, and the activity of every node below holds the
value of the node. -/
theorem Propagation.freshPass_encloses [OrderedScalar α] [BoundStore σ α] {s : Propagation σ α} {point : Point α}
    {P : α → Prop} {root : NodeId} {v : α} (hdated : s.graph.Dated) (htags : s.graph.TagsGiven)
    (hslot : s.graph.walks.taken = []) (hv : s.graph.Evaluates point root (some v))
    (hencloses : s.graph.EnclosesBelow point P root) (hpoint : point.Within (BoundStore.bounds s.store)) :
    ∃ f s', (freshPass root).run s = .ok f s' ∧ f.infeasible = false ∧
      ∀ n u, s.graph.arena.Below n root → s.graph.Evaluates point n (some u) →
        ∃ activity, s'.graph.activity n = .ok activity ∧ u ∈ activity := by
  obtain ⟨-, x, hroot, -⟩ := hv.exists_settles hencloses hpoint
  have hkeeps : Keeps (freshPass root : PropagationM σ α (Forwarded α)) :=
    keeps_beginRound.bind fun _ => keeps_forward root true
  have hmeets := (meets_pass hdated htags hslot hv.acc (fun m hm => hv.isAlive_of_below hm) hroot).and
    (hkeeps s hdated htags)
  rw [meets_iff_run] at hmeets
  split at hmeets
  case h_2 => cases hmeets
  rename_i f s' hrun
  obtain ⟨⟨hanswer, hactivity⟩, hpropagated⟩ := hmeets
  obtain ⟨-, hfeasible⟩ := Prod.mk.inj (Option.some.inj hanswer)
  refine ⟨f, s', hrun, hfeasible.symm, fun n u hn hu => ?_⟩
  obtain ⟨node, hnode, hsettles⟩ := hactivity hfeasible.symm n hn
  obtain ⟨-, y, hy, hmem⟩ := hu.exists_settles
    (fun m node operands w hm => hencloses m node operands w (hm.trans hn)) hpoint
  refine ⟨node.activity, ?_, Settled.range.inj (hsettles.unique hy) ▸ hmem⟩
  rw [Graph.activity, Graph.node_of_isAlive (hpropagated.terms.isAlive_eq ▸ hu.isAlive) hnode]
  rfl

end IntervalDag
