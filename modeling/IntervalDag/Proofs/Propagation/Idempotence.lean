import IntervalDag.Proofs.Interval.Containment
import IntervalDag.Proofs.Propagation.Enclosure
import IntervalDag.Proofs.Propagation.Steps
import IntervalDag.Proofs.Scalar.Rounding

/-!
# Requests that are repeated

Tightening a node meets what is known of it with an interval. Where the meet is taken over, it is written down on the
node, and so lies around all that is known of the node from then on, whatever becomes of it in the bound store: a table
with a threshold of its own may keep the old domain, a constant keeps its value and a node without a usable activity
goes on without one. So no interval around the meet tightens the node again (`Propagation.tighten_meets`).
-/

namespace IntervalDag

open Scalar

variable {α : Type} [Scalar α] [ComparableScalar α]

/-- A table does not refuse an interval that lies in the domain, which goes on to lie around it. -/
theorem BoundTable.liesIn_of_tighten {t t' : BoundTable α} {v : VarId} {x : Interval α} {change : BoundChange}
    (ht : BoundStore.tighten t v x = (t', change)) (h : x.LiesIn (t.bounds v)) (hx : x.isEmpty = false) :
    change ≠ .infeasible ∧ x.LiesIn (t'.bounds v) := by
  obtain ⟨hne, hlies⟩ := h.inter (.refl x) hx
  change t.tighten v x = _ at ht
  rw [tighten, if_neg (Bool.eq_false_iff.mp hne)] at ht
  split_ifs at ht
  · cases ht
    refine ⟨by simp, ?_⟩
    rw [bounds_set, if_pos rfl]
    exact hlies
  · cases ht
    exact ⟨by simp, h⟩

/-- What is known of a node goes on to lie around an interval that lay in it, if domains do and an activity was met
with the interval at most. -/
theorem Graph.exists_ownBounds_of_liesIn {g : Graph α} {store store' : BoundTable α} {entry : Node α}
    {base x : Interval α} (g' : Graph α) (entry' : Node α) (hbase : g.ownBounds store entry = .ok base)
    (hlies : x.LiesIn base) (hx : x.isEmpty = false) (hround : g'.roundBoundsEpoch = g.roundBoundsEpoch) (hkind : entry'.kind = entry.kind)
    (htag : entry'.activityTag = entry.activityTag)
    (hactivity : entry'.activity = if g.isUsable entry then entry.activity.inter x else entry.activity)
    (hstore : ∀ v, entry.kind = .var v → x.LiesIn (store.bounds v) → x.LiesIn (store'.bounds v)) :
    ∃ base', g'.ownBounds store' entry' = .ok base' ∧ x.LiesIn base' := by
  have husable : g'.isUsable entry' = g.isUsable entry := by rw [isUsable, isUsable, hround, htag]
  rw [ownBounds] at hbase ⊢
  rw [hkind, husable, hactivity]
  cases hentry : entry.kind with
  | var v =>
    rw [hentry] at hbase
    cases hbase
    exact ⟨_, rfl, hstore v hentry hlies⟩
  | value c =>
    rw [hentry] at hbase
    exact ⟨base, hbase, hlies⟩
  | _ =>
    rw [hentry] at hbase
    cases hbase
    refine ⟨_, rfl, ?_⟩
    split_ifs at hlies ⊢
    · exact (hlies.inter (.refl x) hx).2
    · exact hlies

omit [ComparableScalar α] in
/-- Only a constant that is not a number has no range of its own. -/
theorem Graph.ownBounds_eq_error {σ : Type} [BoundStore σ α] {g : Graph α} {store : σ} {entry : Node α} {e : Fault α}
    (h : g.ownBounds store entry = .error e) : e = .nanBound ∧ ∃ c, entry.kind = .value c ∧ isNaN c = true := by
  rw [ownBounds] at h
  cases hkind : entry.kind with
  | value c =>
    rw [hkind] at h
    change Interval.ofBounds c c = .error e at h
    rw [Interval.ofBounds, Bool.or_self] at h
    split_ifs at h with hnan
    exact ⟨(Except.error.inj h).symm, c, rfl, hnan⟩
  | _ =>
    rw [hkind] at h
    cases h

namespace Propagation

variable {s s' : Propagation (BoundTable α) α} {n : NodeId} {entry : Node α} {base known x y : Interval α}
  {t : Tightened}

omit [ComparableScalar α] in
/-- A meet that is not empty and not tighter by the threshold is passed over. -/
theorem run_tighten_of_kept {σ : Type} [BoundStore σ α] {s : Propagation σ α}
    (hknown : currentBounds s.graph s.store n = .ok known) (hne : (known.inter x).isEmpty = false)
    (htight : (known.inter x).isTighter known s.graph.settings.minTightening = false) :
    (tighten n x).run s = .ok ⟨false, 0⟩ s := by
  have hcases := meets_iff_run.mp (meets_tighten_cases (s := s) n x)
  cases hrun : (tighten n x).run s with
  | error e s' =>
    rw [hrun] at hcases
    cases hknown.symm.trans hcases
  | ok t s' =>
    rw [hrun] at hcases
    cases hcases with
    | disjoint hknown' hempty =>
      obtain rfl := Except.ok.inj (hknown.symm.trans hknown')
      rw [hne] at hempty
      cases hempty
    | kept => rfl
    | taken hknown' hne' htight' =>
      obtain rfl := Except.ok.inj (hknown.symm.trans hknown')
      rw [htight] at htight'
      cases htight'

/-- **Requests that bring nothing.** What is known of a node is not tightened by an interval around it. -/
theorem run_tighten_of_liesIn {σ : Type} [BoundStore σ α] {s : Propagation σ α}
    (hmin : 0 ≤ s.graph.settings.minTightening) (hknown : currentBounds s.graph s.store n = .ok known)
    (hne : known.isEmpty = false) (hlies : known.LiesIn x) : (tighten n x).run s = .ok ⟨false, 0⟩ s := by
  obtain ⟨hmeet, htight⟩ := hlies.not_isTighter hne hmin
  exact run_tighten_of_kept hknown hmeet htight

/-- Bounds that lie in the domain of a variable are passed on without a contradiction, and go on to lie in it. Terms
and ranges stay. -/
theorem PassesOn.keeps (hpass : PassesOn n entry x s t s') (hx : x.isEmpty = false)
    (hlies : ∀ v, entry.kind = .var v → x.LiesIn (s.store.bounds v)) :
    t = ⟨false, 1⟩ ∧ Arena.AgreeOn (fun node => (node.term, node.ranges)) s.graph.arena s'.graph.arena ∧
      (s'.graph.roundEpoch = s.graph.roundEpoch ∧ s'.graph.roundBoundsEpoch = s.graph.roundBoundsEpoch ∧
        s'.graph.settings = s.graph.settings) ∧ ∀ v, entry.kind = .var v → x.LiesIn (s'.store.bounds v) := by
  cases hpass with
  | tightened hkind hstore | unchanged hkind hstore =>
    rename_i v store
    refine ⟨rfl, .refl _ _, ⟨rfl, rfl, rfl⟩, fun w hw => ?_⟩
    obtain rfl := Kind.var.inj (hkind.symm.trans hw)
    exact (BoundTable.liesIn_of_tighten hstore (hlies v hkind) hx).2
  | refused hkind hstore =>
    exact absurd rfl (BoundTable.liesIn_of_tighten hstore (hlies _ hkind) hx).1
  | constant | waiting => exact ⟨rfl, .refl _ _, ⟨rfl, rfl, rfl⟩, hlies⟩
  | lined => exact ⟨rfl, .of_modify fun _ => rfl, ⟨rfl, rfl, rfl⟩, hlies⟩

/-- **What was taken over.** It is noted as what was propagated onto the node, and lies around all that is known of the
node from then on. -/
theorem PassesOn.exists_currentBounds (halive : s.graph.arena.isAlive n = true)
    (hentry : s.graph.arena.node? n = some entry) (hbase : s.graph.ownBounds s.store entry = .ok base)
    (hlies : x.LiesIn base) (hx : x.isEmpty = false) (hpass : PassesOn n entry x (s.written n known x) t s') :
    t = ⟨false, 1⟩ ∧ s'.graph.settings = s.graph.settings ∧ s'.graph.propBounds? n = .ok (some x) ∧
      ∃ known', currentBounds s'.graph s'.store n = .ok known' ∧ known'.isEmpty = false ∧ known'.LiesIn x := by
  have hdomain : ∀ v, entry.kind = .var v → x.LiesIn (s.store.bounds v) := fun v hv => by
    rw [Graph.ownBounds, hv] at hbase
    cases hbase
    exact hlies
  obtain ⟨ht, hagree, ⟨hround, hroundBounds, hsettings⟩, hstore⟩ := hpass.keeps hx hdomain
  have hwritten : (s.written n known x).graph.arena.node? n = some { entry with
      propBounds := x, propTag := s.graph.roundEpoch
      activity := if s.graph.isUsable entry then entry.activity.inter x else entry.activity } := by
    refine (Arena.node?_modify ..).trans ?_
    rw [if_pos rfl, hentry, Option.map_some]
  obtain ⟨entry', hentry', heq⟩ := hagree.exists_node? hwritten
  have hrefs : Arena.AgreeOn (·.refs) s.graph.arena (s.written n known x).graph.arena := .of_modify fun _ => rfl
  have halive' : s'.graph.arena.isAlive n = true := by
    rwa [(hagree.map (·.1.2.2)).isAlive_eq, hrefs.isAlive_eq]
  have hbounds : s'.graph.entryBounds? entry' = some x := by
    have htag : entry'.propTag = s.graph.roundEpoch := congrArg (·.2.2.2) heq
    rw [Graph.entryBounds?, if_pos (htag.trans hround.symm)]
    exact congrArg (fun e => some e.2.2.1) heq
  obtain ⟨base', hbase', hlies'⟩ := Graph.exists_ownBounds_of_liesIn s'.graph entry' hbase hlies hx
    hroundBounds (congrArg (·.1.1) heq) (congrArg (·.2.1.2) heq) (congrArg (·.2.1.1) heq) fun v hv _ => hstore v hv
  obtain ⟨hne, -⟩ := hlies'.inter (.refl x) hx
  refine ⟨ht, hsettings, ?_, base'.inter x, ?_, hne, Interval.inter_liesIn_right hne⟩
  · rw [Graph.propBounds?, Graph.node, Graph.isAlive, if_pos halive', Arena.get_eq_ok_iff.mpr hentry']
    exact congrArg Except.ok hbounds
  · exact currentBounds_eq_ok_iff.mpr ⟨halive', entry', hentry', base', hbase', by rw [hbounds]; rfl⟩

/-! ### Requests -/

/-- What asking a node for `x` comes to, `known` being what is known of the node. -/
structure Met (n : NodeId) (known x : Interval α) (s : Propagation (BoundTable α) α) (t : Tightened)
    (s' : Propagation (BoundTable α) α) : Prop where
  /-- a contradiction is found if what is known does not meet the interval -/
  infeasible_iff : t.infeasible = true ↔ (known.inter x).isEmpty = true
  disjoint_iff : known.HasNumbers → x.HasNumbers → (t.infeasible = true ↔ ∀ v ∈ known, v ∉ x)
  /-- without a tightening, nothing changes but the flag of the propagator -/
  kept : t.infeasible = true ∨ t.count = 0 → s'.graph = s.graph ∧ s'.store = s.store ∧
    s'.propagator = { s.propagator with infeasible := s.propagator.infeasible || t.infeasible }
  /-- with one, the meet is noted on the node, and no interval around `x` brings anything -/
  taken : t.count ≠ 0 → s'.graph.propBounds? n = .ok (some (known.inter x)) ∧
    ∀ y, x.isSubset y = true → (tighten n y).run s' = .ok ⟨false, 0⟩ s'
  /-- asking once more brings nothing -/
  repeated : t.infeasible = false → (tighten n x).run s' = .ok ⟨false, 0⟩ s'

omit [ComparableScalar α] in
/-- What is known of a node that has an own range lies in it, or is empty. -/
theorem exists_ownBounds_of_liesIn [ThresholdScalar α] (hknown : currentBounds s.graph s.store n = .ok known)
    (hne : known.isEmpty = false) : s.graph.arena.isAlive n = true ∧ ∃ entry, s.graph.arena.node? n = some entry ∧
      ∃ base, s.graph.ownBounds s.store entry = .ok base ∧ known.LiesIn base := by
  obtain ⟨halive, entry, hentry, base, hbase, rfl⟩ := currentBounds_eq_ok_iff.mp hknown
  refine ⟨halive, entry, hentry, base, hbase, ?_⟩
  cases hbounds : s.graph.entryBounds? entry with
  | none => exact .refl base
  | some bounds =>
    rw [hbounds] at hne
    exact Interval.inter_liesIn_left hne

theorem Tightens.met (hmin : 0 ≤ s.graph.settings.minTightening)
    (hknown : currentBounds s.graph s.store n = .ok known) (ht : Tightens n x s t s') : Met n known x s t s' := by
  have hvalues (hiff : t.infeasible = true ↔ (known.inter x).isEmpty = true) : known.HasNumbers → x.HasNumbers →
      (t.infeasible = true ↔ ∀ v ∈ known, v ∉ x) := fun hnumbers hx =>
    hiff.trans (Interval.isEmpty_inter_iff hnumbers hx)
  cases ht with
  | disjoint hknown' hempty =>
    obtain rfl := Except.ok.inj (hknown.symm.trans hknown')
    have hiff : true = true ↔ (known.inter x).isEmpty = true := iff_of_true rfl hempty
    exact ⟨hiff, hvalues hiff, fun _ => ⟨rfl, rfl, by rw [Bool.or_true]; rfl⟩, by simp, by simp⟩
  | kept hknown' hne htight =>
    obtain rfl := Except.ok.inj (hknown.symm.trans hknown')
    have hiff : false = true ↔ (known.inter x).isEmpty = true := by simp [hne]
    exact ⟨hiff, hvalues hiff, fun _ => ⟨rfl, rfl, by rw [Bool.or_false]⟩, by simp,
      fun _ => run_tighten_of_kept hknown hne htight⟩
  | taken hknown' hne htight hentry hpass =>
    obtain rfl := Except.ok.inj (hknown.symm.trans hknown')
    obtain ⟨hknownne, hxne⟩ := Interval.isEmpty_eq_false_of_inter hne
    obtain ⟨halive, entry, hentry', base, hbase, hlies⟩ := exists_ownBounds_of_liesIn hknown hknownne
    obtain rfl := Option.some.inj (hentry.symm.trans hentry')
    obtain ⟨rfl, hsettings, hbounds, known', hknown', hne', hlies'⟩ :=
      hpass.exists_currentBounds halive hentry hbase ((Interval.inter_liesIn_left hne).trans hlies) hne
    have hiff : false = true ↔ (known.inter x).isEmpty = true := by simp [hne]
    -- intervals around `x` lie around the meet, and so around what is known now
    have hnothing : ∀ y, x.LiesIn y → (tighten n y).run s' = .ok ⟨false, 0⟩ s' := fun y hy =>
      run_tighten_of_liesIn (hsettings ▸ hmin) hknown' hne'
        (hlies'.trans ((Interval.inter_liesIn_right hne).trans hy))
    refine ⟨hiff, hvalues hiff, by simp, fun _ => ⟨hbounds, fun y hy => ?_⟩, fun _ => hnothing x (.refl x)⟩
    exact hnothing y (Interval.liesIn_of_isSubset hy hxne)

/-- **Tightening is taking the meet.** Asked for bounds, a node that is in use has them met with what is known of it:
its own range, together with what was propagated onto it in the round. A contradiction is found if the two do not meet,
and only a tightening changes more than the flag; after it, no interval around the one asked for brings anything, and
asking once more never does. A constant that is not a number has no range, which is a fault. -/
theorem tighten_meets (s : Propagation (BoundTable α) α) (n : NodeId) (x : Interval α)
    (hmin : 0 ≤ s.graph.settings.minTightening) (halive : s.graph.isAlive n = true) :
    ∃ entry, s.graph.arena.node? n = some entry ∧
      ((∃ c, entry.kind = .value c ∧ isNaN c = true ∧ (tighten n x).run s = .error .nanBound s) ∨
        ∃ base t s', s.graph.ownBounds s.store entry = .ok base ∧ (tighten n x).run s = .ok t s' ∧
          Met n ((s.graph.entryBounds? entry).elim base base.inter) x s t s') := by
  obtain ⟨entry, hentry, -⟩ := Arena.exists_node?_of_isAlive halive
  refine ⟨entry, hentry, ?_⟩
  cases hbase : s.graph.ownBounds s.store entry with
  | error e =>
    obtain ⟨rfl, c, hkind, hnan⟩ := Graph.ownBounds_eq_error hbase
    have hknown : currentBounds s.graph s.store n = .error .nanBound := by
      rw [currentBounds_eq, Arena.get_eq_ok_iff.mpr hentry, Checked.ok_bind, hbase]
      rfl
    refine Or.inl ⟨c, hkind, hnan, ?_⟩
    change (check (currentBounds s.graph s.store n) >>= _ : PropagationM (BoundTable α) α Tightened).run s = _
    rw [hknown]
    rfl
  | ok base =>
    have hknown := currentBounds_eq_ok_iff.mpr ⟨halive, entry, hentry, base, hbase, rfl⟩
    have hcases := meets_iff_run.mp (meets_tighten_cases (s := s) n x)
    cases hrun : (tighten n x).run s with
    | error e s' =>
      rw [hrun] at hcases
      cases hknown.symm.trans hcases
    | ok t s' =>
      rw [hrun] at hcases
      exact Or.inr ⟨base, t, s', rfl, rfl, hcases.met hmin hknown⟩

/-- A variable between 0 and 10 is asked to be at most 9.5. The table, whose threshold is half of an end, keeps the
domain, but the node remembers, and a request for at most 9.75 brings nothing. -/
theorem tighten_meets_of_threshold :
    let arena : Arena Float := ⟨#[.fresh (.var 0) [] 1], []⟩
    let s : Propagation (BoundTable Float) Float :=
      ⟨{ Graph.empty default 0 with arena }, ⟨#[⟨0, 10⟩], 0.5⟩, default, []⟩
    0 ≤ s.graph.settings.minTightening ∧ s.graph.isAlive 0 = true ∧
      ∃ s', (tighten 0 ⟨-5, 9.5⟩).run s = .ok ⟨false, 1⟩ s' ∧ 10 ∈ s'.store.bounds 0 ∧
        s'.graph.propBounds? 0 = .ok (some (Interval.inter ⟨0, 10⟩ ⟨-5, 9.5⟩)) ∧
        (tighten 0 ⟨-6, 9.75⟩).run s' = .ok ⟨false, 0⟩ s' := by
  intro arena s
  have hmin : 0 ≤ s.graph.settings.minTightening := by decide +kernel
  have hentry : s.graph.arena.node? 0 = some (.fresh (.var 0) [] 1) := rfl
  have hread : ((fun
      | .ok t s' => (t, (s'.store.bounds 0).contains 10)
      | .error _ _ => (default, false) : EStateM.Result (Fault Float) _ Tightened → Tightened × Bool)
      ((tighten 0 ⟨-5, 9.5⟩).run s)) = (⟨false, 1⟩, true) := by
    decide +kernel
  obtain ⟨entry, hentry', hcases⟩ := tighten_meets s 0 ⟨-5, 9.5⟩ hmin rfl
  obtain rfl := Option.some.inj (hentry.symm.trans hentry')
  obtain ⟨c, hkind, -⟩ | ⟨base, t, s', hbase, hrun, hmet⟩ := hcases
  · cases hkind
  obtain rfl : ⟨0, 10⟩ = base := Except.ok.inj hbase
  rw [hrun] at hread
  obtain ⟨rfl, hdomain⟩ := Prod.mk.inj hread
  obtain ⟨hbounds, hnothing⟩ := hmet.taken (by decide)
  exact ⟨hmin, rfl, s', hrun, hdomain, hbounds, hnothing _ (by decide +kernel)⟩

end Propagation

end IntervalDag
