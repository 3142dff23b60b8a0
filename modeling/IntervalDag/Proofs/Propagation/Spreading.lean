import IntervalDag.Proofs.Propagation.Calls
import IntervalDag.Proofs.Propagation.Recycling
import IntervalDag.Proofs.Scalar.Rounding

/-!
# How tightening spreads

Calls change the domains of variables by tightening only, and tightening goes down from the nodes that stood in line
at the start or were tightened on request.

* `Propagation.Booked`: each domain stayed or is a part that is not empty and lost a value, and the epoch of the
  bounds tells whether there is such a one.
* `Propagation.Reaches`: a domain that changed is that of a variable below a source of tightening.

Both outlive every call, so that they hold of every run of calls (`Workspace.calls_spread`).
-/

namespace IntervalDag

variable {α : Type} [Scalar α]

omit [Scalar α] in
/-- The variable has a node in use that is `m` or lies below it. -/
def Graph.HasVarBelow (g : Graph α) (v : VarId) (m : NodeId) : Prop :=
  ∃ n, g.arena.Below n m ∧ g.arena.isAlive n = true ∧ ∃ entry, g.arena.node? n = some entry ∧ entry.kind = .var v

omit [Scalar α] in
/-- Some call asks to tighten the node. -/
def Call.AnyAsks (calls : List (Call α)) (n : NodeId) : Prop := ∃ c ∈ calls, ∃ r ∈ c.requests, r.1 = n

namespace Propagation

variable {s₀ s s' : Propagation (BoundTable α) α} {n m : NodeId} {x : Interval α} {t : Tightened} {T : NodeId → Prop}

/-! ### Domains and the epoch of the bounds -/

/-- Since `s₀` domains were only narrowed, and the epoch of the bounds tells whether some were. -/
structure Booked (s₀ s : Propagation (BoundTable α) α) : Prop where
  epoch_le : s.graph.boundsEpoch ≤ s.graph.epochs.last
  threshold : 0 ≤ s.store.minTightening
  shrunk : s₀.store.Shrunk s.store
  revised : Revised s₀ s

/-- Steps that leave the bounds and their epoch alone. -/
theorem Booked.still (h : Booked s₀ s) (hepoch : s'.graph.boundsEpoch = s.graph.boundsEpoch)
    (hlast : s.graph.epochs.last ≤ s'.graph.epochs.last) (hstore : s'.store = s.store) : Booked s₀ s' where
  epoch_le := hepoch ▸ Nat.le_trans h.epoch_le hlast
  threshold := hstore ▸ h.threshold
  shrunk := hstore ▸ h.shrunk
  revised := by
    rw [Revised, hepoch, hstore]
    exact h.revised

variable [ThresholdScalar α]

/-- Passing bounds on leaves the bounds and their epoch alone, or raises the epoch and narrows one domain. -/
theorem PassesOn.store_cases {entry : Node α} (hpass : PassesOn n entry x s t s') (hmin : 0 ≤ s.store.minTightening) :
    s'.store = s.store ∧ s'.graph.boundsEpoch = s.graph.boundsEpoch ∧ s'.graph.epochs = s.graph.epochs ∨
      ∃ v y, s'.graph = s.graph.bumpBoundsEpoch ∧ s'.store = s.store.set v y ∧ y.isEmpty = false ∧
        (s.store.bounds v).NarrowsStrictlyTo y := by
  cases hpass with
  | tightened hkind hstore =>
    rename_i v store
    have hcases := BoundTable.tighten_eq_set hmin v x
    change BoundTable.tighten s.store v x = _ at hstore
    rw [hstore] at hcases
    obtain ⟨hne, -⟩ | ⟨-, y, hset, hempty, hstrict⟩ := hcases
    · exact absurd rfl hne
    · exact Or.inr ⟨v, y, rfl, hset, hempty, hstrict⟩
  | unchanged hkind hstore | refused hkind hstore =>
    rename_i v store
    have hcases := BoundTable.tighten_eq_set hmin v x
    change BoundTable.tighten s.store v x = _ at hstore
    rw [hstore] at hcases
    obtain ⟨-, hsame⟩ | ⟨heq, -⟩ := hcases
    · exact Or.inl ⟨hsame, rfl, rfl⟩
    · cases heq
  | constant | waiting | lined => exact Or.inl ⟨rfl, rfl, rfl⟩

/-- **Tightening a node** keeps the books. -/
theorem Booked.tightens (h : Booked s₀ s) (ht : Tightens n x s t s') : Booked s₀ s' := by
  cases ht with
  | disjoint | kept => exact h.still rfl (Nat.le_refl _) rfl
  | taken hknown hempty htight hentry hpass =>
    rename_i known entry
    have hwritten : Booked s₀ (s.written n known (known.inter x)) := h.still rfl (Nat.le_refl _) rfl
    obtain ⟨hstore, hepoch, hepochs⟩ | ⟨v, y, hgraph, hstore, hne, hstrict⟩ := hpass.store_cases hwritten.threshold
    · exact hwritten.still hepoch (Nat.le_of_eq (congrArg EpochCounter.last hepochs).symm) hstore
    · refine ⟨?_, ?_, ?_, hwritten.revised.narrowed ?_ ?_⟩
      · rw [hgraph]
        exact Nat.le_refl _
      · rw [hstore]
        exact hwritten.threshold
      · rw [hstore]
        exact hwritten.shrunk.trans (BoundTable.shrunk_set hne hstrict)
      · rw [hgraph]
        exact Nat.lt_succ_of_le hwritten.epoch_le
      · rw [hstore]
        exact BoundTable.narrowed_set hstrict

/-- **No call** loses account of the domains. -/
theorem lasting_booked (s₀ : Propagation (BoundTable α) α) : Lasting (fun _ => True) (Booked s₀) where
  walked h hwalked := by
    refine h.still ?_ ?_ rfl
    · rw [hwalked.rest_eq]
    · rw [hwalked.rest_eq]
  recomputed _ _ _ _ _ _ h := h.still rfl (Nat.le_refl _) rfl
  contradicted _ _ h := h.still rfl (Nat.le_refl _) rfl
  reopened h := h.still rfl (Nat.le_succ _) rfl
  noted _ _ _ _ h := h.still rfl (Nat.le_refl _) rfl
  tightens h _ ht := h.tightens ht
  drained h := by
    have hpreserves : Preserves (fun _ => True) (Booked s₀) (Booked s₀) := by
      refine ⟨fun h _ => ⟨h.still rfl (Nat.le_refl _) rfl, fun _ _ => trivial⟩,
        fun _ _ _ _ h => h.still rfl (Nat.le_refl _) rfl, fun h _ ht => ?_, id⟩
      rw [ite_self]
      exact h.tightens ht
    refine (hpreserves.meets_drain_of_dropped id (fun {s} h => ?_) h).imp fun _ _ hs => hs.1
    have hgraph := s.graph.unqueue_eq s.propagator.queue.toList
    refine h.still ?_ ?_ rfl
    · rw [dropped, hgraph]
    · rw [dropped, hgraph]

/-! ### Where tightening comes from -/

section Sources

omit [ThresholdScalar α]

omit [Scalar α] in
/-- The node stood in line at the start, or it is one of `T` and was tightened since. -/
def IsSource (T : NodeId → Prop) (s₀ s : Propagation (BoundTable α) α) (m : NodeId) : Prop :=
  m ∈ s₀.propagator.queue.toList ∨ T m ∧ m ∈ s₀.tightenedSince s

/-- What is in line and what changed lies below a source of tightening. -/
structure Reaches (T : NodeId → Prop) (s₀ s : Propagation (BoundTable α) α) : Prop where
  terms : s₀.graph.SameTerms s.graph
  records : s₀.records <:+ s.records
  queue : ∀ n ∈ s.propagator.queue.toList, ∃ m, IsSource T s₀ s m ∧ s₀.graph.arena.Below n m
  domains : ∀ v, s.store.bounds v ≠ s₀.store.bounds v → ∃ m, IsSource T s₀ s m ∧ s₀.graph.HasVarBelow v m

omit [Scalar α] in
/-- What was a source stays one. -/
theorem IsSource.mono (h : IsSource T s₀ s m) (h₁ : s₀.records <:+ s.records) (h₂ : s.records <:+ s'.records) :
    IsSource T s₀ s' m := h.imp_right fun hm => ⟨hm.1, tightenedSince_mono h₁ h₂ hm.2⟩

/-- Tightening leaves the bounds alone unless it is recorded. -/
theorem Tightens.recorded_or_same (h : Tightens n x s t s') : n ∈ s.tightenedSince s' ∨ s'.store = s.store := by
  cases h with
  | disjoint | kept => exact Or.inr rfl
  | taken hknown hempty htight hentry hpass =>
    rename_i known entry
    have hrecord : s'.records = [.narrowed n known (known.inter x)] ++ s.records := by
      cases hpass <;> rfl
    exact Or.inl ((mem_tightenedSince hrecord).mpr ⟨_, _, List.mem_cons_self ..⟩)

namespace Reaches

theorem refl (T : NodeId → Prop) (s : Propagation (BoundTable α) α) : Reaches T s s :=
  ⟨.refl _, List.suffix_refl _, fun n hn => ⟨n, Or.inl hn, .refl _ _⟩, fun _ hv => absurd rfl hv⟩

/-- Steps that leave terms and bounds alone and put nothing in line. -/
theorem still (h : Reaches T s₀ s) (hterms : s.graph.SameTerms s'.graph) (hrecords : s.records <:+ s'.records)
    (hqueue : s'.propagator.queue.toList ⊆ s.propagator.queue.toList) (hstore : s'.store = s.store) :
    Reaches T s₀ s' := by
  refine ⟨h.terms.trans hterms, h.records.trans hrecords, fun n hn => ?_, fun v hv => ?_⟩
  · obtain ⟨m, hm, hbelow⟩ := h.queue n (hqueue hn)
    exact ⟨m, hm.mono h.records hrecords, hbelow⟩
  · obtain ⟨m, hm, hbelow⟩ := h.domains v (hstore ▸ hv)
    exact ⟨m, hm.mono h.records hrecords, hbelow⟩

/-- **Tightening a node** of `T`. -/
theorem tightens (h : Reaches T s₀ s) (hn : T n) (ht : Tightens n x s t s') : Reaches T s₀ s' := by
  have hat := ht.tightensAt
  have hsource : n ∈ s.tightenedSince s' → IsSource T s₀ s' n := fun hrecorded =>
    Or.inr ⟨hn, mem_tightenedSince_of_suffix h.records hat.records hrecorded⟩
  refine ⟨h.terms.trans hat.terms, h.records.trans hat.records, fun m hm => ?_, fun v hv => ?_⟩
  · rcases hat.queue m hm with hm | ⟨rfl, hrecorded, -⟩
    · obtain ⟨k, hk, hbelow⟩ := h.queue m hm
      exact ⟨k, hk.mono h.records hat.records, hbelow⟩
    · exact ⟨m, hsource hrecorded, .refl _ _⟩
  · by_cases hsame : s'.store.bounds v = s.store.bounds v
    · obtain ⟨m, hm, hbelow⟩ := h.domains v (hsame ▸ hv)
      exact ⟨m, hm.mono h.records hat.records, hbelow⟩
    · obtain ⟨halive, entry, hentry, hkind⟩ := hat.store v hsame
      obtain ⟨entry₀, hentry₀, hkind₀, -⟩ := h.terms.symm.exists_node? hentry
      have hrecorded := ht.recorded_or_same.resolve_right fun heq => hsame (heq ▸ rfl)
      exact ⟨n, hsource hrecorded, n, .refl _ _, h.terms.isAlive_eq ▸ halive, entry₀, hentry₀, hkind₀.trans hkind⟩

/-- **Working off the line.** -/
theorem descends (h : Reaches T s₀ s) (hd : Descends s s') : Reaches T s₀ s' := by
  refine ⟨h.terms.trans hd.terms, h.records.trans hd.records, fun n hn => ?_, fun v hv => ?_⟩
  · obtain ⟨-, k, hk, hnk⟩ := hd.queue n hn
    obtain ⟨m, hm, hkm⟩ := h.queue k hk
    rw [h.terms.children.below_eq] at hnk
    exact ⟨m, hm.mono h.records hd.records, hnk.trans hkm⟩
  · by_cases hsame : s'.store.bounds v = s.store.bounds v
    · obtain ⟨m, hm, hbelow⟩ := h.domains v (hsame ▸ hv)
      exact ⟨m, hm.mono h.records hd.records, hbelow⟩
    · obtain ⟨k, hk, n, hnk, halive, entry, hentry, hkind⟩ := hd.store v hsame
      obtain ⟨m, hm, hkm⟩ := h.queue k hk
      obtain ⟨entry₀, hentry₀, hkind₀, -⟩ := h.terms.symm.exists_node? hentry
      rw [h.terms.children.below_eq] at hnk
      exact ⟨m, hm.mono h.records hd.records, n, hnk.trans hkm, h.terms.isAlive_eq ▸ halive, entry₀, hentry₀,
        hkind₀.trans hkind⟩

end Reaches

/-- **No call** reaches further than from its sources. -/
theorem lasting_reaches (T : NodeId → Prop) (s₀ : Propagation (BoundTable α) α) : Lasting T (Reaches T s₀) where
  walked h hwalked := h.still (.of_walked hwalked) (List.suffix_refl _) (List.Subset.refl _) rfl
  recomputed n x reported records stats hsuffix h :=
    h.still ⟨.of_modify fun _ => rfl, rfl, rfl, rfl, rfl, rfl⟩ hsuffix (List.Subset.refl _) rfl
  contradicted _ hsuffix h := h.still (.refl _) hsuffix (List.Subset.refl _) rfl
  reopened {s} h := h.still ⟨s.graph.agreeOn_opened Node.term fun _ => rfl, rfl, rfl, rfl, rfl, rfl⟩
    (List.suffix_refl _) (List.nil_subset _) rfl
  noted _ _ _ hsuffix h :=
    h.still ⟨.refl _ _, rfl, rfl, rfl, rfl, rfl⟩ hsuffix (List.Subset.refl _) rfl
  tightens h hn ht := h.tightens hn ht
  drained {s} h := by
    have hstart : Descends s s :=
      ⟨.refl _, List.suffix_refl _, fun n hn => ⟨Or.inl hn, n, hn, .refl _ _⟩, fun v hv => absurd rfl hv⟩
    refine ((preserves_descends s).meets_drain_of_dropped (fun hd => h.descends hd) (fun {s₁} hd => ?_) hstart).imp
      fun _ _ hs => hs.1
    exact (h.descends hd).still (s₁.graph.sameTerms_unqueue _) (List.suffix_refl _) (List.nil_subset _) rfl

end Sources

end Propagation

namespace Workspace

/-- **Runs of calls** narrow the domains of variables and do nothing else to them. Each domain still has values and
gained none. One that changed lost a value, and its variable lies below a node that stood in line at the start or that
a call asked to tighten and that was tightened. The epoch of the bounds changes when and only when some domain does. -/
theorem calls_spread [ComparableScalar α] [BitPattern α] (settings : Settings α) (identity : Nat)
    (store : BoundTable α) {cs : List (Command α)} {calls : List (Call α)} {w w' : Workspace α}
    (hw : (new settings identity store).serveAll cs = .ok w) (hmin : 0 ≤ w.state.store.minTightening)
    (hvalues : ∀ v, ∃ a, a ∈ w.state.store.bounds v) (hrun : w.serveAll (calls.map .call) = .ok w') :
    (∀ v, (∃ a, a ∈ w'.state.store.bounds v) ∧ ∀ a, a ∈ w'.state.store.bounds v → a ∈ w.state.store.bounds v) ∧
      (∀ v, w'.state.store.bounds v ≠ w.state.store.bounds v →
        (∃ a, a ∈ w.state.store.bounds v ∧ a ∉ w'.state.store.bounds v) ∧
        ∃ m, Propagation.IsSource (Call.AnyAsks calls) w.state w'.state m ∧ w.state.graph.HasVarBelow v m) ∧
      (w'.state.graph.boundsEpoch ≠ w.state.graph.boundsEpoch ↔
        ∃ v, w'.state.store.bounds v ≠ w.state.store.bounds v) := by
  have hordered := (resting_of_serveAll (.empty settings identity) hw).toOrdered
  have hbooked : Propagation.Booked w.state w'.state :=
    (Propagation.lasting_booked w.state).of_serveAll
      ⟨hordered.dated.boundsEpoch_le, hmin, .refl _, Or.inl ⟨rfl, rfl⟩⟩ hordered (fun _ _ _ _ => trivial) hrun
  have hreaches : Propagation.Reaches (Call.AnyAsks calls) w.state w'.state :=
    (Propagation.lasting_reaches _ w.state).of_serveAll (.refl _ _) hordered (fun c hc r hr => ⟨c, hc, r, hr, rfl⟩) hrun
  have hlost : ∀ v, (w.state.store.bounds v).NarrowsStrictlyTo (w'.state.store.bounds v) →
      ∃ a, a ∈ w.state.store.bounds v ∧ a ∉ w'.state.store.bounds v := fun v hstrict => hstrict.exists_lost (hvalues v)
  refine ⟨fun v => ?_, fun v hv => ?_, ?_⟩
  · rcases hbooked.shrunk v with heq | ⟨hempty, hstrict⟩
    · rw [heq]
      exact ⟨hvalues v, fun _ ha => ha⟩
    · exact ⟨hstrict.exists_mem (hvalues v) hempty, fun _ ha => hstrict.mem_of_mem (hvalues v) ha⟩
  · obtain ⟨-, hstrict⟩ := (hbooked.shrunk v).resolve_left hv
    exact ⟨hlost v hstrict, hreaches.domains v hv⟩
  · constructor
    · intro hepoch
      obtain ⟨heq, -⟩ | ⟨-, hnarrowed⟩ := hbooked.revised
      · exact absurd heq hepoch
      · obtain ⟨v, hstrict⟩ := hnarrowed.some
        obtain ⟨a, ha, hgone⟩ := hlost v hstrict
        exact ⟨v, fun heq => hgone (heq ▸ ha)⟩
    · rintro ⟨v, hv⟩
      obtain ⟨-, hstore⟩ | ⟨hlt, -⟩ := hbooked.revised
      · exact absurd (congrArg (BoundTable.bounds · v) hstore) hv
      · exact Nat.ne_of_gt hlt

theorem store_of_requests {rs : List (Request α)} {w w' : Workspace α}
    (hrun : w.serveAll (rs.map .request) = .ok w') : w'.state.store = w.state.store := by
  refine Run.invariant (I := fun w' => w'.state.store = w.state.store) (R := fun _ c => ∃ r, c = .request r)
    (fun h hc hserve => ?_) rfl (.of_forall fun c hc => ?_) hrun
  · obtain ⟨r, rfl⟩ := hc
    obtain ⟨s, -, hserve⟩ := Checked.bind_eq_ok.mp hserve
    cases hserve
    exact h
  · obtain ⟨r, -, rfl⟩ := List.mem_map.mp hc
    exact ⟨r, rfl⟩

/-- A sum over a variable between -10 and 10 is asked to lie between 0 and 5, and then to be at least 7. -/
theorem calls_spread_to_var :
    let rs : List (Request Float) := [.var 0, .add (.sum [1] 0) [0]]
    let calls : List (Call Float) := [.beginRound, .tighten 1 ⟨0, 5⟩, .drain, .tighten 1 ⟨7, 8⟩]
    ∃ w w', (new default 0 (.ofList [⟨-10, 10⟩])).serveAll (rs.map .request) = .ok w ∧
      0 ≤ w.state.store.minTightening ∧ (∀ v, ∃ a, a ∈ w.state.store.bounds v) ∧
      w.serveAll (calls.map .call) = .ok w' ∧ w'.state.propagator.infeasible = true ∧
      w'.state.graph.boundsEpoch ≠ w.state.graph.boundsEpoch ∧
      (∃ a, a ∈ w'.state.store.bounds 0) ∧ (∃ a, a ∈ w.state.store.bounds 0 ∧ a ∉ w'.state.store.bounds 0) ∧
      ∃ m, Propagation.IsSource (Call.AnyAsks calls) w.state w'.state m ∧ w.state.graph.HasVarBelow 0 m := by
  intro rs calls
  have hvar := serve_var_new default 0 (BoundTable.ofList [⟨-10, 10⟩] : BoundTable Float) 0
  have hfirst : (new default 0 (BoundTable.ofList [⟨-10, 10⟩])).serveAll (rs.map .request) =
    _ >>= fun w => serveAll w (rs.map .request).tail := List.foldlM_cons ..
  have hread : ((new default 0 (BoundTable.ofList [⟨-10, 10⟩])).serveAll (rs.map .request) >>= fun w =>
      w.serveAll (calls.map .call) >>= fun w' => .ok (w, w')).toOption.map (fun (w, w') =>
        (w'.state.propagator.infeasible, (w.state.store.bounds 0).contains (-1),
          (w'.state.store.bounds 0).contains (-1))) = some (true, true, false) := by
    rw [hfirst, hvar, Checked.ok_bind]
    decide +kernel
  obtain ⟨⟨w, w'⟩, hrun, hread⟩ := Checked.exists_ok_of_toOption hread
  obtain ⟨w, hw, hrun⟩ := Checked.bind_eq_ok.mp hrun
  obtain ⟨w', hrun, hrest⟩ := Checked.bind_eq_ok.mp hrun
  cases hrest
  simp only [Prod.mk.injEq] at hread
  obtain ⟨hinfeasible, hmem, hlost⟩ := hread
  have hstore : w.state.store = .ofList [⟨-10, 10⟩] := store_of_requests hw
  have hmin : 0 ≤ w.state.store.minTightening := by
    rw [hstore]
    decide +kernel
  have hvalues : ∀ v, ∃ a, a ∈ w.state.store.bounds v := by
    rw [hstore]
    rintro (_ | v)
    · exact ⟨0, show Interval.contains ⟨-10, 10⟩ 0 = true by decide +kernel⟩
    · exact ⟨0, show Interval.contains .entire 0 = true by decide +kernel⟩
  have hchanged : w'.state.store.bounds 0 ≠ w.state.store.bounds 0 := by
    intro heq
    rw [heq, hmem] at hlost
    cases hlost
  obtain ⟨hkept, hchanges, hepoch⟩ := calls_spread default 0 _ hw hmin hvalues hrun
  exact ⟨w, w', hw, hmin, hvalues, hrun, hinfeasible, hepoch.mpr ⟨0, hchanged⟩, (hkept 0).1, hchanges 0 hchanged⟩

end Workspace

end IntervalDag
