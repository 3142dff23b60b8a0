import IntervalDag.Proofs.Interval.Sparing
import IntervalDag.Proofs.Propagation.Bookkeeping
import IntervalDag.Proofs.Propagation.Enclosure
import IntervalDag.Proofs.Propagation.Recycling

/-!
# Rounds that change no domain

In a round that changes no domain, the activities below the constraints that were taken so far stay fresh. They are
narrowed by what is propagated onto their nodes, and nothing is propagated onto a variable or a constant. So once a
constraint was taken, its bounds go on to spare what is known of its root. `Calm` says this of a state, and `Steady`
of a state of a round in which domains may have been changed.
-/

namespace IntervalDag

variable {α : Type} [Scalar α]

open Scalar

/-- What is known of a node before anything is propagated onto it is narrowed as its activity is. -/
theorem Graph.exists_ownBounds {g g₁ : Graph α} {store : BoundTable α} {entry entry₁ : Node α} {known : Interval α}
    (hknown : g.ownBounds store entry = .ok known) (hnonempty : known.isEmpty = false)
    (hround : g₁.roundBoundsEpoch = g.roundBoundsEpoch) (hkind : entry₁.kind = entry.kind)
    (htag : entry₁.activityTag = entry.activityTag) (hnarrows : entry.activity.NarrowsTo entry₁.activity)
    (hactivity : entry₁.activity.isEmpty = false) :
    ∃ known₁, g₁.ownBounds store entry₁ = .ok known₁ ∧ known.NarrowsTo known₁ ∧ known₁.isEmpty = false := by
  have husable : g₁.isUsable entry₁ = g.isUsable entry := by rw [isUsable, isUsable, hround, htag]
  rw [ownBounds] at hknown ⊢
  rw [hkind, husable]
  cases hentry : entry.kind with
  | var | value =>
    rw [hentry] at hknown
    exact ⟨known, hknown, .refl _, hnonempty⟩
  | _ =>
    rw [hentry] at hknown
    obtain rfl := Except.ok.inj hknown
    refine ⟨_, rfl, ?_⟩
    split_ifs at hnonempty ⊢
    · exact ⟨hnarrows, hactivity⟩
    · exact ⟨.refl _, hnonempty⟩

/-- What is known of a node with operands is a usable activity. -/
theorem Graph.ownBounds_of_isLeaf {g : Graph α} {store : BoundTable α} {entry : Node α}
    (hinner : entry.kind.isLeaf = false) :
    g.ownBounds store entry = .ok (if g.isUsable entry then entry.activity else .entire) := by
  rw [ownBounds]
  cases hkind : entry.kind with
  | var | value =>
    rw [hkind] at hinner
    cases hinner
  | _ => rfl

omit [Scalar α] in
/-- No bounds were propagated yet in a round that was just opened. -/
theorem Graph.Dated.propTag_ne_of_opened {g : Graph α} (h : g.Dated) {n : NodeId} {node : Node α}
    (hn : g.opened.arena.node? n = some node) : node.propTag ≠ g.opened.roundEpoch := by
  obtain ⟨node₀, hn₀, heq⟩ := (g.agreeOn_opened Node.propTag fun _ => rfl).symm.exists_node? hn
  have hle := h.propTag_le n node₀ hn₀
  have hlast := h.roundEpoch_le
  change node.propTag ≠ g.epochs.last + 1
  omega

namespace Propagation

/-- Nothing is left to be done for a constraint: what is known of its root, before anything is propagated onto it, is
spared by the constraint's bounds. -/
def Confirms (s : Propagation (BoundTable α) α) (c : Constraint α) : Prop :=
  s.graph.arena.isAlive c.root = true ∧ ∃ entry known, s.graph.arena.node? c.root = some entry ∧
    s.graph.ownBounds s.store entry = .ok known ∧ known.isEmpty = false ∧
      c.bounds.Spares known s.graph.settings.minTightening

/-- A state of a round that began with the bounds of the epoch `e`, which are the current ones. The nodes of
`covered` have fresh activities, and the constraints of `done` are confirmed. -/
structure Calm (e : Nat) (covered : NodeId → Prop) (done : Constraint α → Prop)
    (s : Propagation (BoundTable α) α) : Prop where
  boundsEpoch_eq : s.graph.boundsEpoch = e
  roundBoundsEpoch_eq : s.graph.roundBoundsEpoch = e
  margin : 0 ≤ s.graph.settings.minTightening ∧ s.graph.settings.minTightening ≤ 1
  computed : ∀ n, covered n → Acc s.graph.arena.IsOperand n ∧ ∃ node, s.graph.arena.node? n = some node ∧
    node.activityTag = e ∧ node.activity.isEmpty = false
  /-- what was propagated in the round narrowed the activity of the node, which is no variable and no constant -/
  propagated : ∀ n node, s.graph.arena.node? n = some node → node.propTag = s.graph.roundEpoch →
    covered n ∧ node.kind.isLeaf = false ∧ node.propBounds.NarrowsTo node.activity
  confirmed : ∀ c, done c → covered c.root ∧ s.Confirms c

/-- Nodes with operands are put in line at most. -/
theorem PassesOn.agree_of_isLeaf {n : NodeId} {entry : Node α} {x : Interval α} {s s₁ : Propagation (BoundTable α) α}
    {t : Tightened} (hpass : PassesOn n entry x s t s₁) (hinner : entry.kind.isLeaf = false) :
    Arena.AgreeOn (fun node => (node.term, node.ranges)) s.graph.arena s₁.graph.arena ∧
      (s₁.graph.boundsEpoch = s.graph.boundsEpoch ∧ s₁.graph.roundBoundsEpoch = s.graph.roundBoundsEpoch ∧
        s₁.graph.settings = s.graph.settings) ∧ s₁.graph.roundEpoch = s.graph.roundEpoch ∧ s₁.store = s.store := by
  cases hpass with
  | tightened hkind | unchanged hkind | refused hkind | constant hkind =>
    rw [hkind] at hinner
    cases hinner
  | waiting => exact ⟨.refl _ _, ⟨rfl, rfl, rfl⟩, rfl, rfl⟩
  | lined => exact ⟨.of_modify fun _ => rfl, ⟨rfl, rfl, rfl⟩, rfl, rfl⟩

namespace Calm

variable {e : Nat} {covered covered' : NodeId → Prop} {done : Constraint α → Prop} {n : NodeId}
  {s s₁ : Propagation (BoundTable α) α} {node : Node α} {known x : Interval α}

variable [LinearScalar α]

/-- **Steps on entries.** Covered entries are narrowed, others may get covered. -/
theorem of_entries (h : Calm e covered done s) (hterms : Arena.AgreeOn Node.term s.graph.arena s₁.graph.arena)
    (hgraph : s₁.graph.boundsEpoch = s.graph.boundsEpoch ∧ s₁.graph.roundBoundsEpoch = s.graph.roundBoundsEpoch ∧
      s₁.graph.settings = s.graph.settings) (hstore : s₁.store = s.store)
    (hnarrows : ∀ n node₁, covered n → s₁.graph.arena.node? n = some node₁ → ∃ node,
      s.graph.arena.node? n = some node ∧ node₁.activityTag = node.activityTag ∧
        node.activity.NarrowsTo node₁.activity ∧ node₁.activity.isEmpty = false)
    (hcovered : ∀ n, covered n → covered' n)
    (hcomputed : ∀ n, covered' n → ¬ covered n → Acc s.graph.arena.IsOperand n ∧ ∃ node₁,
      s₁.graph.arena.node? n = some node₁ ∧ node₁.activityTag = e ∧ node₁.activity.isEmpty = false)
    (hpropagated : ∀ n node₁, s₁.graph.arena.node? n = some node₁ → node₁.propTag = s₁.graph.roundEpoch →
      covered' n ∧ node₁.kind.isLeaf = false ∧ node₁.propBounds.NarrowsTo node₁.activity) :
    Calm e covered' done s₁ where
  boundsEpoch_eq := hgraph.1.trans h.boundsEpoch_eq
  roundBoundsEpoch_eq := hgraph.2.1.trans h.roundBoundsEpoch_eq
  margin := hgraph.2.2 ▸ h.margin
  computed n hn := by
    rw [(hterms.map (·.2.1)).isOperand_eq]
    by_cases hold : covered n
    · obtain ⟨hacc, node, hnode, htag, -⟩ := h.computed n hold
      obtain ⟨node₁, hnode₁, -⟩ := hterms.exists_node? hnode
      obtain ⟨node', hnode', htag', -, hnonempty⟩ := hnarrows n node₁ hold hnode₁
      obtain rfl := Option.some.inj (hnode.symm.trans hnode')
      exact ⟨hacc, node₁, hnode₁, htag'.trans htag, hnonempty⟩
    · exact hcomputed n hn hold
  propagated := hpropagated
  confirmed c hc := by
    obtain ⟨hroot, halive, entry, known, hentry, hknown, hnonempty, hspares⟩ := h.confirmed c hc
    obtain ⟨entry₁, hentry₁, hterm⟩ := hterms.exists_node? hentry
    obtain ⟨entry', hentry', htag, hnarrow, hactivity⟩ := hnarrows c.root entry₁ hroot hentry₁
    obtain rfl := Option.some.inj (hentry.symm.trans hentry')
    obtain ⟨known₁, hknown₁, hnarrowed, hnonempty₁⟩ := Graph.exists_ownBounds hknown hnonempty
      hgraph.2.1 (congrArg Prod.fst hterm) htag hnarrow hactivity
    refine ⟨hcovered _ hroot, ?_, entry₁, known₁, hentry₁, hstore ▸ hknown₁, hnonempty₁, ?_⟩
    · rwa [(hterms.map (·.2.2)).isAlive_eq]
    · rw [hgraph.2.2]
      exact hspares.of_narrowsTo h.margin.1 h.margin.2 hnarrowed

/-- Steps that leave alone what is known of nodes. -/
theorem of_agree (h : Calm e covered done s)
    (hentries : Arena.AgreeOn (fun node => (node.term, node.ranges)) s.graph.arena s₁.graph.arena)
    (hgraph : s₁.graph.boundsEpoch = s.graph.boundsEpoch ∧ s₁.graph.roundBoundsEpoch = s.graph.roundBoundsEpoch ∧
      s₁.graph.settings = s.graph.settings) (hround : s₁.graph.roundEpoch = s.graph.roundEpoch)
    (hstore : s₁.store = s.store) : Calm e covered done s₁ := by
  have hback : ∀ n node₁, s₁.graph.arena.node? n = some node₁ → ∃ node, s.graph.arena.node? n = some node ∧
      node₁.kind = node.kind ∧ node₁.ranges = node.ranges := by
    intro n node₁ hnode₁
    obtain ⟨node, hnode, heq⟩ := hentries.symm.exists_node? hnode₁
    exact ⟨node, hnode, congrArg (·.1.1) heq.symm, congrArg Prod.snd heq.symm⟩
  refine h.of_entries (hentries.map Prod.fst) hgraph hstore (fun n node₁ hn hnode₁ => ?_) (fun _ => id)
    (fun n hn hnew => absurd hn hnew) fun n node₁ hnode₁ htag => ?_
  · obtain ⟨node, hnode, -, hranges⟩ := hback n node₁ hnode₁
    obtain ⟨-, node', hnode', -, hnonempty⟩ := h.computed n hn
    obtain rfl := Option.some.inj (hnode.symm.trans hnode')
    have hactivity : node₁.activity = node.activity := congrArg (·.1.1) hranges
    have htag : node₁.activityTag = node.activityTag := congrArg (·.1.2) hranges
    exact ⟨node, hnode, htag, hactivity ▸ .refl _, hactivity ▸ hnonempty⟩
  · obtain ⟨node, hnode, hkind, hranges⟩ := hback n node₁ hnode₁
    have hactivity : node₁.activity = node.activity := congrArg (·.1.1) hranges
    have hbounds : node₁.propBounds = node.propBounds := congrArg (·.2.1) hranges
    have hprop : node₁.propTag = node.propTag := congrArg (·.2.2) hranges
    rw [hkind, hactivity, hbounds]
    exact h.propagated n node hnode (hprop ▸ htag.trans hround)

omit [LinearScalar α] in
/-- A fresh node gets covered when its operands are. -/
theorem visited (h : Calm e covered done s) (hnode : s.graph.arena.node? n = some node) (hfresh : node.activityTag = e)
    (hnonempty : node.activity.isEmpty = false) (hops : ∀ c, s.graph.arena.IsOperand c n → covered c) :
    Calm e (fun m => m = n ∨ covered m) done s where
  boundsEpoch_eq := h.boundsEpoch_eq
  roundBoundsEpoch_eq := h.roundBoundsEpoch_eq
  margin := h.margin
  computed m hm := by
    rcases hm with rfl | hm
    · exact ⟨.intro m fun c hc => (h.computed c (hops c hc)).1, node, hnode, hfresh, hnonempty⟩
    · exact h.computed m hm
  propagated m node hm htag := (h.propagated m node hm htag).imp_left Or.inr
  confirmed c hc := (h.confirmed c hc).imp_left Or.inr

/-- A node that is not fresh gets covered when it is computed again. -/
theorem recomputed (h : Calm e covered done s) (hnode : s.graph.arena.node? n = some node)
    (hstale : node.activityTag ≠ e) (hx : x.isEmpty = false) (hops : ∀ c, s.graph.arena.IsOperand c n → covered c)
    (reported : Op → Bool) (records : List (LogRecord α)) (stats : PropagationStats) :
    Calm e (fun m => m = n ∨ covered m) done (s.recomputed n x reported records stats) := by
  have hnew : ¬ covered n := by
    intro hn
    obtain ⟨-, node', hnode', htag, -⟩ := h.computed n hn
    obtain rfl := Option.some.inj (hnode.symm.trans hnode')
    exact hstale htag
  have hother : ∀ m, m ≠ n → (s.recomputed n x reported records stats).graph.arena.node? m = s.graph.arena.node? m := by
    intro m hm
    rw [node?_recomputed, if_neg hm]
  have hself : (s.recomputed n x reported records stats).graph.arena.node? n =
      some { node with activity := x, activityTag := s.graph.boundsEpoch } := by
    rw [node?_recomputed, if_pos rfl, hnode]
    rfl
  refine h.of_entries (.of_modify fun _ => rfl) ⟨rfl, rfl, rfl⟩ rfl (fun m node₁ hm hnode₁ => ?_) (fun m => Or.inr)
    (fun m hm hm' => ?_) fun m node₁ hnode₁ htag => ?_
  · rw [hother m fun heq => hnew (heq ▸ hm)] at hnode₁
    obtain ⟨-, node', hnode', -, hnonempty⟩ := h.computed m hm
    obtain rfl := Option.some.inj (hnode₁.symm.trans hnode')
    exact ⟨node₁, hnode₁, rfl, .refl _, hnonempty⟩
  · obtain rfl := hm.resolve_right hm'
    exact ⟨.intro m fun c hc => (h.computed c (hops c hc)).1, _, hself, h.boundsEpoch_eq, hx⟩
  · by_cases hmn : m = n
    · subst hmn
      rw [hself] at hnode₁
      obtain rfl := Option.some.inj hnode₁
      exact absurd (h.propagated m node hnode htag).1 hnew
    · rw [hother m hmn] at hnode₁
      exact (h.propagated m node₁ hnode₁ htag).imp_left Or.inr

omit [LinearScalar α] in
theorem isUsable (h : Calm e covered done s) (hn : covered n) (hnode : s.graph.arena.node? n = some node) :
    s.graph.isUsable node = true ∧ node.activityTag = e ∧ node.activity.isEmpty = false := by
  obtain ⟨-, node', hnode', htag, hnonempty⟩ := h.computed n hn
  obtain rfl := Option.some.inj (hnode.symm.trans hnode')
  refine ⟨?_, htag, hnonempty⟩
  rw [Graph.isUsable, h.roundBoundsEpoch_eq, htag]
  exact decide_eq_true (Nat.le_refl e)

/-- What is known of a covered node is what is known without the bounds propagated onto it. -/
theorem exists_ownBounds (h : Calm e covered done s) (hn : covered n)
    (hknown : currentBounds s.graph s.store n = .ok known) : s.graph.arena.isAlive n = true ∧
      ∃ entry, s.graph.arena.node? n = some entry ∧ s.graph.ownBounds s.store entry = .ok known := by
  obtain ⟨halive, entry, hentry, base, hbase, rfl⟩ := currentBounds_eq_ok_iff.mp hknown
  refine ⟨halive, entry, hentry, ?_⟩
  rw [Graph.entryBounds?]
  split_ifs with htag
  · -- the activity has been met with the bounds propagated onto the node
    obtain ⟨-, hinner, hnarrows⟩ := h.propagated n entry hentry htag
    obtain ⟨husable, -, hnonempty⟩ := h.isUsable hn hentry
    rw [Graph.ownBounds_of_isLeaf hinner, if_pos husable] at hbase ⊢
    obtain rfl := Except.ok.inj hbase
    exact congrArg Except.ok (hnarrows.inter_eq_left hnonempty).symm
  · exact hbase

omit [LinearScalar α] in
theorem confirm {c : Constraint α} (h : Calm e covered done s) (hroot : covered c.root) (hc : s.Confirms c) :
    Calm e covered (fun c' => c' = c ∨ done c') s where
  boundsEpoch_eq := h.boundsEpoch_eq
  roundBoundsEpoch_eq := h.roundBoundsEpoch_eq
  margin := h.margin
  computed := h.computed
  propagated := h.propagated
  confirmed c' hc' := hc'.elim (fun heq => heq ▸ ⟨hroot, hc⟩) (h.confirmed c')

/-- Writing bounds down on a node with operands narrows its activity to them. -/
theorem written (h : Calm e covered done s) (known : Interval α) (hn : covered n) (hnode : s.graph.arena.node? n = some node)
    (hinner : node.kind.isLeaf = false) (hnarrows : node.activity.NarrowsTo x) (hx : x.isEmpty = false) :
    Calm e covered done (s.written n known x) ∧ ∃ node₁, (s.written n known x).graph.arena.node? n = some node₁ ∧
      node₁.kind = node.kind ∧ node₁.activity = x := by
  obtain ⟨husable, -, -⟩ := h.isUsable hn hnode
  have hother : ∀ m, m ≠ n → (s.written n known x).graph.arena.node? m = s.graph.arena.node? m := fun m hm =>
    (Arena.node?_modify ..).trans (if_neg hm)
  have hself : (s.written n known x).graph.arena.node? n = some { node with
      propBounds := x, propTag := s.graph.roundEpoch, activity := x } := by
    refine (Arena.node?_modify ..).trans ?_
    rw [if_pos rfl, hnode, Option.map_some, if_pos husable, hnarrows.inter_eq hx]
  refine ⟨h.of_entries (.of_modify fun _ => rfl) ⟨rfl, rfl, rfl⟩ rfl (fun m node₁ hm hnode₁ => ?_) (fun _ => id)
    (fun m hm hnew => absurd hm hnew) fun m node₁ hnode₁ htag => ?_, _, hself, rfl, rfl⟩
  · by_cases hmn : m = n
    · subst hmn
      rw [hself] at hnode₁
      obtain rfl := Option.some.inj hnode₁
      exact ⟨node, hnode, rfl, hnarrows, hx⟩
    · rw [hother m hmn] at hnode₁
      exact ⟨node₁, hnode₁, rfl, .refl _, (h.isUsable hm hnode₁).2.2⟩
  · by_cases hmn : m = n
    · subst hmn
      rw [hself] at hnode₁
      obtain rfl := Option.some.inj hnode₁
      exact ⟨hn, hinner, .refl _⟩
    · rw [hother m hmn] at hnode₁
      exact h.propagated m node₁ hnode₁ htag

/-- **Tightening a covered node** confirms the constraint, or changes a domain. -/
theorem tightens {t : Tightened} (h : Calm e covered done s) (hn : covered n) (hlast : e ≤ s.graph.epochs.last)
    (hthreshold : s.store.minTightening = 0) (ht : Tightens n x s t s₁) (hfeasible : t.infeasible = false) :
    e < s₁.graph.boundsEpoch ∨ Calm e covered (fun c => c = ⟨n, x⟩ ∨ done c) s₁ := by
  cases ht with
  | disjoint => cases hfeasible
  | kept hknown hempty htight =>
    rename_i known
    obtain ⟨halive, entry, hentry, hown⟩ := h.exists_ownBounds hn hknown
    exact Or.inr (h.confirm hn ⟨halive, entry, known, hentry, hown, Interval.isEmpty_left_of_inter hempty,
      (Interval.spares_iff h.margin.1 hempty).mpr htight⟩)
  | taken hknown hempty htight hentry hpass =>
    rename_i known entry
    obtain ⟨halive, entry', hentry', hown⟩ := h.exists_ownBounds hn hknown
    obtain rfl := Option.some.inj (hentry.symm.trans hentry')
    have hstrict := Interval.narrowsStrictlyTo_inter h.margin.1 hempty htight
    rcases hleaf : entry.kind.isLeaf with _ | _
    · -- a node with operands
      obtain ⟨husable, -, -⟩ := h.isUsable hn hentry
      rw [Graph.ownBounds_of_isLeaf hleaf, if_pos husable] at hown
      obtain rfl := Except.ok.inj hown
      obtain ⟨hwritten, node₁, hnode₁, hkind₁, hactivity₁⟩ :=
        h.written entry.activity hn hentry hleaf hstrict.toNarrowsTo hempty
      obtain ⟨hentries, hgraph, hround, hstore⟩ := hpass.agree_of_isLeaf hleaf
      have hcalm := hwritten.of_agree hentries hgraph hround hstore
      obtain ⟨node₂, hnode₂, heq⟩ := hentries.exists_node? hnode₁
      have hkind₂ : node₂.kind = entry.kind := (congrArg (·.1.1) heq).trans hkind₁
      have hactivity₂ : node₂.activity = entry.activity.inter x := (congrArg (·.2.1.1) heq).trans hactivity₁
      refine Or.inr (hcalm.confirm hn ⟨?_, node₂, entry.activity.inter x, hnode₂, ?_, hempty, ?_⟩)
      · have hrefs : Arena.AgreeOn (·.refs) s.graph.arena
            (s.written n entry.activity (entry.activity.inter x)).graph.arena := .of_modify fun _ => rfl
        rwa [(hentries.map (·.1.2.2)).isAlive_eq, hrefs.isAlive_eq]
      · rw [Graph.ownBounds_of_isLeaf (hkind₂ ▸ hleaf), if_pos (hcalm.isUsable hn hnode₂).1, hactivity₂]
      · rw [hgraph.2.2]
        exact Interval.spares_inter hempty _
    · -- nothing can be tightened at a constant, and tightening a variable changes its domain
      cases hpass with
      | tightened => exact Or.inl (Nat.lt_succ_of_le hlast)
      | unchanged hkind hstore =>
        rename_i v store
        rw [Graph.ownBounds, hkind] at hown
        obtain rfl := Except.ok.inj hown
        have htightened := BoundTable.tighten_of_narrowsStrictlyTo hthreshold hempty hstrict
        change (BoundTable.tighten s.store v _) = _ at hstore
        rw [hstore] at htightened
        cases htightened
      | refused => cases hfeasible
      | constant hkind =>
        rename_i c
        rw [Graph.ownBounds, hkind] at hown
        obtain rfl := Interval.eq_of_point hown
        rw [Interval.inter_point_eq hempty] at hstrict
        exact absurd hstrict (Interval.not_narrowsStrictlyTo_self _)
      | waiting hinner | lined hinner =>
        rw [hleaf] at hinner
        cases hinner

end Calm

/-- A state of a round that began with the bounds of the epoch `e`. It is calm, unless a domain was changed since. -/
structure Steady (e : Nat) (covered : NodeId → Prop) (done : Constraint α → Prop)
    (s : Propagation (BoundTable α) α) : Prop where
  threshold_eq : s.store.minTightening = 0
  last_le : e ≤ s.graph.epochs.last
  closed : ∀ n c, covered n → s.graph.arena.IsOperand c n → covered c
  lined : ∀ n ∈ s.propagator.queue.toList, covered n
  calm : e < s.graph.boundsEpoch ∨ Calm e covered done s

/-- Tightening keeps the epochs, or gives out a new one for the bounds. -/
theorem Tightens.epochs_cases {n : NodeId} {x : Interval α} {s s₁ : Propagation (BoundTable α) α} {t : Tightened}
    (ht : Tightens n x s t s₁) :
    s₁.graph.epochs = s.graph.epochs ∧ s₁.graph.boundsEpoch = s.graph.boundsEpoch ∨
      s₁.graph.epochs.last = s.graph.epochs.last + 1 ∧ s₁.graph.boundsEpoch = s.graph.epochs.last + 1 := by
  cases ht with
  | disjoint | kept => exact Or.inl ⟨rfl, rfl⟩
  | taken hknown hempty htight hentry hpass =>
    cases hpass with
    | tightened => exact Or.inr ⟨rfl, rfl⟩
    | _ => exact Or.inl ⟨rfl, rfl⟩

/-- The threshold of a table is not changed. -/
theorem Tightens.minTightening_eq {n : NodeId} {x : Interval α} {s s₁ : Propagation (BoundTable α) α} {t : Tightened}
    (ht : Tightens n x s t s₁) : s₁.store.minTightening = s.store.minTightening := by
  have htable : ∀ {v y store change}, BoundTable.tighten s.store v y = (store, change) →
      store.minTightening = s.store.minTightening := by
    intro v y store change hstore
    rw [BoundTable.tighten] at hstore
    split_ifs at hstore
    all_goals
      cases hstore
      rfl
  cases ht with
  | disjoint | kept => rfl
  | taken hknown hempty htight hentry hpass =>
    cases hpass with
    | tightened hkind hstore | unchanged hkind hstore | refused hkind hstore => exact htable hstore
    | _ => rfl

namespace Steady

variable {e : Nat} {covered : NodeId → Prop} {done done' : Constraint α → Prop} {n root : NodeId}
  {s s₁ : Propagation (BoundTable α) α} {x : Interval α}

theorem mono (h : Steady e covered done s) (hdone : ∀ c, done' c → done c) : Steady e covered done' s :=
  ⟨h.threshold_eq, h.last_le, h.closed, h.lined, h.calm.imp_right fun hcalm =>
    { hcalm with confirmed := fun c hc => hcalm.confirmed c (hdone c hc) }⟩

variable [LinearScalar α]

/-- Steps that leave alone what is known of nodes. -/
theorem of_agree (h : Steady e covered done s)
    (hentries : Arena.AgreeOn (fun node => (node.term, node.ranges)) s.graph.arena s₁.graph.arena)
    (hgraph : s₁.graph.boundsEpoch = s.graph.boundsEpoch ∧ s₁.graph.roundBoundsEpoch = s.graph.roundBoundsEpoch ∧
      s₁.graph.settings = s.graph.settings) (hround : s₁.graph.roundEpoch = s.graph.roundEpoch)
    (hepochs : s₁.graph.epochs = s.graph.epochs) (hstore : s₁.store = s.store)
    (hqueue : ∀ n ∈ s₁.propagator.queue.toList, n ∈ s.propagator.queue.toList) : Steady e covered done s₁ where
  threshold_eq := hstore ▸ h.threshold_eq
  last_le := hepochs ▸ h.last_le
  closed := by
    rw [(hentries.map (·.1.2.1)).isOperand_eq]
    exact h.closed
  lined n hn := h.lined n (hqueue n hn)
  calm := by
    rw [hgraph.1]
    exact h.calm.imp_right fun hcalm => hcalm.of_agree hentries hgraph hround hstore

/-- **Tightening a covered node** confirms the constraint. -/
theorem tightens {t : Tightened} (h : Steady e covered done s) (hn : covered n) (ht : Tightens n x s t s₁)
    (hfeasible : t.infeasible = false) : Steady e covered (fun c => c = ⟨n, x⟩ ∨ done c) s₁ := by
  have hat := ht.tightensAt
  refine ⟨ht.minTightening_eq.trans h.threshold_eq, ?_, ?_, fun m hm => ?_, ?_⟩
  · rcases ht.epochs_cases with ⟨hepochs, -⟩ | ⟨hlast, -⟩
    · exact hepochs ▸ h.last_le
    · exact hlast ▸ Nat.le_succ_of_le h.last_le
  · rw [hat.terms.children.isOperand_eq]
    exact h.closed
  · rcases hat.queue m hm with hm | ⟨rfl, -⟩
    · exact h.lined m hm
    · exact hn
  · rcases h.calm with hlt | hcalm
    · rcases ht.epochs_cases with ⟨-, hepoch⟩ | ⟨-, hepoch⟩
      · exact Or.inl (hepoch ▸ hlt)
      · exact Or.inl (hepoch ▸ Nat.lt_succ_of_le h.last_le)
    · exact hcalm.tightens hn h.last_le h.threshold_eq ht hfeasible

/-- Reverse propagation keeps a state steady, as it goes down from covered nodes only. -/
theorem preserves (e : Nat) (covered : NodeId → Prop) (done : Constraint α → Prop) :
    Preserves covered (Steady e covered done) fun _ => True where
  takenOut {s n queue} h hpop := by
    have hqueue := Fifo.pop?_eq_some hpop
    refine ⟨h.of_agree (.of_modify fun _ => rfl) ⟨rfl, rfl, rfl⟩ rfl rfl rfl fun m hm => ?_, fun c => h.closed n c ?_⟩
    · exact hqueue ▸ List.mem_cons_of_mem n hm
    · exact h.lined n (hqueue ▸ List.mem_cons_self ..)
  noted _ _ _ _ h := h.of_agree (.refl _ _) ⟨rfl, rfl, rfl⟩ rfl rfl rfl fun _ => id
  tightens {s n x t s'} h hn ht := by
    split_ifs with hinfeasible
    exact (h.tightens hn ht (Bool.eq_false_iff.mpr hinfeasible)).mono fun _ => Or.inr
  stop _ := trivial

omit [LinearScalar α] in
/-- A node is covered after its operands. -/
theorem cover (h : Steady e covered done s) (hops : ∀ c, s.graph.arena.IsOperand c n → covered c)
    (hchildren : Arena.AgreeOn (·.children) s.graph.arena s₁.graph.arena)
    (hepochs : s₁.graph.epochs = s.graph.epochs ∧ s₁.graph.boundsEpoch = s.graph.boundsEpoch)
    (hstore : s₁.store = s.store) (hqueue : s₁.propagator.queue = s.propagator.queue)
    (hcalm : Calm e covered done s → Calm e (fun m => m = n ∨ covered m) done s₁) :
    Steady e (fun m => m = n ∨ covered m) done s₁ where
  threshold_eq := hstore ▸ h.threshold_eq
  last_le := hepochs.1 ▸ h.last_le
  closed m c hm hc := by
    rw [hchildren.isOperand_eq] at hc
    rcases hm with rfl | hm
    · exact Or.inr (hops c hc)
    · exact Or.inr (h.closed m c hm hc)
  lined m hm := Or.inr (h.lined m (hqueue ▸ hm))
  calm := by
    rw [hepochs.2]
    exact h.calm.imp_right hcalm

/-- A forward pass covers the nodes that it visits. -/
theorem refreshes (e : Nat) (covered : NodeId → Prop) (done : Constraint α → Prop) (root : NodeId) :
    Refreshes root false (fun _ => True)
      (fun seen _ (s : Propagation (BoundTable α) α) => Steady e (fun n => covered n ∨ seen n) done s)
      (fun _ _ => True) where
  meets {n rest seen count s} h _ _ hops _ := by
    have hcover : (fun m => covered m ∨ m = n ∨ seen m) = fun m => m = n ∨ covered m ∨ seen m :=
      funext fun m => propext or_left_comm
    rw [hcover]
    have hops' : ∀ c, s.graph.arena.IsOperand c n → covered c ∨ seen c := fun c hc => Or.inr (hops c hc)
    refine meets_refresh (Or.inr fun _ => trivial) (Or.inr fun _ => trivial) (fun entry hn _ hfresh => ?_)
      fun entry hn hstale => ?_
    · refine ⟨⟨.refl _ _, rfl⟩, ?_⟩
      split_ifs with hempty
      · exact meets_bind.mpr trivial
      · refine h.cover hops' (.refl _ _) ⟨rfl, rfl⟩ rfl rfl fun hcalm => ?_
        refine hcalm.visited hn ?_ (Bool.eq_false_iff.mpr hempty) hops'
        exact (of_decide_eq_true hfresh).trans hcalm.boundsEpoch_eq
    · rcases s.graph.rangeOver (BoundStore.bounds s.store) entry.kind
        (entry.children.map s.graph.activityAt) with err | x
      · exact trivial
      intro count reported records stats
      refine ⟨sameWay_recomputed s n _ reported records stats, ?_⟩
      split_ifs with hempty
      · exact meets_bind.mpr trivial
      · refine h.cover hops' (.of_modify fun _ => rfl) ⟨rfl, rfl⟩ rfl rfl fun hcalm => ?_
        refine hcalm.recomputed hn (fun htag => ?_) (Bool.eq_false_iff.mpr hempty) hops' reported records stats
        have hfresh : s.graph.isFresh entry = true := decide_eq_true (htag.trans hcalm.boundsEpoch_eq.symm)
        rcases hstale with hforced | hstale
        · cases hforced
        · rw [hfresh] at hstale
          cases hstale
  walked_J h hwalked := by
    refine h.of_agree (hwalked.agree.map fun node => (node.term, node.ranges)) ?_ ?_ ?_ rfl fun _ => id
    all_goals rw [hwalked.rest_eq]
    exact ⟨rfl, rfl, rfl⟩
  walked_K _ _ := trivial

theorem meets_forward (h : Steady e covered done s) (root : NodeId) (htags : s.graph.TagsGiven) :
    Meets (forward root false) s (fun _ => True) fun r s' => r.infeasible = false →
      Steady e (fun n => covered n ∨ s.graph.arena.Below n root) done s' := by
  have hnone : (fun n => covered n ∨ False) = covered := funext fun n => or_false _
  have hstart : Steady e (fun n => covered n ∨ False) done s := by rwa [hnone]
  refine (Propagation.meets_forward (refreshes e covered done root) hstart htags (Or.inr fun _ => trivial)
    (Or.inr fun _ => trivial)).imp fun r s' hr hfeasible => ?_
  obtain ⟨-, -, hr⟩ := hr
  rw [if_neg (Bool.eq_false_iff.mp hfeasible)] at hr
  obtain ⟨-, seen, hseen, hsteady⟩ := hr
  rwa [funext fun n => propext (hseen n)] at hsteady

/-- **Taking a constraint** confirms it, unless there is a contradiction. -/
theorem meets_applyConstraint (h : Steady e covered done s) (c : Constraint α) (htags : s.graph.TagsGiven) :
    Meets (applyConstraint c) s (fun _ => True) fun t s' => t.infeasible = false →
      ∃ covered', Steady e covered' (fun c' => c' = c ∨ done c') s' := by
  rw [applyConstraint]
  refine (h.meets_forward c.root htags).bind fun forwarded s₁ h₁ => ?_
  split_ifs with hcontradiction₁
  · exact meets_pure.mpr (by simp)
  specialize h₁ (Bool.eq_false_iff.mpr hcontradiction₁)
  refine ((meets_tighten_cases c.root c.bounds).mono (fun _ _ => trivial) fun _ _ ht => ht).bind fun t s₂ ht => ?_
  split_ifs with hcontradiction₂
  · exact meets_pure.mpr (by simp)
  have h₂ := h₁.tightens (Or.inr (.refl _ _)) ht (Bool.eq_false_iff.mpr hcontradiction₂)
  refine ((preserves e _ _).meets_drain h₂).bind fun drained s₃ h₃ => meets_pure.mpr fun hfeasible => ?_
  rw [if_neg (Bool.eq_false_iff.mp hfeasible)] at h₃
  exact ⟨_, h₃.1⟩

theorem meets_applyConstraints (h : Steady e covered done s) (cs : List (Constraint α)) (count : Nat)
    (hdated : s.graph.Dated) (htags : s.graph.TagsGiven) :
    Meets (applyConstraints cs count) s (fun _ => True) fun t s' => t.infeasible = false →
      ∃ covered', Steady e covered' (fun c => c ∈ cs ∨ done c) s' := by
  induction cs generalizing s covered done count with
  | nil => exact meets_pure.mpr fun _ => ⟨covered, h.mono fun c hc => hc.resolve_left List.not_mem_nil⟩
  | cons c cs ih =>
    refine ((h.meets_applyConstraint c htags).and (keeps_applyConstraint c s hdated htags)).bind fun t s₁ hs₁ => ?_
    obtain ⟨h₁, hprop⟩ := hs₁
    split_ifs with hcontradiction
    · exact meets_pure.mpr (by simp)
    obtain ⟨covered', h₁⟩ := h₁ (Bool.eq_false_iff.mpr hcontradiction)
    refine (ih h₁ _ hprop.dated hprop.tagsGiven).imp fun t s' h' hfeasible => ?_
    obtain ⟨covered'', h'⟩ := h' hfeasible
    refine ⟨covered'', h'.mono fun c' hc' => ?_⟩
    rwa [List.mem_cons, or_assoc, or_left_comm] at hc'

omit [LinearScalar α] in
/-- A round begins with nothing covered. -/
theorem opened (hdated : s.graph.Dated) (hthreshold : s.store.minTightening = 0)
    (hmargin : 0 ≤ s.graph.settings.minTightening ∧ s.graph.settings.minTightening ≤ 1) (stats : PropagationStats) :
    Steady s.graph.boundsEpoch (fun _ => False) (fun _ => False)
      { s with graph := s.graph.opened, propagator := ⟨.empty, false, stats⟩ } where
  threshold_eq := hthreshold
  last_le := Nat.le_succ_of_le hdated.boundsEpoch_le
  closed _ _ hn _ := hn.elim
  lined := nofun
  calm := by
    refine Or.inr ⟨rfl, rfl, hmargin, fun _ hn => hn.elim, fun n node hn htag => ?_, fun _ hc => hc.elim⟩
    exact absurd htag (hdated.propTag_ne_of_opened hn)

/-- **A round** that ends without a contradiction and changes no domain is calm at its end, with all constraints
confirmed. -/
theorem meets_round (constraints : List (Constraint α)) (number : Nat) (hdated : s.graph.Dated)
    (htags : s.graph.TagsGiven) (hthreshold : s.store.minTightening = 0)
    (hmargin : 0 ≤ s.graph.settings.minTightening ∧ s.graph.settings.minTightening ≤ 1) :
    Meets (round constraints number) s (fun _ => True) fun t s' => t.infeasible = false →
      ∃ covered, Steady s.graph.boundsEpoch covered (· ∈ constraints) s' := by
  have hopened : s.graph.Propagated s.graph.opened := keeps_beginRound s hdated htags
  rw [round, meets_bind, meets_beginRound]
  simp only [meets_bind, meets_modifyStats, meets_record, meets_pure]
  refine (meets_applyConstraints (opened hdated hthreshold hmargin _) constraints 0 hopened.dated
    hopened.tagsGiven).imp fun t s' h hfeasible => ?_
  obtain ⟨covered, h⟩ := h hfeasible
  refine ⟨covered, (h.mono fun c => Or.inl).of_agree (.refl _ _) ⟨rfl, rfl, rfl⟩ rfl rfl rfl fun _ => id⟩

end Steady

end Propagation

end IntervalDag
