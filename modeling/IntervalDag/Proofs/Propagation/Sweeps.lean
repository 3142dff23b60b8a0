import IntervalDag.Proofs.Analysis.Expressions
import IntervalDag.Proofs.Propagation.Settling
import IntervalDag.Proofs.Scalar.Rounding
import IntervalDag.Proofs.Walk.Commons

/-!
# Sweeps

A forward pass over a graph onto which nothing was propagated is the evaluation of intervals from the bottom up.
`Graph.rangeAt` is that evaluation as a recursion over operands, without a walk and without caches.

What a pass leaves behind is said by `Propagation.Swept`: the nodes of a set were given the range over the activities
of their operands and were counted once each, and all else is as it was. The set is that of all nodes below the root,
or that of the stale ones among them (`Propagation.meets_forward_swept`).
-/

namespace IntervalDag

variable {σ α : Type} [Scalar α]

namespace Graph

/-! ### Evaluation from the bottom up -/

/-- The ranges of operands from left to right. What comes after an empty one is not looked at. -/
def upToEmpty : List (Checked α (Interval α)) → Checked α (List (Interval α))
  | [] => .ok []
  | r :: rs => do
    let x ← r
    if x.isEmpty then return [x]
    return x :: (← upToEmpty rs)

/-- The range of a node, from those of its operands. -/
def rangeAt (g : Graph α) (h : g.arena.Acyclic) (vars : VarId → Interval α) (n : NodeId) :
    Checked α (Interval α) := do
  g.rangeOver vars (g.kindAt n) (← upToEmpty ((g.arena.operands n).attach.map fun c => g.rangeAt h vars c.1))
termination_by h.wrap n
decreasing_by exact c.2

variable {g : Graph α} {h : g.arena.Acyclic} {vars : VarId → Interval α} {n root : NodeId}

theorem rangeAt_eq (n : NodeId) : g.rangeAt h vars n =
    upToEmpty ((g.arena.operands n).map (g.rangeAt h vars)) >>= g.rangeOver vars (g.kindAt n) := by
  rw [rangeAt, List.attach_map_val]

variable {rs : List (Checked α (Interval α))} {i : Nat} {x : Interval α} {e : Fault α}

/-- The ranges are looked at up to the first one that is a fault. -/
theorem upToEmpty_of_error (hi : rs[i]? = some (.error e))
    (hleft : ∀ j r, j < i → rs[j]? = some r → ∃ x, r = .ok x ∧ x.isEmpty = false) :
    upToEmpty rs = .error e := by
  induction rs generalizing i with
  | nil => cases hi
  | cons r rs ih =>
    cases i with
    | zero =>
      obtain rfl := Option.some.inj hi
      rfl
    | succ i =>
      obtain ⟨x, rfl, hx⟩ := hleft 0 r (Nat.succ_pos i) rfl
      rw [upToEmpty, Checked.ok_bind, if_neg (Bool.eq_false_iff.mp hx),
        ih hi fun j r hj hr => hleft (j + 1) r (Nat.succ_lt_succ hj) hr]
      rfl

/-- The ranges are looked at up to the first one that is empty. -/
theorem upToEmpty_of_isEmpty (hi : rs[i]? = some (.ok x)) (hx : x.isEmpty = true)
    (hleft : ∀ j r, j < i → rs[j]? = some r → ∃ x, r = .ok x ∧ x.isEmpty = false) :
    ∃ xs, upToEmpty rs = .ok xs ∧ xs.any (·.isEmpty) = true := by
  induction rs generalizing i with
  | nil => cases hi
  | cons r rs ih =>
    cases i with
    | zero =>
      obtain rfl := Option.some.inj hi
      refine ⟨[x], ?_, by simpa using hx⟩
      rw [upToEmpty, Checked.ok_bind, if_pos hx]
      rfl
    | succ i =>
      obtain ⟨y, rfl, hy⟩ := hleft 0 r (Nat.succ_pos i) rfl
      obtain ⟨xs, hxs, hany⟩ := ih hi fun j r hj hr => hleft (j + 1) r (Nat.succ_lt_succ hj) hr
      refine ⟨y :: xs, ?_, by rw [List.any_cons, hany, Bool.or_true]⟩
      rw [upToEmpty, Checked.ok_bind, if_neg (Bool.eq_false_iff.mp hy), hxs]
      rfl

/-- Without faults, all ranges are looked at unless one is empty. -/
theorem upToEmpty_map_ok (xs : List (Interval α)) : ∃ ys, upToEmpty (xs.map .ok) = .ok ys ∧
    ys.any (·.isEmpty) = xs.any (·.isEmpty) ∧ (xs.any (·.isEmpty) = false → ys = xs) := by
  induction xs with
  | nil => exact ⟨[], rfl, rfl, fun _ => rfl⟩
  | cons x xs ih =>
    obtain ⟨ys, hys, hany, heq⟩ := ih
    rw [List.map_cons, upToEmpty, Checked.ok_bind]
    cases hx : x.isEmpty with
    | true => exact ⟨[x], rfl, by simp [hx], by simp [hx]⟩
    | false =>
      rw [hys]
      exact ⟨x :: ys, rfl, by simp [hx, hany], fun hxs => by rw [heq (by simpa [hx] using hxs)]⟩

/-- **The equation of the evaluation.** The range of a node is made of those of its operands, as far as these are no
faults; it is empty if one of them is. -/
theorem rangeAt_eq_rangeOver {f : NodeId → Interval α}
    (hops : ∀ c, g.arena.IsOperand c n → g.rangeAt h vars c = .ok (f c)) :
    g.rangeAt h vars n = g.rangeOver vars (g.kindAt n) ((g.arena.operands n).map f) := by
  have hranges : (g.arena.operands n).map (g.rangeAt h vars) = ((g.arena.operands n).map f).map .ok := by
    rw [List.map_map]
    exact List.map_congr_left hops
  obtain ⟨ys, hys, hany, heq⟩ := upToEmpty_map_ok ((g.arena.operands n).map f)
  rw [rangeAt_eq, hranges, hys, Checked.ok_bind, rangeOver, rangeOver, hany]
  split_ifs with hempty
  · rfl
  · rw [heq (Bool.eq_false_iff.mpr hempty)]

/-- What holds of a node and is passed on by the first operand that it holds of holds of the root. -/
theorem rangeAt_of_pending {P : Checked α (Interval α) → Prop} {seen : NodeId → Prop} {rest : List (NodeId × Nat)}
    (hP : ∀ kind (rs : List (Checked α (Interval α))) (i : Nat) r, rs[i]? = some r → P r →
      (∀ j r, j < i → rs[j]? = some r → ∃ x, r = .ok x ∧ x.isEmpty = false) →
      P (upToEmpty rs >>= g.rangeOver vars kind))
    (hpending : Pending g.arena.operands seen root n rest)
    (hseen : ∀ m, seen m → ∃ x, g.rangeAt h vars m = .ok x ∧ x.isEmpty = false) (hn : P (g.rangeAt h vars n)) :
    P (g.rangeAt h vars root) := by
  induction hpending with
  | root => exact hn
  | child _ hop hleft ih =>
    refine ih ?_
    rw [rangeAt_eq]
    refine hP _ _ _ _ (by rw [List.getElem?_map, hop]; rfl) hn fun j r hj hr => ?_
    rw [List.getElem?_map, Option.map_eq_some_iff] at hr
    obtain ⟨d, hd, rfl⟩ := hr
    exact hseen d (hleft j d hj hd)

/-- **The first fault decides.** Everything to the left of the way down to it has a range with values. -/
theorem rangeAt_eq_error {seen : NodeId → Prop} {rest : List (NodeId × Nat)}
    (hpending : Pending g.arena.operands seen root n rest)
    (hseen : ∀ m, seen m → ∃ x, g.rangeAt h vars m = .ok x ∧ x.isEmpty = false)
    (hn : g.rangeAt h vars n = .error e) : g.rangeAt h vars root = .error e := by
  refine rangeAt_of_pending (P := (· = .error e)) (fun kind rs i r hi hr hleft => ?_) hpending hseen hn
  subst hr
  rw [upToEmpty_of_error hi hleft]
  rfl

/-- **Emptiness is handed up.** -/
theorem rangeAt_isEmpty [ThresholdScalar α] {seen : NodeId → Prop} {rest : List (NodeId × Nat)}
    (hpending : Pending g.arena.operands seen root n rest)
    (hseen : ∀ m, seen m → ∃ x, g.rangeAt h vars m = .ok x ∧ x.isEmpty = false)
    (hn : ∃ x, g.rangeAt h vars n = .ok x ∧ x.isEmpty = true) :
    ∃ x, g.rangeAt h vars root = .ok x ∧ x.isEmpty = true := by
  refine rangeAt_of_pending (P := fun r => ∃ x, r = .ok x ∧ x.isEmpty = true) (fun kind rs i r hi hr hleft => ?_)
    hpending hseen hn
  obtain ⟨x, rfl, hx⟩ := hr
  obtain ⟨xs, hxs, hany⟩ := upToEmpty_of_isEmpty hi hx hleft
  refine ⟨.empty, ?_, decide_eq_true ThresholdScalar.negInf_lt_posInf⟩
  rw [hxs, Checked.ok_bind, rangeOver, if_pos hany]

/-- The activity of a node was not computed from the current bounds. -/
def IsStale (g : Graph α) (n : NodeId) : Prop := ∃ node, g.arena.node? n = some node ∧ g.isFresh node = false

/-- A pass has to compute the activity of the node. -/
def IsDue (g : Graph α) (force : Bool) (n : NodeId) : Prop := force = true ∨ g.IsStale n

end Graph

namespace Propagation

/-! ### What a pass leaves behind -/

section

variable [BoundStore σ α]

/-- The node has the range over the activities of its operands, computed from the current bounds. -/
def Evaluated (s₀ s : Propagation σ α) (n : NodeId) : Prop :=
  ∃ node x, s₀.graph.arena.node? n = some node ∧
    s₀.graph.rangeOver (BoundStore.bounds s₀.store) node.kind (node.children.map s.graph.activityAt) = .ok x ∧
    (s.graph.arena.node? n).map Node.bare =
      some { node.bare with activity := x, activityTag := s₀.graph.boundsEpoch }

/-- Exactly the nodes of a set were evaluated, once each, and all else is as it was, but for what walks and handlers
note for themselves. -/
structure Swept (s₀ : Propagation σ α) (nodes : NodeId → Prop) (s : Propagation σ α) : Prop where
  terms : s₀.graph.SameTerms s.graph
  boundsEpoch_eq : s.graph.boundsEpoch = s₀.graph.boundsEpoch
  roundEpoch_eq : s.graph.roundEpoch = s₀.graph.roundEpoch
  store_eq : s.store = s₀.store
  evaluated : ∀ n, nodes n → s₀.Evaluated s n
  untouched : ∀ n, ¬ nodes n → (s.graph.arena.node? n).map Node.bare = (s₀.graph.arena.node? n).map Node.bare
  /-- the queue and the flag stay, and so do the other counters -/
  propagator_eq : s.propagator = { s₀.propagator with stats := { s₀.propagator.stats with
    forwardEvals := s₀.propagator.stats.forwardEvals + {n | nodes n}.ncard } }

namespace Swept

variable {s₀ s : Propagation σ α} {nodes nodes' : NodeId → Prop} {n : NodeId} {node : Node α} {x : Interval α}

theorem refl (s : Propagation σ α) : Swept s (fun _ => False) s where
  terms := .refl _
  boundsEpoch_eq := rfl
  roundEpoch_eq := rfl
  store_eq := rfl
  evaluated _ := False.elim
  untouched _ _ := rfl
  propagator_eq := by simp

theorem congr (h : Swept s₀ nodes s) (hnodes : ∀ n, nodes n ↔ nodes' n) : Swept s₀ nodes' s := by
  obtain rfl : nodes = nodes' := funext fun n => propext (hnodes n)
  exact h

theorem finite (h : Swept s₀ nodes s) : {n | nodes n}.Finite := by
  refine (Set.finite_lt_nat s₀.graph.arena.capacity).subset fun n hn => ?_
  obtain ⟨node, x, hnode, -⟩ := h.evaluated n hn
  exact Arena.lt_capacity_of_node? hnode

/-- What walks keep does not matter. -/
theorem walked (h : Swept s₀ nodes s) {g : Graph α} (hwalked : Graph.Walked s.graph g) :
    Swept s₀ nodes { s with graph := g } := by
  have hactivity : g.activityAt = s.graph.activityAt := funext fun m =>
    (hwalked.agree.map Node.activity).elim_eq m .entire
  refine ⟨h.terms.trans (.of_walked hwalked), ?_, ?_, h.store_eq, fun n hn => ?_, fun n hn => ?_, h.propagator_eq⟩
  · rw [← h.boundsEpoch_eq, hwalked.rest_eq]
  · rw [← h.roundEpoch_eq, hwalked.rest_eq]
  · obtain ⟨node, x, hnode, hx, hbare⟩ := h.evaluated n hn
    exact ⟨node, x, hnode, hactivity ▸ hx, (hwalked.agree n).trans hbare⟩
  · exact (hwalked.agree n).trans (h.untouched n hn)

/-- A node that was not evaluated has the entry it had. -/
theorem exists_node? (h : Swept s₀ nodes s) (hn : s.graph.arena.node? n = some node) (hnew : ¬ nodes n) :
    ∃ node₀, s₀.graph.arena.node? n = some node₀ ∧ node₀.bare = node.bare := by
  have hbare := h.untouched n hnew
  rw [hn] at hbare
  exact Option.map_eq_some_iff.mp hbare.symm

/-- **One more node is evaluated**, which none of those evaluated before uses. -/
theorem recomputed (h : Swept s₀ nodes s) (hn : s.graph.arena.node? n = some node) (hnew : ¬ nodes n)
    (hunused : ∀ m, m = n ∨ nodes m → ¬ s₀.graph.arena.IsOperand n m)
    (hx : s.graph.rangeOver (BoundStore.bounds s.store) node.kind (node.children.map s.graph.activityAt) = .ok x)
    (reported : Op → Bool) (records : List (LogRecord α)) :
    Swept s₀ (fun m => m = n ∨ nodes m) (s.recomputed n x reported records s.propagator.stats.evaluated) where
  terms := h.terms.trans (sameTerms_recomputed s n x reported records _)
  boundsEpoch_eq := h.boundsEpoch_eq
  roundEpoch_eq := h.roundEpoch_eq
  store_eq := h.store_eq
  evaluated m hm := by
    have hactivities : ∀ node₀, s₀.graph.arena.node? m = some node₀ → node₀.children.map
        (s.recomputed n x reported records s.propagator.stats.evaluated).graph.activityAt =
          node₀.children.map s.graph.activityAt := fun node₀ hnode₀ => List.map_congr_left fun c hc => by
      rw [activityAt_recomputed (Arena.lt_capacity_of_node? hn), if_neg]
      rintro rfl
      exact hunused m hm ((Arena.isOperand_iff hnode₀).mpr hc)
    by_cases hmn : m = n
    · subst hmn
      obtain ⟨node₀, hnode₀, hbare⟩ := h.exists_node? hn hnew
      have hkind := congrArg Node.kind hbare
      have hchildren := congrArg Node.children hbare
      change node₀.kind = node.kind at hkind
      change node₀.children = node.children at hchildren
      refine ⟨node₀, x, hnode₀, ?_, ?_⟩
      · rw [hactivities node₀ hnode₀, hkind, hchildren, ← hx, h.store_eq]
        simp only [Graph.rangeOver, h.terms.handlerFor_eq]
      · rw [node?_recomputed, if_pos rfl, hn, h.boundsEpoch_eq, hbare]
        rfl
    · obtain ⟨node₀, y, hnode₀, hy, hbare⟩ := h.evaluated m (hm.resolve_left hmn)
      refine ⟨node₀, y, hnode₀, by rwa [hactivities node₀ hnode₀], ?_⟩
      rw [node?_recomputed, if_neg hmn, hbare]
  untouched m hm := by
    rw [node?_recomputed, if_neg fun heq => hm (Or.inl heq)]
    exact h.untouched m fun hmem => hm (Or.inr hmem)
  propagator_eq := by
    have hcard : {m | m = n ∨ nodes m}.ncard = {m | nodes m}.ncard + 1 :=
      Set.ncard_insert_of_notMem hnew h.finite
    rw [hcard]
    change { s.propagator with stats := s.propagator.stats.evaluated } = _
    rw [h.propagator_eq]
    rfl

end Swept

/-! ### Passes -/

/-- The nodes seen by a pass lie below its root, and their operands were seen. -/
structure Explored (a : Arena α) (root : NodeId) (seen : NodeId → Prop) : Prop where
  below : ∀ m, seen m → a.Below m root
  closed : ∀ c m, seen m → a.IsOperand c m → seen c

omit [Scalar α] [BoundStore σ α] in
theorem Explored.visit {a : Arena α} {root n : NodeId} {seen : NodeId → Prop} (h : Explored a root seen)
    (hbelow : a.Below n root) (hops : ∀ c, a.IsOperand c n → seen c) :
    Explored a root fun m => m = n ∨ seen m where
  below m hm := hm.elim (fun heq => heq ▸ hbelow) (h.below m)
  closed c m hm hc := Or.inr (hm.elim (fun heq => hops c (heq ▸ hc)) fun hm => h.closed c m hm hc)

/-- A pass from the state `s₀` is under way. Of the nodes seen, it evaluated those that had to be. -/
structure Sweeping (s₀ : Propagation σ α) (root : NodeId) (force : Bool) (seen : NodeId → Prop)
    (s : Propagation σ α) : Prop extends Explored s₀.graph.arena root seen where
  nonempty : ∀ m, seen m → (s.graph.activityAt m).isEmpty = false
  swept : Swept s₀ (fun m => seen m ∧ s₀.graph.IsDue force m) s

/-- A pass from the state `s₀` ended at an empty activity. -/
structure Stopped (s₀ : Propagation σ α) (root : NodeId) (force : Bool) (hacyclic : s₀.graph.arena.Acyclic)
    (s : Propagation σ α) : Prop where
  infeasible : s.propagator.infeasible = true
  store_eq : s.store = s₀.store
  untouched : ∀ n, ¬ s₀.graph.arena.Below n root →
    (s.graph.arena.node? n).map Node.bare = (s₀.graph.arena.node? n).map Node.bare
  range : force = true → ∃ x, s₀.graph.rangeAt hacyclic (BoundStore.bounds s₀.store) root = .ok x ∧ x.isEmpty = true

namespace Sweeping

variable {s₀ s : Propagation σ α} {root n : NodeId} {force : Bool} {seen : NodeId → Prop} {node : Node α}
  {x : Interval α} {hacyclic : s₀.graph.arena.Acyclic}

/-- Where all nodes are evaluated, those seen have the ranges of the evaluation from the bottom up. -/
theorem rangeAt_eq (h : Sweeping s₀ root true seen s) {m : NodeId} (hm : seen m) :
    s₀.graph.rangeAt hacyclic (BoundStore.bounds s₀.store) m = .ok (s.graph.activityAt m) := by
  induction m using hacyclic.induction with
  | _ m ih =>
    obtain ⟨node, x, hnode, hx, hbare⟩ := h.swept.evaluated m ⟨hm, Or.inl rfl⟩
    obtain ⟨node', hnode', hbare⟩ := Option.map_eq_some_iff.mp hbare
    have hactivity : s.graph.activityAt m = x := by
      rw [Graph.activityAt, hnode']
      exact congrArg Node.activity hbare
    rw [Graph.rangeAt_eq_rangeOver fun c hc => ih c hc (h.closed c m hm hc), hactivity, ← hx, Graph.kindAt, hnode,
      Arena.operands_eq_of_node? hnode]
    rfl

/-- The range of the current node is made of the activities of its operands. -/
theorem rangeAt_current (h : Sweeping s₀ root true seen s) (hn : s.graph.arena.node? n = some node)
    (hops : ∀ c, s₀.graph.arena.IsOperand c n → seen c) :
    s₀.graph.rangeAt hacyclic (BoundStore.bounds s₀.store) n =
      s.graph.rangeOver (BoundStore.bounds s.store) node.kind (node.children.map s.graph.activityAt) := by
  obtain ⟨node₀, hnode₀, hkind, hchildren, -⟩ := h.swept.terms.symm.exists_node? hn
  rw [Graph.rangeAt_eq_rangeOver fun c hc => h.rangeAt_eq (hops c hc), Graph.kindAt, hnode₀,
    Arena.operands_eq_of_node? hnode₀, hchildren, h.swept.store_eq]
  simp only [Graph.rangeOver, h.swept.terms.handlerFor_eq, Option.elim_some, hkind]

/-- What has to be computed at the current node can be told from its entry. -/
theorem isDue_iff (h : Sweeping s₀ root force seen s) (hn : s.graph.arena.node? n = some node) (hnew : ¬ seen n) :
    s₀.graph.IsDue force n ↔ force = true ∨ s.graph.isFresh node = false := by
  obtain ⟨node₀, hnode₀, hbare⟩ := h.swept.exists_node? hn fun hmem => hnew hmem.1
  have htag := congrArg Node.activityTag hbare
  change node₀.activityTag = node.activityTag at htag
  have hfresh : s.graph.isFresh node = s₀.graph.isFresh node₀ := by
    rw [Graph.isFresh, Graph.isFresh, h.swept.boundsEpoch_eq, htag]
  rw [hfresh, Graph.IsDue, Graph.IsStale]
  simp [hnode₀]

/-- No bounds were propagated onto the current node. -/
theorem entryBounds?_eq_none (h : Sweeping s₀ root force seen s) (hn : s.graph.arena.node? n = some node)
    (hnew : ¬ seen n) (hquiet : s₀.graph.propBounds? n = .ok none) : s.graph.entryBounds? node = none := by
  obtain ⟨node₀, hnode₀, hbare⟩ := h.swept.exists_node? hn fun hmem => hnew hmem.1
  have htag := congrArg Node.propTag hbare
  change node₀.propTag = node.propTag at htag
  rw [Graph.propBounds?, Graph.node] at hquiet
  split_ifs at hquiet
  · rw [Arena.get_eq_ok_iff.mpr hnode₀] at hquiet
    have hnone : s₀.graph.entryBounds? node₀ = none := Except.ok.inj hquiet
    rw [Graph.entryBounds?, htag] at hnone
    rw [Graph.entryBounds?, h.swept.roundEpoch_eq, if_neg]
    intro heq
    rw [if_pos heq] at hnone
    cases hnone
  · cases hquiet

/-- The current node is kept, with an activity that is not empty. -/
theorem keep (h : Sweeping s₀ root force seen s) (hbelow : s₀.graph.arena.Below n root)
    (hops : ∀ c, s₀.graph.arena.IsOperand c n → seen c) (hdue : ¬ s₀.graph.IsDue force n)
    (hne : (s.graph.activityAt n).isEmpty = false) : Sweeping s₀ root force (fun m => m = n ∨ seen m) s where
  toExplored := h.visit hbelow hops
  nonempty m hm := hm.elim (fun heq => heq ▸ hne) (h.nonempty m)
  swept := h.swept.congr fun m => by
    constructor
    · exact fun ⟨hm, hd⟩ => ⟨Or.inr hm, hd⟩
    · rintro ⟨rfl | hm, hd⟩
      · exact absurd hd hdue
      · exact ⟨hm, hd⟩

/-- The current node is evaluated, its range not being empty. -/
theorem recomputed (h : Sweeping s₀ root force seen s) (hbelow : s₀.graph.arena.Below n root)
    (hops : ∀ c, s₀.graph.arena.IsOperand c n → seen c) (hdue : s₀.graph.IsDue force n)
    (hn : s.graph.arena.node? n = some node) (hnew : ¬ seen n)
    (hx : s.graph.rangeOver (BoundStore.bounds s.store) node.kind (node.children.map s.graph.activityAt) = .ok x)
    (hne : x.isEmpty = false) (reported : Op → Bool) (records : List (LogRecord α)) :
    Sweeping s₀ root force (fun m => m = n ∨ seen m)
      (s.recomputed n x reported records s.propagator.stats.evaluated) where
  toExplored := h.visit hbelow hops
  nonempty m hm := by
    rw [activityAt_recomputed (Arena.lt_capacity_of_node? hn)]
    split_ifs with hmn
    · exact hne
    · exact h.nonempty m (hm.resolve_left hmn)
  swept := by
    have hunused : ∀ m, m = n ∨ seen m ∧ s₀.graph.IsDue force m → ¬ s₀.graph.arena.IsOperand n m := by
      rintro m (rfl | ⟨hm, -⟩) hc
      · exact hnew (hops _ hc)
      · exact hnew (h.closed n m hm hc)
    refine (h.swept.recomputed hn (fun hmem => hnew hmem.1) hunused hx reported records).congr fun m => ?_
    constructor
    · rintro (rfl | ⟨hm, hd⟩)
      · exact ⟨Or.inl rfl, hdue⟩
      · exact ⟨Or.inr hm, hd⟩
    · rintro ⟨rfl | hm, hd⟩
      · exact Or.inl rfl
      · exact Or.inr ⟨hm, hd⟩

theorem walked (h : Sweeping s₀ root force seen s) {g : Graph α} (hwalked : Graph.Walked s.graph g) :
    Sweeping s₀ root force seen { s with graph := g } where
  toExplored := h.toExplored
  nonempty m hm := by
    have hactivity : g.activityAt m = s.graph.activityAt m := (hwalked.agree.map Node.activity).elim_eq m .entire
    change (g.activityAt m).isEmpty = false
    rw [hactivity]
    exact h.nonempty m hm
  swept := h.swept.walked hwalked

/-- The pass ends at the current node, which may have been given a new activity. -/
theorem stop {E : Fault α → Prop} (h : Sweeping s₀ root force seen s) (hbelow : s₀.graph.arena.Below n root)
    (s' : Propagation σ α)
    (hentries : ∀ m, m ≠ n → s'.graph.arena.node? m = s.graph.arena.node? m) (hstore : s'.store = s.store)
    (hrange : force = true →
      ∃ x, s₀.graph.rangeAt hacyclic (BoundStore.bounds s₀.store) root = .ok x ∧ x.isEmpty = true) :
    Meets (stopAt n) s' E fun _ s' => Stopped s₀ root force hacyclic s' := by
  simp only [stopAt, meets_bind, meets_record, meets_markInfeasible]
  refine ⟨rfl, hstore.trans h.swept.store_eq, fun m hm => ?_, hrange⟩
  refine (congrArg _ (hentries m ?_)).trans (h.swept.untouched m fun hmem => hm (h.below m hmem.1))
  rintro rfl
  exact hm hbelow

end Sweeping

/-- No bounds were propagated onto the nodes at or below a root in the current round. -/
def Quiet (s : Propagation σ α) (root : NodeId) : Prop :=
  ∀ n, s.graph.arena.Below n root → s.graph.propBounds? n = .ok none

omit [Scalar α] [BoundStore σ α] in
/-- It is enough that no entry has bounds of the current round. -/
theorem quiet_of_entries {s : Propagation σ α} {root : NodeId}
    (halive : ∀ m, s.graph.arena.Below m root → s.graph.arena.isAlive m = true)
    (hentries : ∀ n node, s.graph.arena.node? n = some node → s.graph.entryBounds? node = none) : s.Quiet root := by
  intro n hn
  obtain ⟨node, hnode, -⟩ := Arena.exists_node?_of_isAlive (halive n hn)
  rw [Graph.propBounds?, Graph.node, Graph.isAlive, if_pos (halive n hn), Arena.get_eq_ok_iff.mpr hnode]
  exact congrArg Except.ok (hentries n node hnode)

theorem refreshes_of_quiet [ThresholdScalar α] {s₀ : Propagation σ α} {root : NodeId} {force : Bool}
    (hacyclic : s₀.graph.arena.Acyclic)
    (halive : ∀ m, s₀.graph.arena.Below m root → s₀.graph.arena.isAlive m = true) (hquiet : s₀.Quiet root) :
    Refreshes root force
      (fun e => force = true → s₀.graph.rangeAt hacyclic (BoundStore.bounds s₀.store) root = .error e)
      (fun seen _ (s : Propagation σ α) => Sweeping s₀ root force seen s)
      (fun _ s => Stopped s₀ root force hacyclic s) where
  meets {n rest seen count s} h hbelow hnew hops hpending := by
    have hterms := h.swept.terms
    rw [hterms.children.operands_eq] at hpending
    rw [hterms.children.isOperand_eq] at hops
    have hbelow₀ : s₀.graph.arena.Below n root := hterms.children.below_eq ▸ hbelow
    have hin : ∀ m, s₀.graph.arena.Below m root → s.graph.arena.isAlive m = true := fun m hm => by
      rw [hterms.isAlive_eq]
      exact halive m hm
    have hseen (hforce : force = true) : ∀ m, seen m →
        ∃ x, s₀.graph.rangeAt hacyclic (BoundStore.bounds s₀.store) m = .ok x ∧ x.isEmpty = false := by
      subst hforce
      exact fun m hm => ⟨_, h.rangeAt_eq hm, h.nonempty m hm⟩
    refine meets_refresh_of_counted (Or.inl (hin n hbelow₀)) (Or.inl fun c hc => ?_) (fun node hn hforce hfresh => ?_)
      fun node hn hdo => ?_
    · rw [hterms.children.isOperand_eq] at hc
      exact Arena.lt_capacity_of_isAlive (hin c (hc.below.trans hbelow₀))
    · -- a fresh activity is kept; if it is empty, that ends the pass
      have hdue : ¬ s₀.graph.IsDue force n := by
        rw [h.isDue_iff hn hnew]
        simp [hforce, hfresh]
      have hactivity : s.graph.activityAt n = node.activity := by rw [Graph.activityAt, hn]; rfl
      refine ⟨⟨.refl _ _, rfl⟩, ?_⟩
      split_ifs with hempty
      · exact h.stop hbelow₀ s (fun _ _ => rfl) rfl (by simp [hforce])
      · exact h.keep hbelow₀ hops hdue (hactivity ▸ Bool.eq_false_iff.mpr hempty)
    · have hcurrent (hforce : force = true) : s₀.graph.rangeAt hacyclic (BoundStore.bounds s₀.store) n =
          s.graph.rangeOver (BoundStore.bounds s.store) node.kind (node.children.map s.graph.activityAt) := by
        subst hforce
        exact h.rangeAt_current hn hops
      cases hrange : s.graph.rangeOver (BoundStore.bounds s.store) node.kind
        (node.children.map s.graph.activityAt) with
      | error e =>
        exact fun hforce => Graph.rangeAt_eq_error hpending (hseen hforce) ((hcurrent hforce).trans hrange)
      | ok x =>
        intro count reported records _
        rw [h.entryBounds?_eq_none hn hnew (hquiet n hbelow₀)]
        refine ⟨sameWay_recomputed s n _ reported records _, ?_⟩
        change if x.isEmpty = true then _ else _
        split_ifs with hempty
        · refine h.stop hbelow₀ _ (fun m hm => ?_) rfl fun hforce => ?_
          · rw [node?_recomputed, if_neg hm]
          · exact Graph.rangeAt_isEmpty hpending (hseen hforce) ⟨x, (hcurrent hforce).trans hrange, hempty⟩
        · exact h.recomputed hbelow₀ hops ((h.isDue_iff hn hnew).mpr hdo) hn hnew hrange
            (Bool.eq_false_iff.mpr hempty) reported records
  walked_J h hwalked := h.walked hwalked
  walked_K {count s g} h hwalked := ⟨h.infeasible, h.store_eq, fun n hn => (hwalked.agree n).trans (h.untouched n hn),
    h.range⟩

/-- **What a pass over a quiet graph comes to.** It answers with the activity of the root and has evaluated the nodes
below it that had to be, or ended at an empty activity. If all are to be evaluated, faults and emptiness are those of
the evaluation from the bottom up. -/
theorem meets_forward_swept [ThresholdScalar α] {s : Propagation σ α} {root : NodeId} (force : Bool)
    (hacyclic : s.graph.arena.Acyclic) (halive : ∀ m, s.graph.arena.Below m root → s.graph.arena.isAlive m = true)
    (hquiet : s.Quiet root) (htags : s.graph.TagsGiven) (hslot : s.graph.walks.lowestFree? ≠ none) :
    Meets (forward root force) s
      (fun e => force = true → s.graph.rangeAt hacyclic (BoundStore.bounds s.store) root = .error e) fun f s' =>
        if f.infeasible then f.activity = .empty ∧ Stopped s root force hacyclic s'
        else f.activity = s'.graph.activityAt root ∧
          Sweeping s root force (fun m => s.graph.arena.Below m root) s' := by
  have hstart : Sweeping s root force (fun _ => False) s :=
    ⟨⟨fun _ => False.elim, fun _ _ => False.elim⟩, fun _ => False.elim, (Swept.refl s).congr fun m => by simp⟩
  have hgood : s.graph.Walkable root
      (fun e => force = true → s.graph.rangeAt hacyclic (BoundStore.bounds s.store) root = .error e) :=
    Or.inl ⟨hacyclic.apply root, fun m hm => Arena.lt_capacity_of_isAlive (halive m hm)⟩
  refine (meets_forward (refreshes_of_quiet hacyclic halive hquiet) hstart htags hgood (Or.inl hslot)).imp
    fun f s' hf => ?_
  obtain ⟨-, -, hf⟩ := hf
  split_ifs at hf ⊢
  · exact hf
  · obtain ⟨⟨node, hnode, hactivity⟩, seen, hseen, hsweeping⟩ := hf
    obtain rfl : seen = fun m => s.graph.arena.Below m root := funext fun m => propext (hseen m)
    refine ⟨?_, hsweeping⟩
    rw [hactivity, Graph.activityAt, hnode]
    rfl

end

end Propagation

namespace Commons

variable [BitPattern α] [NumberText α] [ThresholdScalar α]

/-- **Forced forward propagation is evaluation from the bottom up.** In any state that a run leads to, with any bound
store and before anything is propagated onto the nodes at or below a root, a pass that computes all activities answers
with the range of the root, faults included. It finds a contradiction if that range is empty. Otherwise each node below
the root has its own range for an activity, was counted once, and no other entry has changed. A pass that computes the
stale activities only evaluates just the nodes that were stale, as long as it finds no contradiction. -/
theorem forward_bottom_up (settings : Settings α) (identity : Nat) (table : BoundTable α) {cs : List (Command α)}
    {s : Commons α} {answers : List (Nat × Walk.Answer)} (hcs : (new settings identity table).PermitsAll cs)
    (hrun : (new settings identity table).serveAll cs = .ok (s, answers)) [BoundStore σ α] (p : Propagation σ α)
    (hgraph : p.graph = s.graph) (root : NodeId) (hroot : p.graph.isAlive root = true)
    (hslot : p.graph.walks.lowestFree? ≠ none) (hquiet : p.Quiet root) :
    ∃ hacyclic : p.graph.arena.Acyclic,
      (match p.graph.rangeAt hacyclic (BoundStore.bounds p.store) root with
        | .error e => ∃ p', (Propagation.forward root true).run p = .error e p'
        | .ok x => ∃ f p', (Propagation.forward root true).run p = .ok f p' ∧ f.infeasible = x.isEmpty ∧
          if x.isEmpty then f.activity = .empty ∧ p'.propagator.infeasible = true
          else f.activity = x ∧ p.Swept (fun n => p.graph.arena.Below n root) p' ∧
            ∀ n, p.graph.arena.Below n root →
              p.graph.rangeAt hacyclic (BoundStore.bounds p.store) n = .ok (p'.graph.activityAt n)) ∧
      ∀ f p', (Propagation.forward root false).run p = .ok f p' → f.infeasible = false →
        f.activity = p'.graph.activityAt root ∧
          p.Swept (fun n => p.graph.arena.Below n root ∧ p.graph.IsStale n) p' := by
  have horderly : s.Orderly := orderly_of_serveAll (orderly_new settings identity table) hrun
  have hsound := sound_of_serveAll (orderly_new settings identity table) (.empty settings identity) hcs hrun
  rw [← hgraph] at hsound
  have htags : p.graph.TagsGiven := hgraph ▸ horderly.ordered.tagsGiven
  have halive : ∀ m, p.graph.arena.Below m root → p.graph.arena.isAlive m = true := fun m hm =>
    hsound.counted.isAlive_of_below hm hroot
  refine ⟨hsound.acyclic, ?_, fun f p' hforward hfeasible => ?_⟩
  · have hmeets := Propagation.meets_iff_run.mp
      (Propagation.meets_forward_swept true hsound.acyclic halive hquiet htags hslot)
    cases hforward : (Propagation.forward root true).run p with
    | error e p' =>
      rw [hforward] at hmeets
      rw [hmeets rfl]
      exact ⟨p', rfl⟩
    | ok f p' =>
      rw [hforward] at hmeets
      cases hinfeasible : f.infeasible with
      | true =>
        obtain ⟨hactivity, hstopped⟩ := (if_pos hinfeasible).mp hmeets
        obtain ⟨x, hx, hempty⟩ := hstopped.range rfl
        rw [hx]
        refine ⟨f, p', rfl, hinfeasible.trans hempty.symm, ?_⟩
        rw [if_pos hempty]
        exact ⟨hactivity, hstopped.infeasible⟩
      | false =>
        obtain ⟨hactivity, hsweeping⟩ := (if_neg (Bool.eq_false_iff.mp hinfeasible)).mp hmeets
        have hempty := hsweeping.nonempty root (.refl _ _)
        rw [hsweeping.rangeAt_eq (.refl _ _)]
        refine ⟨f, p', rfl, hinfeasible.trans hempty.symm, ?_⟩
        rw [if_neg (Bool.eq_false_iff.mp hempty)]
        exact ⟨hactivity, hsweeping.swept.congr fun m => by simp [Graph.IsDue], fun n hn => hsweeping.rangeAt_eq hn⟩
  · have hmeets := Propagation.meets_iff_run.mp
      (Propagation.meets_forward_swept false hsound.acyclic halive hquiet htags hslot)
    rw [hforward] at hmeets
    simp only [hfeasible, Bool.false_eq_true, if_false] at hmeets
    exact ⟨hmeets.1, hmeets.2.swept.congr fun m => by simp [Graph.IsDue]⟩

/-- A number, its magnitude and their sum, with a spare node beside them. -/
theorem forward_bottom_up_of_sum :
    let cs : List (Command Float) :=
      [.work (.request (.value (-2))), .work (.request (.apply .abs 0 rfl)),
        .work (.request (.add (.sum [1, 1] 0) [0, 1])), .work (.request (.value 7)), .work (.call .beginRound)]
    ∃ s answers, (new default 0 (.ofList [])).PermitsAll cs ∧
      (new default 0 (.ofList [])).serveAll cs = .ok (s, answers) ∧ s.graph.isAlive 2 = true ∧
      s.graph.walks.lowestFree? ≠ none ∧ s.workspace.state.Quiet 2 ∧
      ∃ f p', (Propagation.forward 2 true).run s.workspace.state = .ok f p' ∧ f.infeasible = false ∧
        s.workspace.state.Swept (fun n => s.graph.arena.Below n 2) p' := by
  intro cs
  have hcs : (new default 0 (.ofList [])).PermitsAll cs := by decide +kernel
  have hread : ((new default 0 (.ofList [])).serveAll cs).toOption.map (fun (s, _) =>
      (s.graph.isAlive 2, s.graph.walks.lowestFree?.isSome,
        s.graph.arena.nodes.toList.all (s.graph.entryBounds? · |>.isNone),
        ((Propagation.forward 2 true).run' s.workspace.state).map Forwarded.infeasible)) =
      some (true, true, true, some false) := by
    decide +kernel
  obtain ⟨⟨s, answers⟩, hrun, hread⟩ := Checked.exists_ok_of_toOption hread
  simp only [Prod.mk.injEq, List.all_eq_true, Option.map_eq_some_iff] at hread
  obtain ⟨hroot, hslot, hentries, f, hreturns, hfeasible⟩ := hread
  have hslot : s.graph.walks.lowestFree? ≠ none := Option.isSome_iff_ne_none.mp hslot
  have hsound := sound_of_serveAll (orderly_new default 0 (.ofList [])) (.empty default 0) hcs hrun
  have hquiet : s.workspace.state.Quiet 2 :=
    Propagation.quiet_of_entries (fun m hm => hsound.counted.isAlive_of_below hm hroot) fun n node hnode =>
      Option.isNone_iff_eq_none.mp (hentries node (Array.mem_toList_iff.mpr (Array.mem_of_getElem? hnode)))
  refine ⟨s, answers, hcs, hrun, hroot, hslot, hquiet, ?_⟩
  obtain ⟨p', hforward⟩ := Propagation.exists_run_of_result hreturns
  obtain ⟨hacyclic, hforced, -⟩ :=
    forward_bottom_up default 0 (.ofList []) hcs hrun s.workspace.state rfl 2 hroot hslot hquiet
  split at hforced
  · obtain ⟨p'', herror⟩ := hforced
    cases hforward.symm.trans herror
  · obtain ⟨f', p'', hforward', hinfeasible, hforced⟩ := hforced
    cases hforward.symm.trans hforward'
    rw [if_neg (Bool.eq_false_iff.mp (hinfeasible.symm.trans hfeasible))] at hforced
    exact ⟨f, p', hforward, hfeasible, hforced.2.1⟩

end Commons

end IntervalDag
