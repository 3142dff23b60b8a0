import IntervalDag.Proofs.Propagation.Frames

/-!
# What a forward pass comes to

A forward pass settles every node below its root, operands first and from left to right: each gets a range,
unless the pass ends there with a fault or with a contradiction. `Graph.Settles` says what a node settles to by
recursion over the expression, without a walk and without caching. A fresh activity is taken over, unless all
are to be computed again.

`meets_forward_settles`: as long as no bounds were propagated in the current round, the pass answers with what
the root settles to. The first node that is not given a range decides for all nodes above it, because the walk
has been everywhere to the left of the way down to it (`Graph.Settles.of_pending`).
-/

namespace IntervalDag

variable {σ α : Type}

/-- What a node settles to. -/
inductive Settled (α : Type) where
  /-- The pass ends in a fault. -/
  | fault
  /-- The pass ends at an empty activity. -/
  | contradiction
  /-- The node has an activity. -/
  | range (x : Interval α)

namespace Settled

/-- An empty activity is a contradiction. -/
def ofInterval [Scalar α] (x : Interval α) : Settled α := if x.isEmpty then .contradiction else .range x

theorem ofInterval_ne_fault [Scalar α] (x : Interval α) : ofInterval x ≠ .fault := by
  unfold ofInterval
  split
  · nofun
  · nofun

/-- One empty activity is as good as another. -/
theorem ofInterval_eq_iff [Scalar α] {x y : Interval α} :
    ofInterval x = ofInterval y ↔ x = y ∨ x.isEmpty = true ∧ y.isEmpty = true := by
  unfold ofInterval
  constructor
  · intro h
    split at h
    · rename_i hx
      split at h
      · rename_i hy
        exact Or.inr ⟨hx, hy⟩
      · cases h
    · split at h
      · cases h
      · exact Or.inl (Settled.range.inj h)
  · rintro (rfl | ⟨hx, hy⟩)
    · rfl
    · rw [if_pos hx, if_pos hy]

/-- What a node settles to whose operands settle like this, from left to right, and which makes `own` of
their ranges. -/
def combine : List (Settled α) → (List (Interval α) → Settled α) → Settled α
  | [], own => own []
  | .range x :: rest, own => combine rest fun xs => own (x :: xs)
  | bad :: _, _ => bad

theorem combine_map_range {ι : Type} (xs : List ι) (f : ι → Interval α) (own : List (Interval α) → Settled α) :
    combine (xs.map fun i => .range (f i)) own = own (xs.map f) := by
  induction xs generalizing own with
  | nil => rfl
  | cons x xs ih => exact ih fun ys => own (f x :: ys)

/-- The first operand without a range decides. -/
theorem combine_eq_of_first {ops : List (Settled α)} {i : Nat} {bad : Settled α} (hi : ops[i]? = some bad)
    (hbad : ∀ x, bad ≠ .range x) (hleft : ∀ j r, j < i → ops[j]? = some r → ∃ x, r = .range x)
    (own : List (Interval α) → Settled α) : combine ops own = bad := by
  induction ops generalizing i own with
  | nil => cases hi
  | cons r rest ih =>
    cases i with
    | zero =>
      obtain rfl : r = bad := Option.some.inj hi
      cases r with
      | range x => exact absurd rfl (hbad x)
      | fault => rfl
      | contradiction => rfl
    | succ i =>
      obtain ⟨x, rfl⟩ := hleft 0 r (Nat.succ_pos i) rfl
      exact ih hi (fun j r hj hr => hleft (j + 1) r (Nat.succ_lt_succ hj) hr) _

/-- The operands decide together with what is made of their ranges. -/
theorem combine_cases (ops : List (Settled α)) (own : List (Interval α) → Settled α) :
    (∃ xs : List (Interval α), ops = xs.map .range ∧ combine ops own = own xs) ∨
      ∃ r ∈ ops, (∀ x, r ≠ .range x) ∧ ∀ own', combine ops own' = r := by
  induction ops generalizing own with
  | nil => exact Or.inl ⟨[], rfl, rfl⟩
  | cons r rest ih =>
    cases r with
    | range x =>
      rcases ih fun xs => own (x :: xs) with ⟨xs, hxs, hown⟩ | ⟨r, hr, hbad, hall⟩
      · exact Or.inl ⟨x :: xs, by rw [hxs]; rfl, hown⟩
      · exact Or.inr ⟨r, List.mem_cons_of_mem _ hr, hbad, fun own' => hall _⟩
    | fault => exact Or.inr ⟨.fault, List.mem_cons_self .., nofun, fun _ => rfl⟩
    | contradiction => exact Or.inr ⟨.contradiction, List.mem_cons_self .., nofun, fun _ => rfl⟩

/-- What a caller sees of a pass: nothing after a fault, an empty activity with a contradiction. -/
def answer [Scalar α] : Settled α → Option (Interval α × Bool)
  | .fault => none
  | .contradiction => some (.empty, true)
  | .range x => some (x, false)

theorem answer_injective [Scalar α] {r r' : Settled α} (h : r.answer = r'.answer) : r = r' := by
  cases r <;> cases r' <;> simp_all [answer]

end Settled

namespace Graph

variable [Scalar α]

/-- What a node settles to whose operands have these ranges. -/
def settleOwn (g : Graph α) (vars : VarId → Interval α) (force : Bool) (node : Node α)
    (operands : List (Interval α)) : Settled α :=
  if force || !g.isFresh node then
    match g.rangeOver vars node.kind operands with
    | .error _ => .fault
    | .ok x => .ofInterval x
  else .ofInterval node.activity

/-- What a node settles to in a pass without bounds propagated before. -/
inductive Settles (g : Graph α) (vars : VarId → Interval α) (force : Bool) : NodeId → Settled α → Prop where
  | node {n : NodeId} {node : Node α} (ops : NodeId → Settled α) (hn : g.arena.node? n = some node)
      (hops : ∀ c ∈ node.children, Settles g vars force c (ops c)) :
      Settles g vars force n (.combine (node.children.map ops) (g.settleOwn vars force node))

namespace Settles

variable {g : Graph α} {vars : VarId → Interval α} {force : Bool} {n root : NodeId} {r r' bad : Settled α}

theorem unique (h : Settles g vars force n r) (h' : Settles g vars force n r') : r = r' := by
  induction h generalizing r' with
  | node ops hn _ ih =>
    cases h' with
    | node ops' hn' hops' =>
      rw [hn] at hn'
      cases hn'
      rw [List.map_congr_left fun c hc => ih c hc (hops' c hc)]

/-- Where every way down ends inside the arena, nodes settle. -/
theorem exists_of_acc (hacc : Acc g.arena.IsOperand n) (hin : ∀ m, g.arena.Below m n → m < g.arena.capacity) :
    ∃ r, Settles g vars force n r := by
  induction hacc with
  | intro n _ ih =>
    obtain ⟨node, hn⟩ : ∃ node, g.arena.node? n = some node := by
      rcases hn : g.arena.node? n with _ | node
      · exact absurd (hin n (.refl _ _)) (Nat.not_lt.mpr (Arena.node?_eq_none_iff.mp hn))
      · exact ⟨node, rfl⟩
    have hop : ∀ c ∈ node.children, g.arena.IsOperand c n := fun c hc => by
      rwa [Arena.isOperand_iff hn]
    have hex : ∀ c, ∃ r, c ∈ node.children → Settles g vars force c r := by
      intro c
      by_cases hc : c ∈ node.children
      · obtain ⟨r, hr⟩ := ih c (hop c hc) fun m hm => hin m (hm.trans (Arena.IsOperand.below (hop c hc)))
        exact ⟨r, fun _ => hr⟩
      · exact ⟨.fault, fun h => absurd h hc⟩
    choose ops hops using hex
    exact ⟨_, .node ops hn hops⟩

/-- What lies below a node that settles does so, too. -/
theorem exists_of_below (h : Settles g vars force n r) {m : NodeId} (hm : g.arena.Below m n) :
    ∃ r', Settles g vars force m r' := by
  induction hm using Relation.ReflTransGen.head_induction_on with
  | refl => exact ⟨r, h⟩
  | head hop _ ih =>
    obtain ⟨_, hc⟩ := ih
    cases hc with
    | node ops hn hops =>
      rw [Arena.isOperand_iff hn] at hop
      exact ⟨_, hops _ hop⟩

/-- **The first node without a range decides.** Everything to the left of the way down to it has one. -/
theorem of_pending {seen : NodeId → Prop} {rest : List (NodeId × Nat)}
    (h : Pending g.arena.operands seen root n rest) (hseen : ∀ m, seen m → ∃ x, Settles g vars force m (.range x))
    (hn : Settles g vars force n bad) (hbad : ∀ x, bad ≠ .range x) (hroot : Settles g vars force root r) :
    r = bad := by
  induction h with
  | root => exact hroot.unique hn
  | child h hop hleft ih =>
    rename_i m n c rest
    refine ih ?_
    obtain ⟨rm, hm⟩ := hroot.exists_of_below h.below_root
    cases hm with
    | node ops hnode hops =>
      rw [Arena.operands_eq_of_node? hnode] at hop hleft
      rename_i node
      have hself : (node.children.map ops)[c]? = some bad := by
        rw [List.getElem?_map, hop, Option.map_some, (hops n (List.mem_of_getElem? hop)).unique hn]
      have hfirst := Settled.combine_eq_of_first hself hbad (fun j r hj hr => by
        rw [List.getElem?_map, Option.map_eq_some_iff] at hr
        obtain ⟨d, hd, rfl⟩ := hr
        obtain ⟨x, hx⟩ := hseen d (hleft j d hj hd)
        exact ⟨x, (hops d (List.mem_of_getElem? hd)).unique hx⟩) (g.settleOwn vars force node)
      rw [← hfirst]
      exact .node ops hnode hops

end Settles

end Graph

namespace Propagation

variable [Scalar α] [BoundStore σ α]

omit [Scalar α] [BoundStore σ α] in
theorem sameTerms_recomputed (s : Propagation σ α) (n : NodeId) (x : Interval α) (reported : Op → Bool)
    (records : List (LogRecord α)) (stats : PropagationStats) :
    s.graph.SameTerms (s.recomputed n x reported records stats).graph :=
  ⟨.of_modify fun _ => rfl, rfl, rfl, rfl, rfl, rfl⟩

omit [BoundStore σ α] in
theorem activityAt_recomputed {s : Propagation σ α} {n : NodeId} (hn : n < s.graph.arena.capacity)
    (m : NodeId) (x : Interval α) (reported : Op → Bool) (records : List (LogRecord α))
    (stats : PropagationStats) :
    (s.recomputed n x reported records stats).graph.activityAt m =
      if m = n then x else s.graph.activityAt m := by
  rw [Graph.activityAt, node?_recomputed]
  split
  · rename_i hm
    rcases hentry : s.graph.arena.node? m with _ | entry
    · exact absurd (hm ▸ hn) (Nat.not_lt.mpr (Arena.node?_eq_none_iff.mp hentry))
    · rfl
  · rfl

/-- A forward pass from the state `s₀` is under way. The nodes seen have the activities that they settle to,
and all others have theirs from the start. -/
structure Settling (s₀ : Propagation σ α) (force : Bool) (seen : NodeId → Prop) (s : Propagation σ α) :
    Prop where
  terms : s₀.graph.SameTerms s.graph
  boundsEpoch_eq : s.graph.boundsEpoch = s₀.graph.boundsEpoch
  roundEpoch_eq : s.graph.roundEpoch = s₀.graph.roundEpoch
  store_eq : s.store = s₀.store
  propTags : Arena.AgreeOn (·.propTag) s₀.graph.arena s.graph.arena
  range : ∀ m, seen m → s₀.graph.Settles (BoundStore.bounds s₀.store) force m (.range (s.graph.activityAt m))
  rest : ∀ m, ¬ seen m → (s.graph.arena.node? m).map (fun node => (node.activity, node.activityTag)) =
    (s₀.graph.arena.node? m).map fun node => (node.activity, node.activityTag)

namespace Settling

variable {s₀ s : Propagation σ α} {force : Bool} {seen : NodeId → Prop} {n root : NodeId} {entry : Node α}

/-- The current node settles to what is made of the activities of its operands. -/
theorem settles (h : Settling s₀ force seen s) (hn : s.graph.arena.node? n = some entry) (hnew : ¬ seen n)
    (hops : ∀ c, s.graph.arena.IsOperand c n → seen c) :
    s₀.graph.Settles (BoundStore.bounds s₀.store) force n
      (s.graph.settleOwn (BoundStore.bounds s.store) force entry (entry.children.map s.graph.activityAt)) := by
  obtain ⟨entry₀, hn₀, hkind, hchildren, -⟩ := h.terms.symm.exists_node? hn
  have hrest := h.rest n hnew
  rw [hn, hn₀] at hrest
  simp only [Option.map_some, Option.some.injEq, Prod.mk.injEq] at hrest
  have hown : s.graph.settleOwn (BoundStore.bounds s.store) force entry =
      s₀.graph.settleOwn (BoundStore.bounds s₀.store) force entry₀ := by
    funext operands
    simp only [Graph.settleOwn, Graph.isFresh, Graph.rangeOver, h.terms.handlerFor_eq, h.boundsEpoch_eq,
      h.store_eq, hkind, hrest.1, hrest.2]
  rw [hown, ← hchildren, ← Settled.combine_map_range entry₀.children s.graph.activityAt
    (s₀.graph.settleOwn (BoundStore.bounds s₀.store) force entry₀)]
  refine .node _ hn₀ fun c hc => h.range c (hops c ?_)
  rwa [Arena.isOperand_iff hn, ← hchildren]

/-- The current node is kept, with an activity that is not empty. -/
theorem keep (h : Settling s₀ force seen s)
    (hn : s₀.graph.Settles (BoundStore.bounds s₀.store) force n (.range (s.graph.activityAt n))) :
    Settling s₀ force (fun m => m = n ∨ seen m) s where
  terms := h.terms
  boundsEpoch_eq := h.boundsEpoch_eq
  roundEpoch_eq := h.roundEpoch_eq
  store_eq := h.store_eq
  propTags := h.propTags
  range m hm := hm.elim (fun hmn => hmn ▸ hn) (h.range m)
  rest m hm := h.rest m fun hs => hm (Or.inr hs)

/-- The current node is given an activity that is not empty. -/
theorem recomputed (h : Settling s₀ force seen s) (hlt : n < s.graph.arena.capacity)
    {x : Interval α} (hn : s₀.graph.Settles (BoundStore.bounds s₀.store) force n (.range x))
    (reported : Op → Bool) (records : List (LogRecord α)) (stats : PropagationStats) :
    Settling s₀ force (fun m => m = n ∨ seen m) (s.recomputed n x reported records stats) where
  terms := h.terms.trans (sameTerms_recomputed s n x reported records stats)
  boundsEpoch_eq := h.boundsEpoch_eq
  roundEpoch_eq := h.roundEpoch_eq
  store_eq := h.store_eq
  propTags := h.propTags.trans (.of_modify fun _ => rfl)
  range m hm := by
    rw [activityAt_recomputed hlt]
    split
    · rename_i hmn
      exact hmn ▸ hn
    · exact h.range m (hm.resolve_left ‹_›)
  rest m hm := by
    rw [node?_recomputed, if_neg fun hmn => hm (Or.inl hmn)]
    exact h.rest m fun hs => hm (Or.inr hs)

/-- No bounds were propagated onto any node in the current round. -/
theorem entryBounds?_eq_none (h : Settling s₀ force seen s)
    (hbounds : ∀ n node, s₀.graph.arena.node? n = some node → node.propTag ≠ s₀.graph.roundEpoch)
    (hn : s.graph.arena.node? n = some entry) : s.graph.entryBounds? entry = none := by
  obtain ⟨entry₀, hn₀, htag⟩ := h.propTags.symm.exists_node? hn
  rw [Graph.entryBounds?, h.roundEpoch_eq, ← htag]
  exact if_neg (hbounds n entry₀ hn₀)

/-- A current node that is not given a range decides for the root. -/
theorem decides (h : Settling s₀ force seen s) {r bad : Settled α} {rest : List (NodeId × Nat)}
    (hroot : s₀.graph.Settles (BoundStore.bounds s₀.store) force root r)
    (hpending : Pending s.graph.arena.operands seen root n rest)
    (hn : s₀.graph.Settles (BoundStore.bounds s₀.store) force n bad) (hbad : ∀ x, bad ≠ .range x) :
    s₀.graph.Settles (BoundStore.bounds s₀.store) force root bad := by
  rw [h.terms.children.operands_eq] at hpending
  rw [← Graph.Settles.of_pending hpending (fun m hm => ⟨_, h.range m hm⟩) hn hbad hroot]
  exact hroot

/-- Walking on settles nothing. -/
theorem walked (h : Settling s₀ force seen s) {g : Graph α} (hwalked : Graph.Walked s.graph g) :
    Settling s₀ force seen { s with graph := g } := by
  have hactivity : g.activityAt = s.graph.activityAt := funext fun m =>
    (hwalked.agree.map Node.activity).elim_eq m .entire
  refine ⟨h.terms.trans (.of_walked hwalked), ?_, ?_, h.store_eq,
    h.propTags.trans (hwalked.agree.map Node.propTag), fun m hm => ?_, fun m hm => ?_⟩
  · rw [← h.boundsEpoch_eq, hwalked.rest_eq]
  · rw [← h.roundEpoch_eq, hwalked.rest_eq]
  · rw [hactivity]
    exact h.range m hm
  · rw [← h.rest m hm]
    exact (hwalked.agree.map fun node => (node.activity, node.activityTag)) m

end Settling

/-- Visiting a node settles it, or decides what the root settles to. -/
theorem refreshes_of_settles {s₀ : Propagation σ α} {root : NodeId} {force : Bool}
    (hroot : ∃ r, s₀.graph.Settles (BoundStore.bounds s₀.store) force root r)
    (halive : ∀ m, s₀.graph.arena.Below m root → s₀.graph.arena.isAlive m = true)
    (hbounds : ∀ n node, s₀.graph.arena.node? n = some node → node.propTag ≠ s₀.graph.roundEpoch) :
    Refreshes root force
      (fun _ => s₀.graph.Settles (BoundStore.bounds s₀.store) force root .fault)
      (fun seen _ (s : Propagation σ α) => Settling s₀ force seen s)
      (fun _ _ => s₀.graph.Settles (BoundStore.bounds s₀.store) force root .contradiction) where
  meets {n rest seen count s} h hbelow hnew hops hpending := by
    obtain ⟨r, hroot⟩ := hroot
    have hin : ∀ m, s.graph.arena.Below m root → s.graph.arena.isAlive m = true := fun m hm => by
      rw [h.terms.children.below_eq] at hm
      rw [h.terms.isAlive_eq]
      exact halive m hm
    refine meets_refresh (Or.inl (hin n hbelow)) (Or.inl fun c hc => ?_) (fun entry hn hforce hfresh => ?_)
      fun entry hn hdo => ?_
    · exact Arena.lt_capacity_of_isAlive (hin c (hc.below.trans hbelow))
    · -- a fresh activity is kept; if it is empty, that ends the pass
      have hsettles := h.settles hn hnew hops
      rw [Graph.settleOwn, if_neg (by simp [hforce, hfresh]), Settled.ofInterval] at hsettles
      refine ⟨⟨.refl _ _, rfl⟩, ?_⟩
      split at hsettles
      · rename_i hempty
        rw [if_pos hempty]
        exact meets_bind.mpr (h.decides hroot hpending hsettles (by simp))
      · rename_i hempty
        rw [if_neg hempty]
        refine h.keep ?_
        rw [Graph.activityAt, hn]
        exact hsettles
    · -- otherwise the handler's fault or the new activity is what the node settles to
      have hsettles := h.settles hn hnew hops
      rw [Graph.settleOwn, if_pos (by simpa using hdo)] at hsettles
      rcases hrange : s.graph.rangeOver (BoundStore.bounds s.store) entry.kind
        (entry.children.map s.graph.activityAt) with e | x
      · rw [hrange] at hsettles
        exact h.decides hroot hpending hsettles (by simp)
      intro count reported records stats
      simp only [hrange, Settled.ofInterval] at hsettles
      rw [h.entryBounds?_eq_none hbounds hn]
      refine ⟨sameWay_recomputed s n _ reported records stats, ?_⟩
      change if x.isEmpty = true then _ else _
      split at hsettles
      · rename_i hempty
        rw [if_pos hempty]
        exact meets_bind.mpr (h.decides hroot hpending hsettles (by simp))
      · rename_i hempty
        rw [if_neg hempty]
        exact h.recomputed (Arena.lt_capacity_of_node? hn) hsettles reported records stats
  walked_J h hwalked := h.walked hwalked
  walked_K h _ := h

/-- **What a pass comes to.** Without bounds propagated before, a forward pass answers with what its root
settles to, and faults exactly if that is a fault. Unless it meets a contradiction, all nodes at or below the root
are left with the activities that they settle to. -/
theorem meets_forward_settles {s : Propagation σ α} {root : NodeId} {force : Bool} {r : Settled α}
    (hroot : s.graph.Settles (BoundStore.bounds s.store) force root r)
    (hacc : Acc s.graph.arena.IsOperand root)
    (halive : ∀ m, s.graph.arena.Below m root → s.graph.arena.isAlive m = true)
    (hbounds : ∀ n node, s.graph.arena.node? n = some node → node.propTag ≠ s.graph.roundEpoch)
    (htags : s.graph.TagsGiven) (hslot : s.graph.walks.lowestFree? ≠ none) :
    Meets (forward root force) s (fun _ => r = .fault) fun f s' =>
      r.answer = some (f.activity, f.infeasible) ∧ (f.infeasible = false → ∀ n, s.graph.arena.Below n root →
        ∃ node, s'.graph.arena.node? n = some node ∧
          s.graph.Settles (BoundStore.bounds s.store) force n (.range node.activity)) := by
  have hgood : s.graph.Walkable root (fun _ => s.graph.Settles (BoundStore.bounds s.store) force root .fault) :=
    Or.inl ⟨hacc, fun m hm => Arena.lt_capacity_of_isAlive (halive m hm)⟩
  refine (meets_forward (refreshes_of_settles ⟨r, hroot⟩ halive hbounds)
    ⟨.refl _, rfl, rfl, rfl, .refl _ _, fun _ => False.elim, fun _ _ => rfl⟩ htags hgood (Or.inl hslot)).mono
    (fun _ hfault => hroot.unique hfault) fun f s' hf => ?_
  obtain ⟨-, -, hf⟩ := hf
  split at hf
  · rename_i hinfeasible
    rw [hroot.unique hf.2, hf.1, hinfeasible]
    exact ⟨rfl, nofun⟩
  · rename_i hfeasible
    obtain ⟨⟨node, hnode, hactivity⟩, seen, hseen, hsettling⟩ := hf
    have hrange := hsettling.range root ((hseen root).mpr (.refl _ _))
    rw [hroot.unique hrange, hactivity, Bool.eq_false_iff.mpr hfeasible, Graph.activityAt, hnode]
    refine ⟨rfl, fun _ n hn => ?_⟩
    obtain ⟨node₀, hnode₀, -⟩ := Arena.exists_node?_of_isAlive (halive n hn)
    obtain ⟨node, hnode, -⟩ := hsettling.terms.exists_node? hnode₀
    have hrange := hsettling.range n ((hseen n).mpr hn)
    rw [Graph.activityAt, hnode] at hrange
    exact ⟨node, hnode, hrange⟩

end Propagation

end IntervalDag
