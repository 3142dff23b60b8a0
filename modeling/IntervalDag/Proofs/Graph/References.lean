import Mathlib.Algebra.Order.BigOperators.Group.Finset
import Mathlib.Data.Set.Card
import IntervalDag.Proofs.Checked
import IntervalDag.Proofs.Graph.Edges

/-!
# Reference counting

The references to a node are those that callers hold and those of the nodes in use that have it as an
operand. `Counted a held` says that the arena `a` counts exactly these, where `held n` is the number of
references to `n` that callers hold, and that its free list is exactly its entries without references.

While an operation is under way some references belong to nobody else but the operation. They are
counted as held: taking a reference to `n` turns `held` into `held.plus [n]`, and making a node turns
the references to its operands into uses (`Counted.add`).

* `Counted.isAlive_iff_below_held`: with exact counts and without cycles, the nodes in use are those that
  can be reached from what is held.
-/

namespace IntervalDag

variable {α : Type}

/-- The number of references to each node that are held from outside the arena. -/
abbrev Holding : Type := NodeId → Nat

/-- The holding that has the references of a list besides. -/
def Holding.plus (held : Holding) (ns : List NodeId) : Holding := fun k => held k + ns.count k

@[simp] theorem Holding.plus_apply (held : Holding) (ns : List NodeId) (k : NodeId) :
    held.plus ns k = held k + ns.count k := rfl

namespace Arena

/-- The number of times that the node `m`, if it is in use, has `k` as an operand. -/
def usesIn (a : Arena α) (m k : NodeId) : Nat := if a.isAlive m then (a.operands m).count k else 0

/-- The number of times that `k` occurs among the operands of the nodes in use. -/
def uses (a : Arena α) (k : NodeId) : Nat := ∑ m ∈ Finset.range a.capacity, a.usesIn m k

/-- The arena counts the references held from outside and the uses inside, and knows its free entries. -/
structure Counted (a : Arena α) (held : Holding) : Prop where
  /-- no reference is missed and none invented -/
  refs_eq : ∀ n, a.refs n = held n + a.uses n
  /-- a node without references has no operands -/
  operands_eq : ∀ n, a.refs n = 0 → a.operands n = []
  /-- the free entries are those without references -/
  mem_free : ∀ n, n ∈ a.free ↔ n < a.capacity ∧ a.refs n = 0
  /-- no entry is listed as free twice -/
  nodup : a.free.Nodup

/-! ### Counting uses -/

theorem usesIn_eq_zero_of_le {a : Arena α} {m : NodeId} (h : a.capacity ≤ m) (k : NodeId) :
    a.usesIn m k = 0 := by
  simp [usesIn, operands_eq_nil_of_le h]

theorem uses_eq_sum_of_le {a : Arena α} {N : Nat} (h : a.capacity ≤ N) (k : NodeId) :
    a.uses k = ∑ m ∈ Finset.range N, a.usesIn m k := by
  refine Finset.sum_subset (Finset.range_subset_range.mpr h) fun m _ hm => ?_
  rw [Finset.mem_range, Nat.not_lt] at hm
  exact usesIn_eq_zero_of_le hm k

/-- When one entry changes, the uses change by the difference in that entry. -/
theorem uses_add_usesIn {a a' : Arena α} {n k : NodeId} (hcap : a.capacity ≤ a'.capacity)
    (hn : n < a'.capacity) (hsame : ∀ m, m ≠ n → a'.usesIn m k = a.usesIn m k) :
    a'.uses k + a.usesIn n k = a.uses k + a'.usesIn n k := by
  have hmem : n ∈ Finset.range a'.capacity := Finset.mem_range.mpr hn
  have hrest : ∑ m ∈ (Finset.range a'.capacity).erase n, a'.usesIn m k =
      ∑ m ∈ (Finset.range a'.capacity).erase n, a.usesIn m k :=
    Finset.sum_congr rfl fun m hm => hsame m (Finset.ne_of_mem_erase hm)
  have h' := Finset.sum_erase_add (Finset.range a'.capacity) (fun m => a'.usesIn m k) hmem
  have h := Finset.sum_erase_add (Finset.range a'.capacity) (fun m => a.usesIn m k) hmem
  rw [uses_eq_sum_of_le hcap, uses]
  omega

theorem uses_congr {a a' : Arena α} (hcap : a'.capacity = a.capacity)
    (hsame : ∀ m k, a'.usesIn m k = a.usesIn m k) (k : NodeId) : a'.uses k = a.uses k := by
  rw [uses, uses, hcap]
  exact Finset.sum_congr rfl fun m _ => hsame m k

/-- What a node in use has as an operand is used. -/
theorem IsOperand.uses_pos {a : Arena α} {c n : NodeId} (h : a.IsOperand c n)
    (hn : a.isAlive n = true) : 0 < a.uses c := by
  have hle : a.usesIn n c ≤ a.uses c :=
    Finset.single_le_sum (f := fun m => a.usesIn m c) (fun _ _ => Nat.zero_le _)
      (Finset.mem_range.mpr h.lt_capacity)
  have hpos : 0 < a.usesIn n c := by
    rw [usesIn, if_pos hn]
    exact List.count_pos_iff.mpr h
  omega

/-- What is used is an operand of a node in use. -/
theorem exists_user_of_uses_pos {a : Arena α} {c : NodeId} (h : 0 < a.uses c) :
    ∃ n, a.isAlive n = true ∧ a.IsOperand c n := by
  obtain ⟨n, -, hn⟩ := Finset.exists_ne_zero_of_sum_ne_zero (Nat.pos_iff_ne_zero.mp h)
  rw [usesIn] at hn
  split at hn
  · exact ⟨n, ‹_›, List.count_pos_iff.mp (Nat.pos_iff_ne_zero.mpr hn)⟩
  · exact absurd rfl hn

/-! ### What exact counts say -/

namespace Counted

variable {a : Arena α} {held : Holding}

theorem isAlive_of_held (h : a.Counted held) {n : NodeId} (hn : 0 < held n) : a.isAlive n = true := by
  rw [isAlive_iff, h.refs_eq n]
  omega

/-- A node with operands is in use. -/
theorem isAlive_of_isOperand (h : a.Counted held) {c n : NodeId} (hc : a.IsOperand c n) :
    a.isAlive n = true := by
  rw [isAlive_iff]
  refine Nat.pos_of_ne_zero fun h0 => ?_
  rw [IsOperand, h.operands_eq n h0] at hc
  cases hc

/-- The operands of a node are in use. -/
theorem isAlive_operand (h : a.Counted held) {c n : NodeId} (hc : a.IsOperand c n) :
    a.isAlive c = true := by
  have := hc.uses_pos (h.isAlive_of_isOperand hc)
  rw [isAlive_iff, h.refs_eq c]
  omega

/-- What lies below a node in use is in use. -/
theorem isAlive_of_below (h : a.Counted held) {m n : NodeId} (hm : a.Below m n)
    (hn : a.isAlive n = true) : a.isAlive m = true := by
  rcases Relation.ReflTransGen.cases_head hm with rfl | ⟨c, hc, -⟩
  · exact hn
  · exact h.isAlive_operand hc

/-- Every node in use lies below one that is held: a node that nobody holds has a user, and the way up
from user to user ends. -/
theorem exists_held_above (h : a.Counted held) (hac : a.Acyclic) {n : NodeId}
    (hn : a.isAlive n = true) : ∃ m, 0 < held m ∧ a.Below n m := by
  suffices hall : ∀ p : Fin a.capacity, a.isAlive p = true → ∃ m, 0 < held m ∧ a.Below p m from
    hall ⟨n, lt_capacity_of_isAlive hn⟩ hn
  intro p
  induction hac.wellFounded_up.apply p with
  | intro p _ ih =>
    intro hp
    by_cases hheld : 0 < held p
    · exact ⟨p, hheld, Below.refl a p⟩
    · have huses : 0 < a.uses p := by
        have hrefs := isAlive_iff.mp hp
        rw [h.refs_eq p] at hrefs
        omega
      obtain ⟨u, hu, hop⟩ := exists_user_of_uses_pos huses
      obtain ⟨m, hm, hbelow⟩ := ih ⟨u, lt_capacity_of_isAlive hu⟩ hop hu
      exact ⟨m, hm, hop.below.trans hbelow⟩

/-- **Nothing leaks**: the nodes in use are those that can be reached from what is held. -/
theorem isAlive_iff_below_held (h : a.Counted held) (hac : a.Acyclic) (n : NodeId) :
    a.isAlive n = true ↔ ∃ m, 0 < held m ∧ a.Below n m := by
  constructor
  · exact h.exists_held_above hac
  · rintro ⟨m, hm, hbelow⟩
    exact h.isAlive_of_below hbelow (h.isAlive_of_held hm)

/-- The count of an arena is the number of its nodes in use. -/
theorem count_eq (h : a.Counted held) : a.count = {n | a.isAlive n = true}.ncard := by
  have hset : {n | a.isAlive n = true} = ↑(Finset.range a.capacity \ a.free.toFinset) := by
    ext n
    simp only [Set.mem_ofPred_eq, Finset.coe_sdiff, Finset.coe_range, Set.mem_sdiff, Set.mem_Iio,
      List.coe_toFinset, h.mem_free n, isAlive_iff, not_and]
    constructor
    · exact fun hn => ⟨lt_capacity_of_isAlive (isAlive_iff.mpr hn), fun _ h0 => by omega⟩
    · exact fun hn => Nat.pos_of_ne_zero (hn.2 hn.1)
  have hsub : a.free.toFinset ⊆ Finset.range a.capacity := fun n hn =>
    Finset.mem_range.mpr ((h.mem_free n).mp (List.mem_toFinset.mp hn)).1
  rw [hset, Set.ncard_coe_finset, Finset.card_sdiff_of_subset hsub, Finset.card_range,
    List.toFinset_card_of_nodup h.nodup]
  rfl

end Counted

/-! ### Changing a count -/

/-- Two arenas differ in the numbers of references to nodes in use alone. -/
structure SameEdges (a a' : Arena α) : Prop where
  /-- no entry is made -/
  capacity_eq : a'.capacity = a.capacity
  /-- no entry is freed or taken into use -/
  free_eq : a'.free = a.free
  isAlive_eq : ∀ n, a'.isAlive n = a.isAlive n
  /-- no operand comes or goes -/
  operands_eq : ∀ n, a'.operands n = a.operands n

theorem SameEdges.usesIn_eq {a a' : Arena α} (h : SameEdges a a') (m k : NodeId) :
    a'.usesIn m k = a.usesIn m k := by
  rw [usesIn, usesIn, h.isAlive_eq, h.operands_eq]

theorem SameEdges.refs_eq_zero_iff {a a' : Arena α} (h : SameEdges a a') (n : NodeId) :
    a'.refs n = 0 ↔ a.refs n = 0 := by
  have hn := h.isAlive_eq n
  simp only [isAlive, decide_eq_decide] at hn
  omega

/-- When the counts change as the holding does, then they stay exact. -/
theorem Counted.of_sameEdges {a a' : Arena α} {held held' : Holding} (h : a.Counted held)
    (hsame : SameEdges a a') (hrefs : ∀ n, a'.refs n + held n = a.refs n + held' n) :
    a'.Counted held' where
  refs_eq n := by
    have huses := uses_congr hsame.capacity_eq hsame.usesIn_eq n
    have hn := hrefs n
    rw [h.refs_eq n] at hn
    omega
  operands_eq n hn := by
    rw [hsame.operands_eq n]
    exact h.operands_eq n ((hsame.refs_eq_zero_iff n).mp hn)
  mem_free n := by
    rw [hsame.free_eq, hsame.capacity_eq, hsame.refs_eq_zero_iff n]
    exact h.mem_free n
  nodup := by
    rw [hsame.free_eq]
    exact h.nodup

/-- Changing how often a node in use is referred to, but not to zero, keeps all edges. -/
theorem sameEdges_modify {a : Arena α} {n : NodeId} {f : Node α → Node α}
    (hchildren : ∀ node, a.node? n = some node → (f node).children = node.children)
    (hrefs : ∀ node, a.node? n = some node → (0 < (f node).refs ↔ 0 < node.refs)) :
    SameEdges a (a.modify n f) where
  capacity_eq := capacity_modify a n f
  free_eq := rfl
  isAlive_eq k := by
    rw [Bool.eq_iff_iff, isAlive_iff, isAlive_iff, refs, refs, node?_modify]
    split
    · subst k
      rcases hn : a.node? n with _ | node
      · rfl
      · exact hrefs node hn
    · rfl
  operands_eq k := by
    simp only [operands, node?_modify]
    split
    · subst k
      rcases hn : a.node? n with _ | node
      · rfl
      · exact hchildren node hn
    · rfl

/-- Taking a reference to a node in use keeps all edges. -/
theorem sameEdges_raise {a : Arena α} {n : NodeId} (hn : a.isAlive n = true) :
    SameEdges a (a.modify n fun node => { node with refs := node.refs + 1 }) := by
  refine sameEdges_modify (fun _ _ => rfl) fun node hnode => ?_
  obtain ⟨node', hnode', hpos⟩ := exists_node?_of_isAlive hn
  rw [hnode] at hnode'
  cases hnode'
  simp [hpos]

/-! ### Taking references -/

theorem capture_of_isAlive {a : Arena α} {n : NodeId} (h : a.isAlive n = true) :
    a.capture n = .ok (a.modify n fun node => { node with refs := node.refs + 1 }) := if_pos h

/-- A reference is only taken to a node in use. -/
theorem isAlive_of_capture {a a' : Arena α} {n : NodeId} (h : a.capture n = .ok a') :
    a.isAlive n = true := by
  rw [capture] at h
  split at h
  · assumption
  · cases h

/-- Taking references to nodes in use always succeeds, and raises their counts alone. -/
theorem exists_captureAll {a : Arena α} {ns : List NodeId} (h : ∀ n ∈ ns, a.isAlive n = true) :
    ∃ a', ns.foldlM capture a = .ok a' ∧ a'.free = a.free ∧
      ∀ k, a'.node? k = (a.node? k).map fun node => { node with refs := node.refs + ns.count k } := by
  induction ns generalizing a with
  | nil =>
    refine ⟨a, rfl, rfl, fun k => ?_⟩
    rcases a.node? k with _ | node <;> rfl
  | cons n ns ih =>
    have hn : a.isAlive n = true := h n (List.mem_cons_self ..)
    let a₁ := a.modify n fun node => { node with refs := node.refs + 1 }
    have hsame : SameEdges a a₁ := sameEdges_raise hn
    obtain ⟨a', hrun, hfree, hnode⟩ := @ih a₁ fun m hm => by
      rw [hsame.isAlive_eq m]
      exact h m (List.mem_cons_of_mem _ hm)
    refine ⟨a', ?_, hfree.trans hsame.free_eq, fun k => ?_⟩
    · rw [List.foldlM_cons, capture_of_isAlive hn]
      exact hrun
    · rw [hnode k, node?_modify, List.count_cons]
      rcases a.node? k with _ | node
      · split <;> rfl
      · by_cases hk : n = k
        · subst hk
          simp [Nat.add_assoc, Nat.add_comm 1]
        · simp [hk, Ne.symm hk]

/-- Raised counts are exact for the holding that has the references besides. -/
theorem Counted.of_raised {a a' : Arena α} {held : Holding} {ns : List NodeId} (h : a.Counted held)
    (hns : ∀ n ∈ ns, a.isAlive n = true) (hfree : a'.free = a.free)
    (hnode : ∀ k, a'.node? k = (a.node? k).map fun node => { node with refs := node.refs + ns.count k }) :
    a'.Counted (held.plus ns) := by
  have hcap : a'.capacity = a.capacity := capacity_congr fun k => by
    rw [hnode k, Option.map_eq_none_iff]
  have hrefs : ∀ k, a'.refs k = a.refs k + ns.count k := by
    intro k
    rw [refs, hnode k]
    rcases hk : a.node? k with _ | node
    · have : k ∉ ns := fun hmem => by
        obtain ⟨node, hn, -⟩ := exists_node?_of_isAlive (hns k hmem)
        rw [hk] at hn
        cases hn
      rw [refs, hk, List.count_eq_zero_of_not_mem this]
      rfl
    · rw [refs_eq_of_node? hk]
      rfl
  refine h.of_sameEdges ⟨hcap, hfree, fun k => ?_, fun k => ?_⟩ fun k => ?_
  · rw [Bool.eq_iff_iff, isAlive_iff, isAlive_iff, hrefs k]
    constructor
    · intro hk
      by_cases hmem : k ∈ ns
      · exact isAlive_iff.mp (hns k hmem)
      · rw [List.count_eq_zero_of_not_mem hmem] at hk
        exact hk
    · exact fun hk => Nat.lt_of_lt_of_le hk (Nat.le_add_right _ _)
  · exact operands_eq_of_map (hnode k) fun _ => rfl
  · rw [hrefs k, Holding.plus_apply]
    omega

/-- Taking one reference. -/
theorem Counted.capture {a : Arena α} {held : Holding} {n : NodeId} (h : a.Counted held)
    (hn : a.isAlive n = true) :
    ∃ a', a.capture n = .ok a' ∧ a'.Counted (held.plus [n]) ∧ a'.free = a.free ∧
      ∀ k, a'.node? k = (a.node? k).map fun node => { node with refs := node.refs + [n].count k } := by
  have hns : ∀ m ∈ [n], a.isAlive m = true := by
    intro m hm
    rw [List.mem_singleton.mp hm]
    exact hn
  obtain ⟨a', hrun, hfree, hnode⟩ := exists_captureAll hns
  refine ⟨a', ?_, h.of_raised hns hfree hnode, hfree, hnode⟩
  simp only [List.foldlM_cons, List.foldlM_nil, bind_pure] at hrun
  exact hrun

/-- A held reference to an operand turns into a use when the operand is appended to a node in use. -/
theorem Counted.of_appended {a a' : Arena α} {held : Holding} {parent child : NodeId}
    (h : a.Counted held) (hp : a.isAlive parent = true) (hc : a.isAlive child = true)
    (hcap : a'.capacity = a.capacity) (hfree : a'.free = a.free)
    (hrefs : ∀ n, a'.refs n = a.refs n + [child].count n)
    (hops : ∀ n, a'.operands n = a.operands n ++ if n = parent then [child] else []) :
    a'.Counted held := by
  have halive : ∀ n, a'.isAlive n = a.isAlive n := by
    intro n
    rw [Bool.eq_iff_iff, isAlive_iff, isAlive_iff, hrefs n]
    by_cases hn : n = child
    · subst hn
      exact ⟨fun _ => isAlive_iff.mp hc, fun _ => by simp⟩
    · rw [List.count_singleton, if_neg (by simpa using Ne.symm hn), Nat.add_zero]
  have huses : ∀ k, a'.uses k = a.uses k + [child].count k := by
    intro k
    have hsame : ∀ m, m ≠ parent → a'.usesIn m k = a.usesIn m k := fun m hm => by
      rw [usesIn, usesIn, halive m, hops m, if_neg hm, List.append_nil]
    have hmore : a'.usesIn parent k = a.usesIn parent k + [child].count k := by
      rw [usesIn, usesIn, halive parent, if_pos hp, if_pos hp, hops parent, if_pos rfl,
        List.count_append]
    have := uses_add_usesIn (k := k) (Nat.le_of_eq hcap.symm)
      (hcap ▸ lt_capacity_of_isAlive hp) hsame
    omega
  have hdead : ∀ n, a'.refs n = 0 ↔ a.refs n = 0 := by
    intro n
    have hn := halive n
    simp only [isAlive, decide_eq_decide] at hn
    omega
  refine ⟨fun n => ?_, fun n hn => ?_, fun n => ?_, ?_⟩
  · have := h.refs_eq n
    have := hrefs n
    have := huses n
    omega
  · have hn' := (hdead n).mp hn
    have hne : n ≠ parent := by
      rintro rfl
      rw [isAlive_iff, hn'] at hp
      exact Nat.lt_irrefl 0 hp
    rw [hops n, if_neg hne, h.operands_eq n hn', List.append_nil]
  · rw [hfree, hcap, hdead n]
    exact h.mem_free n
  · rw [hfree]
    exact h.nodup

/-! ### Making nodes -/

/-- Putting a node with one reference into an entry that has none: the references to its operands that
were held turn into uses. -/
theorem Counted.of_inserted {a a' : Arena α} {held : Holding} {n : NodeId} {new : Node α}
    (h : a.Counted (held.plus new.children)) (hn : a.refs n = 0)
    (hcap : ∀ m, m < a'.capacity ↔ m < a.capacity ∨ m = n) (hnew : a'.node? n = some new)
    (hone : new.refs = 1) (hsame : ∀ m, m ≠ n → a'.node? m = a.node? m)
    (hfree : ∀ m, m ∈ a'.free ↔ m ∈ a.free ∧ m ≠ n) (hnodup : a'.free.Nodup) :
    a'.Counted (held.plus [n]) := by
  have hle : a.capacity ≤ a'.capacity := by
    refine Nat.le_of_not_lt fun hlt => ?_
    exact absurd ((hcap a'.capacity).mpr (Or.inl hlt)) (Nat.lt_irrefl _)
  have hrefs : ∀ m, a'.refs m = a.refs m + [n].count m := by
    intro m
    by_cases hm : m = n
    · subst hm
      rw [refs_eq_of_node? hnew, hone, hn, List.count_singleton_self]
    · rw [refs, hsame m hm, List.count_singleton, if_neg (by simpa using Ne.symm hm)]
      rfl
  -- the entry was not in use, so it used no node before
  have huses : ∀ k, a'.uses k = a.uses k + new.children.count k := by
    intro k
    have hother : ∀ m, m ≠ n → a'.usesIn m k = a.usesIn m k := fun m hm => by
      rw [usesIn, usesIn, isAlive, isAlive, refs, refs, operands, operands, hsame m hm]
    have hbefore : a.usesIn n k = 0 := by
      rw [usesIn, isAlive, hn]
      rfl
    have hafter : a'.usesIn n k = new.children.count k := by
      rw [usesIn, isAlive, refs_eq_of_node? hnew, hone, operands_eq_of_node? hnew]
      rfl
    have := uses_add_usesIn (k := k) hle (lt_capacity_of_node? hnew) hother
    omega
  refine ⟨fun m => ?_, fun m hm => ?_, fun m => ?_, hnodup⟩
  · have := h.refs_eq m
    rw [Holding.plus_apply] at this ⊢
    rw [hrefs m, huses m]
    omega
  · have hne : m ≠ n := by
      rintro rfl
      rw [refs_eq_of_node? hnew, hone] at hm
      cases hm
    rw [operands, hsame m hne]
    rw [refs, hsame m hne] at hm
    exact h.operands_eq m hm
  · rw [hfree m, h.mem_free m, hcap m, hrefs m]
    by_cases hm : m = n
    · subst hm
      simp
    · simp [hm, Ne.symm hm]

theorem node?_push (a : Arena α) (k : NodeId) (new : Node α) :
    ({ a with nodes := a.nodes.push new } : Arena α).node? k =
      if k = a.capacity then some new else a.node? k :=
  Array.getElem?_push

/-- When no entry is free the arena grows. -/
theorem Counted.of_pushed {a : Arena α} {held : Holding} (new : Node α)
    (h : a.Counted (held.plus new.children)) (hf : a.free = []) (hone : new.refs = 1) :
    ({ a with nodes := a.nodes.push new } : Arena α).Counted (held.plus [a.capacity]) := by
  have hn : a.refs a.capacity = 0 := by
    rw [refs, node?_eq_none_iff.mpr (Nat.le_refl _)]
    rfl
  refine h.of_inserted hn (fun m => ?_) ((node?_push a _ new).trans (if_pos rfl)) hone
    (fun m hm => (node?_push a m new).trans (if_neg hm)) (fun m => ?_) ?_
  · have : ({ a with nodes := a.nodes.push new } : Arena α).capacity = a.capacity + 1 :=
      Array.size_push ..
    omega
  · simp [hf]
  · simp [hf]

theorem node?_reuse {a : Arena α} {n : NodeId} (hn : n < a.capacity) (k : NodeId) (new : Node α)
    (free : List NodeId) :
    ({ a.set n new with free } : Arena α).node? k = if k = n then some new else a.node? k := by
  have := node?_set a n k new
  simp only [hn, and_true] at this
  exact this

/-- When an entry is free, the one that was freed last is used again. -/
theorem Counted.of_reused {a : Arena α} {held : Holding} (new : Node α) {n : NodeId}
    {free : List NodeId} (h : a.Counted (held.plus new.children)) (hf : a.free = n :: free)
    (hone : new.refs = 1) :
    ({ a.set n new with free } : Arena α).Counted (held.plus [n]) := by
  have hn : n < a.capacity ∧ a.refs n = 0 :=
    (h.mem_free n).mp (by rw [hf]; exact List.mem_cons_self ..)
  have hnodup := h.nodup
  rw [hf, List.nodup_cons] at hnodup
  refine h.of_inserted hn.2 (fun m => ?_) ((node?_reuse hn.1 n new free).trans (if_pos rfl)) hone
    (fun m hm => (node?_reuse hn.1 m new free).trans (if_neg hm)) (fun m => ?_) hnodup.2
  · have : ({ a.set n new with free } : Arena α).capacity = a.capacity := capacity_set a n new
    rw [this]
    constructor
    · exact Or.inl
    · rintro (hm | rfl)
      · exact hm
      · exact hn.1
  · rw [hf, List.mem_cons]
    constructor
    · exact fun hm => ⟨Or.inr hm, fun hmn => hnodup.1 (hmn ▸ hm)⟩
    · rintro ⟨hm | hm, hne⟩
      · exact absurd hm hne
      · exact hm

/-- **Making a node.** Its number was not in use before; it has the given kind and operands, one
reference and nothing cached, and its operands have as many references more as it uses them. -/
theorem Counted.add [Scalar α] {a : Arena α} {held : Holding} {cs : List NodeId} (h : a.Counted held)
    (hcs : ∀ c ∈ cs, a.isAlive c = true) (kind : Kind α) :
    ∃ n a', a.add kind cs = .ok (n, a') ∧ a'.Counted (held.plus [n]) ∧ a.isAlive n = false ∧
      a'.node? n = some (Node.fresh kind cs 1) ∧
      ∀ k, k ≠ n →
        a'.node? k = (a.node? k).map fun node => { node with refs := node.refs + cs.count k } := by
  obtain ⟨a₁, hrun, hfree₁, hnode₁⟩ := exists_captureAll hcs
  have h₁ : a₁.Counted (held.plus cs) := h.of_raised hcs hfree₁ hnode₁
  -- an entry without references had none before the operands were taken either
  have hidle : ∀ n, a₁.refs n = 0 → a.isAlive n = false := by
    intro n hn
    rw [isAlive, decide_eq_false_iff_not, refs]
    rw [refs, hnode₁ n] at hn
    rcases hk : a.node? n with _ | node
    · exact Nat.lt_irrefl 0
    · rw [hk] at hn
      have hsum : node.refs + cs.count n = 0 := hn
      have : node.refs = 0 := by omega
      exact this ▸ Nat.lt_irrefl 0
  rcases hf : a₁.free with _ | ⟨n, free⟩
  · have hn : a₁.refs a₁.capacity = 0 := by
      rw [refs, node?_eq_none_iff.mpr (Nat.le_refl _)]
      rfl
    refine ⟨a₁.capacity, _, ?_, h₁.of_pushed (Node.fresh kind cs 1) hf rfl, hidle _ hn,
      (node?_push a₁ _ _).trans (if_pos rfl), fun k hk => ?_⟩
    · rw [Arena.add, hrun, Checked.ok_bind]
      simp only [hf]
      rfl
    · rw [node?_push, if_neg hk, hnode₁ k]
  · have hn : n < a₁.capacity ∧ a₁.refs n = 0 :=
      (h₁.mem_free n).mp (by rw [hf]; exact List.mem_cons_self ..)
    refine ⟨n, _, ?_, h₁.of_reused (Node.fresh kind cs 1) hf rfl, hidle _ hn.2,
      (node?_reuse hn.1 n _ free).trans (if_pos rfl), fun k hk => ?_⟩
    · rw [Arena.add, hrun, Checked.ok_bind]
      simp only [hf]
      rfl
    · rw [node?_reuse hn.1 k _ free, if_neg hk, hnode₁ k]

end Arena

end IntervalDag
