import Mathlib.Algebra.GroupWithZero.Nat
import Mathlib.Algebra.Order.BigOperators.Group.Finset
import Mathlib.Logic.Relation
import Mathlib.Order.WellFounded
import Mathlib.Data.Fintype.EquivFin
import IntervalDag.Graph.Arena

/-!
# The operand relation

An arena seen as a directed graph: `IsOperand a c n` says that `c` stands in the operand list of `n`,
and `Below a m n` that `m` is `n` or lies somewhere below it. An arena is *acyclic* when the operand
relation is well-founded, so that functions of a node can be defined from its operands and proved
about by induction.

The three ways in which an arena changes its edges keep it acyclic: edges go away
(`Acyclic.of_imp`), a node without users gets operands (`Acyclic.of_unused`), and a node gets an
operand that it does not lie below (`Acyclic.of_append`).
-/

namespace IntervalDag.Arena

variable {α : Type}

/-- The operands of a number; none outside the arena. -/
def operands (a : Arena α) (n : NodeId) : List NodeId := (a.node? n).elim [] (·.children)

/-- `c` is an operand of `n`. -/
def IsOperand (a : Arena α) (c n : NodeId) : Prop := c ∈ a.operands n

/-- `m` is `n` or one of its descendants. -/
def Below (a : Arena α) (m n : NodeId) : Prop := Relation.ReflTransGen a.IsOperand m n

/-- Operands are entries. -/
def OperandsInside (a : Arena α) : Prop := ∀ c n, a.IsOperand c n → c < a.capacity

/-- Every way down ends. -/
def Acyclic (a : Arena α) : Prop := WellFounded a.IsOperand

theorem operands_eq_of_node? {a : Arena α} {n : NodeId} {node : Node α} (h : a.node? n = some node) :
    a.operands n = node.children := by
  rw [operands, h]
  rfl

theorem isOperand_iff {a : Arena α} {c n : NodeId} {node : Node α} (h : a.node? n = some node) :
    a.IsOperand c n ↔ c ∈ node.children := by
  rw [IsOperand, operands_eq_of_node? h]

/-- An entry that changed otherwise has the operands it had. -/
theorem operands_eq_of_map {a a' : Arena α} {n : NodeId} {f : Node α → Node α}
    (h : a'.node? n = (a.node? n).map f) (hf : ∀ node, (f node).children = node.children) :
    a'.operands n = a.operands n := by
  rw [operands, operands, h]
  rcases a.node? n with _ | node
  · rfl
  · exact hf node

theorem refs_eq_of_node? {a : Arena α} {n : NodeId} {node : Node α} (h : a.node? n = some node) :
    a.refs n = node.refs := by
  rw [refs, h]
  rfl

theorem isAlive_iff {a : Arena α} {n : NodeId} : a.isAlive n = true ↔ 0 < a.refs n := by
  simp [isAlive]

/-- A node in use has an entry. -/
theorem exists_node?_of_isAlive {a : Arena α} {n : NodeId} (h : a.isAlive n = true) :
    ∃ node, a.node? n = some node ∧ 0 < node.refs := by
  rw [isAlive_iff] at h
  rcases hn : a.node? n with _ | node
  · rw [refs, hn] at h
    exact absurd h (Nat.lt_irrefl 0)
  · exact ⟨node, rfl, refs_eq_of_node? hn ▸ h⟩

theorem node?_eq_none_iff {a : Arena α} {n : NodeId} : a.node? n = none ↔ a.capacity ≤ n := by
  simp [node?, capacity]

/-- Arenas with the same entries have the same capacity. -/
theorem capacity_congr {a a' : Arena α} (h : ∀ n, a'.node? n = none ↔ a.node? n = none) :
    a'.capacity = a.capacity := by
  refine Nat.le_antisymm ?_ ?_
  · exact node?_eq_none_iff.mp ((h _).mpr (node?_eq_none_iff.mpr (Nat.le_refl _)))
  · exact node?_eq_none_iff.mp ((h _).mp (node?_eq_none_iff.mpr (Nat.le_refl _)))

theorem lt_capacity_of_node? {a : Arena α} {n : NodeId} {node : Node α} (h : a.node? n = some node) :
    n < a.capacity := by
  rcases Nat.lt_or_ge n a.capacity with hlt | hge
  · exact hlt
  · rw [node?_eq_none_iff.mpr hge] at h
    cases h

theorem lt_capacity_of_isAlive {a : Arena α} {n : NodeId} (h : a.isAlive n = true) :
    n < a.capacity := by
  obtain ⟨node, hn, -⟩ := exists_node?_of_isAlive h
  exact lt_capacity_of_node? hn

theorem operands_eq_nil_of_le {a : Arena α} {n : NodeId} (h : a.capacity ≤ n) :
    a.operands n = [] := by
  rw [operands, node?_eq_none_iff.mpr h]
  rfl

/-- Only entries have operands. -/
theorem IsOperand.lt_capacity {a : Arena α} {c n : NodeId} (h : a.IsOperand c n) : n < a.capacity := by
  rcases Nat.lt_or_ge n a.capacity with hlt | hge
  · exact hlt
  · rw [IsOperand, operands_eq_nil_of_le hge] at h
    cases h

theorem get_eq_ok_iff {a : Arena α} {n : NodeId} {node : Node α} :
    a.get n = .ok node ↔ a.node? n = some node := by
  rw [get]
  rcases a.node? n with _ | node'
  · simp
  · simp

theorem children_eq_ok {a : Arena α} {n : NodeId} (h : n < a.capacity) :
    a.children n = .ok (a.operands n) := by
  rcases hn : a.node? n with _ | node
  · exact absurd (node?_eq_none_iff.mp hn) (Nat.not_le_of_lt h)
  · rw [children, get_eq_ok_iff.mpr hn, operands_eq_of_node? hn]
    rfl

/-! ### Ways down -/

theorem Below.refl (a : Arena α) (n : NodeId) : a.Below n n := Relation.ReflTransGen.refl

theorem Below.trans {a : Arena α} {k m n : NodeId} (h₁ : a.Below k m) (h₂ : a.Below m n) :
    a.Below k n := Relation.ReflTransGen.trans h₁ h₂

theorem IsOperand.below {a : Arena α} {c n : NodeId} (h : a.IsOperand c n) : a.Below c n :=
  Relation.ReflTransGen.single h

/-- The last step up to a node goes through one of its operands. -/
theorem below_iff {a : Arena α} {m n : NodeId} :
    a.Below m n ↔ m = n ∨ ∃ c, a.IsOperand c n ∧ a.Below m c := by
  constructor
  · intro h
    rcases Relation.ReflTransGen.cases_tail h with h | ⟨c, hm, hc⟩
    · exact Or.inl h.symm
    · exact Or.inr ⟨c, hc, hm⟩
  · rintro (rfl | ⟨c, hc, hm⟩)
    · exact Below.refl a m
    · exact hm.trans hc.below

/-- Below a node over a leaf lies nothing else. -/
theorem eq_or_eq_of_below {a : Arena α} {c m n : NodeId} (hn : a.operands n = [c]) (hc : a.operands c = [])
    (hm : a.Below m n) : m = n ∨ m = c := by
  rcases below_iff.mp hm with rfl | ⟨d, hd, hm⟩
  · exact Or.inl rfl
  rw [IsOperand, hn, List.mem_singleton] at hd
  subst hd
  rcases below_iff.mp hm with rfl | ⟨d, hd, -⟩
  · exact Or.inr rfl
  · rw [IsOperand, hc] at hd
    cases hd

/-- Where all ways down from a node end, so they do from every node below it. -/
theorem acc_of_below {a : Arena α} {m n : NodeId} (h : Acc a.IsOperand n) (hm : a.Below m n) :
    Acc a.IsOperand m := by
  induction hm using Relation.ReflTransGen.head_induction_on with
  | refl => exact h
  | head hop _ ih => exact ih.inv hop

/-- Where all ways down from a node end, none comes back to it. -/
theorem not_transGen_of_acc {a : Arena α} {n : NodeId} (h : Acc a.IsOperand n) :
    ¬ Relation.TransGen a.IsOperand n n := by
  induction h with
  | intro n _ ih =>
    intro hn
    obtain ⟨c, hnc, hc⟩ := Relation.TransGen.tail'_iff.mp hn
    exact ih c hc (Relation.TransGen.head' hc hnc)

/-! ### Arenas that agree in part -/

/-- Entry by entry, two arenas have the same of what `f` reads off a node. -/
def AgreeOn {β : Type} (f : Node α → β) (a a' : Arena α) : Prop :=
  ∀ n, (a'.node? n).map f = (a.node? n).map f

namespace AgreeOn

variable {β γ : Type} {f : Node α → β} {a a' a'' : Arena α}

theorem refl (f : Node α → β) (a : Arena α) : AgreeOn f a a := fun _ => rfl

theorem trans (h₁ : AgreeOn f a a') (h₂ : AgreeOn f a' a'') : AgreeOn f a a'' := fun n =>
  (h₂ n).trans (h₁ n)

/-- Arenas that agree on something agree on what can be computed from it. -/
theorem map (h : AgreeOn f a a') (k : β → γ) : AgreeOn (fun node => k (f node)) a a' := by
  intro n
  have hn := congrArg (Option.map k) (h n)
  rwa [Option.map_map, Option.map_map] at hn

theorem elim_eq (h : AgreeOn f a a') (n : NodeId) (b : β) :
    (a'.node? n).elim b f = (a.node? n).elim b f := by
  have hn := congrArg (fun o => o.elim b id) (h n)
  simp only [Option.elim_map] at hn
  exact hn

theorem capacity_eq (h : AgreeOn f a a') : a'.capacity = a.capacity := capacity_congr fun n => by
  rw [← Option.map_eq_none_iff (f := f), h n, Option.map_eq_none_iff]

/-- An entry of one arena is one of the other, and they agree on it. -/
theorem exists_node? (h : AgreeOn f a a') {n : NodeId} {node : Node α} (hn : a.node? n = some node) :
    ∃ node', a'.node? n = some node' ∧ f node' = f node := by
  have hmap := h n
  rwa [hn, Option.map_some, Option.map_eq_some_iff] at hmap

theorem symm (h : AgreeOn f a a') : AgreeOn f a' a := fun n => (h n).symm

theorem operands_eq (h : AgreeOn (·.children) a a') : a'.operands = a.operands :=
  funext fun n => h.elim_eq n []

theorem isOperand_eq (h : AgreeOn (·.children) a a') : a'.IsOperand = a.IsOperand := by
  funext c n
  rw [IsOperand, h.operands_eq, IsOperand]

theorem below_eq (h : AgreeOn (·.children) a a') : a'.Below = a.Below := by
  funext m n
  rw [Below, h.isOperand_eq, Below]

theorem refs_eq (h : AgreeOn (·.refs) a a') : a'.refs = a.refs := funext fun n => h.elim_eq n 0

theorem isAlive_eq (h : AgreeOn (·.refs) a a') : a'.isAlive = a.isAlive := by
  funext n
  rw [isAlive, h.refs_eq, isAlive]

/-- Changing an entry beside what is looked at. -/
theorem of_modify {n : NodeId} {change : Node α → Node α} (h : ∀ node, f (change node) = f node) :
    AgreeOn f a (a.modify n change) := fun m => by
  rw [node?_modify]
  split
  · rw [Option.map_map]
    exact congrArg (fun k => Option.map k (a.node? m)) (funext h)
  · rfl

end AgreeOn

/-! ### Acyclic arenas -/

/-- No node of an acyclic arena reaches itself along edges. -/
theorem Acyclic.not_transGen {a : Arena α} (h : a.Acyclic) (n : NodeId) :
    ¬ Relation.TransGen a.IsOperand n n := not_transGen_of_acc (h.apply n)

/-- No operand of a node has that node below it. -/
theorem Acyclic.not_below {a : Arena α} (h : a.Acyclic) {c n : NodeId} (hc : a.IsOperand c n) :
    ¬ a.Below n c := fun hn =>
  h.not_transGen n (Relation.TransGen.tail' hn hc)

/-- Every way up ends as well, because the arena is finite. -/
theorem Acyclic.wellFounded_up {a : Arena α} (h : a.Acyclic) :
    WellFounded fun p c : Fin a.capacity => a.IsOperand c p := by
  let up : Fin a.capacity → Fin a.capacity → Prop := fun p c => a.IsOperand c p
  have htrans : IsTrans (Fin a.capacity) (Relation.TransGen up) :=
    ⟨fun _ _ _ => Relation.TransGen.trans⟩
  -- a way up from a node to itself is a way down from it to itself
  have hirrefl : Std.Irrefl (Relation.TransGen up) := ⟨fun p hp => by
    have hlift : Relation.TransGen (Function.swap a.IsOperand) (p : NodeId) p :=
      Relation.TransGen.lift Fin.val (fun _ _ hop => hop) p p hp
    exact h.not_transGen p (Relation.transGen_swap.mp hlift)⟩
  have hsub : Subrelation up (Relation.TransGen up) := Relation.TransGen.single
  exact Subrelation.wf hsub (Finite.wellFounded_of_trans_of_irrefl (Relation.TransGen up))

/-- An arena in which operands come before the nodes that use them is acyclic. -/
theorem Acyclic.of_lt {a : Arena α} (h : ∀ c n, a.IsOperand c n → c < n) : a.Acyclic :=
  Subrelation.wf (fun {c n} => h c n) Nat.lt_wfRel.wf

/-- An arena that has lost edges is still acyclic. -/
theorem Acyclic.of_imp {a a' : Arena α} (h : a.Acyclic)
    (hsub : ∀ c n, a'.IsOperand c n → a.IsOperand c n) : a'.Acyclic :=
  Subrelation.wf (fun {c n} => hsub c n) h

/-- Nodes that cannot see a change of edges stay accessible: the ways down from `m` are the same in
both arenas as long as they avoid `n`. -/
theorem acc_of_avoids {a a' : Arena α} {n : NodeId} (hsame : ∀ m, m ≠ n → a'.operands m = a.operands m)
    {m : NodeId} (hacc : Acc a.IsOperand m) (havoid : ¬ a.Below n m) : Acc a'.IsOperand m := by
  induction hacc with
  | intro m _ ih =>
    have hne : m ≠ n := by
      rintro rfl
      exact havoid (Below.refl a m)
    refine Acc.intro m fun c hc => ?_
    rw [IsOperand, hsame m hne] at hc
    exact ih c hc fun hn => havoid (hn.trans (IsOperand.below hc))

/-- If the only node with new operands has none that it lies below, then the arena stays acyclic. -/
theorem Acyclic.of_operands {a a' : Arena α} (h : a.Acyclic) {n : NodeId}
    (hsame : ∀ m, m ≠ n → a'.operands m = a.operands m)
    (hnew : ∀ c, a'.IsOperand c n → Acc a'.IsOperand c) : a'.Acyclic := by
  have hn : Acc a'.IsOperand n := Acc.intro n hnew
  refine ⟨fun m => ?_⟩
  induction h.apply m with
  | intro m _ ih =>
    by_cases hm : m = n
    · subst hm
      exact hn
    · refine Acc.intro m fun c hc => ih c ?_
      rw [IsOperand, hsame m hm] at hc
      exact hc

/-- A node that no node uses may take any operands but itself. -/
theorem Acyclic.of_unused {a a' : Arena α} (h : a.Acyclic) {n : NodeId}
    (hsame : ∀ m, m ≠ n → a'.operands m = a.operands m) (hunused : ∀ m, ¬ a.IsOperand n m)
    (hself : ¬ a'.IsOperand n n) : a'.Acyclic := by
  refine h.of_operands hsame fun c hc => acc_of_avoids hsame (h.apply c) fun hn => ?_
  -- a way down that ends in an unused node has no step at all
  rcases Relation.ReflTransGen.cases_head hn with hn | ⟨m, hm, -⟩
  · subst hn
    exact hself hc
  · exact hunused m hm

/-- A node may get one more operand that it does not lie below. -/
theorem Acyclic.of_append {a a' : Arena α} (h : a.Acyclic) {n c : NodeId}
    (hsame : ∀ m, m ≠ n → a'.operands m = a.operands m)
    (happ : a'.operands n = a.operands n ++ [c]) (hnot : ¬ a.Below n c) : a'.Acyclic := by
  refine h.of_operands hsame fun d hd => acc_of_avoids hsame (h.apply d) ?_
  rw [IsOperand, happ, List.mem_append, List.mem_singleton] at hd
  rcases hd with hd | rfl
  · exact h.not_below hd
  · exact hnot

/-! ### Counting edges -/

/-- The number of operand positions of the nodes that are not closed. -/
def openEdges (a : Arena α) (closed : NodeId → Bool) : Nat :=
  ∑ n ∈ Finset.range a.capacity, if closed n then 0 else (a.operands n).length

theorem edgeCount_eq (a : Arena α) :
    a.edgeCount = ∑ n ∈ Finset.range a.capacity, (a.operands n).length := by
  have hlist : ∀ (nodes : List (Node α)) (k : Nat),
      nodes.foldl (fun k node => k + node.children.length) k =
        k + ∑ n ∈ Finset.range nodes.length, (nodes[n]?.elim [] (·.children)).length := by
    intro nodes
    induction nodes with
    | nil => simp
    | cons node nodes ih =>
      intro k
      rw [List.foldl_cons, ih, List.length_cons, Finset.sum_range_succ']
      simp only [List.getElem?_cons_succ, List.getElem?_cons_zero, Option.elim_some]
      omega
  rw [edgeCount, ← Array.foldl_toList, hlist, Nat.zero_add]
  simp only [Array.getElem?_toList, Array.length_toList]
  rfl

theorem AgreeOn.edgeCount_eq {a a' : Arena α} (h : AgreeOn (·.children) a a') :
    a'.edgeCount = a.edgeCount := by
  rw [Arena.edgeCount_eq, Arena.edgeCount_eq, h.operands_eq, h.capacity_eq]

theorem openEdges_le (a : Arena α) (closed : NodeId → Bool) : a.openEdges closed ≤ a.edgeCount := by
  rw [edgeCount_eq]
  refine Finset.sum_le_sum fun n _ => ?_
  split
  · exact Nat.zero_le _
  · exact Nat.le_refl _

/-- Closing one node more takes its operand positions away. -/
theorem openEdges_close (a : Arena α) {closed closed' : NodeId → Bool} {n : NodeId}
    (hn : closed n = false) (hn' : closed' n = true) (hsame : ∀ m, m ≠ n → closed' m = closed m) :
    a.openEdges closed' + (a.operands n).length = a.openEdges closed := by
  by_cases hlt : n < a.capacity
  · have hmem : n ∈ Finset.range a.capacity := Finset.mem_range.mpr hlt
    have hsplit : ∀ closed : NodeId → Bool,
        (∑ m ∈ (Finset.range a.capacity).erase n, if closed m then 0 else (a.operands m).length) +
          (if closed n then 0 else (a.operands n).length) = a.openEdges closed :=
      fun closed => Finset.sum_erase_add _ _ hmem
    have h := hsplit closed
    have h' := hsplit closed'
    have hrest : ∑ m ∈ (Finset.range a.capacity).erase n,
          (if closed' m then 0 else (a.operands m).length) =
        ∑ m ∈ (Finset.range a.capacity).erase n, if closed m then 0 else (a.operands m).length :=
      Finset.sum_congr rfl fun m hm => by rw [hsame m (Finset.ne_of_mem_erase hm)]
    rw [if_neg (by simp [hn])] at h
    rw [if_pos hn', hrest] at h'
    omega
  · rw [operands_eq_nil_of_le (Nat.le_of_not_lt hlt), openEdges, openEdges, List.length_nil,
      Nat.add_zero]
    refine Finset.sum_congr rfl fun m hm => ?_
    rw [hsame m fun hmn => hlt (hmn ▸ Finset.mem_range.mp hm)]

/-- Closing more nodes leaves fewer operand positions open. -/
theorem openEdges_mono (a : Arena α) {closed closed' : NodeId → Bool}
    (h : ∀ n, closed n = true → closed' n = true) : a.openEdges closed' ≤ a.openEdges closed := by
  refine Finset.sum_le_sum fun n _ => ?_
  split_ifs with h₁ h₂
  · exact Nat.le_refl _
  · exact Nat.zero_le _
  · exact absurd (h n ‹_›) h₁
  · exact Nat.le_refl _

open Classical in
/-- The number of operand positions at or below a node. -/
noncomputable def edgesBelow (a : Arena α) (n : NodeId) : Nat := a.openEdges fun m => !decide (a.Below m n)

/-- A bound on the number of ways down from a node, wherever they lead. -/
noncomputable def weight (a : Arena α) (n : NodeId) : Nat := 2 ^ a.edgesBelow n

theorem weight_le (a : Arena α) (n : NodeId) : a.weight n ≤ 2 ^ a.edgeCount :=
  Nat.pow_le_pow_right Nat.two_pos (a.openEdges_le _)

open Classical in
/-- **A node outweighs its operands**, each counted as often as it occurs, if all ways down from it end. -/
theorem sum_weight_operands_lt {a : Arena α} {n : NodeId} (h : Acc a.IsOperand n) :
    ((a.operands n).map a.weight).sum < a.weight n := by
  -- all operand positions below an operand of `n` are below `n`, and none of them is one of `n`
  let rest := a.openEdges fun m => !decide (a.Below m n) || m == n
  have hrest : rest + (a.operands n).length = a.edgesBelow n :=
    a.openEdges_close (by simp [Below.refl]) (by simp) fun m hm => by simp [hm]
  have hoperand : ∀ c ∈ a.operands n, a.weight c ≤ 2 ^ rest := by
    intro c hc
    refine Nat.pow_le_pow_right Nat.two_pos (a.openEdges_mono fun m hm => ?_)
    simp only [Bool.or_eq_true, Bool.not_eq_true', decide_eq_false_iff_not, beq_iff_eq] at hm ⊢
    rintro hmc
    rcases hm with hm | rfl
    · exact hm (hmc.trans (IsOperand.below hc))
    · exact not_transGen_of_acc h (Relation.TransGen.tail' hmc hc)
  calc ((a.operands n).map a.weight).sum
      ≤ (a.operands n).length * 2 ^ rest := by
        have hle := List.sum_le_card_nsmul ((a.operands n).map a.weight) (2 ^ rest) (by simpa using hoperand)
        rwa [List.length_map] at hle
    _ < 2 ^ (a.operands n).length * 2 ^ rest := by
        exact Nat.mul_lt_mul_of_pos_right Nat.lt_two_pow_self (Nat.two_pow_pos rest)
    _ = a.weight n := by
        rw [weight, ← hrest, Nat.pow_add, Nat.mul_comm]

end IntervalDag.Arena
