import IntervalDag.Proofs.Graph.Stability

/-!
# What entries inherit

A request makes blank entries, of numbers that were not in use, and blanks those that it frees. Every other entry
inherits what is cached on it. `Graph.Inherits` says so of the entries of two graphs, and `Graph.Inherits.stable`
that it holds across every request.
-/

namespace IntervalDag

variable {α : Type}

/-- The entry `node'` has what is cached on `node`. It may have other references and operands, and its kind may have
taken in a coefficient. -/
structure Node.Inherits (node node' : Node α) : Prop where
  eq : node' = { node with kind := node'.kind, children := node'.children, refs := node'.refs }
  isLeaf_eq : node'.kind.isLeaf = node.kind.isLeaf

theorem Node.Inherits.of_refs {node : Node α} (refs : Nat) : node.Inherits { node with refs } := ⟨rfl, rfl⟩

/-- Appending an operand makes no leaf of an inner node, nor the other way round. -/
theorem Kind.isLeaf_extended [Scalar α] (kind : Kind α) (coef : α) :
    (kind.extended coef).isLeaf = kind.isLeaf := by
  cases kind <;> rfl

namespace Arena

variable [Scalar α]

/-- Dropping references frees entries, and leaves the others as they were but for their references. -/
theorem node?_of_releaseAll {a a' : Arena α} {freed freed' : List (NodeId × Kind α)} {pending : List NodeId}
    (hrun : a.releaseAll freed pending = .ok (a', freed')) {n : NodeId} {node' : Node α}
    (hn : a'.node? n = some node') : node' = Node.free ∨ ∃ node refs, a.node? n = some node ∧
      node' = { node with refs } ∧ refs ≤ node.refs := by
  fun_induction Arena.releaseAll a freed pending with
  | case1 a freed =>
    cases hrun
    exact Or.inr ⟨node', node'.refs, hn, rfl, Nat.le_refl _⟩
  | case2 => cases hrun
  | case3 => cases hrun
  | case4 a freed k pending node hk hzero hone ih =>
    rcases ih hrun with hfree | ⟨node₁, refs, hnode₁, rfl, hle⟩
    · exact Or.inl hfree
    · rw [node?_recycle (lt_capacity_of_node? hk)] at hnode₁
      split_ifs at hnode₁
      · cases hnode₁
        exact Or.inl (congrArg (fun refs => { (Node.free : Node α) with refs }) (Nat.le_zero.mp hle))
      · exact Or.inr ⟨node₁, refs, hnode₁, rfl, hle⟩
  | case5 a freed k pending node hk hzero hone ih =>
    rcases ih hrun with hfree | ⟨node₁, refs, hnode₁, rfl, hle⟩
    · exact Or.inl hfree
    · rw [node?_set] at hnode₁
      split_ifs at hnode₁ with hnk
      · cases hnode₁
        exact Or.inr ⟨node, refs, hnk.1 ▸ hk, rfl, Nat.le_trans hle (Nat.sub_le _ _)⟩
      · exact Or.inr ⟨node₁, refs, hnode₁, rfl, hle⟩

end Arena

/-- Each entry is blank, and one in use has a number then that was not in use, or has what was cached on it. -/
structure Graph.Inherits [Scalar α] (g g' : Graph α) : Prop where
  entry : ∀ n node', g'.arena.node? n = some node' →
    (∃ kind children refs, node' = Node.fresh kind children refs ∧
      (0 < refs → n ∈ g.arena.free ∨ g.arena.capacity ≤ n)) ∨
    ∃ node, g.arena.node? n = some node ∧ node.Inherits node'
  roundEpoch_eq : g'.roundEpoch = g.roundEpoch

namespace Graph.Inherits

variable [Scalar α] {g g' : Graph α}

/-- **Every request.** -/
theorem stable : Graph.Stable fun g g' : Graph α => g.Intact → g.Inherits g' where
  refl g _ := ⟨fun n node hn => Or.inr ⟨node, hn, .of_refs node.refs⟩, rfl⟩
  capture {g g' n} hrun _ := by
    obtain ⟨-, rfl⟩ := Graph.eq_of_capture hrun
    refine ⟨fun m node' hm => ?_, rfl⟩
    rw [Arena.node?_modify] at hm
    split_ifs at hm
    · obtain ⟨node, hnode, rfl⟩ := Option.map_eq_some_iff.mp hm
      exact Or.inr ⟨node, hnode, .of_refs _⟩
    · exact Or.inr ⟨node', hm, .of_refs node'.refs⟩
  addUnchecked {g g' kind cs n} hrun _ := by
    obtain ⟨a, hadd, rfl⟩ := Graph.eq_of_addUnchecked hrun
    obtain ⟨-, -, hnode⟩ := Arena.add_cases hadd
    refine ⟨fun m node' hm => ?_, rfl⟩
    rcases hnode m with ⟨h, hunused⟩ | h
    · rw [h] at hm
      cases hm
      exact Or.inl ⟨kind, cs, 1, rfl, fun _ => hunused⟩
    · rw [h] at hm
      obtain ⟨node, hnode, rfl⟩ := Option.map_eq_some_iff.mp hm
      exact Or.inr ⟨node, hnode, .of_refs _⟩
  append {g g' parent child coef} hrun h := by
    obtain ⟨-, -, -, happ⟩ := h.exists_appended hrun
    refine ⟨fun m node' hm => Or.inr ?_, by rw [happ.rest_eq]⟩
    by_cases hp : m = parent
    · rw [hp, happ.parent_eq] at hm
      obtain ⟨node, hnode, rfl⟩ := Option.map_eq_some_iff.mp hm
      exact ⟨node, hp ▸ hnode, rfl, node.kind.isLeaf_extended coef⟩
    by_cases hc : m = child
    · rw [hc, happ.child_eq] at hm
      obtain ⟨node, hnode, rfl⟩ := Option.map_eq_some_iff.mp hm
      exact ⟨node, hc ▸ hnode, .of_refs _⟩
    · rw [happ.other_eq m hp hc] at hm
      exact ⟨node', hm, .of_refs node'.refs⟩
  release {g g' n} hrun _ := by
    obtain ⟨a, freed, varNodes, hall, rfl⟩ := Graph.eq_of_release hrun
    refine ⟨fun m node' hm => ?_, rfl⟩
    rcases Arena.node?_of_releaseAll hall hm with rfl | ⟨node, refs, hnode, rfl, -⟩
    · exact Or.inl ⟨.value 0, [], 0, rfl, fun hpos => absurd hpos (Nat.lt_irrefl 0)⟩
    · exact Or.inr ⟨node, hnode, .of_refs refs⟩
  varNodes _ himp h := ⟨(himp h).entry, (himp h).roundEpoch_eq⟩

/-- A node that was in use and still is has what was cached on it. -/
theorem of_isAlive (h : g.Inherits g') {held : Holding} (hcounted : g.arena.Counted held) {n : NodeId}
    (hn : g.arena.isAlive n = true) (hn' : g'.arena.isAlive n = true) :
    ∃ node node', g.arena.node? n = some node ∧ g'.arena.node? n = some node' ∧ node.Inherits node' := by
  obtain ⟨node', hnode', hpos⟩ := Arena.exists_node?_of_isAlive hn'
  rcases h.entry n node' hnode' with ⟨kind, children, refs, rfl, hunused⟩ | ⟨node, hnode, hinherits⟩
  · have hrefs := Arena.isAlive_iff.mp hn
    rcases hunused hpos with hfree | hcapacity
    · rw [((hcounted.mem_free n).mp hfree).2] at hrefs
      exact absurd hrefs (Nat.lt_irrefl 0)
    · exact absurd (Arena.lt_capacity_of_isAlive hn) (Nat.not_lt.mpr hcapacity)
  · exact ⟨node, node', hnode, hnode', hinherits⟩

end Graph.Inherits

end IntervalDag
