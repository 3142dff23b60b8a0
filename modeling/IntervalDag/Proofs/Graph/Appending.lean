import IntervalDag.Proofs.Graph.References
import IntervalDag.Proofs.Graph.Search

/-!
# Appending operands

What becomes of a request to append an operand, on any graph whose operands are entries:

* `append_of_fixed`: a kind that takes a fixed number of operands declines.
* `append_of_below`: an operand that has its new parent below it is declined.
* `exists_append`: every other operand in use is appended. `Appended` says all that changes then.
-/

namespace IntervalDag.Graph

variable {α : Type}

/-- The whole effect of appending an operand. -/
structure Appended [Scalar α] (g g' : Graph α) (parent child : NodeId) (coef : α) : Prop where
  /-- the parent has the operand as its last one, and its kind takes in the coefficient -/
  parent_eq : g'.arena.node? parent = (g.arena.node? parent).map fun p =>
    { p with kind := p.kind.extended coef, children := p.children ++ [child] }
  /-- a sum has the coefficient as its last one, a product is multiplied by it -/
  kind_eq : ∀ p, g.arena.node? parent = some p →
    (∃ coefs constant, p.kind = .sum coefs constant ∧
      p.kind.extended coef = .sum (coefs ++ [coef]) constant) ∨
    ∃ factor, p.kind = .product factor ∧ p.kind.extended coef = .product (factor * coef)
  /-- the operand has one reference more -/
  child_eq : g'.arena.node? child = (g.arena.node? child).map fun c => { c with refs := c.refs + 1 }
  other_eq : ∀ n, n ≠ parent → n ≠ child → g'.arena.node? n = g.arena.node? n
  free_eq : g'.arena.free = g.arena.free
  /-- beside the arena only the epoch of the bounds changes, to one that was never given out -/
  rest_eq : g' = { g with
    arena := g'.arena, boundsEpoch := g.epochs.last + 1, epochs := ⟨g.epochs.last + 1⟩ }

/-- An operand in use is pushed onto the entry of a node after a reference to it is counted. -/
theorem pushChild_of_isAlive {a : Arena α} {parent child : NodeId} (hp : parent < a.capacity)
    (hc : a.isAlive child = true) :
    a.pushChild parent child = .ok ((a.modify child fun node => { node with refs := node.refs + 1 }).modify
      parent fun node => { node with children := node.children ++ [child] }) := by
  have hlt : parent < (a.modify child fun node => { node with refs := node.refs + 1 }).capacity := by
    rwa [Arena.capacity_modify]
  rw [Arena.pushChild, Arena.capture_of_isAlive hc, Checked.ok_bind, Arena.update]
  exact if_pos hlt

theorem node_of_isAlive {g : Graph α} {n : NodeId} {node : Node α} (hn : g.arena.isAlive n = true)
    (hnode : g.arena.node? n = some node) : g.node n = .ok node := by
  rw [Graph.node, isAlive, if_pos hn]
  exact Arena.get_eq_ok_iff.mpr hnode

/-- Only nodes in use can be read. -/
theorem isAlive_of_node {g : Graph α} {n : NodeId} {node : Node α} (h : g.node n = .ok node) :
    g.arena.isAlive n = true := by
  rw [Graph.node] at h
  split at h
  · assumption
  · cases h

section

variable [Scalar α] {g : Graph α} {parent child : NodeId} {p : Node α} (coef : α)

/-- A node whose kind is not associative takes no further operand. -/
theorem append_of_fixed (hp : g.arena.isAlive parent = true) (hnode : g.arena.node? parent = some p)
    (hc : g.arena.isAlive child = true) (hkind : p.kind.isAssociative = false) :
    g.append parent child coef = .ok (.error (.notAssociative parent p.kind.op)) := by
  obtain ⟨c, hcnode, -⟩ := Arena.exists_node?_of_isAlive hc
  rw [append, node_of_isAlive hp hnode, node_of_isAlive hc hcnode]
  simp only [Checked.ok_bind, hkind]
  rfl

/-- An operand is declined if it is the parent or has it below. -/
theorem append_of_below (hinside : g.arena.OperandsInside) (hp : g.arena.isAlive parent = true)
    (hnode : g.arena.node? parent = some p) (hc : g.arena.isAlive child = true)
    (hkind : p.kind.isAssociative = true) (hbelow : g.arena.Below parent child) :
    g.append parent child coef = .ok (.error (.wouldCreateCycle parent child)) := by
  obtain ⟨c, hcnode, -⟩ := Arena.exists_node?_of_isAlive hc
  obtain ⟨found, hrun, hfound⟩ := exists_reaches hinside
    (Arena.lt_capacity_of_isAlive hc) parent
  obtain rfl := hfound.mpr hbelow
  rw [append, node_of_isAlive hp hnode, node_of_isAlive hc hcnode, hrun]
  simp only [Checked.ok_bind, hkind]
  rfl

/-- What pushing the operand comes to, once the kind of the parent has taken in the coefficient. -/
theorem Appended.of_pushChild (hp : g.arena.isAlive parent = true) (hnode : g.arena.node? parent = some p)
    (hc : g.arena.isAlive child = true) (hkind : p.kind.isAssociative = true) (hne : child ≠ parent) :
    ∃ a, (g.arena.modify parent fun node => { node with kind := node.kind.extended coef }).pushChild parent child =
        .ok a ∧ Appended g (bumpBoundsEpoch { g with arena := a }) parent child coef := by
  have hlt := Arena.lt_capacity_of_isAlive hp
  rw [← Arena.capacity_modify g.arena parent fun node => { node with kind := node.kind.extended coef }] at hlt
  refine ⟨_, pushChild_of_isAlive hlt ?_, ?_, fun q hq => ?_, ?_, fun n hnp hnc => ?_, rfl, rfl⟩
  · rw [Arena.isAlive, Arena.refs, Arena.node?_modify, if_neg hne]
    exact hc
  · simp only [bumpBoundsEpoch, Arena.node?_modify, if_true, if_neg hne.symm, Option.map_map]
    rfl
  · rw [hnode] at hq
    cases hq
    cases hk : p.kind with
    | sum coefs constant => exact Or.inl ⟨coefs, constant, rfl, rfl⟩
    | product factor => exact Or.inr ⟨factor, rfl, rfl⟩
    | _ =>
      rw [hk] at hkind
      cases hkind
  · simp only [bumpBoundsEpoch, Arena.node?_modify, if_true, if_neg hne]
  · simp only [bumpBoundsEpoch, Arena.node?_modify, if_neg hnp, if_neg hnc]

/-- An operand in use that does not have its new parent below is appended. -/
theorem exists_append (hinside : g.arena.OperandsInside) (hp : g.arena.isAlive parent = true)
    (hnode : g.arena.node? parent = some p) (hc : g.arena.isAlive child = true)
    (hkind : p.kind.isAssociative = true) (hbelow : ¬ g.arena.Below parent child) :
    ∃ g', g.append parent child coef = .ok (.ok g') ∧ Appended g g' parent child coef := by
  obtain ⟨c, hcnode, -⟩ := Arena.exists_node?_of_isAlive hc
  obtain ⟨found, hrun, hfound⟩ := exists_reaches hinside
    (Arena.lt_capacity_of_isAlive hc) parent
  obtain rfl : found = false := by
    rcases found with _ | _
    · rfl
    · exact absurd (hfound.mp rfl) hbelow
  -- a node is at or below itself, so it is not appended to itself either
  have hne : child ≠ parent := by
    rintro rfl
    exact hbelow (.refl _ _)
  obtain ⟨a, hpush, happ⟩ := Appended.of_pushChild coef hp hnode hc hkind hne
  refine ⟨_, ?_, happ⟩
  rw [append, node_of_isAlive hp hnode, node_of_isAlive hc hcnode, hrun]
  simp only [Checked.ok_bind, hkind]
  show Arena.pushChild _ parent child >>= _ = _
  rw [hpush]
  rfl

/-! ### What the effect means for the arena -/

namespace Appended

variable {coef} {g' : Graph α} (h : Appended g g' parent child coef)

include h

theorem capacity_eq : g'.arena.capacity = g.arena.capacity := by
  refine Arena.capacity_congr fun n => ?_
  by_cases hp : n = parent
  · rw [hp, h.parent_eq, Option.map_eq_none_iff]
  by_cases hc : n = child
  · rw [hc, h.child_eq, Option.map_eq_none_iff]
  · rw [h.other_eq n hp hc]

theorem refs_eq (hne : child ≠ parent) (hc : g.arena.isAlive child = true) (n : NodeId) :
    g'.arena.refs n = g.arena.refs n + [child].count n := by
  by_cases hn : n = child
  · subst hn
    obtain ⟨c, hnode, -⟩ := Arena.exists_node?_of_isAlive hc
    rw [Arena.refs, h.child_eq, Arena.refs, hnode, List.count_singleton_self]
    rfl
  rw [List.count_singleton, if_neg (by simpa using Ne.symm hn), Nat.add_zero, Arena.refs, Arena.refs]
  by_cases hp : n = parent
  · rw [hp, h.parent_eq]
    rcases g.arena.node? parent with _ | p <;> rfl
  · rw [h.other_eq n hp hn]

theorem operands_eq (hne : child ≠ parent) (hp : g.arena.isAlive parent = true) (n : NodeId) :
    g'.arena.operands n = g.arena.operands n ++ if n = parent then [child] else [] := by
  rw [Arena.operands, Arena.operands]
  by_cases hn : n = parent
  · subst hn
    obtain ⟨p, hnode, -⟩ := Arena.exists_node?_of_isAlive hp
    rw [h.parent_eq, hnode, if_pos rfl]
    rfl
  rw [if_neg hn, List.append_nil]
  by_cases hc : n = child
  · rw [hc, h.child_eq]
    rcases g.arena.node? child with _ | c <;> rfl
  · rw [h.other_eq n hn hc]

theorem counted {held : Holding} (hcounted : g.arena.Counted held) (hne : child ≠ parent)
    (hp : g.arena.isAlive parent = true) (hc : g.arena.isAlive child = true) :
    g'.arena.Counted held :=
  hcounted.of_appended hp hc h.capacity_eq h.free_eq (h.refs_eq hne hc) (h.operands_eq hne hp)

theorem acyclic (hacyclic : g.arena.Acyclic) (hp : g.arena.isAlive parent = true)
    (hbelow : ¬ g.arena.Below parent child) : g'.arena.Acyclic := by
  have hne : child ≠ parent := by
    rintro rfl
    exact hbelow (.refl _ _)
  refine hacyclic.of_append (fun m hm => ?_) ?_ hbelow
  · rw [h.operands_eq hne hp, if_neg hm, List.append_nil]
  · rw [h.operands_eq hne hp, if_pos rfl]

end Appended

end

end IntervalDag.Graph
