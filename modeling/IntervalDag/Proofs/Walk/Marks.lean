import IntervalDag.Walk.Basic
import IntervalDag.Proofs.Graph.References
import IntervalDag.Proofs.Outcome

/-!
# Marks of walks

A walk without revisits marks the nodes that it has finished with its own tag, in the scratch slots at its
own position. `Graph.marked` reads these marks, and `Graph.Walked` says that a graph differs from another one
in nothing but what walks keep.

A new walk sees no marks, because every tag in a slot was given out before (`Graph.TagsGiven`).
-/

namespace IntervalDag

variable {α : Type}

/-! ### Scratch slots of one node -/

theorem Node.slot_modifySlot (n : Node α) (i j : Nat) (f : Slot → Slot) :
    (n.modifySlot i f).slot j = if j = i then f (n.slot i) else n.slot j := by
  have hpad : ∀ k : Nat,
      (n.slots ++ Array.replicate (i + 1 - n.slots.size) default)[k]?.getD default =
        n.slots[k]?.getD default := by
    intro k
    rw [Array.getElem?_append, Array.getElem?_replicate]
    split
    · rfl
    · rename_i hk
      rw [Array.getElem?_eq_none (Nat.le_of_not_lt hk)]
      split <;> rfl
  have hsize : i < (n.slots ++ Array.replicate (i + 1 - n.slots.size) (default : Slot)).size := by
    rw [Array.size_append, Array.size_replicate]
    omega
  rw [Node.slot, Node.slot, Node.modifySlot, Array.getElem?_modify]
  by_cases hij : j = i
  · subst hij
    rw [if_pos rfl, if_pos rfl, ← hpad j, Array.getElem?_eq_getElem hsize]
    rfl
  · rw [if_neg hij, if_neg (Ne.symm hij)]
    exact hpad j

/-- A node without its scratch slots. -/
def Node.bare (node : Node α) : Node α := { node with slots := #[] }

/-- Another slot can be had unless all are taken. -/
theorem SlotPool.lowestFree?_ne_none_of_lt {p : SlotPool} (h : p.activeCount < limit) : p.lowestFree? ≠ none := by
  intro hnone
  rw [lowestFree?, List.find?_eq_none] at hnone
  have hsub : List.range limit ⊆ p.taken := fun i hi => by simpa using hnone i hi
  have hle := (List.nodup_range.subperm hsub).length_le
  rw [List.length_range] at hle
  exact Nat.not_lt_of_le hle h

/-- Where no slot is taken, one can be. -/
theorem SlotPool.lowestFree?_ne_none {p : SlotPool} (h : p.taken = []) : p.lowestFree? ≠ none := by
  refine lowestFree?_ne_none_of_lt ?_
  rw [activeCount, h]
  exact Nat.zero_lt_succ 4

namespace Graph

/-! ### Reading nodes -/

theorem meets_get {g : Graph α} {n : NodeId} {E : Fault α → Prop} {Q : Node α → Unit → Prop}
    (hn : n < g.arena.capacity ∨ E .outOfRange)
    (hQ : ∀ node, g.arena.node? n = some node → Q node ()) : Meets (g.arena.get n) () E Q := by
  rw [Arena.get]
  rcases hnode : g.arena.node? n with _ | node
  · exact hn.resolve_left (Nat.not_lt.mpr (Arena.node?_eq_none_iff.mp hnode))
  · exact hQ node hnode

theorem meets_node {g : Graph α} {n : NodeId} {E : Fault α → Prop} {Q : Node α → Unit → Prop}
    (hn : g.arena.isAlive n = true ∨ E (.accessReleased n))
    (hQ : ∀ node, g.arena.isAlive n = true → g.arena.node? n = some node → Q node ()) :
    Meets (g.node n) () E Q := by
  rw [Graph.node, Graph.isAlive]
  split
  · rename_i halive
    exact meets_get (Or.inl (Arena.lt_capacity_of_isAlive halive)) fun node => hQ node halive
  · rename_i hdead
    exact hn.resolve_left hdead

/-! ### What walks leave alone -/

/-- A graph after walks have passed through it: the nodes differ in their scratch slots at most, and all
else in the slots taken and the tags given out. -/
structure Walked (g g' : Graph α) : Prop where
  agree : Arena.AgreeOn Node.bare g.arena g'.arena
  free_eq : g'.arena.free = g.arena.free
  rest_eq : g' = { g with arena := g'.arena, walks := g'.walks }

namespace Walked

variable {g g₁ g₂ : Graph α}

theorem refl (g : Graph α) : Walked g g := ⟨.refl _ _, rfl, rfl⟩

theorem trans (h₁ : Walked g g₁) (h₂ : Walked g₁ g₂) : Walked g g₂ where
  agree := h₁.agree.trans h₂.agree
  free_eq := h₂.free_eq.trans h₁.free_eq
  rest_eq := by rw [h₂.rest_eq, h₁.rest_eq]

/-- Operands are not touched. -/
theorem children (h : Walked g g₁) : Arena.AgreeOn (·.children) g.arena g₁.arena := h.agree.map (·.children)

end Walked

/-! ### Marks -/

/-- The node `n` has the tag in the scratch slot at a position. -/
def marked (g : Graph α) (slot tag : Nat) (n : NodeId) : Bool :=
  (g.arena.node? n).elim false fun node => (node.slot slot).visited == tag

/-- Every tag in a scratch slot was given out. -/
def TagsGiven (g : Graph α) : Prop :=
  ∀ n node slot, g.arena.node? n = some node → (node.slot slot).visited ≤ g.walks.visitTags.last

/-- A tag that was not given out marks nothing. -/
theorem TagsGiven.marked_eq_false {g : Graph α} (h : g.TagsGiven) {tag : Nat}
    (htag : g.walks.visitTags.last < tag) (slot : Nat) (n : NodeId) : g.marked slot tag n = false := by
  rw [marked]
  rcases hn : g.arena.node? n with _ | node
  · rfl
  · have := h n node slot hn
    exact beq_false_of_ne (by omega)

end Graph

/-! ### Reading and writing marks -/

namespace Walk

variable {w : Walk} {g : Graph α} {slot : Nat} {E : Fault α → Prop}

theorem meets_isVisited (hslot : w.slot = some slot) (htag : w.visitTag ≠ 0) {n : NodeId}
    (hn : n < g.arena.capacity ∨ E .outOfRange) {Q : Bool → Unit → Prop}
    (hQ : Q (g.marked slot w.visitTag n) ()) : Meets (w.isVisited g n) () E Q := by
  have hrun : w.isVisited g n = (fun s => s.visited == w.visitTag) <$> g.arena.slot n slot := by
    have hrevisit : w.allowsRevisits = false := beq_false_of_ne htag
    simp only [isVisited, hrevisit, slotIndex, hslot]
    rfl
  rw [hrun, Arena.slot, map_eq_pure_bind, map_eq_pure_bind, bind_assoc]
  refine meets_bind.mpr (Graph.meets_get hn fun node hnode => ?_)
  rw [Graph.marked, hnode] at hQ
  exact hQ

theorem meets_children {n : NodeId} (hn : n < g.arena.capacity ∨ E .outOfRange)
    {Q : List NodeId → Unit → Prop} (hQ : Q (g.arena.operands n) ()) :
    Meets (g.arena.children n) () E Q := by
  rw [Arena.children, map_eq_pure_bind]
  refine meets_bind.mpr (Graph.meets_get hn fun node hnode => meets_pure.mpr ?_)
  rw [← Arena.operands_eq_of_node? hnode]
  exact hQ

/-- Marking a node marks that node besides, and changes nothing but scratch slots. -/
structure Marked (g g' : Graph α) (slot tag : Nat) (n : NodeId) : Prop where
  walked : Graph.Walked g g'
  marked_eq : ∀ m, g'.marked slot tag m = (decide (m = n) || g.marked slot tag m)
  walks_eq : g'.walks = g.walks
  tagsGiven : g.TagsGiven → tag ≤ g.walks.visitTags.last → g'.TagsGiven

/-- Writing the tag of a walk into a scratch slot marks the node. -/
theorem marked_modifySlot {n : NodeId} (hn : n < g.arena.capacity) (tag : Nat) :
    Marked g (g.modify n (·.modifySlot slot fun s => { s with visited := tag })) slot tag n where
  walked := ⟨.of_modify fun _ => rfl, rfl, rfl⟩
  marked_eq m := by
    rw [Graph.marked, Graph.modify, Arena.node?_modify]
    by_cases hm : m = n
    · subst hm
      rcases hnode : g.arena.node? m with _ | node
      · exact absurd hn (Nat.not_lt.mpr (Arena.node?_eq_none_iff.mp hnode))
      · simp [Node.slot_modifySlot]
    · simp [hm, Graph.marked]
  walks_eq := rfl
  tagsGiven htags htag := by
    intro m node' j hm
    rw [Graph.modify, Arena.node?_modify] at hm
    split at hm
    · obtain ⟨node, hnode, rfl⟩ := Option.map_eq_some_iff.mp hm
      rw [Node.slot_modifySlot]
      split
      · exact htag
      · exact htags m node j hnode
    · exact htags m node' j hm

theorem meets_markVisited (hslot : w.slot = some slot) (htag : w.visitTag ≠ 0) {n : NodeId}
    (hn : n < g.arena.capacity ∨ E .outOfRange) {Q : Graph α → Unit → Prop}
    (hQ : ∀ g', Marked g g' slot w.visitTag n → Q g' ()) : Meets (w.markVisited g n) () E Q := by
  have hrun : w.markVisited g n = (fun a => { g with arena := a }) <$>
      g.arena.update n (·.modifySlot slot fun s => { s with visited := w.visitTag }) := by
    have hrevisit : w.allowsRevisits = false := beq_false_of_ne htag
    simp only [markVisited, hrevisit, modifySlot, slotIndex, hslot]
    rfl
  rw [hrun, Arena.update]
  split
  · rename_i hlt
    exact hQ _ (marked_modifySlot hlt w.visitTag)
  · rename_i hlt
    exact hn.resolve_left hlt

end Walk

end IntervalDag
