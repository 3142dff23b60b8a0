import IntervalDag.Proofs.Walk.Marks

/-!
# Graphs with the same terms

Analyses and propagation change what is cached on nodes, the epochs and the walk slots, but not what the
nodes stand for. `Graph.SameTerms` says of two graphs that they have the same kinds, operands and reference
counts, and the same handlers for them.
-/

namespace IntervalDag

variable {α : Type}

/-- What a node stands for, and how often it is referred to. -/
def Node.term (node : Node α) : Kind α × List NodeId × Nat := (node.kind, node.children, node.refs)

/-- Two graphs differ at most in caches, epochs and walk slots, and in which handlers have reported. -/
structure Graph.SameTerms (g g' : Graph α) : Prop where
  agree : Arena.AgreeOn Node.term g.arena g'.arena
  free_eq : g'.arena.free = g.arena.free
  handler_eq : g'.operators.handler = g.operators.handler
  settings_eq : g'.settings = g.settings
  varNodes_eq : g'.varNodes = g.varNodes
  identity_eq : g'.identity = g.identity

namespace Graph.SameTerms

variable {g g₁ g₂ : Graph α}

theorem refl (g : Graph α) : SameTerms g g := ⟨.refl _ _, rfl, rfl, rfl, rfl, rfl⟩

theorem trans (h₁ : SameTerms g g₁) (h₂ : SameTerms g₁ g₂) : SameTerms g g₂ where
  agree := h₁.agree.trans h₂.agree
  free_eq := h₂.free_eq.trans h₁.free_eq
  handler_eq := h₂.handler_eq.trans h₁.handler_eq
  settings_eq := h₂.settings_eq.trans h₁.settings_eq
  varNodes_eq := h₂.varNodes_eq.trans h₁.varNodes_eq
  identity_eq := h₂.identity_eq.trans h₁.identity_eq

theorem of_walked (h : Walked g g₁) : SameTerms g g₁ where
  agree := h.agree.map Node.term
  free_eq := h.free_eq
  handler_eq := by rw [h.rest_eq]
  settings_eq := by rw [h.rest_eq]
  varNodes_eq := by rw [h.rest_eq]
  identity_eq := by rw [h.rest_eq]

/-- Changing an entry beside its term. -/
theorem of_modify {n : NodeId} {f : Node α → Node α} (hf : ∀ node, (f node).term = node.term) :
    SameTerms g (g.modify n f) where
  agree := .of_modify hf
  free_eq := rfl
  handler_eq := rfl
  settings_eq := rfl
  varNodes_eq := rfl
  identity_eq := rfl

section Consequences

variable (h : SameTerms g g₁)

include h

theorem children : Arena.AgreeOn (·.children) g.arena g₁.arena := h.agree.map (·.2.1)

theorem refs : Arena.AgreeOn (·.refs) g.arena g₁.arena := h.agree.map (·.2.2)

theorem isAlive_eq : g₁.arena.isAlive = g.arena.isAlive := h.refs.isAlive_eq

theorem handlerFor_eq : g₁.handlerFor = g.handlerFor := by
  funext kind
  rw [handlerFor, OperatorTable.forKind, h.handler_eq, handlerFor, OperatorTable.forKind]

/-- An entry of one graph is one of the other, with the same kind, operands and count. -/
theorem exists_node? {n : NodeId} {node : Node α} (hn : g.arena.node? n = some node) :
    ∃ node₁, g₁.arena.node? n = some node₁ ∧ node₁.kind = node.kind ∧
      node₁.children = node.children ∧ node₁.refs = node.refs := by
  obtain ⟨node₁, hn₁, hterm⟩ := h.agree.exists_node? hn
  simp only [Node.term, Prod.mk.injEq] at hterm
  exact ⟨node₁, hn₁, hterm⟩

theorem symm : SameTerms g₁ g where
  agree := h.agree.symm
  free_eq := h.free_eq.symm
  handler_eq := h.handler_eq.symm
  settings_eq := h.settings_eq.symm
  varNodes_eq := h.varNodes_eq.symm
  identity_eq := h.identity_eq.symm

end Consequences

end Graph.SameTerms

end IntervalDag
