import IntervalDag.Proofs.Graph.References

/-!
# Dropping references

Dropping a reference may free a node, whose references to its operands are dropped in turn. What is
still to be dropped counts as held meanwhile: freeing a node turns its uses back into references.

* `Counted.releaseAll`: dropping counted references never meets a node out of use, and leaves an arena
  whose counts are exact for what remains.
* `Released` says what else happens: the nodes that stay in use keep everything but references, and the
  list of the freed nodes is complete.
-/

namespace IntervalDag.Arena

variable {α : Type}

/-- What dropping references leaves of an arena. The nodes that were freed are listed with the kinds they
had; all others keep everything but references. -/
structure Released [Scalar α] (a a' : Arena α) (freed : List (NodeId × Kind α)) : Prop where
  /-- no entry is made -/
  capacity_eq : a'.capacity = a.capacity
  /-- a node still in use has lost references at most -/
  kept : ∀ n, a'.isAlive n = true →
    a'.node? n = (a.node? n).map fun node => { node with refs := a'.refs n }
  /-- a free entry stays as it is -/
  idle : ∀ n, a.isAlive n = false → a'.node? n = a.node? n
  /-- the list says which nodes went out of use -/
  mem_freed : ∀ n kind, (n, kind) ∈ freed ↔
    a'.isAlive n = false ∧ a.isAlive n = true ∧ ∃ node, a.node? n = some node ∧ node.kind = kind
  /-- a node that went out of use left a blank entry -/
  blank : ∀ n, a.isAlive n = true → a'.isAlive n = false → a'.node? n = some .free

namespace Released

variable [Scalar α] {a a₁ a₂ : Arena α} {freed freed₁ freed₂ : List (NodeId × Kind α)}

theorem refl (a : Arena α) : Released a a [] where
  capacity_eq := rfl
  kept n _ := by
    rcases hn : a.node? n with _ | node
    · rfl
    · rw [refs_eq_of_node? hn]
      rfl
  idle _ _ := rfl
  mem_freed n kind := by
    constructor
    · intro hmem
      cases hmem
    · rintro ⟨h₁, h₂, -⟩
      rw [h₁] at h₂
      cases h₂
  blank n h₁ h₂ := by
    rw [h₁] at h₂
    cases h₂

/-- What is in use was in use before. -/
theorem isAlive_of_isAlive (h : Released a a₁ freed) {n : NodeId} (hn : a₁.isAlive n = true) :
    a.isAlive n = true := by
  rcases ha : a.isAlive n with _ | _
  · rw [isAlive, refs, h.idle n ha] at hn
    rw [isAlive, refs] at ha
    rw [ha] at hn
    cases hn
  · rfl

theorem trans (h₁ : Released a a₁ freed₁) (h₂ : Released a₁ a₂ freed₂) :
    Released a a₂ (freed₂ ++ freed₁) where
  capacity_eq := h₂.capacity_eq.trans h₁.capacity_eq
  kept n hn := by
    rw [h₂.kept n hn, h₁.kept n (h₂.isAlive_of_isAlive hn), Option.map_map]
    rfl
  idle n hn := by
    have hn₁ : a₁.isAlive n = false := by
      rw [isAlive, refs, h₁.idle n hn]
      exact hn
    rw [h₂.idle n hn₁, h₁.idle n hn]
  mem_freed n kind := by
    rw [List.mem_append, h₁.mem_freed n kind, h₂.mem_freed n kind]
    constructor
    · rintro (⟨hdead, halive, node, hnode, hkind⟩ | ⟨hdead, halive, hrest⟩)
      · refine ⟨hdead, h₁.isAlive_of_isAlive halive, ?_⟩
        rw [h₁.kept n halive, Option.map_eq_some_iff] at hnode
        obtain ⟨old, hold, rfl⟩ := hnode
        exact ⟨old, hold, hkind⟩
      · refine ⟨?_, halive, hrest⟩
        rw [isAlive, refs, h₂.idle n hdead]
        exact hdead
    · rintro ⟨hdead, halive, old, hold, hkind⟩
      rcases hn : a₁.isAlive n with _ | _
      · exact Or.inr ⟨rfl, halive, old, hold, hkind⟩
      · refine Or.inl ⟨hdead, rfl, { old with refs := a₁.refs n }, ?_, hkind⟩
        rw [h₁.kept n hn, hold]
        rfl
  blank n halive hdead := by
    rcases hn : a₁.isAlive n with _ | _
    · rw [h₂.idle n hn]
      exact h₁.blank n halive hn
    · exact h₂.blank n hn hdead

end Released

theorem node?_recycle [Scalar α] {a : Arena α} {n : NodeId} (hn : n < a.capacity) (k : NodeId) :
    (a.recycle n).node? k = if k = n then some .free else a.node? k :=
  node?_reuse hn k .free (n :: a.free)

theorem node?_replace {a : Arena α} {n : NodeId} (hn : n < a.capacity) (k : NodeId) (new : Node α) :
    (a.set n new).node? k = if k = n then some new else a.node? k :=
  node?_reuse hn k new a.free

/-- Lowering a count, but not to zero, keeps all edges. -/
theorem sameEdges_drop {a : Arena α} {n : NodeId} {node : Node α} (hn : a.node? n = some node)
    (hmany : 1 < node.refs) : SameEdges a (a.set n { node with refs := node.refs - 1 }) := by
  have hlt := lt_capacity_of_node? hn
  refine ⟨capacity_set .., rfl, fun k => ?_, fun k => ?_⟩
  · rw [Bool.eq_iff_iff, isAlive_iff, isAlive_iff, refs, node?_replace hlt]
    split
    · subst k
      rw [refs_eq_of_node? hn]
      exact ⟨fun _ => by omega, fun _ => Nat.sub_pos_of_lt hmany⟩
    · rfl
  · rw [operands, node?_replace hlt]
    split
    · subst k
      rw [operands_eq_of_node? hn]
      rfl
    · rfl

section Steps

variable [Scalar α] {a : Arena α} {held : Holding} {n : NodeId} {node : Node α} {pending : List NodeId}

/-- Dropping the last reference to a node leaves a blank entry. -/
theorem released_recycle (hn : a.node? n = some node) (hpos : 0 < node.refs) :
    Released a (a.recycle n) [(n, node.kind)] := by
  have hlt := lt_capacity_of_node? hn
  have halive : a.isAlive n = true := isAlive_iff.mpr (refs_eq_of_node? hn ▸ hpos)
  have hdead : (a.recycle n).isAlive n = false := by
    rw [isAlive, refs, node?_recycle hlt, if_pos rfl]
    rfl
  have hother : ∀ k, k ≠ n → (a.recycle n).node? k = a.node? k := fun k hk => by
    rw [node?_recycle hlt, if_neg hk]
  have honly : ∀ k, (a.recycle n).isAlive k = false → a.isAlive k = true → k = n := by
    intro k hk' hk
    refine Decidable.byContradiction fun hne => ?_
    rw [isAlive, refs, hother k hne] at hk'
    rw [isAlive, refs, hk'] at hk
    cases hk
  refine ⟨capacity_set a n .free, fun k hk => ?_, fun k hk => ?_, fun k kind => ?_, fun k hk hk' => ?_⟩
  · have hne : k ≠ n := by
      rintro rfl
      rw [hdead] at hk
      cases hk
    rw [refs, hother k hne]
    rcases a.node? k with _ | old <;> rfl
  · refine hother k ?_
    rintro rfl
    rw [halive] at hk
    cases hk
  · rw [List.mem_singleton, Prod.mk.injEq]
    constructor
    · rintro ⟨rfl, rfl⟩
      exact ⟨hdead, halive, node, hn, rfl⟩
    · rintro ⟨hk', hk, old, hold, hkind⟩
      obtain rfl := honly k hk' hk
      rw [hn] at hold
      cases hold
      exact ⟨rfl, hkind.symm⟩
  · rw [node?_recycle hlt, if_pos (honly k hk' hk)]

/-- Dropping one of several references to a node only lowers its count. -/
theorem released_drop (hn : a.node? n = some node) (hmany : 1 < node.refs) :
    Released a (a.set n { node with refs := node.refs - 1 }) [] := by
  have hlt := lt_capacity_of_node? hn
  have halive := (sameEdges_drop hn hmany).isAlive_eq
  refine ⟨capacity_set .., fun k _ => ?_, fun k hk => ?_, fun k kind => ?_, fun k hk hk' => ?_⟩
  · rw [refs, node?_replace hlt]
    split
    · subst k
      rw [hn]
      rfl
    · rcases a.node? k with _ | old <;> rfl
  · rw [node?_replace hlt, if_neg]
    rintro rfl
    rw [isAlive, refs_eq_of_node? hn, decide_eq_false_iff_not] at hk
    omega
  · constructor
    · intro hmem
      cases hmem
    · rintro ⟨hk', hk, -⟩
      rw [halive k, hk] at hk'
      cases hk'
  · rw [halive k, hk] at hk'
    cases hk'

/-- The uses by a freed node turn into references yet to be dropped. -/
theorem Counted.of_recycled (h : a.Counted (held.plus (n :: pending))) (hn : a.node? n = some node)
    (hone : node.refs = 1) :
    (a.recycle n).Counted (held.plus (node.children.reverse ++ pending)) := by
  have hlt := lt_capacity_of_node? hn
  have hother : ∀ k, k ≠ n → (a.recycle n).node? k = a.node? k := fun k hk => by
    rw [node?_recycle hlt, if_neg hk]
  have hcap : (a.recycle n).capacity = a.capacity := capacity_set a n .free
  -- the entry loses its one reference, and its operands the uses that they had in it
  have hrefs : ∀ k, (a.recycle n).refs k + [n].count k = a.refs k := by
    intro k
    by_cases hk : k = n
    · subst hk
      rw [refs, node?_recycle hlt, if_pos rfl, refs_eq_of_node? hn, hone, List.count_singleton_self]
      rfl
    · rw [refs, hother k hk, List.count_singleton, if_neg (by simpa using Ne.symm hk)]
      rfl
  have huses : ∀ k, (a.recycle n).uses k + node.children.count k = a.uses k := by
    intro k
    have hsame : ∀ m, m ≠ n → (a.recycle n).usesIn m k = a.usesIn m k := fun m hm => by
      rw [usesIn, usesIn, isAlive, isAlive, refs, refs, operands, operands, hother m hm]
    have hbefore : a.usesIn n k = node.children.count k := by
      rw [usesIn, isAlive, refs_eq_of_node? hn, hone, operands_eq_of_node? hn]
      rfl
    have hafter : (a.recycle n).usesIn n k = 0 := by
      rw [usesIn, isAlive, refs, node?_recycle hlt, if_pos rfl]
      rfl
    have := uses_add_usesIn (k := k) (Nat.le_of_eq hcap.symm) (hcap ▸ hlt) hsame
    omega
  refine ⟨fun k => ?_, fun k hk => ?_, fun k => ?_, ?_⟩
  · have hall := h.refs_eq k
    have hcons : ([n] ++ pending).count k = [n].count k + pending.count k := List.count_append
    rw [Holding.plus_apply, ← List.singleton_append, hcons, ← hrefs k, ← huses k] at hall
    rw [Holding.plus_apply, List.count_append, List.count_reverse]
    omega
  · by_cases hkn : k = n
    · rw [operands, node?_recycle hlt, if_pos hkn]
      rfl
    · rw [operands, hother k hkn]
      rw [refs, hother k hkn] at hk
      exact h.operands_eq k hk
  · have hfree : (a.recycle n).free = n :: a.free := rfl
    rw [hfree, List.mem_cons, h.mem_free k, hcap]
    by_cases hkn : k = n
    · subst hkn
      refine ⟨fun _ => ⟨hlt, ?_⟩, fun _ => Or.inl rfl⟩
      rw [refs, node?_recycle hlt, if_pos rfl]
      rfl
    · rw [refs, refs, hother k hkn, or_iff_right hkn]
  · refine List.nodup_cons.mpr ⟨fun hmem => ?_, h.nodup⟩
    have := ((h.mem_free n).mp hmem).2
    rw [refs_eq_of_node? hn, hone] at this
    cases this

omit [Scalar α] in
/-- One of several references to a node is dropped. -/
theorem Counted.of_dropped (h : a.Counted (held.plus (n :: pending))) (hn : a.node? n = some node)
    (hmany : 1 < node.refs) :
    (a.set n { node with refs := node.refs - 1 }).Counted (held.plus pending) := by
  have hlt := lt_capacity_of_node? hn
  refine h.of_sameEdges (sameEdges_drop hn hmany) fun k => ?_
  rw [Holding.plus_apply, Holding.plus_apply, List.count_cons, refs, node?_replace hlt]
  by_cases hk : k = n
  · subst hk
    rw [if_pos rfl, refs_eq_of_node? hn]
    simp
    omega
  · rw [if_neg hk]
    simp [Ne.symm hk, refs]

end Steps

/-- **Dropping references.** If the pending references are counted, none of them is to a node out of use,
and dropping them all leaves an arena that counts what remains. Each step either lowers one count or
frees one node, whose uses it adds to the pending references. -/
theorem Counted.releaseAll [Scalar α] {a : Arena α} {held : Holding} {pending : List NodeId}
    (h : a.Counted (held.plus pending)) (freed : List (NodeId × Kind α)) :
    ∃ a' new, a.releaseAll freed pending = .ok (a', new ++ freed) ∧ a'.Counted held ∧
      Released a a' new := by
  fun_induction Arena.releaseAll a freed pending with
  | case1 a freed => exact ⟨a, [], rfl, h, .refl a⟩
  | case2 a freed n pending hn =>
    -- a pending reference is to an entry
    have := h.refs_eq n
    rw [refs, hn, Holding.plus_apply, List.count_cons_self] at this
    simp only [Option.elim_none] at this
    omega
  | case3 a freed n pending node hn hzero =>
    have := h.refs_eq n
    rw [refs_eq_of_node? hn, hzero, Holding.plus_apply, List.count_cons_self] at this
    omega
  | case4 a freed n pending node hn hzero hone ih =>
    obtain ⟨a', new, hrun, hcounted, hrel⟩ := ih (h.of_recycled hn hone)
    refine ⟨a', new ++ [(n, node.kind)], ?_, hcounted, (released_recycle hn (by omega)).trans hrel⟩
    rw [hrun, List.append_assoc]
    rfl
  | case5 a freed n pending node hn hzero hone ih =>
    have hmany : 1 < node.refs := by omega
    obtain ⟨a', new, hrun, hcounted, hrel⟩ := ih (h.of_dropped hn hmany)
    refine ⟨a', new, hrun, hcounted, ?_⟩
    have := (released_drop hn hmany).trans hrel
    rwa [List.append_nil] at this

/-- Nodes in use lose no operands when references are dropped, and free entries have none. -/
theorem Released.isOperand_of_isOperand [Scalar α] {a a' : Arena α} {held : Holding}
    {freed : List (NodeId × Kind α)} (h : Released a a' freed) (hcounted : a'.Counted held)
    {c n : NodeId} (hc : a'.IsOperand c n) : a.IsOperand c n := by
  have hn := hcounted.isAlive_of_isOperand hc
  rw [IsOperand, operands, h.kept n hn] at hc
  rw [IsOperand, operands]
  rcases ha : a.node? n with _ | node
  · rw [ha] at hc
    cases hc
  · rw [ha] at hc
    exact hc

end IntervalDag.Arena
