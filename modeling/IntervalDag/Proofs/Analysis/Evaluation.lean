import IntervalDag.Analysis.Evaluation
import IntervalDag.Proofs.Graph.Appending
import IntervalDag.Proofs.Graph.SameTerms
import IntervalDag.Proofs.Walk.Guests
import IntervalDag.Proofs.Walk.Visits

/-!
# Values at a point

`Graph.Evaluates g point n v` says that the expression at a node has the value `v` at a point, by recursion
over the expression: the value of a node is what its handler makes of the values of its operands.

* `meets_evaluate`: evaluation answers with the value of the root. It does so whenever there is one, and has
  no answer otherwise. `valueAt?` is that answer where it is a number.
* `Evaluates.acc`, `Evaluates.isAlive_of_below`: below a node that has a value every way down ends, and all
  nodes are in use.
-/

namespace IntervalDag

variable {α : Type}

/-- Operands have values if all of them do. -/
theorem Handler.allValues_eq_some_iff {xs : List (Option α)} {vs : List α} :
    allValues xs = some vs ↔ xs = vs.map some := by
  induction xs generalizing vs with
  | nil => cases vs <;> simp [allValues]
  | cons x xs ih =>
    rcases x with _ | v
    · cases vs <;> simp [allValues]
    · cases vs with
      | nil => simp [allValues]
      | cons w ws => simp [allValues, ih, and_comm]

namespace Graph

/-- The value of a node of a kind from the values of its operands; none when an operand has none. -/
def valueFrom (g : Graph α) (point : Point α) (kind : Kind α) (operands : List (Option α)) :
    Checked α (Option α) :=
  match Handler.allValues operands with
  | none => .ok none
  | some values => (g.handlerFor kind).eval kind values point

/-- The expression at a node has a value at a point, or has none there. -/
inductive Evaluates (g : Graph α) (point : Point α) : NodeId → Option α → Prop where
  | node {n : NodeId} {node : Node α} {value : NodeId → Option α} {v : Option α}
      (halive : g.arena.isAlive n = true) (hn : g.arena.node? n = some node)
      (hops : ∀ c ∈ node.children, Evaluates g point c (value c))
      (hv : g.valueFrom point node.kind (node.children.map value) = .ok v) : Evaluates g point n v

namespace Evaluates

variable {g g' : Graph α} {point : Point α} {n : NodeId} {v v' : Option α}

theorem isAlive (h : Evaluates g point n v) : g.arena.isAlive n = true := by
  cases h with
  | node halive _ _ _ => exact halive

/-- A node has one value. -/
theorem unique (h : Evaluates g point n v) (h' : Evaluates g point n v') : v = v' := by
  induction h generalizing v' with
  | node _ hn _ hv ih =>
    cases h' with
    | node _ hn' hops' hv' =>
      rw [hn] at hn'
      cases hn'
      have hmap := List.map_congr_left fun c hc => ih c hc (hops' c hc)
      rw [hmap, hv'] at hv
      cases hv
      rfl

/-- What lies below a node with a value has one as well. -/
theorem exists_of_below (h : Evaluates g point n v) {m : NodeId} (hm : g.arena.Below m n) :
    ∃ v', Evaluates g point m v' := by
  induction hm using Relation.ReflTransGen.head_induction_on with
  | refl => exact ⟨v, h⟩
  | head hop _ ih =>
    obtain ⟨_, hc⟩ := ih
    cases hc with
    | node _ hn hops _ =>
      rw [Arena.isOperand_iff hn] at hop
      exact ⟨_, hops _ hop⟩

theorem isAlive_of_below (h : Evaluates g point n v) {m : NodeId} (hm : g.arena.Below m n) :
    g.arena.isAlive m = true := by
  obtain ⟨_, hm⟩ := h.exists_of_below hm
  exact hm.isAlive

/-- Below a node with a value every way down ends. -/
theorem acc (h : Evaluates g point n v) : Acc g.arena.IsOperand n := by
  induction h with
  | node _ hn _ _ ih =>
    refine Acc.intro _ fun c hc => ih c ?_
    rwa [Arena.isOperand_iff hn] at hc

/-- Values depend on the terms alone. -/
theorem sameTerms (hsame : SameTerms g g') (h : Evaluates g point n v) : Evaluates g' point n v := by
  induction h with
  | node halive hn _ hv ih =>
    obtain ⟨node', hn', hkind, hchildren, -⟩ := hsame.exists_node? hn
    refine .node (hsame.isAlive_eq ▸ halive) hn' (hchildren ▸ ih) ?_
    rw [hkind, hchildren, valueFrom, hsame.handlerFor_eq]
    exact hv

end Evaluates

/-! ### The pass -/

/-- A graph after an evaluation: the nodes differ in values and scratch slots at most. -/
structure Valued (g g' : Graph α) : Prop where
  agree : Arena.AgreeOn (fun node => { node.bare with value := none }) g.arena g'.arena
  free_eq : g'.arena.free = g.arena.free
  rest_eq : g' = { g with arena := g'.arena, walks := g'.walks }

namespace Valued

variable {g g₁ g₂ : Graph α}

theorem of_walked (h : Walked g g₁) : Valued g g₁ :=
  ⟨h.agree.map fun node => { node with value := none }, h.free_eq, h.rest_eq⟩

theorem trans (h₁ : Valued g g₁) (h₂ : Valued g₁ g₂) : Valued g g₂ where
  agree := h₁.agree.trans h₂.agree
  free_eq := h₂.free_eq.trans h₁.free_eq
  rest_eq := by rw [h₂.rest_eq, h₁.rest_eq]

/-- Keeping a value on a node. -/
theorem of_modify (n : NodeId) (value : Option α) :
    Valued g (g.modify n fun node => { node with value }) := ⟨.of_modify fun _ => rfl, rfl, rfl⟩

theorem sameTerms (h : Valued g g₁) : SameTerms g g₁ where
  agree := h.agree.map Node.term
  free_eq := h.free_eq
  handler_eq := by rw [h.rest_eq]
  settings_eq := by rw [h.rest_eq]
  varNodes_eq := by rw [h.rest_eq]
  identity_eq := by rw [h.rest_eq]

end Valued

/-- The value cached on an entry. -/
def cached (g : Graph α) (n : NodeId) : Option α := (g.arena.node? n).elim none (·.value)

/-- Reading a value from a node in use. -/
theorem value?_eq_cached {g : Graph α} {n : NodeId} (hn : g.arena.isAlive n = true) :
    g.value? n = .ok (g.cached n) := by
  obtain ⟨node, hnode, -⟩ := Arena.exists_node?_of_isAlive hn
  rw [value?, node_of_isAlive hn hnode, cached, hnode]
  rfl

/-- The value of one node, when the values of its operands are cached. -/
theorem meets_nodeValue {g g₁ : Graph α} {point : Point α} {n : NodeId} {E : Fault α → Prop}
    (hsame : SameTerms g g₁) (hgood : (∃ v, Evaluates g point n v) ∨ ∀ e, E e)
    (hops : ∀ c, g.arena.IsOperand c n → Evaluates g point c (g₁.cached c)) :
    Meets (g₁.nodeValue point n) () E fun v _ => Evaluates g point n v := by
  rw [nodeValue]
  have halive : g₁.arena.isAlive n = true ∨ ∀ e, E e := hgood.imp_left fun ⟨v, hv⟩ =>
    hsame.isAlive_eq ▸ hv.isAlive
  refine meets_bind.mpr (meets_node (halive.imp_right fun hE => hE _) fun node₁ halive hnode₁ => ?_)
  obtain ⟨node, hnode, hkind, hchildren, -⟩ := hsame.symm.exists_node? hnode₁
  rw [hsame.isAlive_eq] at halive
  have hops' : ∀ c ∈ node₁.children, Evaluates g point c (g₁.cached c) := fun c hc => hops c (by
    rw [Arena.isOperand_iff hnode, hchildren]
    exact hc)
  refine meets_bind.mpr (meets_mapM g₁.cached (fun c hc => ?_) ?_)
  · have hlt : c < g₁.arena.capacity := by
      rw [hsame.children.capacity_eq]
      exact Arena.lt_capacity_of_isAlive (hops' c hc).isAlive
    refine meets_bind.mpr (meets_get (Or.inl hlt) fun node hc => ?_)
    rw [cached, hc]
    exact meets_pure.mpr rfl
  have hvalue : g₁.valueFrom point node₁.kind (node₁.children.map g₁.cached) =
      g.valueFrom point node.kind (node.children.map g₁.cached) := by
    rw [valueFrom, hsame.handlerFor_eq, hkind, hchildren, valueFrom]
  suffices h : Meets (g₁.valueFrom point node₁.kind (node₁.children.map g₁.cached)) () E
      fun v _ => Evaluates g point n v by
    rw [valueFrom] at h
    exact h
  rw [hvalue]
  rw [← hchildren] at hops'
  rcases hresult : g.valueFrom point node.kind (node.children.map g₁.cached) with e | v
  · -- where evaluation is defined, handlers meet no fault on the values that it computes
    refine hgood.resolve_left ?_ e
    rintro ⟨v, hv⟩
    cases hv with
    | node _ hn hops hv =>
      rw [hnode] at hn
      cases hn
      have hmap := List.map_congr_left fun c hc => (hops c hc).unique (hops' c hc)
      rw [hmap, hresult] at hv
      cases hv
  · exact .node halive hnode hops' hresult

/-- A walk is under way that evaluates the nodes it visits. -/
structure Valuing (g : Graph α) (point : Point α) (root : NodeId) (slot : Nat) (w : Walk) (g₁ : Graph α)
    (seen : NodeId → Prop) : Prop where
  visiting : Visiting root slot g₁ w seen
  valued : Valued g g₁
  taken_eq : g₁.walks.taken = slot :: g.walks.taken
  value : ∀ m, seen m → Evaluates g point m (g₁.cached m)

theorem cached_modify {g : Graph α} {n m : NodeId} {value : Option α} (hn : n < g.arena.capacity) :
    (g.modify n fun node => { node with value }).cached m = if m = n then value else g.cached m := by
  rw [cached, Graph.modify, Arena.node?_modify]
  split
  · rename_i hm
    rw [hm]
    rcases hnode : g.arena.node? n with _ | node
    · exact absurd hn (Nat.not_lt.mpr (Arena.node?_eq_none_iff.mp hnode))
    · rfl
  · rfl

theorem cached_of_walked {g g₁ : Graph α} (h : Walked g g₁) : g₁.cached = g.cached :=
  funext fun n => (h.agree.map Node.value).elim_eq n none

/-- One step of the pass evaluates the current node and goes on. -/
theorem Valuing.meets_turn {g g₁ : Graph α} {point : Point α} {root n : NodeId} {slot : Nat} {w : Walk}
    {seen : NodeId → Prop} {E : Fault α → Prop} (h : Valuing g point root slot w g₁ seen)
    (hn : w.current = some n) (hgood : (∃ v, Evaluates g point root v) ∨ ∀ e, E e) :
    Meets (do
      let value ← g₁.nodeValue point n
      w.next (g₁.modify n fun node => { node with value })) () E fun r _ =>
        Valuing g point root slot r.1 r.2 (fun m => m = n ∨ seen m) ∧
        (Acc g.arena.IsOperand root → r.1.turns r.2 slot < w.turns g₁ slot) := by
  have hsame := h.valued.sameTerms
  obtain ⟨hbelow, -, hops, -⟩ := h.visiting.atNode n hn
  rw [hsame.children.below_eq] at hbelow
  rw [hsame.children.isOperand_eq] at hops
  have hgood' : (∃ v, Evaluates g point n v) ∨ ∀ e, E e :=
    hgood.imp_left fun ⟨v, hv⟩ => hv.exists_of_below hbelow
  refine (meets_nodeValue hsame hgood' fun c hc => h.value c (hops c hc)).bind fun v _ hv => ?_
  have hlt : n < g₁.arena.capacity := by
    rw [hsame.children.capacity_eq]
    exact Arena.lt_capacity_of_isAlive hv.isAlive
  have hway : SameWay g₁ (g₁.modify n fun node => { node with value := v }) := .of_modify fun _ => ⟨rfl, rfl⟩
  have hwalkable : g₁.Walkable root E := by
    rw [Walkable, hsame.children.isOperand_eq, hsame.children.below_eq, hsame.children.capacity_eq]
    exact hgood.imp_left fun ⟨v, hv⟩ =>
      ⟨hv.acc, fun m hm => Arena.lt_capacity_of_isAlive (hv.isAlive_of_below hm)⟩
  refine (h.visiting.meets_next hn hwalkable hway).imp fun r _ hr => ?_
  obtain ⟨hvisiting, hwalked, hwalks, hturns⟩ := hr
  rw [hsame.children.isOperand_eq] at hturns
  refine ⟨⟨hvisiting, (h.valued.trans (.of_modify n v)).trans (.of_walked hwalked), ?_, fun m hm => ?_⟩,
    hturns⟩
  · rw [hwalks]
    exact h.taken_eq
  · rw [cached_of_walked hwalked, cached_modify hlt]
    split
    · rename_i hmn
      exact hmn ▸ hv
    · exact h.value m (hm.resolve_left ‹_›)

/-- **Evaluation.** Where the root has a value, or none by the operators' domains, evaluation answers with
it, and caches it as it does those of all nodes below. Otherwise it has no answer. Beside the values it leaves the
graph as it was. -/
theorem meets_evaluate {g : Graph α} {point : Point α} {root : NodeId} {E : Fault α → Prop}
    (htags : g.TagsGiven)
    (hgood : (∃ v, Evaluates g point root v) ∧ g.walks.lowestFree? ≠ none ∨ ∀ e, E e) :
    Meets (g.evaluate root point) () E fun r _ => Evaluates g point root r.2 ∧ Valued g r.1 ∧
      r.1.walks.taken = g.walks.taken ∧ r.1.TagsGiven ∧
      ∀ n, g.arena.Below n root → Evaluates g point n (r.1.cached n) := by
  have hwalkable : g.Walkable root E := hgood.imp_left fun ⟨⟨v, hv⟩, _⟩ =>
    ⟨hv.acc, fun m hm => Arena.lt_capacity_of_isAlive (hv.isAlive_of_below hm)⟩
  rw [evaluate]
  refine (Walk.meets_start htags hwalkable (hgood.imp_left And.right)).bind fun r _ hr => ?_
  obtain ⟨slot, hvisiting, hbegun⟩ := hr
  have hstart : Valuing g point root slot r.1 r.2 fun _ => False :=
    ⟨hvisiting, .of_walked hbegun.walked, hbegun.taken_eq, fun _ => False.elim⟩
  refine Meets.bind (P := fun r _ => r.1.current = none ∧
    ∃ seen, Valuing g point root slot r.1 r.2.1 seen) ?_ fun r _ hr => ?_
  · -- without a value to go by, the loop may also run out of turns
    rw [Walk.visitAll]
    refine meets_run_or_diverged
      (I := fun k r _ => r.1.turns r.2.1 slot = k ∧ ∃ seen, Valuing g point root slot r.1 r.2.1 seen)
      (fun k r _ hI => ?_) (fun k r _ hI => ?_) ⟨rfl, _, hstart⟩
    · obtain ⟨hk, seen, h⟩ := hI
      refine ⟨rfl, hgood.imp (fun ⟨⟨v, hv⟩, _⟩ => ?_) fun hall => hall _⟩
      rw [← hk]
      refine Visiting.turns_le h.visiting.walking ?_
      rw [h.valued.sameTerms.children.isOperand_eq]
      exact hv.acc
    · obtain ⟨w, g₁, _⟩ := r
      obtain ⟨hk, seen, h⟩ := hI
      rcases hn : w.current with _ | n
      · simp only [hn]
        exact meets_pure.mpr ⟨hn, seen, h⟩
      · have hturn := h.meets_turn hn (hgood.imp_left And.left)
        simp only [hn, bind_assoc, pure_bind]
        rw [← bind_assoc]
        refine hturn.bind fun r _ hr => meets_pure.mpr ?_
        refine ⟨r.1.turns r.2 slot, hgood.imp (fun ⟨⟨v, hv⟩, _⟩ => ?_) fun hall => hall _, rfl, _, hr.1⟩
        exact hk ▸ hr.2 hv.acc
  · obtain ⟨w, g₁, _⟩ := r
    obtain ⟨hnone, seen, h⟩ := hr
    obtain ⟨hwalked, htaken, htags'⟩ := h.visiting.walked_finish h.taken_eq
    have hvalued := h.valued.trans (.of_walked hwalked)
    have hcached : ∀ n, g.arena.Below n root → Evaluates g point n ((w.finish g₁).cached n) := by
      intro n hn
      rw [cached_of_walked hwalked]
      refine h.value n ((h.visiting.atEnd hnone n).mpr ?_)
      rwa [h.valued.sameTerms.children.below_eq]
    have hroot := hcached root (.refl _ _)
    have halive : (w.finish g₁).arena.isAlive root = true := by
      rw [hvalued.sameTerms.isAlive_eq]
      exact hroot.isAlive
    change Meets ((w.finish g₁).value? root >>= fun v => pure (w.finish g₁, v)) () E _
    rw [value?, map_eq_pure_bind]
    simp only [bind_assoc, pure_bind]
    refine meets_bind.mpr (meets_node (Or.inl halive) fun node _ hnode => meets_pure.mpr ?_)
    rw [cached, hnode] at hroot
    exact ⟨hroot, hvalued, htaken, htags', hcached⟩

/-- Evaluation leaves other walks alone. -/
theorem passed_evaluate {g : Graph α} (htags : g.TagsGiven) (root : NodeId) (point : Point α) :
    Meets (g.evaluate root point) () (fun _ => True) fun r _ => g.Passed r.1 := by
  rw [evaluate]
  refine (Walk.Guest.meets_start htags rfl rfl rfl (some root)).bind fun r _ hr => ?_
  refine (Walk.meets_visitAll (I := Walk.Guest g) (fun w n g₁ _ h => ?_) (fun _ _ h => ?_) hr.1 ()).bind
    fun r _ hr => ?_
  · exact (Walk.meets_any _).bind fun value _ _ => meets_pure.mpr (h.sameWay (.of_modify fun _ => ⟨rfl, rfl⟩))
  · exact Walk.moves_next.imp fun _ _ => h.moved
  · exact (Walk.meets_any _).bind fun _ _ _ => meets_pure.mpr hr.passed_finish

/-! ### Where evaluation is defined -/

/-- The value of a node at a point, where evaluation is defined. -/
def valueAt? (g : Graph α) (point : Point α) (n : NodeId) : Option α :=
  match g.evaluate n point with
  | .ok r => r.2
  | .error _ => none

/-- Evaluation is defined where the expression has a value. -/
theorem valueAt?_eq_some_iff {g : Graph α} {point : Point α} {n : NodeId} {v : α} (htags : g.TagsGiven)
    (hslot : g.walks.lowestFree? ≠ none) : g.valueAt? point n = some v ↔ g.Evaluates point n (some v) := by
  constructor
  · intro h
    have hmeets : Meets (g.evaluate n point) () (fun _ => True) _ :=
      meets_evaluate htags (Or.inr fun _ => trivial)
    rw [valueAt?] at h
    split at h
    · rename_i r hrun
      rw [hrun] at hmeets
      exact h ▸ hmeets.1
    · cases h
  · intro h
    have hmeets : Meets (g.evaluate n point) () NoFault _ := meets_evaluate htags (Or.inl ⟨⟨_, h⟩, hslot⟩)
    rcases hrun : g.evaluate n point with e | r
    · rw [hrun] at hmeets
      exact hmeets.elim
    · rw [hrun] at hmeets
      rw [valueAt?, hrun]
      exact hmeets.1.unique h

/-- Where a node has a value, so have its operands. -/
theorem Evaluates.exists_operands {g : Graph α} {point : Point α} {n : NodeId} {v : α}
    (h : g.Evaluates point n (some v)) : ∀ c, g.arena.IsOperand c n → ∃ u, g.Evaluates point c (some u) := by
  cases h with
  | node _ hn hops hv =>
    rename_i node value _
    intro c hc
    rw [Arena.isOperand_iff hn] at hc
    rw [valueFrom] at hv
    split at hv
    · cases hv
    · rename_i values hvalues
      have hmem : value c ∈ values.map some := by
        rw [← Handler.allValues_eq_some_iff.mp hvalues]
        exact List.mem_map_of_mem hc
      obtain ⟨u, -, hu⟩ := List.mem_map.mp hmem
      exact ⟨u, hu ▸ hops c hc⟩

/-- Where a node has a value, so has all that lies below it. -/
theorem Evaluates.exists_some_of_below {g : Graph α} {point : Point α} {n : NodeId} {v : α}
    (h : g.Evaluates point n (some v)) {m : NodeId} (hm : g.arena.Below m n) :
    ∃ u, g.Evaluates point m (some u) := by
  induction hm using Relation.ReflTransGen.head_induction_on with
  | refl => exact ⟨v, h⟩
  | head hop _ ih =>
    obtain ⟨u, hu⟩ := ih
    exact hu.exists_operands _ hop

end Graph

end IntervalDag
