import IntervalDag.Proofs.Analysis.Evaluation
import IntervalDag.Proofs.Interval.Membership

/-!
# Locally sound handlers

Where evaluation is defined at a point, nodes have values. A handler is sound at those values if it never cuts
them off: intervals around the values of the operands give a range around the value of
the node, and narrowing them by bounds on the node that hold its value loses none of the operands' values.

`Graph.Sampled` says that the nodes of a part of a graph have such values and such handlers.
`Graph.sampled_below` derives it for all nodes at or below roots where evaluation is defined.
-/

namespace IntervalDag

variable {α : Type} [Scalar α]

/-- A handler encloses the value `v` of a node of a kind whose operands have given values. -/
structure Handler.SoundAt (h : Handler α) (point : Point α) (kind : Kind α) (operands : List α) (v : α) :
    Prop where
  /-- Where the operands' intervals hold their values, the range holds the node's. -/
  interval : ∀ vars xs, point.Within vars → List.Forall₂ (· ∈ ·) operands xs →
    ∃ noted, h.interval kind xs vars = .ok noted ∧ v ∈ noted.value
  /-- Where the bounds hold the node's value as well, they are found consistent, and the narrowed intervals of
  the operands still hold the operands' values. -/
  reverse : ∀ x xs, v ∈ x → List.Forall₂ (· ∈ ·) operands xs →
    ∃ noted, h.reverse kind x xs = .ok noted ∧ noted.value.verdict = .feasible ∧
      List.Forall₂ (· ∈ ·) operands noted.value.operands

/-- The handler that variables have from the start is sound. -/
theorem Handler.soundAt_var [BitPattern α] {point : Point α} {id : VarId} {v : α} (hv : point id = some v) :
    (Handler.var : Handler α).SoundAt point (.var id) [] v where
  interval vars _ hvars _ := ⟨.plain (vars id), rfl, hvars id v hv⟩
  reverse _ xs _ hxs := ⟨.plain ⟨.feasible, xs⟩, rfl, rfl, hxs⟩

omit [Scalar α] in
/-- A variable has the value that the point gives it, and a constant is its own value. -/
def Kind.HasLeafValue (kind : Kind α) (point : Point α) (v : α) : Prop :=
  match kind with
  | .var id => point id = some v
  | .value c => c = v
  | _ => True

namespace Graph

/-- The handler of a node is sound at the values that evaluation computes. -/
def HandlerSoundAt (g : Graph α) (point : Point α) (n : NodeId) : Prop :=
  ∀ node v operands, g.arena.node? n = some node → g.valueAt? point n = some v →
    node.children.map (g.valueAt? point) = operands.map some →
    (g.handlerFor node.kind).SoundAt point node.kind operands v

/-- The handler of a node is sound, and variables and constants have the values that propagation takes them to have. It
takes the domain of a variable and the value of a constant for their bounds without asking a handler, so these have to
be what evaluation goes by, as they are with the handlers that a graph starts with (`hasLeafValue_of_default`). -/
structure SoundAt (g : Graph α) (point : Point α) (n : NodeId) : Prop where
  leaf : ∀ node v, g.arena.node? n = some node → g.valueAt? point n = some v → node.kind.HasLeafValue point v
  handler : g.HandlerSoundAt point n

/-- The handlers that variables and constants have from the start give them the right values. -/
theorem hasLeafValue_of_default [BitPattern α] {g : Graph α} {point : Point α} {n : NodeId} {node : Node α}
    {v : α} (hvar : g.operators.handler .var = .var) (hvalue : g.operators.handler .value = .value)
    (hn : g.arena.node? n = some node) (hv : g.Evaluates point n (some v)) : node.kind.HasLeafValue point v := by
  cases hv with
  | node _ hn' _ hv =>
    obtain rfl : node = _ := Option.some.inj (hn.symm.trans hn')
    rw [valueFrom] at hv
    split at hv
    · cases hv
    rw [handlerFor, OperatorTable.forKind] at hv
    rcases hkind : node.kind
    case var id =>
      simp only [hkind, Kind.op, hvar] at hv
      exact Except.ok.inj hv
    case value c =>
      simp only [hkind, Kind.op, hvalue] at hv
      exact Option.some.inj (Except.ok.inj hv)
    all_goals exact trivial

/-! ### Sampled parts of a graph -/

/-- The nodes in `T` have the values `val`, and their handlers are sound there. -/
structure Sampled (g : Graph α) (point : Point α) (T : NodeId → Prop) (val : NodeId → α) : Prop where
  isAlive : ∀ {n}, T n → g.arena.isAlive n = true
  operand : ∀ {n c}, T n → g.arena.IsOperand c n → T c
  acc : ∀ {n}, T n → Acc g.arena.IsOperand n
  leaf : ∀ {n node}, T n → g.arena.node? n = some node → node.kind.HasLeafValue point (val n)
  handler : ∀ {n node}, T n → g.arena.node? n = some node →
    (g.handlerFor node.kind).SoundAt point node.kind (node.children.map val) (val n)

namespace Sampled

variable {g g' : Graph α} {point : Point α} {T : NodeId → Prop} {val : NodeId → α} {n : NodeId}

/-- What is sampled are terms. -/
theorem sameTerms (h : g.Sampled point T val) (hsame : SameTerms g g') : g'.Sampled point T val where
  isAlive hn := hsame.isAlive_eq ▸ h.isAlive hn
  operand hn hop := h.operand hn (hsame.children.isOperand_eq ▸ hop)
  acc hn := hsame.children.isOperand_eq ▸ h.acc hn
  leaf hn hnode := by
    obtain ⟨node, hnode', hkind, -⟩ := hsame.symm.exists_node? hnode
    exact hkind ▸ h.leaf hn hnode'
  handler hn hnode := by
    obtain ⟨node, hnode', hkind, hchildren, -⟩ := hsame.symm.exists_node? hnode
    rw [hsame.handlerFor_eq, ← hkind, ← hchildren]
    exact h.handler hn hnode'

theorem below (h : g.Sampled point T val) {m : NodeId} (hn : T n) (hm : g.arena.Below m n) : T m := by
  induction hm using Relation.ReflTransGen.head_induction_on with
  | refl => exact hn
  | head hop _ ih => exact h.operand ih hop

/-- The operands' values are in intervals where each of them is. -/
theorem forall₂_mem {xs : List NodeId} (bounds : NodeId → Interval α) (h : ∀ c ∈ xs, val c ∈ bounds c) :
    List.Forall₂ (· ∈ ·) (xs.map val) (xs.map bounds) := by
  rw [List.forall₂_map_left_iff, List.forall₂_map_right_iff]
  exact List.forall₂_same.mpr h

/-- All values are numbers, as handlers are sound over the whole line too. -/
theorem mem_entire [OrderedScalar α] (h : g.Sampled point T val) {vars : VarId → Interval α}
    (hvars : point.Within vars) (hn : T n) : val n ∈ (Interval.entire : Interval α) := by
  have hacc := h.acc hn
  induction hacc with
  | intro n _ ih =>
    obtain ⟨node, hnode, -⟩ := Arena.exists_node?_of_isAlive (h.isAlive hn)
    have hops : ∀ c ∈ node.children, val c ∈ (Interval.entire : Interval α) := by
      intro c hc
      have hop : g.arena.IsOperand c n := by rwa [Arena.isOperand_iff hnode]
      exact ih c hop (h.operand hn hop)
    obtain ⟨noted, -, hmem⟩ := (h.handler hn hnode).interval vars _ hvars
      (forall₂_mem (fun _ => .entire) hops)
    exact Interval.mem_entire hmem

end Sampled

omit [Scalar α] in
/-- Where evaluation is defined at a root, it is defined at all nodes below it. -/
theorem exists_valueAt?_of_below {g : Graph α} {point : Point α} {n root : NodeId} (htags : g.TagsGiven)
    (hslot : g.walks.lowestFree? ≠ none) (hroot : (g.valueAt? point root).isSome = true)
    (hn : g.arena.Below n root) : ∃ v, g.valueAt? point n = some v := by
  obtain ⟨v, hv⟩ := Option.isSome_iff_exists.mp hroot
  obtain ⟨u, hu⟩ := ((valueAt?_eq_some_iff htags hslot).mp hv).exists_some_of_below hn
  exact ⟨u, (valueAt?_eq_some_iff htags hslot).mpr hu⟩

/-- **Sampling below roots.** If evaluation is defined at some roots and the nodes at or below them are sound,
then these nodes have values at which their handlers are sound. -/
theorem sampled_below {g : Graph α} {point : Point α} {R : NodeId → Prop} (htags : g.TagsGiven)
    (hslot : g.walks.lowestFree? ≠ none) (hdefined : ∀ root, R root → (g.valueAt? point root).isSome = true)
    (hsound : ∀ root n, R root → g.arena.Below n root → g.SoundAt point n) :
    g.Sampled point (fun n => ∃ root, R root ∧ g.arena.Below n root) fun n => (g.valueAt? point n).getD 0 := by
  have hvalue : ∀ {n}, (∃ root, R root ∧ g.arena.Below n root) →
      ∃ v, g.valueAt? point n = some v ∧ g.Evaluates point n (some v) := by
    rintro n ⟨root, hroot, hn⟩
    obtain ⟨u, hu⟩ := exists_valueAt?_of_below htags hslot (hdefined root hroot) hn
    exact ⟨u, hu, (valueAt?_eq_some_iff htags hslot).mp hu⟩
  refine ⟨fun hn => ?_, fun hn hop => ?_, fun hn => ?_, fun hn hnode => ?_, fun hn hnode => ?_⟩
  · obtain ⟨v, -, hv⟩ := hvalue hn
    exact hv.isAlive
  · obtain ⟨root, hroot, hn⟩ := hn
    exact ⟨root, hroot, hop.below.trans hn⟩
  · obtain ⟨v, -, hv⟩ := hvalue hn
    exact hv.acc
  · obtain ⟨v, hv, -⟩ := hvalue hn
    obtain ⟨root, hroot, hn⟩ := hn
    rw [hv]
    exact (hsound root _ hroot hn).leaf _ _ hnode hv
  · rename_i n node
    obtain ⟨v, hv, hev⟩ := hvalue hn
    have hops : node.children.map (g.valueAt? point) =
        (node.children.map fun c => (g.valueAt? point c).getD 0).map some := by
      rw [List.map_map]
      refine List.map_congr_left fun c hc => ?_
      obtain ⟨u, hu⟩ := hev.exists_operands c (by rwa [Arena.isOperand_iff hnode])
      rw [Function.comp, (valueAt?_eq_some_iff htags hslot).mpr hu]
      rfl
    obtain ⟨root, hroot, hn⟩ := hn
    rw [hv]
    exact (hsound root _ hroot hn).handler _ _ _ hnode hv hops

end Graph

end IntervalDag
