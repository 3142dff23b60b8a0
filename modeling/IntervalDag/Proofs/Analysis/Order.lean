import IntervalDag.Analysis.Order
import IntervalDag.Proofs.Analysis.Sorting
import IntervalDag.Proofs.Walk.Ownership

/-!
# Topological orders

A topological order lists each node in use once, and operands before the nodes that use them
(`Graph.IsTopological`). It is found by a sort of which nothing is known but that it puts graphs without cycles in order
and refuses those with one (`Digraph.Sorter.Sorts`).

* `Graph.exists_digraph`: the graph handed to the sort has the nodes in use as its vertices and their operands as its
  edges (`Graph.Copies`), whatever entries are free.
* `Graph.exists_topologicalOrderBy`, `Graph.exists_cycleDetected`: so an order is found if the operand lists of the nodes
  in use have no cycle, and otherwise a cycle is reported.
* `Commons.topologicalOrder_decides`: the graphs of callers who give back only what they hold have no cycle.

A caller who gives back one reference too many can close one (`Commons.exists_cycleDetected_of_overrelease`).
-/

namespace IntervalDag

open scoped List

variable {α : Type}

/-! ### Building the graph to be sorted -/

namespace Digraph

/-- On a graph with these vertices, the step adds certain edges if `P` holds, and otherwise it is out of range. -/
structure Adds (nodes : Array NodeId) (P : Prop) (E : Nat × Nat → Prop) (step : Digraph → Checked α Digraph) :
    Prop where
  exists_added : P → ∀ d, d.nodes = nodes →
    ∃ d', step d = .ok d' ∧ d'.nodes = nodes ∧ ∀ e, e ∈ d'.edges ↔ e ∈ d.edges ∨ E e
  eq_error : ¬ P → ∀ d, d.nodes = nodes → step d = .error .outOfRange

variable {nodes : Array NodeId}

/-- Nothing is added. -/
theorem Adds.ok {P : Prop} {E : Nat × Nat → Prop} (hP : P) (hE : ∀ e, ¬ E e) :
    Adds nodes P E fun d => (.ok d : Checked α Digraph) where
  exists_added _ d hd := ⟨d, rfl, hd, fun e => (or_iff_left (hE e)).symm⟩
  eq_error hnot := absurd hP hnot

/-- Steps one after another add what each of them adds. -/
theorem Adds.foldlM {ι : Type} {f : Digraph → ι → Checked α Digraph} {P : ι → Prop} {E : ι → Nat × Nat → Prop}
    {xs : List ι} (h : ∀ x ∈ xs, Adds nodes (P x) (E x) (f · x)) :
    Adds nodes (∀ x ∈ xs, P x) (fun e => ∃ x ∈ xs, E x e) (xs.foldlM f ·) := by
  induction xs with
  | nil => exact .ok (by simp) (by simp)
  | cons x xs ih =>
    obtain ⟨hx, hxs⟩ := List.forall_mem_cons.mp h
    have ih := ih hxs
    constructor
    · intro hP d hd
      rw [List.forall_mem_cons] at hP
      obtain ⟨d₁, hfirst, hd₁, hedges₁⟩ := hx.exists_added hP.1 d hd
      obtain ⟨d₂, hrest, hd₂, hedges₂⟩ := ih.exists_added hP.2 d₁ hd₁
      refine ⟨d₂, ?_, hd₂, fun e => ?_⟩
      · rw [List.foldlM_cons, hfirst]
        exact hrest
      · rw [hedges₂, hedges₁, or_assoc, List.exists_mem_cons_iff]
    · intro hnot d hd
      rw [List.foldlM_cons]
      by_cases hP : P x
      · obtain ⟨d₁, hfirst, hd₁, -⟩ := hx.exists_added hP d hd
        rw [hfirst]
        exact ih.eq_error (fun hrest => hnot (List.forall_mem_cons.mpr ⟨hP, hrest⟩)) d₁ hd₁
      · rw [hx.eq_error hP d hd]
        rfl

/-- An edge between vertices is added. -/
theorem adds_addEdge {v w : Nat} (hv : v < nodes.size) (hw : w < nodes.size) :
    Adds nodes True (· = (v, w)) fun d => (d.addEdge v w : Checked α Digraph) where
  exists_added _ d hd := by
    subst hd
    exact ⟨_, dif_pos ⟨hv, hw⟩, rfl, fun e => Array.mem_push⟩
  eq_error hnot := absurd trivial hnot

end Digraph

namespace Graph

variable {g : Graph α} {k : Nat} {d : Digraph} {places : Array (Option Nat)}

/-- The operands of nodes in use are entries. -/
def LiveOperandsInside (g : Graph α) : Prop :=
  ∀ c n, g.isAlive n = true → g.arena.IsOperand c n → c < g.arena.capacity

/-- The first `k` entries have vertices, as far as they are in use. -/
structure Placed (g : Graph α) (k : Nat) (d : Digraph) (places : Array (Option Nat)) : Prop where
  size_eq : places.size = g.arena.capacity
  place_iff : ∀ (n : NodeId) (v : Nat), places[n]? = some (some v) ↔ d.nodes[v]? = some n
  mem_iff : ∀ n, n ∈ d.nodes ↔ n < k ∧ g.isAlive n = true
  edges_eq : d.edges = #[]

namespace Placed

theorem initial (g : Graph α) : g.Placed 0 .empty (Array.replicate g.arena.capacity none) where
  size_eq := Array.size_replicate
  place_iff n v := by
    rw [Array.getElem?_replicate]
    split_ifs <;> simp [Digraph.empty]
  mem_iff n := by simp [Digraph.empty]
  edges_eq := rfl

/-- **One entry** gets the next vertex if it is in use. -/
theorem addVertex (h : g.Placed k d places) (hk : k < g.arena.capacity) :
    g.Placed (k + 1) (g.addVertex (d, places) k).1 (g.addVertex (d, places) k).2 := by
  rw [Graph.addVertex]
  split_ifs with halive
  · have hnew : ∀ v, d.nodes[v]? ≠ some k := fun v hv =>
      Nat.lt_irrefl k ((h.mem_iff k).mp (Array.mem_of_getElem? hv)).1
    refine ⟨Array.size_setIfInBounds.trans h.size_eq, fun n v => ?_, fun n => ?_, h.edges_eq⟩
    · change (places.setIfInBounds k (some d.nodes.size))[n]? = _ ↔ (d.nodes.push k)[v]? = _
      rw [Array.getElem?_setIfInBounds, Array.getElem?_push]
      by_cases hn : k = n
      · subst hn
        rw [if_pos rfl, if_pos (h.size_eq ▸ hk)]
        split_ifs with hv
        · simp [hv]
        · simpa [eq_comm, hv] using hnew v
      · rw [if_neg hn]
        split_ifs with hv
        · rw [h.place_iff, hv, Array.getElem?_size]
          simpa using hn
        · exact h.place_iff n v
    · change n ∈ d.nodes.push k ↔ _
      rw [Array.mem_push, h.mem_iff, Nat.lt_succ_iff_lt_or_eq]
      constructor
      · rintro (⟨hn, hlive⟩ | rfl)
        · exact ⟨Or.inl hn, hlive⟩
        · exact ⟨Or.inr rfl, halive⟩
      · rintro ⟨hn | hn, hlive⟩
        · exact Or.inl ⟨hn, hlive⟩
        · exact Or.inr hn
  · refine ⟨h.size_eq, h.place_iff, fun n => ?_, h.edges_eq⟩
    rw [h.mem_iff, Nat.lt_succ_iff_lt_or_eq]
    refine ⟨fun ⟨hn, hlive⟩ => ⟨Or.inl hn, hlive⟩, fun ⟨hn, hlive⟩ => ⟨hn.resolve_right ?_, hlive⟩⟩
    rintro rfl
    exact halive hlive

/-- **All entries.** -/
theorem vertices (g : Graph α) : g.Placed g.arena.capacity g.vertices.1 g.vertices.2 := by
  let first (k : Nat) := (List.range k).foldl g.addVertex (.empty, Array.replicate g.arena.capacity none)
  suffices hall : ∀ k ≤ g.arena.capacity, g.Placed k (first k).1 (first k).2 from hall _ (Nat.le_refl _)
  intro k
  induction k with
  | zero => exact fun _ => initial g
  | succ k ih =>
    intro hk
    have hfirst : first (k + 1) = g.addVertex (first k) k := by
      simp only [first]
      rw [List.range_succ, List.foldl_append]
      rfl
    rw [hfirst]
    exact (ih (Nat.le_of_succ_le hk)).addVertex hk

/-- The vertices of entries are vertices. -/
theorem lt_size (h : g.Placed k d places) {n v : Nat} (hn : places[n]? = some (some v)) : v < d.nodes.size :=
  (Array.getElem?_eq_some_iff.mp ((h.place_iff n v).mp hn)).1

variable (h : g.Placed k d places)

include h

/-- The edge from an operand. -/
theorem adds_addOperand {n parent : Nat} (hn : places[n]? = some (some parent)) (c : NodeId) :
    Digraph.Adds d.nodes (c < g.arena.capacity) (fun e => places[c]? = some (some e.1) ∧ e.2 = parent)
      fun d => (addOperand places parent d c : Checked α Digraph) := by
  rcases hc : places[c]? with _ | place
  · have hout : ¬ c < g.arena.capacity := by
      rw [← h.size_eq]
      exact Nat.not_lt.mpr (Array.getElem?_eq_none_iff.mp hc)
    refine ⟨fun hin => absurd hin hout, fun _ d _ => ?_⟩
    rw [addOperand, hc]
  have hin : c < g.arena.capacity := h.size_eq ▸ (Array.getElem?_eq_some_iff.mp hc).1
  rcases place with _ | v
  · have hstep : (fun d => (addOperand places parent d c : Checked α Digraph)) = fun d => .ok d := by
      funext d
      rw [addOperand, hc]
    rw [hstep]
    exact .ok hin nofun
  · have hstep : (fun d => (addOperand places parent d c : Checked α Digraph)) = fun d => d.addEdge v parent := by
      funext d
      rw [addOperand, hc]
    have hadds := Digraph.adds_addEdge (α := α) (h.lt_size hc) (h.lt_size hn)
    rw [hstep]
    refine ⟨fun _ d hd => ?_, fun hnot => absurd hin hnot⟩
    obtain ⟨d', hd', hnodes, hedges⟩ := hadds.exists_added trivial d hd
    refine ⟨d', hd', hnodes, fun e => ?_⟩
    rw [hedges, Prod.ext_iff]
    simp [eq_comm]

/-- The edges from the operands of a node. -/
theorem adds_addOperands (hk : k = g.arena.capacity) (n : NodeId) :
    Digraph.Adds d.nodes (g.isAlive n = true → ∀ c, g.arena.IsOperand c n → c < g.arena.capacity)
      (fun e => ∃ c, g.arena.IsOperand c n ∧ places[c]? = some (some e.1) ∧ places[n]? = some (some e.2))
      (g.addOperands places · n) := by
  subst hk
  have hplace : (∃ v, places[n]? = some (some v)) ↔ g.isAlive n = true := by
    simp only [h.place_iff, ← Array.mem_iff_getElem?]
    rw [h.mem_iff]
    exact and_iff_right_of_imp Arena.lt_capacity_of_isAlive
  by_cases halive : g.isAlive n = true
  · obtain ⟨parent, hn⟩ := hplace.mpr halive
    have hstep : (fun d => g.addOperands places d n) = fun d =>
        (g.arena.operands n).foldlM (addOperand places parent) d := by
      funext d
      rw [addOperands, hn]
      dsimp only
      rw [Arena.children_eq_ok (Arena.lt_capacity_of_isAlive halive)]
      rfl
    have hadds := Digraph.Adds.foldlM fun c (_ : c ∈ g.arena.operands n) => h.adds_addOperand hn c
    rw [hstep]
    refine ⟨fun hin d hd => ?_, fun hout => hadds.eq_error fun hin => hout fun _ c hc => hin c hc⟩
    obtain ⟨d', hd', hnodes, hedges⟩ := hadds.exists_added (fun c hc => hin halive c hc) d hd
    refine ⟨d', hd', hnodes, fun e => ?_⟩
    rw [hedges, hn]
    simp [Arena.IsOperand, eq_comm]
  · have hnone : ∀ v, places[n]? ≠ some (some v) := fun v hv => halive (hplace.mp ⟨v, hv⟩)
    have hstep : (fun d => g.addOperands places d n) = fun d => .ok d := by
      funext d
      rw [addOperands]
      split
      · rename_i parent hn
        exact absurd hn (hnone parent)
      · rfl
    rw [hstep]
    refine .ok (fun hlive => absurd hlive halive) fun e he => ?_
    obtain ⟨c, -, -, hn⟩ := he
    exact hnone _ hn

end Placed

/-! ### The graph to be sorted -/

/-- `c` and `n` are in use, and `c` is an operand of `n`. -/
def IsLiveOperand (g : Graph α) (c n : NodeId) : Prop :=
  g.isAlive c = true ∧ g.isAlive n = true ∧ g.arena.IsOperand c n

/-- Each node in use has a vertex of its own, and the edges are the uses of operands in use. -/
structure Copies (g : Graph α) (d : Digraph) : Prop where
  injective : ∀ {v w n : Nat}, d.nodes[v]? = some n → d.nodes[w]? = some n → v = w
  mem_nodes : ∀ n, n ∈ d.nodes ↔ g.isAlive n = true
  mem_edges : ∀ v w, (v, w) ∈ d.edges ↔ ∃ c n, d.nodes[v]? = some c ∧ d.nodes[w]? = some n ∧ g.arena.IsOperand c n

/-- **The graph handed to the sort** is a copy of the nodes in use, unless an operand of theirs is out of range. -/
theorem exists_digraph (h : g.LiveOperandsInside) : ∃ d, g.digraph = .ok d ∧ g.Copies d := by
  have hplaced := Placed.vertices g
  obtain ⟨d, hrun, hnodes, hedges⟩ := (Digraph.Adds.foldlM fun n (_ : n ∈ List.range g.arena.capacity) =>
    hplaced.adds_addOperands rfl n).exists_added (fun n _ halive c hc => h c n halive hc) g.vertices.1 rfl
  refine ⟨d, hrun, fun hv hw => ?_, fun n => ?_, fun v w => ?_⟩
  · rw [hnodes, ← hplaced.place_iff] at hv hw
    exact Option.some.inj (Option.some.inj (hv.symm.trans hw))
  · rw [hnodes, hplaced.mem_iff]
    exact and_iff_right_of_imp Arena.lt_capacity_of_isAlive
  · rw [hedges, hplaced.edges_eq, hnodes]
    simp only [Array.not_mem_empty, false_or, ← hplaced.place_iff]
    constructor
    · rintro ⟨n, -, c, hop, hc, hn⟩
      exact ⟨c, n, hc, hn, hop⟩
    · rintro ⟨c, n, hc, hn, hop⟩
      have halive := ((hplaced.mem_iff n).mp (Array.mem_of_getElem? ((hplaced.place_iff n w).mp hn))).2
      exact ⟨n, List.mem_range.mpr (Arena.lt_capacity_of_isAlive halive), c, hop, hc, hn⟩

/-- An operand beyond the entries has no place to look its vertex up. -/
theorem digraph_eq_error (h : ¬ g.LiveOperandsInside) : g.digraph = .error .outOfRange := by
  refine (Digraph.Adds.foldlM fun n (_ : n ∈ List.range g.arena.capacity) =>
    (Placed.vertices g).adds_addOperands rfl n).eq_error (fun hall => h fun c n halive hc => ?_) g.vertices.1 rfl
  exact hall n (List.mem_range.mpr (Arena.lt_capacity_of_isAlive halive)) halive c hc

/-! ### Topological orders -/

/-- The list has each node in use once, and operands in use before the nodes that use them. -/
structure IsTopological (g : Graph α) (order : List NodeId) : Prop where
  nodup : order.Nodup
  mem_iff : ∀ n, n ∈ order ↔ g.isAlive n = true
  operands_first : ∀ c n, g.IsLiveOperand c n → [c, n] <+ order

/-- The operand lists of nodes in use have a cycle. -/
def IsCyclic (g : Graph α) : Prop :=
  ∃ n, Relation.TransGen (fun c n => g.isAlive n = true ∧ g.arena.IsOperand c n) n n

/-- All nodes on a cycle have operands, so they are in use. -/
theorem isCyclic_iff : g.IsCyclic ↔ ∃ n, Relation.TransGen g.IsLiveOperand n n := by
  constructor
  · rintro ⟨n, hn⟩
    have halive : g.isAlive n = true := by
      obtain ⟨_, -, hlast⟩ := Relation.TransGen.tail'_iff.mp hn
      exact hlast.1
    have hlive : ∀ m, Relation.TransGen (fun c n => g.isAlive n = true ∧ g.arena.IsOperand c n) n m →
        g.isAlive m = true ∧ Relation.TransGen g.IsLiveOperand n m := by
      intro m hm
      induction hm with
      | single hop => exact ⟨hop.1, .single ⟨halive, hop⟩⟩
      | tail _ hop ih => exact ⟨hop.1, ih.2.tail ⟨ih.1, hop⟩⟩
    exact ⟨n, (hlive n hn).2⟩
  · rintro ⟨n, hn⟩
    exact ⟨n, Relation.TransGen.mono (fun _ _ hedge => hedge.2) n n hn⟩

namespace Copies

variable (h : g.Copies d)

include h

/-- Each vertex stands for a node in use. -/
theorem exists_node {v : Nat} (hv : v < d.nodes.size) :
    ∃ n, d.nodes[v]? = some n ∧ g.isAlive n = true ∧ (d.node v : Checked α NodeId) = .ok n := by
  refine ⟨d.nodes[v], Array.getElem?_eq_getElem hv, (h.mem_nodes _).mp (Array.getElem_mem hv), ?_⟩
  rw [Digraph.node, Array.getElem?_eq_getElem hv]

/-- Each node in use has a vertex. -/
theorem exists_vertex {n : NodeId} (hn : g.isAlive n = true) : ∃ v < d.nodes.size, d.nodes[v]? = some n := by
  obtain ⟨v, hv, hn⟩ := Array.mem_iff_getElem.mp ((h.mem_nodes n).mpr hn)
  exact ⟨v, hv, hn ▸ Array.getElem?_eq_getElem hv⟩

/-- Paths lead over vertices as they lead over nodes. -/
theorem transGen_iff {v w c n : Nat} (hc : d.nodes[v]? = some c) (hn : d.nodes[w]? = some n) :
    Relation.TransGen (fun v w => (v, w) ∈ d.edges) v w ↔ Relation.TransGen g.IsLiveOperand c n := by
  have halive : ∀ {v n}, d.nodes[v]? = some n → g.isAlive n = true := fun hn =>
    (h.mem_nodes _).mp (Array.mem_of_getElem? hn)
  constructor
  · intro hpath
    induction hpath generalizing n with
    | single hedge =>
      obtain ⟨c', n', hc', hn', hop⟩ := (h.mem_edges _ _).mp hedge
      cases hc.symm.trans hc'
      cases hn.symm.trans hn'
      exact .single ⟨halive hc, halive hn, hop⟩
    | tail _ hedge ih =>
      obtain ⟨m, n', hm, hn', hop⟩ := (h.mem_edges _ _).mp hedge
      cases hn.symm.trans hn'
      exact (ih hm).tail ⟨halive hm, halive hn, hop⟩
  · intro hpath
    induction hpath generalizing w with
    | single hop => exact .single ((h.mem_edges v w).mpr ⟨c, _, hc, hn, hop.2.2⟩)
    | tail _ hop ih =>
      obtain ⟨u, -, hu⟩ := h.exists_vertex hop.1
      exact (ih hu).tail ((h.mem_edges u w).mpr ⟨_, _, hu, hn, hop.2.2⟩)

theorem isCyclic_iff : d.IsCyclic ↔ g.IsCyclic := by
  rw [Graph.isCyclic_iff]
  constructor
  · rintro ⟨v, hv⟩
    obtain ⟨w, hedge, -⟩ := Relation.TransGen.head'_iff.mp hv
    obtain ⟨n, hn, -⟩ := h.exists_node (d.inside _ hedge).1
    exact ⟨n, (h.transGen_iff hn hn).mp hv⟩
  · rintro ⟨n, hn⟩
    obtain ⟨m, hop, -⟩ := Relation.TransGen.head'_iff.mp hn
    obtain ⟨v, -, hv⟩ := h.exists_vertex hop.1
    exact ⟨v, (h.transGen_iff hv hv).mpr hn⟩

/-- **Sorted vertices** stand for nodes in topological order. -/
theorem exists_isTopological {order : List Nat} (hsorted : d.IsSorted order) :
    ∃ nodes, order.mapM (fun v => (d.node v : Checked α NodeId)) = .ok nodes ∧ g.IsTopological nodes := by
  let name (v : Nat) : NodeId := d.nodes[v]?.getD 0
  have hname : ∀ {v n}, d.nodes[v]? = some n → name v = n := fun hn => congrArg (Option.getD · 0) hn
  have hnode : ∀ v ∈ order, (d.node v : Checked α NodeId) = .ok (name v) := fun v hv => by
    obtain ⟨n, hn, -, hnode⟩ := h.exists_node ((hsorted.mem_iff v).mp hv)
    rw [hnode, hname hn]
  refine ⟨order.map name, Checked.mapM_eq_ok hnode, ?_, fun n => ?_, fun c n hop => ?_⟩
  · refine List.Nodup.map_on (fun v hv w hw heq => ?_) hsorted.nodup
    obtain ⟨n, hn, -⟩ := h.exists_node ((hsorted.mem_iff v).mp hv)
    obtain ⟨m, hm, -⟩ := h.exists_node ((hsorted.mem_iff w).mp hw)
    rw [hname hn, hname hm] at heq
    exact h.injective hn (heq ▸ hm)
  · rw [List.mem_map]
    constructor
    · rintro ⟨v, hv, rfl⟩
      obtain ⟨n, hn, halive, -⟩ := h.exists_node ((hsorted.mem_iff v).mp hv)
      rwa [hname hn]
    · intro halive
      obtain ⟨v, hv, hn⟩ := h.exists_vertex halive
      exact ⟨v, (hsorted.mem_iff v).mpr hv, hname hn⟩
  · obtain ⟨v, -, hv⟩ := h.exists_vertex hop.1
    obtain ⟨w, -, hw⟩ := h.exists_vertex hop.2.1
    have hedge := hsorted.edges (v, w) ((h.mem_edges v w).mpr ⟨c, n, hv, hw, hop.2.2⟩)
    have hmapped := hedge.map name
    rwa [List.map_cons, List.map_cons, List.map_nil, hname hv, hname hw] at hmapped

end Copies

variable {sort : Digraph.Sorter}

/-- The check declines what cannot be put in order, and forgets the order otherwise. -/
theorem checkAcyclicBy_eq {result : Except GraphError (List NodeId)} (h : g.topologicalOrderBy sort = .ok result) :
    g.checkAcyclicBy sort = .ok ((fun _ => ()) <$> result) := by
  rw [checkAcyclicBy, h]
  rfl

/-- A graph without cycles is put in order. -/
theorem exists_topologicalOrderBy (hsort : sort.Sorts) (hinside : g.LiveOperandsInside) (h : ¬ g.IsCyclic) :
    ∃ order, g.topologicalOrderBy sort = .ok (.ok order) ∧ g.checkAcyclicBy sort = .ok (.ok ()) ∧
      g.IsTopological order := by
  obtain ⟨d, hd, hcopies⟩ := exists_digraph hinside
  obtain ⟨vertices, hvertices, hsorted⟩ := hsort.sorted d (mt hcopies.isCyclic_iff.mp h)
  obtain ⟨order, horder, htopological⟩ := hcopies.exists_isTopological hsorted
  have hrun : g.topologicalOrderBy sort = .ok (.ok order) := by
    rw [topologicalOrderBy, hd, Checked.ok_bind, hvertices]
    dsimp only
    rw [horder]
    rfl
  exact ⟨order, hrun, checkAcyclicBy_eq hrun, htopological⟩

/-- A graph with a cycle is declined at a node in use. -/
theorem exists_cycleDetected (hsort : sort.Sorts) (hinside : g.LiveOperandsInside) (h : g.IsCyclic) :
    ∃ n, g.isAlive n = true ∧ g.topologicalOrderBy sort = .ok (.error (.cycleDetected n)) ∧
      g.checkAcyclicBy sort = .ok (.error (.cycleDetected n)) := by
  obtain ⟨d, hd, hcopies⟩ := exists_digraph hinside
  obtain ⟨v, hrefused, hv⟩ := hsort.refused d (hcopies.isCyclic_iff.mpr h)
  obtain ⟨n, -, halive, hn⟩ := hcopies.exists_node hv
  have hrun : g.topologicalOrderBy sort = .ok (.error (.cycleDetected n)) := by
    rw [topologicalOrderBy, hd, Checked.ok_bind, hrefused]
    dsimp only
    rw [hn]
    rfl
  exact ⟨n, halive, hrun, checkAcyclicBy_eq hrun⟩

/-- A graph with an operand beyond its entries cannot be handed to a sort. -/
theorem topologicalOrderBy_eq_error (sort : Digraph.Sorter) (h : ¬ g.LiveOperandsInside) :
    g.topologicalOrderBy sort = .error .outOfRange ∧ g.checkAcyclicBy sort = .error .outOfRange := by
  have hrun : g.topologicalOrderBy sort = .error .outOfRange := by
    rw [topologicalOrderBy, digraph_eq_error h]
    rfl
  refine ⟨hrun, ?_⟩
  rw [checkAcyclicBy, hrun]
  rfl

end Graph

namespace Commons

variable [Scalar α] [BitPattern α] [NumberText α]

/-- Whatever the callers did, operands are entries. -/
theorem liveOperandsInside_of_serveAll {settings : Settings α} {identity : Nat} {store : BoundTable α}
    {cs : List (Command α)} {s : Commons α} {answers : List (Nat × Walk.Answer)}
    (hrun : (new settings identity store).serveAll cs = .ok (s, answers)) : s.graph.LiveOperandsInside := by
  have hordered := (orderly_of_serveAll (orderly_new settings identity store) hrun).ordered
  exact fun c n _ hop => hordered.intact.operandsInside c n hop

/-- **Graphs can be put in order.** The sort is any that puts graphs without cycles in order and refuses those with one.
After every run of callers who give back only what they hold there is a topological order, and it is found: each node in
use is listed once, no other node is, and operands come before the nodes that use them. On any graph whose nodes in use
have entries as operands, an order is found if their operand lists have no cycle, and otherwise a cycle is reported. That
is so of the graph after any run at all. If a node in use has an operand beyond the entries, that is a fault. -/
theorem topologicalOrder_decides {sort : Digraph.Sorter} (hsort : sort.Sorts) (settings : Settings α) (identity : Nat)
    (store : BoundTable α) :
    (∀ cs s answers, (new settings identity store).serveAll cs = .ok (s, answers) →
      s.graph.LiveOperandsInside ∧ ((new settings identity store).OwnsAll cs →
        ∃ order, s.graph.topologicalOrderBy sort = .ok (.ok order) ∧ s.graph.checkAcyclicBy sort = .ok (.ok ()) ∧
          order.Nodup ∧ (∀ n, n ∈ order ↔ s.graph.isAlive n = true) ∧
          ∀ c n, s.graph.isAlive n = true → s.graph.arena.IsOperand c n → [c, n] <+ order)) ∧
    ∀ g : Graph α,
      (g.LiveOperandsInside → ¬ g.IsCyclic → ∃ order, g.topologicalOrderBy sort = .ok (.ok order) ∧
        g.checkAcyclicBy sort = .ok (.ok ()) ∧ g.IsTopological order) ∧
      (g.LiveOperandsInside → g.IsCyclic → ∃ n, g.isAlive n = true ∧
        g.topologicalOrderBy sort = .ok (.error (.cycleDetected n)) ∧
        g.checkAcyclicBy sort = .ok (.error (.cycleDetected n))) ∧
      (¬ g.LiveOperandsInside →
        g.topologicalOrderBy sort = .error .outOfRange ∧ g.checkAcyclicBy sort = .error .outOfRange) := by
  refine ⟨fun cs s answers hrun => ?_, fun g => ⟨Graph.exists_topologicalOrderBy hsort,
    Graph.exists_cycleDetected hsort, Graph.topologicalOrderBy_eq_error sort⟩⟩
  have hinside := liveOperandsInside_of_serveAll hrun
  refine ⟨hinside, fun hcs => ?_⟩
  have hwf := wellFormed_of_serveAll (orderly_new settings identity store) (.empty settings identity) hcs hrun
  have hacyclic : ¬ s.graph.IsCyclic := fun ⟨n, hn⟩ =>
    hwf.acyclic.not_transGen n (Relation.TransGen.mono (fun _ _ hedge => hedge.2) n n hn)
  obtain ⟨order, hrun, hcheck, horder⟩ := Graph.exists_topologicalOrderBy hsort hinside hacyclic
  exact ⟨order, hrun, hcheck, horder.nodup, horder.mem_iff, fun c n hn hop =>
    horder.operands_first c n ⟨hwf.counted.isAlive_operand hop, hn, hop⟩⟩

/-- The operands of an entry are written over. -/
def rewired (g : Graph Float) (n : NodeId) (children : List NodeId) : Graph Float :=
  { g with arena := g.arena.modify n fun node => { node with children } }

section

variable {g : Graph Float} {n : NodeId} {children : List NodeId}

theorem isAlive_rewired (m : NodeId) : (rewired g n children).isAlive m = g.isAlive m := by
  rw [Graph.isAlive, Graph.isAlive, Arena.isAlive, Arena.isAlive, Arena.refs, Arena.refs, rewired, Arena.node?_modify]
  split_ifs
  · rw [Option.elim_map]
    rfl
  · rfl

theorem operands_rewired (hn : n < g.arena.capacity) (m : NodeId) :
    (rewired g n children).arena.operands m = if m = n then children else g.arena.operands m := by
  rw [rewired, Arena.operands, Arena.operands, Arena.node?_modify]
  split_ifs with hm
  · obtain ⟨node, hnode⟩ := Option.ne_none_iff_exists'.mp (mt Arena.node?_eq_none_iff.mp (Nat.not_le.mpr hn))
    rw [hm, hnode]
    rfl
  · rfl

/-- Entries as operands do no harm. -/
theorem liveOperandsInside_rewired (h : g.LiveOperandsInside) (hn : n < g.arena.capacity)
    (hchildren : ∀ c ∈ children, c < g.arena.capacity) : (rewired g n children).LiveOperandsInside := by
  intro c m halive hc
  rw [isAlive_rewired] at halive
  rw [Arena.IsOperand, operands_rewired hn] at hc
  rw [rewired, Arena.capacity_modify]
  split_ifs at hc
  · exact hchildren c hc
  · exact h c m halive hc

/-- Others do. -/
theorem not_liveOperandsInside_rewired (hn : g.isAlive n = true) {c : NodeId} (hc : c ∈ children)
    (hout : g.arena.capacity ≤ c) : ¬ (rewired g n children).LiveOperandsInside := by
  intro h
  have hlt := h c n ((isAlive_rewired n).trans hn) (by
    rwa [Arena.IsOperand, operands_rewired (Arena.lt_capacity_of_isAlive hn), if_pos rfl])
  rw [rewired, Arena.capacity_modify] at hlt
  exact Nat.not_lt.mpr hout hlt

/-- A node that gets its user as an operand closes a cycle. -/
theorem isCyclic_rewired (hn : g.isAlive n = true) {m : NodeId} (hm : g.isAlive m = true) (hne : m ≠ n)
    (huser : g.arena.IsOperand n m) (hmem : m ∈ children) : (rewired g n children).IsCyclic := by
  have hoperands : ∀ k, (rewired g n children).arena.operands k = _ :=
    operands_rewired (Arena.lt_capacity_of_isAlive hn)
  refine ⟨n, .tail (.single (b := m) ⟨?_, ?_⟩) ⟨?_, ?_⟩⟩
  · rwa [isAlive_rewired]
  · rwa [Arena.IsOperand, hoperands, if_neg hne]
  · rwa [isAlive_rewired]
  · rwa [Arena.IsOperand, hoperands, if_pos rfl]

end

/-- A product with a repeated factor takes over an entry and is listed last, though its vertex is not. If it is written
into the operands of its own variable, then a cycle is reported. An operand beyond the entries is a fault. -/
theorem topologicalOrder_decides_of_recycled :
    let cs : List (Command Float) := [.work (.request (.var 0)), .work (.request (.apply .exp 0 rfl)),
      .work (.request (.apply .log 0 rfl)), .work (.request (.release 1)),
      .work (.request (.add (.product 2) [2, 0, 2]))]
    (new default 0 (.ofList [])).OwnsAll cs ∧ Digraph.Sorter.depthFirst.Sorts ∧
    ∃ s answers, (new default 0 (.ofList [])).serveAll cs = .ok (s, answers) ∧
      (∃ order, s.graph.topologicalOrderBy .depthFirst = .ok (.ok order) ∧ order.Nodup ∧
        [0, 2] <+ order ∧ [2, 1] <+ order) ∧
      (rewired s.graph 0 [1]).IsCyclic ∧
      (∃ n, (rewired s.graph 0 [1]).checkAcyclicBy .depthFirst = .ok (.error (.cycleDetected n))) ∧
      (rewired s.graph 2 [3]).checkAcyclicBy .depthFirst = .error .outOfRange := by
  intro cs
  have hcs : (new default 0 (.ofList [])).OwnsAll cs := by decide +kernel
  obtain ⟨⟨s, answers⟩, hrun, hread⟩ := Checked.exists_ok_of_toOption (x := (new default 0 (.ofList [])).serveAll cs)
    (f := fun r => (r.1.graph.arena.capacity, [0, 1, 2].map r.1.graph.isAlive, [1, 2].map r.1.graph.arena.operands))
    (c := (3, [true, true, true], [[2, 0, 2], [0]])) (by decide +kernel)
  simp only [List.map_cons, List.map_nil, Prod.mk.injEq, List.cons.injEq, and_true] at hread
  obtain ⟨hcapacity, ⟨halive₀, halive₁, halive₂⟩, hops₁, hops₂⟩ := hread
  have hop₁ : s.graph.arena.IsOperand 2 1 ∧ s.graph.arena.IsOperand 0 1 := by simp [Arena.IsOperand, hops₁]
  have hop₂ : s.graph.arena.IsOperand 0 2 := by simp [Arena.IsOperand, hops₂]
  have hcyclic : (rewired s.graph 0 [1]).IsCyclic :=
    isCyclic_rewired halive₀ halive₁ (by decide) hop₁.2 (List.mem_singleton_self 1)
  have hinside : (rewired s.graph 0 [1]).LiveOperandsInside := by
    refine liveOperandsInside_rewired (liveOperandsInside_of_serveAll hrun) (Arena.lt_capacity_of_isAlive halive₀) ?_
    exact fun c hc => List.mem_singleton.mp hc ▸ Arena.lt_capacity_of_isAlive halive₁
  have houtside : ¬ (rewired s.graph 2 [3]).LiveOperandsInside :=
    not_liveOperandsInside_rewired halive₂ (List.mem_singleton_self 3) hcapacity.le
  obtain ⟨hreached, hdecides⟩ :=
    topologicalOrder_decides (α := Float) Digraph.Sorter.sorts_depthFirst default 0 (.ofList [])
  obtain ⟨order, horder, -, hnodup, -, hfirst⟩ := (hreached cs s answers hrun).2 hcs
  obtain ⟨n, -, -, hcheck⟩ := (hdecides (rewired s.graph 0 [1])).2.1 hinside hcyclic
  exact ⟨hcs, Digraph.Sorter.sorts_depthFirst, s, answers, hrun,
    ⟨order, horder, hnodup, hfirst 0 2 halive₂ hop₂, hfirst 2 1 halive₁ hop₁.1⟩, hcyclic, ⟨n, hcheck⟩,
    ((hdecides (rewired s.graph 2 [3])).2.2 houtside).2⟩

/-- Giving back one reference too many can close a cycle, and then there is no order, whatever the sort. Where an operand
lies beyond the entries, not even the cycle is reported. -/
theorem exists_cycleDetected_of_overrelease :
    let cs : List (Command Float) := [.work (.request (.value 1)), .work (.request (.apply .log 0 rfl)),
      .work (.request (.release 0)), .work (.request (.release 0)), .work (.request (.apply .log 1 rfl))]
    ∃ s answers, (new default 0 (.ofList [])).serveAll cs = .ok (s, answers) ∧
      (∀ sort : Digraph.Sorter, sort.Sorts → ∃ n, s.graph.topologicalOrderBy sort = .ok (.error (.cycleDetected n)) ∧
        s.graph.checkAcyclicBy sort = .ok (.error (.cycleDetected n))) ∧
      (rewired s.graph 0 [1, 2]).IsCyclic ∧
      ∀ sort : Digraph.Sorter, (rewired s.graph 0 [1, 2]).topologicalOrderBy sort = .error .outOfRange := by
  intro cs
  obtain ⟨⟨s, answers⟩, hrun, hread⟩ := Checked.exists_ok_of_toOption (x := (new default 0 (.ofList [])).serveAll cs)
    (f := fun r => (r.1.graph.arena.capacity, [0, 1].map r.1.graph.isAlive, [0, 1].map r.1.graph.arena.operands))
    (c := (2, [true, true], [[1], [0]])) (by decide +kernel)
  simp only [List.map_cons, List.map_nil, Prod.mk.injEq, List.cons.injEq, and_true] at hread
  obtain ⟨hcapacity, ⟨halive₀, halive₁⟩, hops₀, hops₁⟩ := hread
  have hop₁ : s.graph.arena.IsOperand 0 1 := by simp [Arena.IsOperand, hops₁]
  have hcyclic : s.graph.IsCyclic :=
    ⟨0, .tail (.single ⟨halive₁, hop₁⟩) ⟨halive₀, by simp [Arena.IsOperand, hops₀]⟩⟩
  have hstray : (rewired s.graph 0 [1, 2]).IsCyclic :=
    isCyclic_rewired halive₀ halive₁ (by decide) hop₁ (List.mem_cons_self ..)
  have houtside : ¬ (rewired s.graph 0 [1, 2]).LiveOperandsInside :=
    not_liveOperandsInside_rewired halive₀ (List.mem_cons_of_mem 1 (List.mem_singleton_self 2)) hcapacity.le
  refine ⟨s, answers, hrun, fun sort hsort => ?_, hstray, fun sort =>
    (Graph.topologicalOrderBy_eq_error sort houtside).1⟩
  obtain ⟨n, -, hrefused, hcheck⟩ := Graph.exists_cycleDetected hsort (liveOperandsInside_of_serveAll hrun) hcyclic
  exact ⟨n, hrefused, hcheck⟩

end Commons

end IntervalDag
