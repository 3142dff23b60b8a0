import IntervalDag.Proofs.Graph.Session

/-!
# What every request keeps

A relation between graphs that holds across each step of a request holds across the request (`Graph.Stable.serve`), also
if the caller breaks the rules. Operands are entries of the arena after any run at all (`Session.intact_of_serveAll`), so
searches of the graph end even if there are cycles.
-/

namespace IntervalDag

variable {α : Type}

namespace Arena

/-- Operands stay entries if no entry goes away and the new ones among them are entries. -/
theorem OperandsInside.of_operands {a a' : Arena α} (h : a.OperandsInside)
    (hcap : a.capacity ≤ a'.capacity)
    (hops : ∀ m, a'.operands m = a.operands m ∨ ∀ c ∈ a'.operands m, c < a'.capacity) :
    a'.OperandsInside := by
  intro c m hc
  rcases hops m with hm | hm
  · rw [IsOperand, hm] at hc
    exact Nat.lt_of_lt_of_le (h c m hc) hcap
  · exact hm c hc

/-- References are only taken to nodes in use. -/
theorem isAlive_of_captureAll {a a' : Arena α} {ns : List NodeId} (h : ns.foldlM capture a = .ok a') :
    ∀ n ∈ ns, a.isAlive n = true := by
  induction ns generalizing a with
  | nil =>
    intro n hn
    cases hn
  | cons n ns ih =>
    rw [List.foldlM_cons] at h
    obtain ⟨a₁, hrun, hrest⟩ := Checked.bind_eq_ok.mp h
    have hn := isAlive_of_capture hrun
    have hsame : SameEdges a a₁ := by
      rw [capture_of_isAlive hn] at hrun
      cases hrun
      exact sameEdges_raise hn
    intro m hm
    rw [List.mem_cons] at hm
    rcases hm with rfl | hm
    · exact hn
    · rw [← hsame.isAlive_eq m]
      exact ih hrest m hm

/-- Making a node writes one entry and raises the counts of others, if it gets that far at all. -/
theorem add_cases [Scalar α] {a a' : Arena α} {kind : Kind α} {cs : List NodeId} {n : NodeId}
    (hrun : a.add kind cs = .ok (n, a')) :
    (∀ c ∈ cs, a.isAlive c = true) ∧ a.capacity ≤ a'.capacity ∧
      ∀ m, (a'.node? m = some (Node.fresh kind cs 1) ∧ (m ∈ a.free ∨ a.capacity ≤ m)) ∨
        a'.node? m = (a.node? m).map fun node => { node with refs := node.refs + cs.count m } := by
  rw [add] at hrun
  obtain ⟨a₁, hcapture, hrun⟩ := Checked.bind_eq_ok.mp hrun
  have hcs := isAlive_of_captureAll hcapture
  obtain ⟨a₂, hcapture', hfree, hnode⟩ := exists_captureAll hcs
  rw [hcapture] at hcapture'
  cases hcapture'
  have hcap : a₁.capacity = a.capacity := capacity_congr fun k => by
    rw [hnode k, Option.map_eq_none_iff]
  rcases hf : a₁.free with _ | ⟨k, free⟩
  · rw [hf] at hrun
    cases hrun
    refine ⟨hcs, ?_, fun m => ?_⟩
    · rw [← hcap, capacity, capacity, Array.size_push]
      exact Nat.le_succ _
    · have hm : (⟨a₁.nodes.push (Node.fresh kind cs 1), []⟩ : Arena α).node? m =
          if m = a₁.capacity then some (Node.fresh kind cs 1) else a₁.node? m := node?_push a₁ m _
      rw [hm]
      split
      · rename_i hmn
        exact Or.inl ⟨rfl, Or.inr (Nat.le_of_eq (hmn.trans hcap).symm)⟩
      · exact Or.inr (hnode m)
  · rw [hf] at hrun
    cases hrun
    refine ⟨hcs, ?_, fun m => ?_⟩
    · exact Nat.le_of_eq (hcap.symm.trans (capacity_set a₁ n _).symm)
    · have hm : ({ a₁.set n (Node.fresh kind cs 1) with free } : Arena α).node? m =
          if m = n ∧ n < a₁.capacity then some (Node.fresh kind cs 1) else a₁.node? m :=
        node?_set a₁ n m _
      rw [hm]
      split
      · rename_i hmn
        refine Or.inl ⟨rfl, Or.inl ?_⟩
        rw [hmn.1, ← hfree, hf]
        exact List.mem_cons_self ..
      · exact Or.inr (hnode m)

/-- A node is only made over entries. -/
theorem OperandsInside.of_add [Scalar α] {a a' : Arena α} {kind : Kind α} {cs : List NodeId} {n : NodeId}
    (h : a.OperandsInside) (hrun : a.add kind cs = .ok (n, a')) : a'.OperandsInside := by
  obtain ⟨hcs, hcap, hnode⟩ := add_cases hrun
  refine h.of_operands hcap fun m => ?_
  rcases hnode m with ⟨hm, -⟩ | hm
  · rw [operands_eq_of_node? hm]
    exact Or.inr fun c hc => Nat.lt_of_lt_of_le (lt_capacity_of_isAlive (hcs c hc)) hcap
  · exact Or.inl (operands_eq_of_map hm fun _ => rfl)

/-- Dropping references only takes operands away. -/
theorem OperandsInside.of_releaseAll [Scalar α] {a a' : Arena α} {pending : List NodeId}
    {freed freed' : List (NodeId × Kind α)} (h : a.OperandsInside)
    (hrun : a.releaseAll freed pending = .ok (a', freed')) : a'.OperandsInside := by
  fun_induction Arena.releaseAll a freed pending with
  | case1 a freed =>
    cases hrun
    exact h
  | case2 => cases hrun
  | case3 => cases hrun
  | case4 a freed n pending node hn hzero hone ih =>
    refine ih (h.of_operands (Nat.le_of_eq (capacity_set a n .free).symm) fun m => ?_) hrun
    rw [operands, node?_recycle (lt_capacity_of_node? hn)]
    split
    · exact Or.inr fun c hc => by cases hc
    · exact Or.inl rfl
  | case5 a freed n pending node hn hzero hone ih =>
    have hsame := sameEdges_drop hn (by omega)
    exact ih (h.of_operands (Nat.le_of_eq hsame.capacity_eq.symm) fun m =>
      Or.inl (hsame.operands_eq m)) hrun

end Arena

/-! ### What holds after any run -/

/-- What no run of requests can spoil, whether or not callers keep to the rules. -/
structure Graph.Intact (g : Graph α) : Prop where
  operandsInside : g.arena.OperandsInside
  /-- the epoch of the bounds was given out -/
  boundsEpoch_le : g.boundsEpoch ≤ g.epochs.last

/-- Only nodes in use can be asked to be appended and to take an operand. -/
theorem Graph.isAlive_of_append [Scalar α] {g : Graph α} {parent child : NodeId} {coef : α}
    {r : Except GraphError (Graph α)} (h : g.append parent child coef = .ok r) :
    g.arena.isAlive parent = true ∧ g.arena.isAlive child = true := by
  rw [append] at h
  obtain ⟨p, hp, h⟩ := Checked.bind_eq_ok.mp h
  obtain ⟨u, hc, _⟩ := Checked.bind_eq_ok.mp h
  obtain ⟨c, hc, _⟩ := Checked.map_eq_ok.mp hc
  exact ⟨isAlive_of_node hp, isAlive_of_node hc⟩

section

variable [Scalar α] {g g' : Graph α} {n : NodeId}

omit [Scalar α] in
/-- What a new reference changes. -/
theorem Graph.eq_of_capture (hrun : g.capture n = .ok g') : g.arena.isAlive n = true ∧
    g' = { g with arena := g.arena.modify n fun node => { node with refs := node.refs + 1 } } := by
  rw [Graph.capture] at hrun
  obtain ⟨a, hcapture, hrun⟩ := Checked.bind_eq_ok.mp hrun
  have hn := Arena.isAlive_of_capture hcapture
  rw [Arena.capture_of_isAlive hn] at hcapture
  cases hcapture
  cases hrun
  exact ⟨hn, rfl⟩

/-- What a new node changes. -/
theorem Graph.eq_of_addUnchecked {kind : Kind α} {cs : List NodeId} (hrun : g.addUnchecked kind cs = .ok (n, g')) :
    ∃ a, g.arena.add kind cs = .ok (n, a) ∧ g' = { g with arena := a } := by
  rw [Graph.addUnchecked] at hrun
  obtain ⟨⟨k, a⟩, hadd, hrun⟩ := Checked.bind_eq_ok.mp hrun
  cases hrun
  exact ⟨a, hadd, rfl⟩

/-- What dropping a reference changes. -/
theorem Graph.eq_of_release (hrun : g.release n = .ok g') : ∃ a freed varNodes,
    g.arena.releaseAll [] [n] = .ok (a, freed) ∧ g' = { g with arena := a, varNodes } := by
  rw [Graph.release] at hrun
  obtain ⟨⟨a, freed⟩, hrelease, hrun⟩ := Checked.bind_eq_ok.mp hrun
  cases hrun
  rw [Arena.release] at hrelease
  obtain ⟨⟨a', freed'⟩, hall, hrelease⟩ := Checked.bind_eq_ok.mp hrelease
  cases hrelease
  exact ⟨a, _, _, hall, rfl⟩

end

/-- A relation between graphs that holds across each of the changes that requests are made of. -/
structure Graph.Stable [Scalar α] (R : Graph α → Graph α → Prop) : Prop where
  refl : ∀ g, R g g
  capture : ∀ {g g' : Graph α} {n}, g.capture n = .ok g' → R g g'
  addUnchecked : ∀ {g g' : Graph α} {kind cs n}, g.addUnchecked kind cs = .ok (n, g') → R g g'
  append : ∀ {g g' : Graph α} {parent child coef}, g.append parent child coef = .ok (.ok g') → R g g'
  release : ∀ {g g' : Graph α} {n}, g.release n = .ok g' → R g g'
  varNodes : ∀ {g g' : Graph α} (varNodes), R g g' → R g { g' with varNodes }

namespace Graph.Stable

variable [Scalar α] {R : Graph α → Graph α → Prop} {g g' : Graph α}

theorem var (h : Stable R) {v : VarId} {n : NodeId} (hrun : g.var v = .ok (n, g')) : R g g' := by
  rw [Graph.var] at hrun
  split at hrun
  · obtain ⟨a', hcapture, hrun⟩ := Checked.bind_eq_ok.mp hrun
    cases hrun
    exact h.capture (n := n) (by rw [Graph.capture, hcapture]; rfl)
  · obtain ⟨⟨k, g₁⟩, hadd, hrun⟩ := Checked.bind_eq_ok.mp hrun
    cases hrun
    exact h.varNodes _ (h.addUnchecked hadd)

theorem add (h : Stable R) {kind : Kind α} {cs : List NodeId} {n : NodeId}
    (hrun : g.add kind cs = .ok (.ok (n, g'))) : R g g' := by
  unfold Graph.add at hrun
  split at hrun
  · cases hrun
  · obtain ⟨r, hvar, hr⟩ := Checked.map_eq_ok.mp hrun
    cases hr
    exact h.var hvar
  · obtain ⟨r, hadd, hr⟩ := Checked.map_eq_ok.mp hrun
    cases hr
    exact h.addUnchecked hadd

/-- It holds across every request. -/
theorem serve (h : Stable R) {r : Request α} {given : List NodeId}
    (hrun : g.serve r = .ok (given, g')) : R g g' := by
  cases r with
  | var v =>
    obtain ⟨⟨n, g₁⟩, hvar, hrun⟩ := Checked.bind_eq_ok.mp hrun
    cases hrun
    exact h.var hvar
  | value v =>
    obtain ⟨⟨n, g₁⟩, hadd, hrun⟩ := Checked.bind_eq_ok.mp hrun
    cases hrun
    exact h.addUnchecked hadd
  | apply kind child unary =>
    obtain ⟨⟨n, g₁⟩, hadd, hrun⟩ := Checked.bind_eq_ok.mp hrun
    cases hrun
    exact h.addUnchecked hadd
  | add kind children =>
    obtain ⟨r, hadd, hrun⟩ := Checked.bind_eq_ok.mp hrun
    cases r with
    | error e =>
      cases hrun
      exact h.refl _
    | ok r =>
      cases hrun
      exact h.add hadd
  | append parent child coef =>
    obtain ⟨r, happend, hrun⟩ := Checked.bind_eq_ok.mp hrun
    cases r with
    | error e =>
      cases hrun
      exact h.refl _
    | ok r =>
      cases hrun
      exact h.append happend
  | capture n =>
    obtain ⟨g₁, hcapture, hrun⟩ := Checked.bind_eq_ok.mp hrun
    cases hrun
    exact h.capture hcapture
  | release n =>
    obtain ⟨g₁, hrelease, hrun⟩ := Checked.bind_eq_ok.mp hrun
    cases hrun
    exact h.release hrelease

end Graph.Stable

namespace Graph.Intact

variable [Scalar α] {g g' : Graph α}

theorem empty [BitPattern α] (settings : Settings α) (identity : Nat) :
    (Graph.empty settings identity).Intact where
  operandsInside c m hc := by cases hc
  boundsEpoch_le := Nat.le_succ 1

/-- An appended operand is an entry. -/
theorem exists_appended (h : g.Intact) {parent child : NodeId} {coef : α}
    (hrun : g.append parent child coef = .ok (.ok g')) :
    child ≠ parent ∧ g.arena.isAlive parent = true ∧ g.arena.isAlive child = true ∧
      Graph.Appended g g' parent child coef := by
  obtain ⟨hp, hc⟩ := isAlive_of_append hrun
  obtain ⟨p, hnode, -⟩ := Arena.exists_node?_of_isAlive hp
  rcases hkind : p.kind.isAssociative with _ | _
  · rw [append_of_fixed coef hp hnode hc hkind] at hrun
    cases hrun
  by_cases hbelow : g.arena.Below parent child
  · rw [append_of_below coef h.operandsInside hp hnode hc hkind hbelow] at hrun
    cases hrun
  obtain ⟨g'', hrun', happ⟩ := exists_append coef h.operandsInside hp hnode hc hkind hbelow
  rw [hrun] at hrun'
  cases hrun'
  refine ⟨?_, hp, hc, happ⟩
  rintro rfl
  exact hbelow (.refl _ _)

/-- **No request spoils a graph.** -/
theorem stable : Graph.Stable fun g g' : Graph α => g.Intact → g'.Intact where
  refl _ h := h
  capture {g g' n} hrun h := by
    obtain ⟨hn, rfl⟩ := Graph.eq_of_capture hrun
    have hsame := Arena.sameEdges_raise hn
    exact ⟨h.operandsInside.of_operands (Nat.le_of_eq hsame.capacity_eq.symm) fun m =>
      Or.inl (hsame.operands_eq m), h.boundsEpoch_le⟩
  addUnchecked {g g' kind cs n} hrun h := by
    obtain ⟨a, hadd, rfl⟩ := Graph.eq_of_addUnchecked hrun
    exact ⟨h.operandsInside.of_add hadd, h.boundsEpoch_le⟩
  append {g g' parent child coef} hrun h := by
    obtain ⟨hne, hp, hc, happ⟩ := h.exists_appended hrun
    refine ⟨fun c m hcm => ?_, ?_⟩
    · rw [Arena.IsOperand, happ.operands_eq hne hp, List.mem_append] at hcm
      rw [happ.capacity_eq]
      rcases hcm with hcm | hcm
      · exact h.operandsInside c m hcm
      · split at hcm
        · rw [List.mem_singleton.mp hcm]
          exact Arena.lt_capacity_of_isAlive hc
        · cases hcm
    · rw [happ.rest_eq]
  release {g g' n} hrun h := by
    obtain ⟨a, freed, varNodes, hall, rfl⟩ := Graph.eq_of_release hrun
    exact ⟨h.operandsInside.of_releaseAll hall, h.boundsEpoch_le⟩
  varNodes _ himp h := ⟨(himp h).operandsInside, (himp h).boundsEpoch_le⟩

end Graph.Intact

namespace Session

variable [Scalar α]

/-- **Runs of requests**, whatever the callers did. -/
theorem intact_of_serveAll {s s' : Session α} {rs : List (Request α)} (h : s.graph.Intact)
    (hrun : s.serveAll rs = .ok s') : s'.graph.Intact := by
  refine Run.invariant (I := fun s => s.graph.Intact) (fun h _ hserve => ?_) h (.of_true s rs) hrun
  obtain ⟨⟨given, g₁⟩, hgraph, hserve⟩ := Checked.bind_eq_ok.mp hserve
  cases hserve
  exact Graph.Intact.stable.serve hgraph h

end Session

end IntervalDag
