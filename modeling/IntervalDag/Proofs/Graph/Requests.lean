import IntervalDag.Proofs.Graph.Stability

/-!
# What requests come to

A request that asks for a node names its kind and its operands. `Graph.Responds` lists what can become of a request:
the node of a variable is shared, a node is made, the request is declined, or an operand or a reference changes hands.
`Graph.responds_of_serve` says that there is nothing else, and `Session.permits_of_serve` that a caller who gives back
only what it holds keeps to all rules by the requests that are served: those that name a node out of use are not.
-/

namespace IntervalDag

variable {α : Type}

/-! ### Numbers of operands -/

/-- A kind takes this number of operands: that of its arity if it has one, and a sum one for each coefficient. -/
structure Kind.Takes (kind : Kind α) (count : Nat) : Prop where
  arity_eq : ∀ k, kind.arity = some k → k = count
  coefs_length : ∀ coefs constant, kind = .sum coefs constant → coefs.length = count

namespace Kind

theorem takes_sum_iff {coefs : List α} {constant : α} {count : Nat} :
    (Kind.sum coefs constant).Takes count ↔ coefs.length = count := by
  refine ⟨fun h => h.coefs_length coefs constant rfl, fun h => ⟨nofun, fun _ _ heq => ?_⟩⟩
  cases heq
  exact h

theorem takes_product (c : α) (count : Nat) : (Kind.product c).Takes count := ⟨nofun, nofun⟩

/-- A kind of fixed arity takes that number of operands and no other. -/
theorem takes_iff_of_arity {kind : Kind α} {k count : Nat} (hk : kind.arity = some k) :
    kind.Takes count ↔ k = count := by
  refine ⟨fun h => h.arity_eq k hk, fun h => ⟨fun j hj => ?_, fun coefs constant hsum => ?_⟩⟩
  · exact (Option.some.inj (hj.symm.trans hk)).trans h
  · rw [hsum] at hk
    cases hk

/-- A sum or product that gains an operand takes one more. -/
theorem Takes.extended [Scalar α] {kind : Kind α} {count : Nat} (h : kind.Takes count)
    (hkind : kind.isAssociative = true) (coef : α) : (kind.extended coef).Takes (count + 1) := by
  cases kind with
  | sum coefs constant =>
    rw [Kind.extended, takes_sum_iff, List.length_append, takes_sum_iff.mp h]
    rfl
  | product c => exact takes_product _ _
  | _ => cases hkind

end Kind

/-- A request for a node is refused if its kind does not take the operands. -/
theorem Graph.refusal?_eq_none_iff {kind : Kind α} {count : Nat} :
    Graph.refusal? kind count = none ↔ kind.Takes count := by
  cases kind with
  | sum coefs constant =>
    rw [Kind.takes_sum_iff]
    show (if coefs.length = count then none else some _) = none ↔ _
    split <;> simp_all
  | product c => exact iff_of_true rfl (Kind.takes_product c count)
  | _ =>
    rw [Kind.takes_iff_of_arity rfl]
    show (if _ = count then none else some _) = none ↔ _
    split <;> simp_all

/-! ### Responses -/

/-- The kind and the operands of the node that a request asks for. -/
def Request.asks? : Request α → Option (Kind α × List NodeId)
  | .var v => some (.var v, [])
  | .value v => some (.value v, [])
  | .apply kind child _ => some (kind, [child])
  | .add kind children => some (kind, children)
  | _ => none

namespace Graph

variable [Scalar α] {g g' : Graph α} {r : Request α} {given : List NodeId}

/-- What can become of a request: the references that it hands out, and the graph after it. -/
inductive Responds (g : Graph α) (r : Request α) : List NodeId → Graph α → Prop where
  /-- The node of a variable is handed out again. -/
  | shared {v : VarId} {n : NodeId} {g' : Graph α} (hr : r.asks? = some (.var v, []))
      (hv : g.varNode? v = some n) (hrun : g.capture n = .ok g') : Responds g r [n] g'
  /-- A variable gets a node. -/
  | named {v : VarId} {n : NodeId} {g' : Graph α} (hr : r.asks? = some (.var v, []))
      (hv : g.varNode? v = none) (hrun : g.addUnchecked (.var v) [] = .ok (n, g')) :
      Responds g r [n] { g' with varNodes := g'.varNodes.insert v n }
  /-- A node of another kind is made. -/
  | made {kind : Kind α} {cs : List NodeId} {n : NodeId} {g' : Graph α} (hr : r.asks? = some (kind, cs))
      (hkind : ∀ v, kind ≠ .var v) (htakes : kind.Takes cs.length)
      (hrun : g.addUnchecked kind cs = .ok (n, g')) : Responds g r [n] g'
  /-- The kind does not take the operands. -/
  | declined {kind : Kind α} {cs : List NodeId} (hr : r = .add kind cs) (htakes : ¬ kind.Takes cs.length) :
      Responds g r [] g
  | appended {parent child : NodeId} {coef : α} {g' : Graph α} (hr : r = .append parent child coef)
      (hrun : g.append parent child coef = .ok (.ok g')) : Responds g r [] g'
  /-- The operand is not appended. -/
  | refused {parent child : NodeId} {coef : α} {e : GraphError} (hr : r = .append parent child coef)
      (hrun : g.append parent child coef = .ok (.error e)) : Responds g r [] g
  | captured {n : NodeId} {g' : Graph α} (hr : r = .capture n) (hrun : g.capture n = .ok g') : Responds g r [n] g'
  | released {n : NodeId} {g' : Graph α} (hr : r = .release n) (hrun : g.release n = .ok g') : Responds g r [] g'

theorem Responds.of_var {v : VarId} (hr : r.asks? = some (.var v, [])) {n : NodeId}
    (hrun : g.var v = .ok (n, g')) : g.Responds r [n] g' := by
  rw [Graph.var] at hrun
  split at hrun
  · rename_i n' hv
    obtain ⟨a, hcapture, hrun⟩ := Checked.bind_eq_ok.mp hrun
    cases hrun
    exact .shared hr hv (by rw [Graph.capture, hcapture]; rfl)
  · rename_i hv
    obtain ⟨⟨k, g₁⟩, hadd, hrun⟩ := Checked.bind_eq_ok.mp hrun
    cases hrun
    exact .named hr hv hadd

theorem Responds.of_add {kind : Kind α} {cs : List NodeId} (hr : r = .add kind cs) {n : NodeId}
    (hrun : g.add kind cs = .ok (.ok (n, g'))) : g.Responds r [n] g' := by
  have hasks : r.asks? = some (kind, cs) := by rw [hr]; rfl
  unfold Graph.add at hrun
  split at hrun
  · cases hrun
  · rename_i v hnone
    obtain ⟨⟨k, g₁⟩, hvar, hrun⟩ := Checked.map_eq_ok.mp hrun
    cases hrun
    -- a variable takes no operands
    obtain rfl : cs = [] :=
      List.eq_nil_of_length_eq_zero ((refusal?_eq_none_iff.mp hnone).arity_eq 0 rfl).symm
    exact .of_var hasks hvar
  · rename_i hkind hnone
    obtain ⟨⟨k, g₁⟩, hadd, hrun⟩ := Checked.map_eq_ok.mp hrun
    cases hrun
    exact .made hasks hkind (refusal?_eq_none_iff.mp hnone) hadd

/-- A node is declined exactly if its kind does not take the operands. -/
theorem exists_add_eq_error_iff {kind : Kind α} {cs : List NodeId} :
    (∃ e, g.add kind cs = .ok (.error e)) ↔ ¬ kind.Takes cs.length := by
  rw [← refusal?_eq_none_iff]
  unfold Graph.add
  split
  · rename_i e he
    exact iff_of_true ⟨e, rfl⟩ (by rw [he]; exact nofun)
  · rename_i v hnone
    refine iff_of_false ?_ (not_not_intro hnone)
    rintro ⟨e, he⟩
    obtain ⟨_, -, he⟩ := Checked.map_eq_ok.mp he
    cases he
  · rename_i hkind hnone
    refine iff_of_false ?_ (not_not_intro hnone)
    rintro ⟨e, he⟩
    obtain ⟨_, -, he⟩ := Checked.map_eq_ok.mp he
    cases he

/-- **Every request that is served.** -/
theorem responds_of_serve (hrun : g.serve r = .ok (given, g')) : g.Responds r given g' := by
  cases r with
  | var v =>
    obtain ⟨⟨n, g₁⟩, hvar, hrun⟩ := Checked.bind_eq_ok.mp hrun
    cases hrun
    exact .of_var rfl hvar
  | value v =>
    obtain ⟨⟨n, g₁⟩, hadd, hrun⟩ := Checked.bind_eq_ok.mp hrun
    cases hrun
    exact .made rfl nofun ((Kind.takes_iff_of_arity rfl).mpr rfl) hadd
  | apply kind child unary =>
    obtain ⟨⟨n, g₁⟩, hadd, hrun⟩ := Checked.bind_eq_ok.mp hrun
    cases hrun
    refine .made rfl (fun v hv => ?_) ((Kind.takes_iff_of_arity unary).mpr rfl) hadd
    rw [hv] at unary
    cases unary
  | add kind children =>
    obtain ⟨result, hadd, hrun⟩ := Checked.bind_eq_ok.mp hrun
    cases result with
    | error e =>
      cases hrun
      exact .declined rfl (exists_add_eq_error_iff.mp ⟨e, hadd⟩)
    | ok made =>
      cases hrun
      exact .of_add rfl hadd
  | append parent child coef =>
    obtain ⟨result, happend, hrun⟩ := Checked.bind_eq_ok.mp hrun
    cases result with
    | error e =>
      cases hrun
      exact .refused rfl happend
    | ok g₁ =>
      cases hrun
      exact .appended rfl happend
  | capture n =>
    obtain ⟨g₁, hcapture, hrun⟩ := Checked.bind_eq_ok.mp hrun
    cases hrun
    exact .captured rfl hcapture
  | release n =>
    obtain ⟨g₁, hrelease, hrun⟩ := Checked.bind_eq_ok.mp hrun
    cases hrun
    exact .released rfl hrelease

/-- A node is only made over nodes in use. -/
theorem isAlive_of_addUnchecked {kind : Kind α} {cs : List NodeId} {n : NodeId}
    (hrun : g.addUnchecked kind cs = .ok (n, g')) : ∀ c ∈ cs, g.isAlive c = true := by
  obtain ⟨a, hadd, -⟩ := eq_of_addUnchecked hrun
  exact (Arena.add_cases hadd).1

end Graph

/-! ### Callers who own what they give back -/

namespace Session

variable [Scalar α] {s s' : Session α} {r : Request α}

/-- Callers give back only references that they hold. -/
def Owns (s : Session α) (r : Request α) : Prop := ∀ n ∈ r.returned, 0 < s.held n

instance (s : Session α) (r : Request α) : Decidable (s.Owns r) :=
  inferInstanceAs (Decidable (∀ n ∈ r.returned, 0 < s.held n))

/-- A request that is declined changes nothing. -/
theorem serve_eq_self (hrun : s.graph.serve r = .ok ([], s.graph)) (hreturned : r.returned = []) :
    s.serve r = .ok s := by
  rw [serve, hrun, Checked.ok_bind, hreturned]
  rfl

/-- What is served keeps to the rules or changes nothing. -/
theorem permits_of_serve (howns : s.Owns r) (hserve : s.serve r = .ok s') : s.Permits r ∨ s' = s := by
  obtain ⟨⟨given, g'⟩, hgraph, heq⟩ := Checked.bind_eq_ok.mp hserve
  cases heq
  have halive : ∀ {kind cs n g'}, s.graph.addUnchecked kind cs = .ok (n, g') → ∀ c ∈ cs, s.graph.isAlive c = true :=
    Graph.isAlive_of_addUnchecked
  cases Graph.responds_of_serve hgraph with
  | shared hr _ _ | named hr _ _ =>
    cases r with
    | var v => exact Or.inl trivial
    | add kind cs =>
      cases hr
      exact Or.inl fun c hc => nomatch hc
    | _ => cases hr
  | made hr hkind htakes hrun =>
    cases r with
    | value v => exact Or.inl trivial
    | apply kind child unary =>
      cases hr
      exact Or.inl (halive hrun child (List.mem_singleton_self child))
    | add kind cs =>
      cases hr
      exact Or.inl (halive hrun)
    | var v => exact Or.inl trivial
    | _ => cases hr
  | declined hr htakes =>
    cases hr
    exact Or.inr rfl
  | appended hr hrun =>
    cases hr
    exact Or.inl (Graph.isAlive_of_append hrun)
  | refused hr hrun =>
    cases hr
    exact Or.inr rfl
  | captured hr hrun =>
    cases hr
    exact Or.inl (Graph.eq_of_capture hrun).1
  | released hr hrun =>
    cases hr
    exact Or.inl (howns _ (List.mem_singleton_self _))

end Session

end IntervalDag
