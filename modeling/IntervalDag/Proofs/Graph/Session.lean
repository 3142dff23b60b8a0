import IntervalDag.Proofs.Graph.Appending
import IntervalDag.Proofs.Graph.Release
import IntervalDag.Proofs.Runs
import IntervalDag.Scalar.Binary64
import Std.Data.HashMap.Lemmas

/-!
# Sessions with a graph

A session is a run of requests to one graph by callers who own references: every node handed out and
every reference taken is theirs to give back. Callers keep to the rules (`Session.Permits`) when the
nodes they name are in use and they give back no reference that they do not hold. No request then
meets a fault, and after every run of requests

* the count of each node is what callers hold of it and what other nodes use of it,
* the free entries are blank and each is listed once,
* the nodes in use are those that can be reached from what is held.

`Graph.Sound` is the invariant that carries this.
-/

namespace IntervalDag

variable {α : Type}

/-- The holding without the references of a list. -/
def Holding.minus (held : Holding) (ns : List NodeId) : Holding := fun k => held k - ns.count k

/-- A request to a graph. -/
inductive Request (α : Type) where
  /-- Asks for the node of a variable. -/
  | var (v : VarId)
  /-- Asks for a node that holds a constant. -/
  | value (v : α)
  /-- Asks for the node of a function or power of one operand. -/
  | apply (kind : Kind α) (child : NodeId) (unary : kind.arity = some 1)
  /-- Asks for a node of any kind, which is declined if the kind does not take these operands. -/
  | add (kind : Kind α) (children : List NodeId)
  /-- Asks for an operand to be appended, which is declined if the kind takes none or if there would be
  a cycle. -/
  | append (parent child : NodeId) (coef : α)
  /-- Takes a reference. -/
  | capture (n : NodeId)
  /-- Gives a reference back. -/
  | release (n : NodeId)

/-- The references that a request gives back. -/
def Request.returned : Request α → List NodeId
  | .release n => [n]
  | _ => []

namespace Graph

variable [Scalar α]

/-- Serves a request. Answers with the references handed out. A declined request changes nothing. -/
def serve (g : Graph α) : Request α → Checked α (List NodeId × Graph α)
  | .var v => do
    let (n, g) ← g.var v
    return ([n], g)
  | .value v => do
    let (n, g) ← g.addUnchecked (.value v) []
    return ([n], g)
  | .apply kind child _ => do
    let (n, g) ← g.apply kind child
    return ([n], g)
  | .add kind children => do
    match ← g.add kind children with
    | .ok (n, g) => return ([n], g)
    | .error _ => return ([], g)
  | .append parent child coef => do
    match ← g.append parent child coef with
    | .ok g => return ([], g)
    | .error _ => return ([], g)
  | .capture n => do return ([n], ← g.capture n)
  | .release n => do return ([], ← g.release n)

/-- What a graph is like between the requests of callers who hold references to it. -/
structure Sound (g : Graph α) (held : Holding) : Prop where
  counted : g.arena.Counted held
  acyclic : g.arena.Acyclic
  /-- the node of a variable is in use and has that variable -/
  var_alive : ∀ v n, g.varNode? v = some n →
    ∃ node, g.arena.node? n = some node ∧ 0 < node.refs ∧ node.kind = .var v

end Graph

/-- A graph and what its callers hold. -/
structure Session (α : Type) where
  /-- The graph. -/
  graph : Graph α
  /-- The number of references to each node that callers hold. -/
  held : Holding

namespace Session

variable [Scalar α]

/-- A session with a new graph. -/
def new [BitPattern α] (settings : Settings α) (identity : Nat) : Session α :=
  ⟨Graph.empty settings identity, fun _ => 0⟩

/-- Serves a request and keeps account of the references that change hands. -/
def serve (s : Session α) (r : Request α) : Checked α (Session α) := do
  let (given, graph) ← s.graph.serve r
  return ⟨graph, (s.held.plus given).minus r.returned⟩

/-- Serves requests one after another. -/
def serveAll (s : Session α) (rs : List (Request α)) : Checked α (Session α) := rs.foldlM serve s

/-- The rules that a request has to keep to. -/
def Permits (s : Session α) : Request α → Prop
  | .var _ => True
  | .value _ => True
  | .apply _ child _ => s.graph.isAlive child = true
  | .add _ children => ∀ c ∈ children, s.graph.isAlive c = true
  | .append parent child _ => s.graph.isAlive parent = true ∧ s.graph.isAlive child = true
  | .capture n => s.graph.isAlive n = true
  | .release n => 0 < s.held n

/-- Each of the requests keeps to the rules when its turn comes. -/
def PermitsAll (s : Session α) (rs : List (Request α)) : Prop := Run.Keeps serve Permits s rs

instance (s : Session α) : (r : Request α) → Decidable (s.Permits r)
  | .var _ | .value _ => isTrue trivial
  | .apply _ child _ => inferInstanceAs (Decidable (s.graph.isAlive child = true))
  | .add _ children => inferInstanceAs (Decidable (∀ c ∈ children, s.graph.isAlive c = true))
  | .append parent child _ =>
    inferInstanceAs (Decidable (s.graph.isAlive parent = true ∧ s.graph.isAlive child = true))
  | .capture n => inferInstanceAs (Decidable (s.graph.isAlive n = true))
  | .release n => inferInstanceAs (Decidable (0 < s.held n))

instance (s : Session α) (rs : List (Request α)) : Decidable (s.PermitsAll rs) :=
  inferInstanceAs (Decidable (Run.Keeps serve Permits s rs))

end Session

namespace Graph.Sound

variable [Scalar α] {g : Graph α} {held : Holding}

/-- A new graph has nothing in it. -/
theorem empty [BitPattern α] (settings : Settings α) (identity : Nat) :
    (Graph.empty settings identity).Sound fun _ => 0 := by
  refine ⟨⟨fun n => rfl, fun n _ => rfl, fun n => ?_, List.nodup_nil⟩, ⟨fun n => ?_⟩, fun v n h => ?_⟩
  · constructor
    · intro hn
      cases hn
    · rintro ⟨hn, -⟩
      exact absurd hn (Nat.not_lt_zero n)
  · exact Acc.intro n fun c hc => by cases hc
  · have hnone : (∅ : Std.HashMap VarId NodeId)[v]? = none := Std.HashMap.getElem?_empty
    have hsome : (∅ : Std.HashMap VarId NodeId)[v]? = some n := h
    rw [hnone] at hsome
    cases hsome

omit [Scalar α] in
/-- A variable whose node got other counts only still has its node. -/
theorem var_alive_of_map (h : g.Sound held) {g' : Graph α} (hvars : g'.varNodes = g.varNodes)
    (hnode : ∀ n, g.arena.isAlive n = true → ∃ k, g'.arena.node? n =
      (g.arena.node? n).map fun node => { node with refs := node.refs + k }) (v n : Nat)
    (hv : g'.varNode? v = some n) :
    ∃ node, g'.arena.node? n = some node ∧ 0 < node.refs ∧ node.kind = .var v := by
  rw [varNode?, hvars] at hv
  obtain ⟨node, hn, hpos, hkind⟩ := h.var_alive v n hv
  obtain ⟨k, hk⟩ := hnode n (Arena.isAlive_iff.mpr (Arena.refs_eq_of_node? hn ▸ hpos))
  rw [hn] at hk
  exact ⟨_, hk, Nat.lt_of_lt_of_le hpos (Nat.le_add_right _ _), hkind⟩

omit [Scalar α] in
/-- A reference is taken to a node in use. -/
theorem exists_capture (h : g.Sound held) {n : NodeId} (hn : g.arena.isAlive n = true) :
    ∃ g', g.capture n = .ok g' ∧ g'.Sound (held.plus [n]) := by
  obtain ⟨a', hrun, hcounted, -, hnode⟩ := h.counted.capture hn
  refine ⟨{ g with arena := a' }, ?_, hcounted, h.acyclic.of_imp fun c m hc => ?_,
    h.var_alive_of_map rfl fun m _ => ⟨_, hnode m⟩⟩
  · rw [Graph.capture, hrun]
    rfl
  · rw [Arena.IsOperand, Arena.operands_eq_of_map (hnode m) fun _ => rfl] at hc
    exact hc

/-- A node is made over operands in use. -/
theorem exists_addUnchecked (h : g.Sound held) (kind : Kind α) (cs : List NodeId)
    (hcs : ∀ c ∈ cs, g.arena.isAlive c = true) :
    ∃ n g', g.addUnchecked kind cs = .ok (n, g') ∧ g'.Sound (held.plus [n]) ∧
      g'.arena.node? n = some (Node.fresh kind cs 1) ∧ g'.varNodes = g.varNodes := by
  obtain ⟨n, a', hrun, hcounted, hidle, hnew, hother⟩ := h.counted.add hcs kind
  have hne : ∀ m, g.arena.isAlive m = true → m ≠ n := by
    rintro m hm rfl
    rw [hidle] at hm
    cases hm
  have hops : ∀ m, m ≠ n → a'.operands m = g.arena.operands m := fun m hm =>
    Arena.operands_eq_of_map (hother m hm) fun _ => rfl
  refine ⟨n, { g with arena := a' }, ?_, ⟨hcounted, ?_, ?_⟩, hnew, rfl⟩
  · rw [addUnchecked, hrun]
    rfl
  · refine h.acyclic.of_unused hops (fun m hm => hne n (h.counted.isAlive_operand hm) rfl) fun hself => ?_
    rw [Arena.isOperand_iff hnew] at hself
    exact hne n (hcs n hself) rfl
  · exact h.var_alive_of_map rfl fun m hm => ⟨_, hother m (hne m hm)⟩

/-- The node of a variable is handed out. -/
theorem exists_var (h : g.Sound held) (v : VarId) :
    ∃ n g', g.var v = .ok (n, g') ∧ g'.Sound (held.plus [n]) := by
  rcases hv : g.varNode? v with _ | n
  · obtain ⟨n, g', hrun, hsound, hnew, hvars⟩ := h.exists_addUnchecked (.var v) []
      fun c hc => by cases hc
    refine ⟨n, { g' with varNodes := g'.varNodes.insert v n }, ?_, hsound.counted, hsound.acyclic,
      fun w m hw => ?_⟩
    · simp only [Graph.var, hv, hrun]
      rfl
    · rw [varNode?, Std.HashMap.getElem?_insert] at hw
      split at hw
      · rename_i hvw
        cases hw
        obtain rfl : v = w := by simpa using hvw
        exact ⟨_, hnew, Nat.one_pos, rfl⟩
      · exact hsound.var_alive w m hw
  · obtain ⟨node, hn, hpos, -⟩ := h.var_alive v n hv
    obtain ⟨g', hrun, hsound⟩ := h.exists_capture (n := n)
      (Arena.isAlive_iff.mpr (Arena.refs_eq_of_node? hn ▸ hpos))
    refine ⟨n, g', ?_, hsound⟩
    rw [Graph.capture] at hrun
    obtain ⟨a', ha, hg'⟩ := Checked.bind_eq_ok.mp hrun
    cases hg'
    simp only [Graph.var, hv, ha]
    rfl

/-- A node of any kind is made or declined. -/
theorem exists_add (h : g.Sound held) {cs : List NodeId} (hcs : ∀ c ∈ cs, g.arena.isAlive c = true)
    (kind : Kind α) :
    ∃ r, g.add kind cs = .ok r ∧ ∀ n g', r = .ok (n, g') → g'.Sound (held.plus [n]) := by
  have hmade : ∃ r, Except.ok <$> g.addUnchecked kind cs = .ok r ∧
      ∀ n g', r = (.ok (n, g') : Except GraphError _) → g'.Sound (held.plus [n]) := by
    obtain ⟨n, g', hrun, hsound, -⟩ := h.exists_addUnchecked kind cs hcs
    refine ⟨.ok (n, g'), by rw [hrun]; rfl, fun n' g'' h' => ?_⟩
    cases h'
    exact hsound
  cases hrefusal : Graph.refusal? kind cs.length with
  | some e =>
    refine ⟨.error e, ?_, fun n g' h' => by cases h'⟩
    unfold Graph.add
    rw [hrefusal]
  | none =>
    cases kind with
    | var v =>
      obtain ⟨n, g', hrun, hsound⟩ := h.exists_var v
      refine ⟨.ok (n, g'), ?_, fun n' g'' h' => ?_⟩
      · unfold Graph.add
        rw [hrefusal]
        show Except.ok <$> g.var v = _
        rw [hrun]
        rfl
      · cases h'
        exact hsound
    | _ =>
      unfold Graph.add
      rwa [hrefusal]

omit [Scalar α] in
/-- Operands are in use and hence entries. -/
theorem operandsInside (h : g.Sound held) : g.arena.OperandsInside := fun _ _ hc =>
  Arena.lt_capacity_of_isAlive (h.counted.isAlive_operand hc)

/-- An operand is appended or declined. -/
theorem exists_append (h : g.Sound held) {parent child : NodeId} (hp : g.arena.isAlive parent = true)
    (hc : g.arena.isAlive child = true) (coef : α) :
    ∃ r, g.append parent child coef = .ok r ∧ ∀ g', r = .ok g' → g'.Sound held := by
  obtain ⟨p, hnode, -⟩ := Arena.exists_node?_of_isAlive hp
  rcases hkind : p.kind.isAssociative with _ | _
  · exact ⟨_, append_of_fixed coef hp hnode hc hkind, fun g' hg' => by cases hg'⟩
  by_cases hbelow : g.arena.Below parent child
  · exact ⟨_, append_of_below coef h.operandsInside hp hnode hc hkind hbelow, fun g' hg' => by cases hg'⟩
  obtain ⟨g', hrun, happ⟩ := Graph.exists_append coef h.operandsInside hp hnode hc hkind hbelow
  refine ⟨.ok g', hrun, fun g'' hg'' => ?_⟩
  cases hg''
  have hne : child ≠ parent := by
    rintro rfl
    exact hbelow (.refl _ _)
  refine ⟨happ.counted h.counted hne hp hc, happ.acyclic h.acyclic hp hbelow, fun v n hv => ?_⟩
  have hvars : g'.varNodes = g.varNodes := by rw [happ.rest_eq]
  rw [varNode?, hvars] at hv
  obtain ⟨node, hn, hpos, hvar⟩ := h.var_alive v n hv
  -- the node of a variable takes no operands, but may be the one that is appended
  have hnp : n ≠ parent := by
    rintro rfl
    rw [hn] at hnode
    cases hnode
    rw [hvar] at hkind
    cases hkind
  by_cases hnc : n = child
  · subst hnc
    refine ⟨{ node with refs := node.refs + 1 }, ?_, Nat.succ_pos _, hvar⟩
    rw [happ.child_eq, hn]
    rfl
  · exact ⟨node, by rw [happ.other_eq n hnp hnc, hn], hpos, hvar⟩

omit [Scalar α] in
/-- Variables of freed nodes are forgotten, and nothing else is. -/
theorem varNodes_freed_iff {varNodes : Std.HashMap VarId NodeId} {freed : List (NodeId × Kind α)} {v n : Nat} :
    (freed.foldl
      (fun varNodes (_, kind) =>
        match kind with
        | .var v => varNodes.erase v
        | _ => varNodes)
      varNodes)[v]? = some n ↔ varNodes[v]? = some n ∧ ∀ m, (m, Kind.var v) ∉ freed := by
  induction freed generalizing varNodes with
  | nil => exact ⟨fun h => ⟨h, fun m hm => nomatch hm⟩, And.left⟩
  | cons entry freed ih =>
    obtain ⟨k, kind⟩ := entry
    rw [List.foldl_cons, ih]
    cases kind with
    | var w =>
      rw [Std.HashMap.getElem?_erase]
      by_cases hw : w = v
      · refine iff_of_false (fun h => ?_) fun h => h.2 k (hw ▸ List.mem_cons_self ..)
        rw [if_pos (by simpa using hw)] at h
        cases h.1
      · rw [if_neg (by simpa using hw)]
        refine and_congr_right fun _ => forall_congr' fun m => not_congr ?_
        rw [List.mem_cons, or_iff_right]
        rintro heq
        cases heq
        exact hw rfl
    | _ =>
      refine and_congr_right fun _ => forall_congr' fun m => not_congr ?_
      rw [List.mem_cons, or_iff_right nofun]

/-- A reference that is held can be given back, and nodes that lost their last one are freed. -/
theorem exists_released (h : g.Sound held) {n : NodeId} (hn : 0 < held n) :
    ∃ g' freed, g.release n = .ok g' ∧ g'.arena.Counted (held.minus [n]) ∧
      g.arena.Released g'.arena freed ∧
      ∀ v m, g'.varNode? v = some m ↔ g.varNode? v = some m ∧ ∀ k, (k, Kind.var v) ∉ freed := by
  have hheld : (held.minus [n]).plus [n] = held := by
    funext k
    rw [Holding.plus_apply, Holding.minus, List.count_singleton]
    split
    · rename_i hk
      obtain rfl : n = k := by simpa using hk
      omega
    · rfl
  obtain ⟨a', freed, hrun, hcounted, hreleased⟩ := Arena.Counted.releaseAll
    (hheld.symm ▸ h.counted : g.arena.Counted ((held.minus [n]).plus [n])) []
  rw [List.append_nil] at hrun
  refine ⟨_, freed, by rw [Graph.release, Arena.release, hrun]; rfl, hcounted, hreleased, fun v m => ?_⟩
  refine varNodes_freed_iff.trans (and_congr_right fun _ => forall_congr' fun k => ?_)
  rw [List.mem_reverse]

/-- A reference that is held is given back. -/
theorem exists_release (h : g.Sound held) {n : NodeId} (hn : 0 < held n) :
    ∃ g', g.release n = .ok g' ∧ g'.Sound (held.minus [n]) := by
  obtain ⟨g', freed, hrun, hcounted, hreleased, hvars⟩ := h.exists_released hn
  refine ⟨g', hrun, hcounted, h.acyclic.of_imp fun c m => hreleased.isOperand_of_isOperand hcounted,
    fun v m hv => ?_⟩
  obtain ⟨hold, hkept⟩ := (hvars v m).mp hv
  obtain ⟨node, hnode, hpos, hvar⟩ := h.var_alive v m hold
  have halive : g'.arena.isAlive m = true := by
    rcases hm : g'.arena.isAlive m with _ | _
    · refine absurd ((hreleased.mem_freed m (.var v)).mpr ⟨hm, ?_, node, hnode, hvar⟩) (hkept m)
      exact Arena.isAlive_iff.mpr (Arena.refs_eq_of_node? hnode ▸ hpos)
    · rfl
  refine ⟨{ node with refs := g'.arena.refs m }, ?_, Arena.isAlive_iff.mp halive, hvar⟩
  rw [hreleased.kept m halive, hnode]
  rfl

end Graph.Sound

/-! ### Runs -/

namespace Session

variable [Scalar α] {s : Session α}

/-- **One request.** A sound session serves every request that keeps to the rules, and is sound after it. -/
theorem exists_serve (h : s.graph.Sound s.held) {r : Request α} (hr : s.Permits r) :
    ∃ s', s.serve r = .ok s' ∧ s'.graph.Sound s'.held := by
  suffices hgraph : ∃ given g', s.graph.serve r = .ok (given, g') ∧
      g'.Sound ((s.held.plus given).minus r.returned) by
    obtain ⟨given, g', hrun, hsound⟩ := hgraph
    exact ⟨⟨g', (s.held.plus given).minus r.returned⟩, by rw [serve, hrun]; rfl, hsound⟩
  cases r with
  | var v =>
    obtain ⟨n, g', hrun, hsound⟩ := h.exists_var v
    exact ⟨[n], g', by rw [Graph.serve, hrun]; rfl, hsound⟩
  | value v =>
    obtain ⟨n, g', hrun, hsound, -⟩ := h.exists_addUnchecked (.value v) [] fun c hc => by cases hc
    exact ⟨[n], g', by rw [Graph.serve, hrun]; rfl, hsound⟩
  | apply kind child unary =>
    obtain ⟨n, g', hrun, hsound, -⟩ := h.exists_addUnchecked kind [child]
      fun c hc => List.mem_singleton.mp hc ▸ hr
    exact ⟨[n], g', by rw [Graph.serve, Graph.apply, hrun]; rfl, hsound⟩
  | add kind children =>
    obtain ⟨r, hrun, hsound⟩ := h.exists_add hr kind
    rw [Graph.serve, hrun]
    cases r with
    | error e => exact ⟨[], s.graph, rfl, h⟩
    | ok r => exact ⟨[r.1], r.2, rfl, hsound r.1 r.2 rfl⟩
  | append parent child coef =>
    obtain ⟨r, hrun, hsound⟩ := h.exists_append hr.1 hr.2 coef
    rw [Graph.serve, hrun]
    cases r with
    | error e => exact ⟨[], s.graph, rfl, h⟩
    | ok g' => exact ⟨[], g', rfl, hsound g' rfl⟩
  | capture n =>
    obtain ⟨g', hrun, hsound⟩ := h.exists_capture hr
    exact ⟨[n], g', by rw [Graph.serve, hrun]; rfl, hsound⟩
  | release n =>
    obtain ⟨g', hrun, hsound⟩ := h.exists_release hr
    exact ⟨[], g', by rw [Graph.serve, hrun]; rfl, hsound⟩

/-- **Runs of requests.** -/
theorem exists_serveAll (h : s.graph.Sound s.held) {rs : List (Request α)} (hrs : s.PermitsAll rs) :
    ∃ s', s.serveAll rs = .ok s' ∧ s'.graph.Sound s'.held :=
  Run.exists_of_progress (I := fun s : Session α => s.graph.Sound s.held) (fun h hr => exists_serve h hr) h hrs

/-- **Exact counting.** Callers who keep to the rules never meet a fault, and after any run of their
requests every count is right: the references to a node are those held and those of the nodes in use,
free entries are blank and listed once, and exactly what can be reached from a held reference is kept. -/
theorem counts_exact [BitPattern α] (settings : Settings α) (identity : Nat) {rs : List (Request α)}
    (hrs : (Session.new settings identity).PermitsAll rs) :
    ∃ s, (Session.new settings identity).serveAll rs = .ok s ∧
      (∀ n, s.graph.refs n = s.held n + s.graph.arena.uses n) ∧
      (∀ n, n < s.graph.arena.capacity → s.graph.isAlive n = false →
        s.graph.refs n = 0 ∧ s.graph.arena.operands n = [] ∧ s.graph.arena.free.count n = 1) ∧
      (∀ n ∈ s.graph.arena.free, n < s.graph.arena.capacity ∧ s.graph.isAlive n = false) ∧
      (∀ n, s.graph.isAlive n = true ↔ ∃ m, 0 < s.held m ∧ s.graph.arena.Below n m) ∧
      s.graph.nodeCount = {n | s.graph.isAlive n = true}.ncard := by
  obtain ⟨s, hrun, hsound⟩ := exists_serveAll (s := Session.new settings identity)
    (Graph.Sound.empty settings identity) hrs
  have hcounted := hsound.counted
  have hidle : ∀ n, s.graph.isAlive n = false ↔ s.graph.refs n = 0 := by
    intro n
    rw [Graph.isAlive, Arena.isAlive, decide_eq_false_iff_not, Nat.not_lt, Nat.le_zero]
    rfl
  refine ⟨s, hrun, hcounted.refs_eq, fun n hn hdead => ?_, fun n hn => ?_,
    hcounted.isAlive_iff_below_held hsound.acyclic, hcounted.count_eq⟩
  · have hzero := (hidle n).mp hdead
    refine ⟨hzero, hcounted.operands_eq n hzero, ?_⟩
    exact List.count_eq_one_of_mem hcounted.nodup ((hcounted.mem_free n).mpr ⟨hn, hzero⟩)
  · obtain ⟨hlt, hzero⟩ := (hcounted.mem_free n).mp hn
    exact ⟨hlt, (hidle n).mpr hzero⟩

/-- A run with a shared operand, a declined request, a reference taken and given back, and two nodes that
go out of use with their last user. -/
theorem counts_exact_of_shared :
    let rs : List (Request Float) :=
      [.value 1, .apply .exp 0 rfl, .add (.sum [2, 3, 4] 0) [0, 0, 1], .add (.sum [1] 0) [],
        .release 0, .release 1, .capture 2, .value 5, .release 2, .release 2]
    (Session.new default 0).PermitsAll rs ∧
      ∃ s, (Session.new default 0).serveAll rs = .ok s ∧
        ∀ n, s.graph.isAlive n = true ↔ ∃ m, 0 < s.held m ∧ s.graph.arena.Below n m := by
  intro rs
  have hrs : (Session.new default 0).PermitsAll rs := by decide +kernel
  obtain ⟨s, hrun, -, -, -, halive, -⟩ := counts_exact default 0 hrs
  exact ⟨hrs, s, hrun, halive⟩

end Session

end IntervalDag
