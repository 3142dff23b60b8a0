import IntervalDag.Proofs.Graph.Caches
import IntervalDag.Proofs.Graph.Requests

/-!
# Well-formed graphs

What a graph says twice says the same. Each node has as many operands as its kind takes, so a sum has one coefficient
per operand. The register of variables has exactly the nodes in use that stand for variables. Requests, analyses,
propagation and walks all keep to that (`Graph.WellFormed`), as long as callers give back only what they hold.

`Graph.Responds.shared_or_hasFresh` says what builders hand out: the node that a variable already has, or an entry that
was not in use and of which nothing is cached.
-/

namespace IntervalDag

variable {α : Type}

/-- The kind of each entry and its number of operands meet a condition. -/
def Arena.ForallTerms (P : Kind α → Nat → Prop) (a : Arena α) : Prop :=
  ∀ n node, a.node? n = some node → P node.kind node.children.length

/-- Each entry has as many operands as its kind takes. -/
def Arena.Fitting (a : Arena α) : Prop :=
  ∀ n node, a.node? n = some node → node.kind.Takes node.children.length

/-- The nodes in use that stand for variables are registered. -/
def Graph.Registered (g : Graph α) : Prop :=
  ∀ v n node, g.arena.node? n = some node → 0 < node.refs → node.kind = .var v → g.varNode? v = some n

/-- A graph whose counts are right and whose parts agree. -/
structure Graph.WellFormed (g : Graph α) (held : Holding) : Prop extends Graph.Sound g held where
  fitting : g.arena.Fitting
  registered : g.Registered
  roundEpoch_pos : 0 < g.roundEpoch

/-! ### Kinds and numbers of operands -/

namespace Arena.ForallTerms

variable {P : Kind α → Nat → Prop} {a a' : Arena α}

/-- Entries that only got other counts still meet the condition. -/
theorem of_entries (h : a.ForallTerms P)
    (hentry : ∀ m node', a'.node? m = some node' → P node'.kind node'.children.length ∨
      ∃ node refs, a.node? m = some node ∧ node' = { node with refs }) : a'.ForallTerms P := by
  intro m node' hm
  rcases hentry m node' hm with hnew | ⟨node, refs, hnode, rfl⟩
  · exact hnew
  · exact h m node hnode

/-- Two graphs with the same terms meet it alike. -/
theorem of_sameTerms {g g' : Graph α} (h : g.arena.ForallTerms P) (hsame : g.SameTerms g') :
    g'.arena.ForallTerms P := by
  intro n node hn
  obtain ⟨node₁, hnode₁, hkind, hchildren, -⟩ := hsame.symm.exists_node? hn
  rw [← hkind, ← hchildren]
  exact h n node₁ hnode₁

theorem modify_refs (h : a.ForallTerms P) (n : NodeId) (f : Nat → Nat) :
    (a.modify n fun node => { node with refs := f node.refs }).ForallTerms P := by
  refine h.of_entries fun m node' hm => Or.inr ?_
  rw [node?_modify] at hm
  split_ifs at hm
  · obtain ⟨node, hnode, rfl⟩ := Option.map_eq_some_iff.mp hm
    exact ⟨node, _, hnode, rfl⟩
  · exact ⟨node', node'.refs, hm, rfl⟩

variable [Scalar α]

theorem add (h : a.ForallTerms P) {kind : Kind α} {cs : List NodeId} {n : NodeId} (hnew : P kind cs.length)
    (hrun : a.add kind cs = .ok (n, a')) : a'.ForallTerms P := by
  refine h.of_entries fun m node' hm => ?_
  rcases (add_cases hrun).2.2 m with ⟨hfresh, -⟩ | hold
  · cases hfresh.symm.trans hm
    exact Or.inl hnew
  · obtain ⟨node, hnode, rfl⟩ := Option.map_eq_some_iff.mp (hold.symm.trans hm)
    exact Or.inr ⟨node, _, hnode, rfl⟩

/-- Free entries hold a constant. -/
theorem releaseAll (h : a.ForallTerms P) (hfree : P (.value 0) 0) {freed freed' : List (NodeId × Kind α)}
    {pending : List NodeId} (hrun : a.releaseAll freed pending = .ok (a', freed')) : a'.ForallTerms P := by
  refine h.of_entries fun m node' hm => ?_
  rcases node?_of_releaseAll hrun hm with rfl | ⟨node, refs, hnode, rfl, -⟩
  · exact Or.inl hfree
  · exact Or.inr ⟨node, refs, hnode, rfl⟩

/-- A sum gets a coefficient with its operand. -/
theorem appended {g g' : Graph α} {parent child : NodeId} {coef : α} (h : g.arena.ForallTerms P)
    (hextended : ∀ kind count, kind.isAssociative = true → P kind count → P (kind.extended coef) (count + 1))
    (happ : g.Appended g' parent child coef) : g'.arena.ForallTerms P := by
  intro m node' hm
  by_cases hp : m = parent
  · rw [hp, happ.parent_eq] at hm
    obtain ⟨node, hnode, rfl⟩ := Option.map_eq_some_iff.mp hm
    have hassociative : node.kind.isAssociative = true := by
      rcases happ.kind_eq node hnode with ⟨coefs, constant, hkind, -⟩ | ⟨factor, hkind, -⟩
      · rw [hkind]
        rfl
      · rw [hkind]
        rfl
    rw [List.length_append]
    exact hextended _ _ hassociative (h parent node hnode)
  by_cases hc : m = child
  · rw [hc, happ.child_eq] at hm
    obtain ⟨node, hnode, rfl⟩ := Option.map_eq_some_iff.mp hm
    exact h child node hnode
  · rw [happ.other_eq m hp hc] at hm
    exact h m node' hm

end Arena.ForallTerms

theorem Arena.Fitting.of_sameTerms {g g' : Graph α} (h : g.arena.Fitting) (hsame : g.SameTerms g') :
    g'.arena.Fitting := ForallTerms.of_sameTerms h hsame

namespace Graph

variable [Scalar α] {g g' : Graph α} {held : Holding} {r : Request α} {given : List NodeId}

/-- Requests replace no handlers. -/
theorem Responds.operators_eq (h : g.Responds r given g') (hintact : g.Intact) : g'.operators = g.operators := by
  have hcapture : ∀ {n g'}, g.capture n = .ok g' → g'.operators = g.operators := fun hrun => by
    rw [(eq_of_capture hrun).2]
  have hadd : ∀ {kind cs n g₁}, g.addUnchecked kind cs = .ok (n, g₁) → g₁.operators = g.operators := by
    intro kind cs n g₁ hrun
    obtain ⟨a, -, rfl⟩ := eq_of_addUnchecked hrun
    rfl
  cases h with
  | shared _ _ hrun | captured _ hrun => exact hcapture hrun
  | named _ _ hrun => exact (hadd hrun :)
  | made _ _ _ hrun => exact hadd hrun
  | appended _ hrun => rw [(hintact.exists_appended hrun).2.2.2.rest_eq]
  | released _ hrun =>
    obtain ⟨a, freed, varNodes, -, rfl⟩ := eq_of_release hrun
    rfl
  | declined | refused => rfl

/-- **Requests keep a condition on terms** that the kinds asked for meet and that outlives appending. -/
theorem Responds.forallTerms {P : Kind α → Nat → Prop} (h : g.Responds r given g') (hintact : g.Intact)
    (hold : g.arena.ForallTerms P) (hfree : P (.value 0) 0)
    (hasked : ∀ kind cs, r.asks? = some (kind, cs) → kind.Takes cs.length → P kind cs.length)
    (hextended : ∀ parent child coef, r = .append parent child coef → ∀ kind count, kind.isAssociative = true →
      P kind count → P (kind.extended coef) (count + 1)) : g'.arena.ForallTerms P := by
  have hcapture : ∀ {n g'}, g.capture n = .ok g' → g'.arena.ForallTerms P := by
    intro n g' hrun
    rw [(eq_of_capture hrun).2]
    exact hold.modify_refs n _
  have hadd : ∀ {kind cs n g₁}, g.addUnchecked kind cs = .ok (n, g₁) → P kind cs.length →
      g₁.arena.ForallTerms P := by
    intro kind cs n g₁ hrun hnew
    obtain ⟨a, hadd, rfl⟩ := eq_of_addUnchecked hrun
    exact hold.add hnew hadd
  cases h with
  | shared _ _ hrun | captured _ hrun => exact hcapture hrun
  | named hr _ hrun => exact (hadd hrun :) (hasked _ _ hr ((Kind.takes_iff_of_arity rfl).mpr rfl))
  | made hr _ htakes hrun => exact hadd hrun (hasked _ _ hr htakes)
  | appended hr hrun => exact hold.appended (hextended _ _ _ hr) (hintact.exists_appended hrun).2.2.2
  | released _ hrun =>
    obtain ⟨a, freed, varNodes, hrelease, rfl⟩ := eq_of_release hrun
    exact hold.releaseAll hfree hrelease
  | declined | refused => exact hold

/-- **Operands fit.** That does not depend on what callers hold. -/
theorem Responds.fitting (h : g.Responds r given g') (hintact : g.Intact) (hfitting : g.arena.Fitting) :
    g'.arena.Fitting :=
  h.forallTerms hintact hfitting ((Kind.takes_iff_of_arity rfl).mpr rfl) (fun _ _ _ htakes => htakes)
    fun _ _ coef _ _ _ hassociative htakes => htakes.extended hassociative coef

/-! ### The register of variables -/

/-- A node is made in an entry that was not in use, and nothing else changes but counts. -/
theorem Sound.addUnchecked_eq (h : g.Sound held) {kind : Kind α} {cs : List NodeId} {n : NodeId}
    (hrun : g.addUnchecked kind cs = .ok (n, g')) :
    g.isAlive n = false ∧ g'.arena.node? n = some (Node.fresh kind cs 1) ∧
      (∀ m, m ≠ n → g'.arena.node? m = (g.arena.node? m).map fun node =>
        { node with refs := node.refs + cs.count m }) ∧
      g' = { g with arena := g'.arena } := by
  obtain ⟨k, a, hadd, -, hidle, hnew, hother⟩ := h.counted.add (isAlive_of_addUnchecked hrun) kind
  obtain ⟨a', hadd', rfl⟩ := eq_of_addUnchecked hrun
  cases hadd.symm.trans hadd'
  exact ⟨hidle, hnew, hother, rfl⟩

omit [Scalar α] in
theorem Registered.of_kept (h : g.Registered)
    (hkept : ∀ v n node', g'.arena.node? n = some node' → 0 < node'.refs → node'.kind = .var v →
      g'.varNode? v = some n ∨
      g'.varNode? v = g.varNode? v ∧ ∃ node, g.arena.node? n = some node ∧ 0 < node.refs ∧ node.kind = .var v) :
    g'.Registered := by
  intro v n node' hn hpos hkind
  rcases hkept v n node' hn hpos hkind with hv | ⟨heq, node, hnode, hpos, hkind⟩
  · exact hv
  · rw [heq]
    exact h v n node hnode hpos hkind

omit [Scalar α] in
/-- New references to nodes in use register nothing. -/
theorem Registered.capture (h : g.Registered) {n : NodeId} (hrun : g.capture n = .ok g') : g'.Registered := by
  obtain ⟨halive, rfl⟩ := eq_of_capture hrun
  refine h.of_kept fun v m node' hm hpos hkind => Or.inr ⟨rfl, ?_⟩
  rw [Arena.node?_modify] at hm
  split_ifs at hm with hmn
  · obtain ⟨node, hnode, rfl⟩ := Option.map_eq_some_iff.mp hm
    rw [← hmn] at halive
    exact ⟨node, hnode, Arena.refs_eq_of_node? hnode ▸ Arena.isAlive_iff.mp halive, hkind⟩
  · exact ⟨node', hm, hpos, hkind⟩

/-- A new node leaves the others registered. -/
theorem Registered.addUnchecked (h : g.Registered) (hsound : g.Sound held) {kind : Kind α} {cs : List NodeId}
    {n : NodeId} (hrun : g.addUnchecked kind cs = .ok (n, g')) {v : VarId} {m : NodeId} {node' : Node α}
    (hmn : m ≠ n) (hm : g'.arena.node? m = some node') (hpos : 0 < node'.refs) (hkind : node'.kind = .var v) :
    g.varNode? v = some m := by
  obtain ⟨-, -, hother, -⟩ := hsound.addUnchecked_eq hrun
  obtain ⟨node, hnode, rfl⟩ := Option.map_eq_some_iff.mp ((hother m hmn).symm.trans hm)
  refine h v m node hnode ?_ hkind
  -- a count that went up was positive before
  by_cases hmem : m ∈ cs
  · exact Arena.refs_eq_of_node? hnode ▸ Arena.isAlive_iff.mp (isAlive_of_addUnchecked hrun m hmem)
  · rwa [List.count_eq_zero.mpr hmem, Nat.add_zero] at hpos

/-- A node that goes out of use is struck off, and the node of another variable is not. -/
theorem Registered.release (h : g.Registered) (hsound : g.Sound held) {n : NodeId} (hn : 0 < held n)
    (hrun : g.release n = .ok g') : g'.Registered := by
  obtain ⟨g₁, freed, hrun₁, -, hreleased, hvars⟩ := hsound.exists_released hn
  cases hrun.symm.trans hrun₁
  intro v m node' hm hpos hkind
  have halive : g'.arena.isAlive m = true := Arena.isAlive_iff.mpr (Arena.refs_eq_of_node? hm ▸ hpos)
  obtain ⟨node, hnode, rfl⟩ := Option.map_eq_some_iff.mp ((hreleased.kept m halive).symm.trans hm)
  have hbefore : ∀ {k node}, g.arena.isAlive k = true → g.arena.node? k = some node → node.kind = .var v →
      g.varNode? v = some k := fun hk hnode hkind =>
    h v _ _ hnode (Arena.refs_eq_of_node? hnode ▸ Arena.isAlive_iff.mp hk) hkind
  have hm := hbefore (hreleased.isAlive_of_isAlive halive) hnode hkind
  refine (hvars v m).mpr ⟨hm, fun k hk => ?_⟩
  -- a freed node of this variable would be this one, which is in use
  obtain ⟨hdead, hk, old, hold, hkind'⟩ := (hreleased.mem_freed k (.var v)).mp hk
  cases (hbefore hk hold hkind').symm.trans hm
  rw [halive] at hdead
  cases hdead

/-- An operand is appended to a sum or product, which is no variable. -/
theorem Registered.appended (h : g.Registered) {parent child : NodeId} {coef : α} (hc : g.isAlive child = true)
    (happ : g.Appended g' parent child coef) : g'.Registered := by
  refine h.of_kept fun v m node' hm hpos hkind => Or.inr ⟨by rw [happ.rest_eq]; rfl, ?_⟩
  by_cases hmp : m = parent
  · rw [hmp, happ.parent_eq] at hm
    obtain ⟨node, hnode, rfl⟩ := Option.map_eq_some_iff.mp hm
    rcases happ.kind_eq node hnode with ⟨coefs, constant, -, hext⟩ | ⟨factor, -, hext⟩
    · cases hext.symm.trans hkind
    · cases hext.symm.trans hkind
  by_cases hmc : m = child
  · rw [hmc, happ.child_eq] at hm
    obtain ⟨node, hnode, rfl⟩ := Option.map_eq_some_iff.mp hm
    refine ⟨node, hmc ▸ hnode, ?_, hkind⟩
    exact Arena.refs_eq_of_node? hnode ▸ Arena.isAlive_iff.mp hc
  · rw [happ.other_eq m hmp hmc] at hm
    exact ⟨node', hm, hpos, hkind⟩

/-- **The register follows every request.** -/
theorem Responds.registered (h : g.Responds r given g') (hintact : g.Intact) (hsound : g.Sound held)
    (hreturned : ∀ n ∈ r.returned, 0 < held n) (hregistered : g.Registered) : g'.Registered := by
  cases h with
  | shared _ _ hrun | captured _ hrun => exact hregistered.capture hrun
  | @named v n g₁ hr hv hrun =>
    obtain ⟨-, hnew, -, hrest⟩ := hsound.addUnchecked_eq hrun
    intro w m node' hm hpos hkind
    rw [varNode?, Std.HashMap.getElem?_insert]
    by_cases hmn : m = n
    · cases hnew.symm.trans (hmn ▸ hm)
      cases hkind
      rw [if_pos (beq_self_eq_true _), hmn]
    · have hw := hregistered.addUnchecked hsound hrun hmn hm hpos hkind
      rw [if_neg, hrest]
      · exact hw
      · intro hvw
        rw [← eq_of_beq hvw, hv] at hw
        cases hw
  | @made kind cs n g₁ hr hkind htakes hrun =>
    obtain ⟨-, hnew, -, hrest⟩ := hsound.addUnchecked_eq hrun
    intro w m node' hm hpos hvar
    by_cases hmn : m = n
    · cases hnew.symm.trans (hmn ▸ hm)
      exact absurd hvar (hkind w)
    · rw [hrest]
      exact hregistered.addUnchecked hsound hrun hmn hm hpos hvar
  | appended _ hrun =>
    obtain ⟨-, -, hc, happ⟩ := hintact.exists_appended hrun
    exact hregistered.appended hc happ
  | released hr hrun =>
    cases hr
    exact hregistered.release hsound (hreturned _ (List.mem_singleton_self _)) hrun
  | declined | refused => exact hregistered

/-! ### Well-formed graphs -/

omit [Scalar α] in
/-- The node that is read is the entry. -/
theorem node?_of_node {n : NodeId} {node : Node α} (h : g.node n = .ok node) : g.arena.node? n = some node := by
  rw [Graph.node, isAlive, if_pos (isAlive_of_node h)] at h
  exact Arena.get_eq_ok_iff.mp h

namespace WellFormed

theorem empty [BitPattern α] (settings : Settings α) (identity : Nat) :
    (Graph.empty settings identity).WellFormed fun _ => 0 where
  toSound := .empty settings identity
  fitting n node hn := by cases hn
  registered v n node hn := by cases hn
  roundEpoch_pos := Nat.two_pos

omit [Scalar α] in
/-- Propagation, analyses and walks leave terms as they are. -/
theorem of_advanced (h : g.WellFormed held) (hadvanced : g.Advanced g') : g'.WellFormed held where
  toSound := h.toSound.of_sameTerms hadvanced.terms
  fitting := h.fitting.of_sameTerms hadvanced.terms
  registered v n node hn hpos hkind := by
    obtain ⟨node₁, hnode₁, hkind₁, -, hrefs⟩ := hadvanced.terms.symm.exists_node? hn
    rw [varNode?, hadvanced.terms.varNodes_eq]
    exact h.registered v n node₁ hnode₁ (hrefs ▸ hpos) (hkind₁.trans hkind)
  roundEpoch_pos := Nat.lt_of_lt_of_le h.roundEpoch_pos hadvanced.roundEpoch_le

omit [Scalar α] in
/-- A variable has the one node in use that stands for it. -/
theorem varNode?_eq_some_iff (h : g.WellFormed held) {v : VarId} {n : NodeId} :
    g.varNode? v = some n ↔ g.kind n = .ok (.var v) := by
  constructor
  · intro hv
    obtain ⟨node, hnode, hpos, hkind⟩ := h.var_alive v n hv
    have hnode := node_of_isAlive (Arena.isAlive_iff.mpr (Arena.refs_eq_of_node? hnode ▸ hpos)) hnode
    exact Checked.map_eq_ok.mpr ⟨node, hnode, hkind⟩
  · intro hkind
    obtain ⟨node, hnode, hkind⟩ := Checked.map_eq_ok.mp hkind
    have hpos := Arena.isAlive_iff.mp (isAlive_of_node hnode)
    have hnode := node?_of_node hnode
    exact h.registered v n node hnode (Arena.refs_eq_of_node? hnode ▸ hpos) hkind

end WellFormed

/-! ### What builders hand out -/

/-- A node in use with a kind and operands, of which nothing is cached. -/
def HasFresh (g : Graph α) (n : NodeId) (kind : Kind α) (cs : List NodeId) : Prop :=
  ∃ node, g.node n = .ok node ∧ node.kind = kind ∧ node.children = cs ∧ node.activity = .entire ∧
    node.activityTag = 0 ∧ g.propBounds? n = .ok none ∧ node.queued = false ∧ node.value = none ∧ node.slots = #[]

/-- Bounds are only read if they are of the current round, and rounds count from one. -/
theorem hasFresh_of_node? {n : NodeId} {kind : Kind α} {cs : List NodeId} (hround : 0 < g.roundEpoch)
    (hn : g.arena.node? n = some (Node.fresh kind cs 1)) : g.HasFresh n kind cs := by
  have halive : g.arena.isAlive n = true := Arena.isAlive_iff.mpr (Arena.refs_eq_of_node? hn ▸ Nat.one_pos)
  have hnode := node_of_isAlive halive hn
  refine ⟨_, hnode, rfl, rfl, rfl, rfl, ?_, rfl, rfl, rfl⟩
  rw [propBounds?, hnode]
  exact congrArg Except.ok (if_neg hround.ne)

/-- **What builders hand out.** -/
theorem Responds.shared_or_hasFresh {n : NodeId} (h : g.Responds r [n] g') (hwf : g.WellFormed held) {kind : Kind α}
    {cs : List NodeId} (hr : r.asks? = some (kind, cs)) :
    (∃ v, kind = .var v ∧ g.varNode? v = some n) ∨ g.isAlive n = false ∧ g'.HasFresh n kind cs := by
  cases h with
  | shared hr' hv _ =>
    cases hr.symm.trans hr'
    exact Or.inl ⟨_, rfl, hv⟩
  | named hr' _ hrun =>
    cases hr.symm.trans hr'
    obtain ⟨hidle, hnew, -, hrest⟩ := hwf.toSound.addUnchecked_eq hrun
    refine Or.inr ⟨hidle, hasFresh_of_node? ?_ hnew⟩
    rw [hrest]
    exact hwf.roundEpoch_pos
  | made hr' _ _ hrun =>
    cases hr.symm.trans hr'
    obtain ⟨hidle, hnew, -, hrest⟩ := hwf.toSound.addUnchecked_eq hrun
    refine Or.inr ⟨hidle, hasFresh_of_node? ?_ hnew⟩
    rw [hrest]
    exact hwf.roundEpoch_pos
  | captured hr' _ =>
    rw [hr'] at hr
    cases hr

/-- Builders hand out a node if the kind takes the operands and these are in use. -/
theorem Sound.exists_serve_of_takes (h : g.Sound held) {kind : Kind α} {cs : List NodeId}
    (hr : r.asks? = some (kind, cs)) (htakes : kind.Takes cs.length) (hcs : ∀ c ∈ cs, g.isAlive c = true) :
    ∃ n g', g.serve r = .ok ([n], g') := by
  cases r with
  | var v =>
    obtain ⟨n, g', hrun, -⟩ := h.exists_var v
    exact ⟨n, g', by rw [serve, hrun]; rfl⟩
  | value v =>
    obtain ⟨n, g', hrun, -⟩ := h.exists_addUnchecked (.value v) [] (List.forall_mem_nil _)
    exact ⟨n, g', by rw [serve, hrun]; rfl⟩
  | apply kind child unary =>
    cases hr
    obtain ⟨n, g', hrun, -⟩ := h.exists_addUnchecked kind [child] hcs
    exact ⟨n, g', by rw [serve, Graph.apply, hrun]; rfl⟩
  | add kind children =>
    cases hr
    obtain ⟨result, hrun, -⟩ := h.exists_add hcs kind
    cases result with
    | error e => exact absurd htakes (exists_add_eq_error_iff.mp ⟨e, hrun⟩)
    | ok made => exact ⟨made.1, made.2, by rw [serve, hrun]; rfl⟩
  | _ => cases hr

end Graph

/-- **One request.** -/
theorem Session.wellFormed_of_serve [Scalar α] {s s' : Session α} {r : Request α} (h : s.graph.WellFormed s.held)
    (hintact : s.graph.Intact) (howns : s.Owns r) (hserve : s.serve r = .ok s') : s'.graph.WellFormed s'.held := by
  rcases Session.permits_of_serve howns hserve with hpermits | rfl
  · obtain ⟨s₁, hserve₁, hsound⟩ := Session.exists_serve h.toSound hpermits
    cases hserve.symm.trans hserve₁
    obtain ⟨⟨given, g'⟩, hgraph, heq⟩ := Checked.bind_eq_ok.mp hserve
    cases heq
    have hresponds := Graph.responds_of_serve hgraph
    refine ⟨hsound, hresponds.fitting hintact h.fitting,
      hresponds.registered hintact h.toSound howns h.registered, ?_⟩
    have hround := (Graph.Stemmed.stable.serve hgraph hintact).roundEpoch_eq
    exact hround ▸ h.roundEpoch_pos
  · exact h

end IntervalDag
