import IntervalDag.Proofs.Analysis.Folds
import IntervalDag.Proofs.Walk.Ownership

/-!
# Parts of expressions

Written out, an expression has the expressions at the nodes below its root as parts (`Graph.part_unfold_iff`). In every
state of a graph, whatever its callers did, each part has as many operands as its kind takes
(`Commons.Exhibits.proper`).

`Commons.Exhibits` says of a root that its expression can be written out and that the default handlers answer for it.
It holds of every node in use as long as callers give back only what they hold (`Commons.exhibits_of_ownsAll`).
-/

namespace IntervalDag

variable {α β : Type}

namespace Expression

/-- What holds of an expression if it holds of its operands holds of every expression. -/
@[elab_as_elim]
theorem ind {P : Expression α → Prop}
    (node : ∀ kind activity es, (∀ e ∈ es, P e) → P (.node kind activity es)) (e : Expression α) : P e := by
  refine Expression.rec (motive_1 := P) (motive_2 := fun es => ∀ e ∈ es, P e) node nofun ?_ e
  intro e es he hes
  exact List.forall_mem_cons.mpr ⟨he, hes⟩

/-- An expression is a part of itself, and so are the parts of its operands. -/
inductive Part (e : Expression α) : Expression α → Prop
  | refl : Part e e
  | operand {kind : Kind α} {activity : Interval α} {es : List (Expression α)} {d : Expression α} (hd : d ∈ es)
      (h : Part e d) : Part e (.node kind activity es)

/-- All parts have as many operands as their kinds take. -/
def Proper (e : Expression α) : Prop := ∀ kind activity es, Part (.node kind activity es) e → kind.Takes es.length

theorem Proper.operand {kind : Kind α} {activity : Interval α} {es : List (Expression α)}
    (h : Proper (.node kind activity es)) {e : Expression α} (he : e ∈ es) : e.Proper := fun _ _ _ hpart =>
  h _ _ _ (.operand he hpart)

/-- A fold over an expression, from those over its operands. -/
theorem fold_node {step : Kind α → List (Interval α) → List β → Checked α β} (kind : Kind α) (activity : Interval α)
    (es : List (Expression α)) :
    (node kind activity es).fold step = es.mapM (fold step) >>= step kind (es.map Expression.activity) := by
  rw [fold, foldAll_eq_mapM]

end Expression

/-! ### Values -/

/-- A kind that takes its operands has a value or is outside its domain, without a fault. -/
theorem Handler.exists_eval_default [Scalar α] [BitPattern α] (settings : Settings α) {kind : Kind α}
    {values : List α} (htakes : kind.Takes values.length) (point : Point α) :
    ∃ v, (Handler.default settings kind.op).eval kind values point = .ok v := by
  cases kind with
  | var v => exact ⟨point v, rfl⟩
  | value v => exact ⟨some v, rfl⟩
  | sum coefs constant => exact ⟨_, rfl⟩
  | product coef => exact ⟨_, rfl⟩
  | _ =>
    obtain ⟨x, rfl⟩ := List.length_eq_one_iff.mp (htakes.arity_eq 1 rfl).symm
    exact ⟨_, rfl⟩

namespace Expression

/-- Results for all operands are all there exactly if there is one for each. -/
theorem exists_allValues_iff {es : List (Expression α)} {c : Expression α → Option α} :
    (∃ values, Handler.allValues (es.map c) = some values) ↔ ∀ e ∈ es, ∃ u, c e = some u := by
  simp only [Handler.allValues_eq_some_iff]
  constructor
  · rintro ⟨values, hvalues⟩ e he
    have hmem : c e ∈ values.map some := hvalues ▸ List.mem_map_of_mem he
    obtain ⟨u, -, hu⟩ := List.mem_map.mp hmem
    exact ⟨u, hu.symm⟩
  · intro h
    induction es with
    | nil => exact ⟨[], rfl⟩
    | cons e es ih =>
      obtain ⟨⟨u, hu⟩, h⟩ := List.forall_mem_cons.mp h
      obtain ⟨values, hvalues⟩ := ih h
      exact ⟨u :: values, by rw [List.map_cons, List.map_cons, hu, hvalues]⟩

variable [Scalar α] [BitPattern α] {handlers : Kind α → Handler α} {settings : Settings α} {point : Point α}
  {kind : Kind α} {activity : Interval α} {es : List (Expression α)}
  (hdefault : ∀ k, handlers k = Handler.default settings k.op)

include hdefault

/-- The value of an expression, from those of the operands. -/
theorem value_node {w : Expression α → Option α} (hw : ∀ e ∈ es, e.value handlers point = .ok (w e)) :
    (node kind activity es).value handlers point =
      match Handler.allValues (es.map w) with
      | none => .ok none
      | some values => (Handler.default settings kind.op).eval kind values point := by
  rewrite [value, fold_node, ← value, Checked.mapM_eq_ok hw, Checked.ok_bind, hdefault]
  rfl

/-- The default handlers meet no fault at any point. -/
theorem exists_value {e : Expression α} (hproper : e.Proper) (point : Point α) :
    ∃ w, e.value handlers point = .ok w := by
  induction e using ind with
  | node kind activity es ih =>
    have hvalues : ∀ e ∈ es, ∃ w, e.value handlers point = .ok w := fun e he => ih e he (hproper.operand he)
    choose! w hw using hvalues
    rw [value_node hdefault hw]
    cases hvalues : Handler.allValues (es.map w) with
    | none => exact ⟨none, rfl⟩
    | some values =>
      rw [Handler.allValues_eq_some_iff] at hvalues
      have hlength : es.length = values.length := by simpa using congrArg List.length hvalues
      exact Handler.exists_eval_default settings (hlength ▸ hproper kind activity es .refl) point

/-- Where an expression has a value, so have its operands, and the value is made of theirs. -/
theorem exists_operand_values (hproper : (node kind activity es).Proper) {u : α}
    (hu : (node kind activity es).value handlers point = .ok (some u)) :
    ∃ f : Expression α → α, (∀ e ∈ es, e.value handlers point = .ok (some (f e))) ∧
      (Handler.default settings kind.op).eval kind (es.map f) point = .ok (some u) := by
  have hvalues : ∀ e ∈ es, ∃ w, e.value handlers point = .ok w := fun e he =>
    exists_value hdefault (hproper.operand he) point
  choose! w hw using hvalues
  rw [value_node hdefault hw] at hu
  rcases hvalues : Handler.allValues (es.map w) with _ | values
  · rw [hvalues] at hu
    cases hu
  · have : Nonempty α := ⟨u⟩
    have hsome := exists_allValues_iff.mp ⟨values, hvalues⟩
    choose! f hf using hsome
    rw [hvalues] at hu
    have hmap : (es.map f).map some = es.map w := by
      rw [List.map_map]
      exact (List.map_congr_left hf).symm
    rw [Handler.allValues_eq_some_iff, ← hmap] at hvalues
    obtain rfl := List.map_injective_iff.mpr (Option.some_injective α) hvalues
    exact ⟨f, fun e he => (hw e he).trans (congrArg _ (hf e he)), hu⟩

end Expression

namespace Graph

variable [Scalar α] {g : Graph α} {root : NodeId}

/-- The expression at a node whose kind and operands are known. -/
theorem unfold_of_kindAt (h : g.arena.Acyclic) {n : NodeId} {kind : Kind α} {cs : List NodeId}
    (hkind : g.kindAt n = kind) (hcs : g.arena.operands n = cs) :
    g.unfold h n = .node kind (g.activityAt n) (cs.map (g.unfold h)) := by
  rw [unfold_eq, hkind, hcs]

/-- The parts of an expression are those at the nodes below. -/
theorem part_unfold_iff (h : g.arena.Acyclic) {e : Expression α} :
    e.Part (g.unfold h root) ↔ ∃ n, g.arena.Below n root ∧ e = g.unfold h n := by
  constructor
  · intro hpart
    generalize hroot : g.unfold h root = d at hpart
    induction hpart generalizing root with
    | refl => exact ⟨root, .refl _ root, hroot.symm⟩
    | operand hd _ ih =>
      rw [unfold_eq] at hroot
      cases hroot
      obtain ⟨c, hc, rfl⟩ := List.mem_map.mp hd
      obtain ⟨n, hn, he⟩ := ih rfl
      exact ⟨n, hn.trans (Arena.IsOperand.below hc), he⟩
  · rintro ⟨n, hn, rfl⟩
    induction hn with
    | refl => exact .refl
    | @tail m c _ hc ih =>
      rw [g.unfold_eq h c]
      exact .operand (List.mem_map_of_mem hc) ih

/-- If nodes have as many operands as their kinds take, so have the parts of expressions. -/
theorem proper_unfold (h : g.arena.Acyclic) (hfitting : g.arena.Fitting) : (g.unfold h root).Proper := by
  intro kind activity es hpart
  obtain ⟨n, -, he⟩ := (part_unfold_iff h).mp hpart
  rw [unfold_eq] at he
  cases he
  rw [List.length_map, kindAt, Arena.operands]
  rcases hnode : g.arena.node? n with _ | node
  · exact (Kind.takes_iff_of_arity rfl).mpr rfl
  · exact hfitting n node hnode

/-- No request replaces a handler. -/
theorem operators_stable :
    Stable fun g g' : Graph α => g.Intact → g'.operators = g.operators where
  refl _ _ := rfl
  capture hrun _ := by rw [(Graph.eq_of_capture hrun).2]
  addUnchecked hrun _ := by
    obtain ⟨a, -, rfl⟩ := Graph.eq_of_addUnchecked hrun
    rfl
  append hrun h := by
    obtain ⟨-, -, -, happ⟩ := h.exists_appended hrun
    rw [happ.rest_eq]
  release hrun _ := by
    obtain ⟨a, freed, varNodes, -, rfl⟩ := Graph.eq_of_release hrun
    rfl
  varNodes _ himp h := himp h

end Graph

/-! ### States of a graph -/

namespace Commons

variable [Scalar α] [BitPattern α] [NumberText α] {s s' : Commons α} {root : NodeId}

/-- A state that a new commons and its callers can come to, with a root whose expression can be written out. The
handlers are those from the start, and a slot is left for the walk of an analysis. -/
structure Exhibits (s : Commons α) (root : NodeId) : Prop where
  reached : ∃ settings identity store cs answers, (new settings identity store).serveAll cs = .ok (s, answers)
  acyclic : s.graph.arena.Acyclic
  isAlive : ∀ n, s.graph.arena.Below n root → s.graph.isAlive n = true
  default : ∃ settings, s.graph.operators.handler = Handler.default settings
  active : s.graph.walks.activeCount ≤ 4

/-- Whatever callers do, nodes have as many operands as their kinds take. -/
theorem fitting_of_serve (h : s.Orderly) (hfitting : s.graph.arena.Fitting) {c : Command α}
    {answers : List (Nat × Walk.Answer)} (hrun : s.serve c = .ok (s', answers)) : s'.graph.arena.Fitting := by
  rcases serve_cases h hrun with ⟨r, -, hserve⟩ | ⟨op, handler, -, hgraph, -⟩ | ⟨hadvanced, -⟩
  · obtain ⟨⟨given, g⟩, hgraph, heq⟩ := Checked.bind_eq_ok.mp hserve
    have hg : g = s'.graph := congrArg Session.graph (Except.ok.inj heq)
    rw [← hg]
    exact (Graph.responds_of_serve hgraph).fitting h.ordered.intact hfitting
  · rw [hgraph]
    exact hfitting
  · exact hfitting.of_sameTerms hadvanced.terms

theorem fitting_of_serveAll (h : s.Orderly) (hfitting : s.graph.arena.Fitting) {cs : List (Command α)}
    {answers : List (Nat × Walk.Answer)} (hrun : s.serveAll cs = .ok (s', answers)) : s'.graph.arena.Fitting := by
  refine (Run.invariant_collect (I := fun s => s.Orderly ∧ s.graph.arena.Fitting) ?_ ⟨h, hfitting⟩ (.of_true s cs)
    hrun).2
  exact fun h _ hserve => ⟨orderly_of_serve h.1 hserve, fitting_of_serve h.1 h.2 hserve⟩

theorem handler_eq_of_serve (h : s.Orderly) {c : Command α} {answers : List (Nat × Walk.Answer)}
    (hc : ∀ op handler, c ≠ .work (.register op handler)) (hrun : s.serve c = .ok (s', answers)) :
    s'.graph.operators.handler = s.graph.operators.handler := by
  rcases serve_cases h hrun with ⟨r, -, hrequest⟩ | ⟨op, handler, rfl, -⟩ | ⟨hadvanced, -⟩
  · obtain ⟨⟨given, g⟩, hgraph, heq⟩ := Checked.bind_eq_ok.mp hrequest
    have hg : g = s'.graph := congrArg Session.graph (Except.ok.inj heq)
    rw [← hg, Graph.operators_stable.serve hgraph h.ordered.intact]
    rfl
  · exact absurd rfl (hc op handler)
  · exact hadvanced.terms.handler_eq

/-- Handlers stay the same as long as none is replaced. -/
theorem handler_eq_of_serveAll (h : s.Orderly) {cs : List (Command α)} {answers : List (Nat × Walk.Answer)}
    (hcs : ∀ op handler, .work (.register op handler) ∉ cs) (hrun : s.serveAll cs = .ok (s', answers)) :
    s'.graph.operators.handler = s.graph.operators.handler := by
  have hkept : Run.Keeps (Run.state serve) (fun _ c => ∀ op handler, c ≠ .work (.register op handler)) s cs :=
    .of_forall fun c hc op handler heq => hcs op handler (heq ▸ hc)
  refine (Run.invariant_collect (I := fun s' => s'.Orderly ∧ s'.graph.operators.handler = s.graph.operators.handler) ?_
    ⟨h, rfl⟩ hkept hrun).2
  exact fun h hc hserve => ⟨orderly_of_serve h.1 hserve, (handler_eq_of_serve h.1 hc hserve).trans h.2⟩

/-- Callers who give back only what they hold and replace no handler have nothing else to mind. -/
theorem exhibits_of_ownsAll (settings : Settings α) (identity : Nat) (store : BoundTable α) {cs : List (Command α)}
    {answers : List (Nat × Walk.Answer)} (hcs : (new settings identity store).OwnsAll cs)
    (hkept : ∀ op handler, .work (.register op handler) ∉ cs)
    (hrun : (new settings identity store).serveAll cs = .ok (s, answers)) (hroot : s.graph.isAlive root = true)
    (hactive : s.graph.walks.activeCount ≤ 4) : s.Exhibits root := by
  have horderly := orderly_new settings identity store
  have hwf := wellFormed_of_serveAll horderly (.empty settings identity) hcs hrun
  exact ⟨⟨settings, identity, store, cs, answers, hrun⟩, hwf.acyclic,
    fun n hn => hwf.counted.isAlive_of_below hn hroot, ⟨settings, handler_eq_of_serveAll horderly hkept hrun⟩, hactive⟩

/-- What a run shows of a node in use, and of the graph around it. -/
theorem exists_exhibits (settings : Settings α) (identity : Nat) (store : BoundTable α) {cs : List (Command α)}
    (hcs : (new settings identity store).OwnsAll cs) (hkept : ∀ op handler, .work (.register op handler) ∉ cs)
    (root : NodeId) {f : Graph α → β} {b : β}
    (hread : ((new settings identity store).serveAll cs).toOption.map (fun r =>
      ((r.1.graph.isAlive root, decide (r.1.graph.walks.activeCount ≤ 4)), f r.1.graph)) = some ((true, true), b)) :
    ∃ s answers, (new settings identity store).serveAll cs = .ok (s, answers) ∧ s.Exhibits root ∧ f s.graph = b := by
  obtain ⟨⟨s, answers⟩, hrun, hread⟩ := Checked.exists_ok_of_toOption hread
  obtain ⟨hshows, hf⟩ := Prod.mk.inj hread
  obtain ⟨hroot, hactive⟩ := Prod.mk.inj hshows
  exact ⟨s, answers, hrun,
    exhibits_of_ownsAll settings identity store hcs hkept hrun hroot (of_decide_eq_true hactive), hf⟩

namespace Exhibits

variable (h : s.Exhibits root)

include h

theorem orderly : s.Orderly := by
  obtain ⟨settings, identity, store, cs, answers, hrun⟩ := h.reached
  exact orderly_of_serveAll (orderly_new settings identity store) hrun

theorem analysable : s.graph.Analysable root :=
  ⟨h.orderly.ordered.tagsGiven, h.acyclic, h.orderly.ordered.intact.operandsInside,
    SlotPool.lowestFree?_ne_none_of_lt (Nat.lt_succ_of_le h.active), h.isAlive⟩

/-- What lies below can be written out, too. -/
theorem of_below {n : NodeId} (hn : s.graph.arena.Below n root) : s.Exhibits n :=
  ⟨h.reached, h.acyclic, fun m hm => h.isAlive m (hm.trans hn), h.default, h.active⟩

theorem exists_settings : ∃ settings, ∀ k, s.graph.handlerFor k = Handler.default settings k.op := by
  obtain ⟨settings, hdefault⟩ := h.default
  exact ⟨settings, fun k => congrFun hdefault k.op⟩

/-- A part of the expression comes from a node of that kind. -/
theorem exists_kind_of_part {kind : Kind α} {activity : Interval α} {es : List (Expression α)}
    (hpart : Expression.Part (.node kind activity es) (s.graph.unfold h.acyclic root)) :
    ∃ n, s.graph.arena.Below n root ∧ s.graph.kind n = .ok kind ∧
      s.graph.unfold h.acyclic n = .node kind activity es := by
  obtain ⟨n, hn, he⟩ := (Graph.part_unfold_iff h.acyclic).mp hpart
  refine ⟨n, hn, ?_, he.symm⟩
  rw [Graph.unfold_eq] at he
  cases he
  exact Graph.kind_eq_ok (h.isAlive n hn)

theorem proper : (s.graph.unfold h.acyclic root).Proper := by
  obtain ⟨settings, identity, store, cs, answers, hrun⟩ := h.reached
  exact Graph.proper_unfold h.acyclic (fitting_of_serveAll (orderly_new settings identity store) nofun hrun)

end Exhibits

end Commons

end IntervalDag
