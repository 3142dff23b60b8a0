import IntervalDag.Proofs.Analysis.Parts

/-!
# Constants

An expression is settled at a point if it has no variable and each of its parts has a value that is a number
(`Expression.Settled`). Constant folding finds the value of exactly the settled expressions
(`Expression.exists_agree`). Hence a constant does not depend on the point at which the expression is evaluated.
`Commons.foldConstant_eq_some_iff` says so of constant folding and evaluation of a root.
-/

namespace IntervalDag

variable {α : Type} [Scalar α]

/-! ### Handlers -/

namespace Handler

variable [BitPattern α] (settings : Settings α) {kind : Kind α}

/-- Only the value of a variable depends on the point. -/
theorem eval_default_congr (hkind : ∀ v, kind ≠ .var v) (values : List α) (point point' : Point α) :
    (Handler.default settings kind.op).eval kind values point =
      (Handler.default settings kind.op).eval kind values point' := by
  cases kind with
  | var v => exact absurd rfl (hkind v)
  | _ => rfl

/-- All kinds but variables fold to their value from the constants of the operands, at whatever point. -/
theorem simplify_default {constants : List (Option α)} (htakes : kind.Takes constants.length)
    (hkind : ∀ v, kind ≠ .var v) (point : Point α) :
    (Handler.default settings kind.op).simplify kind constants =
      match allValues constants with
      | none => .ok none
      | some values => (Handler.default settings kind.op).eval kind values point := by
  have hfold : (Handler.default settings kind.op).simplify kind constants =
      foldByEval (Handler.default settings kind.op).eval kind constants := by
    cases kind with
    | var v => exact absurd rfl (hkind v)
    | value v =>
      obtain rfl := List.eq_nil_of_length_eq_zero (htakes.arity_eq 0 rfl).symm
      rfl
    | _ => rfl
  rw [hfold, foldByEval]
  cases allValues constants with
  | none => rfl
  | some values => exact eval_default_congr settings hkind values _ point

end Handler

/-! ### Settled expressions -/

namespace Expression

variable {handlers : Kind α → Handler α} {settings : Settings α} {point : Point α}

/-- No part is a variable, and each has a value at the point that is a number. -/
def Settled (handlers : Kind α → Handler α) (point : Point α) (e : Expression α) : Prop :=
  ∀ kind activity es, Part (.node kind activity es) e → (∀ v, kind ≠ .var v) ∧
    ∃ u, (node kind activity es).value handlers point = .ok (some u) ∧ Scalar.isNaN u = false

theorem settled_node_iff {kind : Kind α} {activity : Interval α} {es : List (Expression α)} :
    Settled handlers point (.node kind activity es) ↔ (∀ v, kind ≠ .var v) ∧
      (∃ u, (node kind activity es).value handlers point = .ok (some u) ∧ Scalar.isNaN u = false) ∧
      ∀ e ∈ es, Settled handlers point e := by
  constructor
  · intro h
    obtain ⟨hkind, hvalue⟩ := h kind activity es .refl
    exact ⟨hkind, hvalue, fun e he k a ds hpart => h k a ds (.operand he hpart)⟩
  · rintro ⟨hkind, hvalue, hes⟩ k a ds hpart
    cases hpart with
    | refl => exact ⟨hkind, hvalue⟩
    | operand hd hpart => exact hes _ hd k a ds hpart

theorem Settled.exists_value {e : Expression α} (h : Settled handlers point e) :
    ∃ u, e.value handlers point = .ok (some u) ∧ Scalar.isNaN u = false := by
  obtain ⟨kind, activity, es⟩ := e
  exact (h kind activity es .refl).2

/-- The constant that an expression is, from those that the operands are. -/
theorem constant_node [BitPattern α] (hdefault : ∀ k, handlers k = Handler.default settings k.op) {kind : Kind α}
    {activity : Interval α} {es : List (Expression α)} {c : Expression α → Option α}
    (hc : ∀ e ∈ es, e.constant handlers = .ok (c e)) :
    (node kind activity es).constant handlers = Option.filter (fun v => !Scalar.isNaN v) <$>
      (Handler.default settings kind.op).simplify kind (es.map c) := by
  rw [constant, fold_node, ← constant, Checked.mapM_eq_ok hc, Checked.ok_bind, hdefault]

/-- The results of constant folding and of evaluation at a point, where the one is a value exactly if the expression is
settled and the other is that value. -/
structure Agree (handlers : Kind α → Handler α) (point : Point α) (e : Expression α) (c w : Option α) : Prop where
  constant_eq : e.constant handlers = .ok c
  value_eq : e.value handlers point = .ok w
  some_iff : ∀ v, c = some v ↔ Settled handlers point e ∧ w = some v

section

variable {kind : Kind α} {activity : Interval α} {es : List (Expression α)} {c w : Expression α → Option α}
  (hes : ∀ e ∈ es, Agree handlers point e (c e) (w e))

include hes

/-- Operands that are folded are settled, and they are folded to their values. -/
theorem settled_of_allValues {values : List α} (hvalues : Handler.allValues (es.map c) = some values) :
    (∀ e ∈ es, Settled handlers point e) ∧ es.map w = es.map c := by
  have hoperands : ∀ e ∈ es, Settled handlers point e ∧ w e = c e := fun e he => by
    obtain ⟨v, hv⟩ := exists_allValues_iff.mp ⟨values, hvalues⟩ e he
    obtain ⟨hsettled, hw⟩ := ((hes e he).some_iff v).mp hv
    exact ⟨hsettled, hw.trans hv.symm⟩
  exact ⟨fun e he => (hoperands e he).1, List.map_congr_left fun e he => (hoperands e he).2⟩

/-- A node with an operand that is not folded is not settled. -/
theorem not_settled_of_allValues (hvalues : Handler.allValues (es.map c) = none) :
    ¬ Settled handlers point (.node kind activity es) := by
  intro h
  have hall : ∃ values, Handler.allValues (es.map c) = some values := exists_allValues_iff.mpr fun e he => by
    have hsettled := (settled_node_iff.mp h).2.2 e he
    obtain ⟨v, hv, -⟩ := hsettled.exists_value
    exact ⟨v, ((hes e he).some_iff v).mpr ⟨hsettled, Except.ok.inj ((hes e he).value_eq.symm.trans hv)⟩⟩
  rw [hvalues] at hall
  obtain ⟨values, hall⟩ := hall
  cases hall

variable [BitPattern α] (hdefault : ∀ k, handlers k = Handler.default settings k.op)

include hdefault

/-- If folding and evaluation agree on the operands, they agree on the node. -/
theorem exists_agree_node (hproper : (node kind activity es).Proper) :
    ∃ c' w', Agree handlers point (.node kind activity es) c' w' := by
  obtain ⟨u, hu⟩ := exists_value hdefault hproper point
  have htakes := hproper kind activity es .refl
  have hconstant : (node kind activity es).constant handlers = _ := constant_node hdefault fun e he =>
    (hes e he).constant_eq
  by_cases hkind : ∃ v, kind = .var v
  · obtain ⟨v, rfl⟩ := hkind
    exact ⟨none, u, hconstant, hu, fun v' => iff_of_false nofun fun h => (settled_node_iff.mp h.1).1 v rfl⟩
  rw [not_exists] at hkind
  rw [Handler.simplify_default settings (by rwa [List.length_map]) hkind point] at hconstant
  cases hvalues : Handler.allValues (es.map c) with
  | none =>
    rw [hvalues] at hconstant
    exact ⟨none, u, hconstant, hu, fun v => iff_of_false nofun fun h => not_settled_of_allValues hes hvalues h.1⟩
  | some values =>
    obtain ⟨hsettled, hmap⟩ := settled_of_allValues hes hvalues
    -- the operands evaluate to what they are folded to, so both results come from the same values
    have hsame : (node kind activity es).value handlers point = _ := value_node hdefault fun e he =>
      (hes e he).value_eq
    rw [hmap, hvalues, hu] at hsame
    rw [hvalues] at hconstant
    refine ⟨_, u, hconstant.trans (congrArg _ hsame.symm), hu, fun v => ?_⟩
    rw [Option.filter_eq_some_iff, settled_node_iff]
    constructor
    · rintro ⟨rfl, hnumber⟩
      exact ⟨⟨hkind, ⟨v, hu, by simpa using hnumber⟩, hsettled⟩, rfl⟩
    · rintro ⟨⟨-, ⟨v', hv', hnumber⟩, -⟩, rfl⟩
      cases hu.symm.trans hv'
      exact ⟨rfl, by simpa using hnumber⟩

end

/-- **Constants are the values of settled expressions.** The default handlers meet no fault. -/
theorem exists_agree [BitPattern α] (hdefault : ∀ k, handlers k = Handler.default settings k.op) {e : Expression α}
    (hproper : e.Proper) (point : Point α) : ∃ c w, Agree handlers point e c w := by
  induction e using ind with
  | node kind activity es ih =>
    have hes : ∀ e ∈ es, ∃ c w, Agree handlers point e c w := fun e he => ih e he (hproper.operand he)
    choose! c w hes using hes
    exact exists_agree_node hes hdefault hproper

end Expression

/-! ### Roots of graphs -/

namespace Commons

variable [BitPattern α] [NumberText α] {s : Commons α} {root : NodeId}

/-- The expression at a root is settled if the nodes at and below it are. -/
theorem Exhibits.settled_unfold_iff (h : s.Exhibits root) {point : Point α} :
    (s.graph.unfold h.acyclic root).Settled s.graph.handlerFor point ↔
      (∀ n x, s.graph.arena.Below n root → s.graph.kind n ≠ .ok (.var x)) ∧
      ∀ n, s.graph.arena.Below n root →
        ∃ u, (s.graph.unfold h.acyclic n).value s.graph.handlerFor point = .ok (some u) ∧ Scalar.isNaN u = false := by
  constructor
  · intro hsettled
    have hnode : ∀ n, s.graph.arena.Below n root → _ := fun n hn =>
      hsettled (s.graph.kindAt n) (s.graph.activityAt n) ((s.graph.arena.operands n).map (s.graph.unfold h.acyclic))
        (by rw [← Graph.unfold_eq]; exact (Graph.part_unfold_iff h.acyclic).mpr ⟨n, hn, rfl⟩)
    refine ⟨fun n x hn hkind => ?_, fun n hn => ?_⟩
    · exact (hnode n hn).1 x (Except.ok.inj ((Graph.kind_eq_ok (h.isAlive n hn)).symm.trans hkind))
    · rw [Graph.unfold_eq]
      exact (hnode n hn).2
  · rintro ⟨hkinds, hvalue⟩ kind activity es hpart
    obtain ⟨n, hn, hkind, he⟩ := h.exists_kind_of_part hpart
    exact ⟨fun x hx => hkinds n x hn (hx ▸ hkind), he ▸ hvalue n hn⟩

/-- **Constant folding agrees with evaluation.** Folding a root meets no fault, and neither does evaluating it at any
point. A value is folded to exactly if no variable lies at or below the root, evaluation caches a value that is a number
on each node there, and answers with that value. What is folded to is the same for all points. -/
theorem foldConstant_eq_some_iff [LawfulBitPattern α] (h : s.Exhibits root) :
    ∃ folded, Prod.snd <$> s.graph.foldConstant root = .ok folded ∧
      ∀ point, ∃ g' value, s.graph.evaluate root point = .ok (g', value) ∧
        ∀ v, folded = some v ↔
          (∀ n x, s.graph.arena.Below n root → s.graph.kind n ≠ .ok (.var x)) ∧
          (∀ n, s.graph.arena.Below n root → ∃ u, g'.value? n = .ok (some u) ∧ Scalar.isNaN u = false) ∧
          value = some v := by
  obtain ⟨settings, hdefault⟩ := h.exists_settings
  have hfolds := Expression.exists_agree hdefault h.proper
  obtain ⟨folded, -, hfolded, -⟩ := hfolds fun _ => none
  refine ⟨folded, (h.analysable.map_foldConstant).trans hfolded, fun point => ?_⟩
  obtain ⟨c, w, hc, hw, hiff⟩ := hfolds point
  cases hfolded.symm.trans hc
  have hevaluate : Meets (s.graph.evaluate root point) () _ _ := h.analysable.meets_evaluate
  rcases hrun : s.graph.evaluate root point with e | ⟨g', value⟩
  · rw [hrun] at hevaluate
    cases hw.symm.trans hevaluate
  rw [hrun] at hevaluate
  obtain ⟨hvalue, hcached, -⟩ := hevaluate
  cases hw.symm.trans hvalue
  refine ⟨g', value, rfl, fun v => (hiff v).trans ?_⟩
  rw [h.settled_unfold_iff, and_assoc]
  refine and_congr_right fun _ => and_congr_left fun _ => forall₂_congr fun n hn => ?_
  rw [← hcached n hn]

/-- A product whose two factors are one node over a constant is folded to its value at any point. -/
theorem foldConstant_eq_some_iff_of_shared :
    let cs : List (Command Float) :=
      [.work (.request (.value 4)), .work (.request (.add (.sum [2] 1) [0])),
        .work (.request (.add (.product 3) [1, 1]))]
    ∃ s answers, (new default 0 (.ofList [])).serveAll cs = .ok (s, answers) ∧
      Prod.snd <$> s.graph.foldConstant 2 = .ok (some 243) ∧
      ∀ point, ∃ g', s.graph.evaluate 2 point = .ok (g', some 243) := by
  intro cs
  have hcs : (new default 0 (.ofList [])).OwnsAll cs := by decide +kernel
  obtain ⟨s, answers, hrun, h, hread⟩ := exists_exhibits default 0 (.ofList []) hcs (by simp [cs]) 2
    (f := fun g => (g.foldConstant 2).toOption.map Prod.snd) (b := some (some 243)) (by decide +kernel)
  obtain ⟨⟨g, folded⟩, hfold, rfl⟩ := Checked.exists_ok_of_toOption hread
  obtain ⟨folded, hfolded, hiff⟩ := foldConstant_eq_some_iff h
  rw [hfold] at hfolded
  cases hfolded
  refine ⟨s, answers, hrun, by rw [hfold]; rfl, fun point => ?_⟩
  obtain ⟨g', value, hevaluate, hvalue⟩ := hiff point
  obtain ⟨-, -, rfl⟩ := (hvalue 243).mp rfl
  exact ⟨g', hevaluate⟩

end Commons

end IntervalDag
