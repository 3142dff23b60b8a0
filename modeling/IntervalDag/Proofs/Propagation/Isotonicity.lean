import IntervalDag.Proofs.Operator.Isotonicity
import IntervalDag.Proofs.Propagation.Sweeps

/-!
# Narrower variables, narrower activities

The range of an expression over narrower domains of variables is part of its range over wider ones
(`Graph.rangeAt_isotone`), as handlers are isotone and an expression is made of them. An operand that is empty makes the
range empty, so only operands with values need be compared. Forward passes leave these ranges as activities, so a
variable that is narrowed never widens one (`Workspace.interval_isotone`).
-/

namespace IntervalDag

open Scalar Exact

/-! ### Expressions -/

namespace Graph

/-- If the ranges that were looked at are not empty, or no range is, then all were looked at. -/
theorem forall_of_upToEmpty {α : Type} [Scalar α] {rs : List (Checked α (Interval α))} {xs : List (Interval α)}
    (hrun : upToEmpty rs = .ok xs)
    (h : xs.any (·.isEmpty) = false ∨ ∀ x, .ok x ∈ rs → x.isEmpty = false) :
    ∀ r ∈ rs, ∃ x, r = .ok x ∧ x.isEmpty = false := by
  induction rs generalizing xs with
  | nil => exact nofun
  | cons r rs ih =>
    rw [upToEmpty] at hrun
    obtain ⟨x, rfl, hrest⟩ := Checked.bind_eq_ok.mp hrun
    cases hx : x.isEmpty with
    | true =>
      rw [if_pos hx] at hrest
      cases hrest
      rcases h with h | h
      · rw [List.any_cons, hx, Bool.true_or] at h
        cases h
      · rw [h x List.mem_cons_self] at hx
        cases hx
    | false =>
      rw [if_neg (Bool.eq_false_iff.mp hx)] at hrest
      obtain ⟨ys, hys, hrest⟩ := Checked.bind_eq_ok.mp hrest
      cases hrest
      refine List.forall_mem_cons.mpr ⟨⟨x, rfl, hx⟩, ih hys (h.imp (fun h => ?_) fun h y hy => ?_)⟩
      · rwa [List.any_cons, hx, Bool.false_or] at h
      · exact h y (List.mem_cons_of_mem _ hy)

variable {g : Graph Exact} {settings : Settings Exact} {vars vars' : VarId → Interval Exact} {n root : NodeId}
  {x y : Interval Exact}

/-- A range with values is made of ranges with values. -/
theorem forall_operands_of_nonempty {h : g.arena.Acyclic} (hx : g.rangeAt h vars n = .ok x)
    (hnonempty : x.isEmpty = false) :
    ∀ c ∈ g.arena.operands n, ∃ x, g.rangeAt h vars c = .ok x ∧ x.isEmpty = false := by
  rw [rangeAt_eq] at hx
  obtain ⟨xs, hxs, hover⟩ := Checked.bind_eq_ok.mp hx
  have hsome : xs.any (·.isEmpty) = false := by
    rw [rangeOver] at hover
    split_ifs at hover with hany
    · cases hover
      rw [Interval.isEmpty_empty] at hnonempty
      cases hnonempty
    · exact Bool.eq_false_iff.mpr hany
  exact fun c hc => forall_of_upToEmpty hxs (Or.inl hsome) _ (List.mem_map_of_mem hc)

variable [BitPattern Exact]

/-- Over operands with values, the range of a node is that of its handler. -/
theorem exists_interval_of_rangeAt {h : g.arena.Acyclic} (hhandler : g.operators.handler = .default settings)
    {f : NodeId → Interval Exact}
    (hf : ∀ c ∈ g.arena.operands n, g.rangeAt h vars c = .ok (f c) ∧ (f c).isEmpty = false)
    (hx : g.rangeAt h vars n = .ok x) : ∃ noted, (Handler.default settings (g.kindAt n).op).interval (g.kindAt n)
      ((g.arena.operands n).map f) vars = .ok noted ∧ noted.value = x := by
  have hsome : ¬ ((g.arena.operands n).map f).any (·.isEmpty) = true := by
    rw [Bool.not_eq_true, List.any_eq_false]
    exact List.forall_mem_map.mpr fun c hc => Bool.eq_false_iff.mp (hf c hc).2
  rw [rangeAt_eq_rangeOver fun c hc => (hf c hc).1, rangeOver, if_neg hsome, handlerFor, OperatorTable.forKind,
    hhandler] at hx
  exact Checked.map_eq_ok.mp hx

/-- At each node below a root, the operands over narrower domains keep away from a pole as the wider ones do. -/
def StaysClear (g : Graph Exact) (h : g.arena.Acyclic) (settings : Settings Exact)
    (vars vars' : VarId → Interval Exact) (root : NodeId) : Prop :=
  ∀ n, g.arena.Below n root → ∀ f f' : NodeId → Interval Exact,
    (∀ c ∈ g.arena.operands n, g.rangeAt h vars c = .ok (f c) ∧ g.rangeAt h vars' c = .ok (f' c)) →
      (g.kindAt n).StaysClear settings ((g.arena.operands n).map f) ((g.arena.operands n).map f')

/-- **Ranges of expressions** over narrower domains of variables. -/
theorem rangeAt_isotone (h : g.arena.Acyclic) (hhandler : g.operators.handler = .default settings)
    (hvars : ∀ v, (vars v).isSubset (vars' v) = true)
    (hkinds : ∀ n, g.arena.Below n root → (g.kindAt n).op ∉ [.sin, .cos, .entropy])
    (hclear : g.StaysClear h settings vars vars' root) (hn : g.arena.Below n root) (hx : g.rangeAt h vars n = .ok x)
    (hy : g.rangeAt h vars' n = .ok y) : x.isSubset y = true := by
  induction n using h.induction generalizing x y with
  | _ n ih =>
  refine Interval.isSubset_of_nonempty fun hnonempty => ⟨hnonempty, ?_⟩
  -- every operand has values over the narrower domains, as the range is not empty, and so over the wider ones
  have : Nonempty (Interval Exact) := ⟨.empty⟩
  choose! f hf using forall_operands_of_nonempty hx hnonempty
  have hpart : ∀ c ∈ g.arena.operands n, ∀ y, g.rangeAt h vars' c = .ok y → (f c).IsPart y := fun c hc y hy =>
    ⟨(hf c hc).2, ih c hc (.head hc hn) (hf c hc).1 hy⟩
  have hoperands : ∀ c ∈ g.arena.operands n, ∃ y, g.rangeAt h vars' c = .ok y ∧ y.isEmpty = false := by
    obtain ⟨ys, hys, -⟩ := Checked.bind_eq_ok.mp ((rangeAt_eq n).symm.trans hy)
    refine fun c hc => forall_of_upToEmpty hys (Or.inr fun y hy => ?_) _ (List.mem_map_of_mem hc)
    obtain ⟨d, hd, hy⟩ := List.mem_map.mp hy
    exact (hpart d hd y hy).whole_nonempty
  choose! f' hf' using hoperands
  obtain ⟨noted, hrun, rfl⟩ := exists_interval_of_rangeAt hhandler hf hx
  obtain ⟨noted', hrun', rfl⟩ := exists_interval_of_rangeAt hhandler hf' hy
  have hparts : List.Forall₂ Interval.IsPart ((g.arena.operands n).map f) ((g.arena.operands n).map f') := by
    rw [List.forall₂_map_left_iff, List.forall₂_map_right_iff, List.forall₂_same]
    exact fun c hc => hpart c hc _ (hf' c hc).1
  exact Handler.isSubset_of_parts (hkinds n hn) (fun v _ => hvars v) hparts
    (hclear n hn f f' fun c hc => ⟨(hf c hc).1, (hf' c hc).1⟩) hrun hrun'

end Graph

/-! ### Forward passes -/

namespace Propagation

variable [BitPattern Exact] {settings : Settings Exact} {s : Propagation (BoundTable Exact) Exact}
  {narrower : BoundTable Exact} {root : NodeId}

/-- **A pass over narrower domains** finds narrower activities. -/
theorem forward_isotone (hacyclic : s.graph.arena.Acyclic)
    (halive : ∀ m, s.graph.arena.Below m root → s.graph.arena.isAlive m = true) (hquiet : s.Quiet root)
    (htags : s.graph.TagsGiven) (hslot : s.graph.walks.lowestFree? ≠ none)
    (hhandler : s.graph.operators.handler = .default settings)
    (hvars : ∀ v, (narrower.bounds v).isSubset (s.store.bounds v) = true)
    (hkinds : ∀ n, s.graph.arena.Below n root → (s.graph.kindAt n).op ∉ [.sin, .cos, .entropy])
    (hclear : s.graph.StaysClear hacyclic settings narrower.bounds s.store.bounds root) {f f' : Forwarded Exact}
    {p p' : Propagation (BoundTable Exact) Exact} (hf : (forward root true).run { s with store := narrower } = .ok f p)
    (hf' : (forward root true).run s = .ok f' p') :
    f.activity.isSubset f'.activity = true ∧ (f.infeasible = false → ∀ n, s.graph.arena.Below n root →
      (p.graph.activityAt n).isSubset (p'.graph.activityAt n) = true) := by
  have hmeets := meets_iff_run.mp
    (meets_forward_swept (s := { s with store := narrower }) true hacyclic halive hquiet htags hslot)
  have hmeets' := meets_iff_run.mp (meets_forward_swept (s := s) true hacyclic halive hquiet htags hslot)
  rw [hf] at hmeets
  rw [hf'] at hmeets'
  cases hfeasible : f.infeasible with
  | true =>
    rw [((if_pos hfeasible).mp hmeets).1]
    exact ⟨Interval.isSubset_empty _, nofun⟩
  | false =>
    obtain ⟨hactivity, hsweeping⟩ := (if_neg (Bool.eq_false_iff.mp hfeasible)).mp hmeets
    have hrange {n : NodeId} (hn : s.graph.arena.Below n root) {y : Interval Exact}
        (hy : s.graph.rangeAt hacyclic s.store.bounds n = .ok y) : (p.graph.activityAt n).isSubset y = true :=
      Graph.rangeAt_isotone hacyclic hhandler hvars hkinds hclear hn (hsweeping.rangeAt_eq hn) hy
    -- what is found over the wider domains is no contradiction either
    have hfeasible' : ¬ f'.infeasible = true := by
      intro hinfeasible
      obtain ⟨-, hstopped⟩ := (if_pos hinfeasible).mp hmeets'
      obtain ⟨y, hy, hempty⟩ := hstopped.range rfl
      have hpart : (p.graph.activityAt root).IsPart y := ⟨hsweeping.nonempty root (.refl _ _), hrange (.refl _ _) hy⟩
      rw [hpart.whole_nonempty] at hempty
      cases hempty
    obtain ⟨hactivity', hsweeping'⟩ := (if_neg hfeasible').mp hmeets'
    rw [hactivity, hactivity']
    exact ⟨hrange (.refl _ _) (hsweeping'.rangeAt_eq (.refl _ _)), fun _ n hn => hrange hn (hsweeping'.rangeAt_eq hn)⟩

end Propagation

/-! ### Isotonicity -/

namespace Workspace

/-- **Evaluation over intervals is isotone.** Over parts of their operands, the handlers of sums, products, magnitudes,
powers, exponentials and logarithms find parts of the ranges over the whole operands, and they find some where the
operands are regular. Before a logarithm or a power with a pole, the part has to clear the pole as the whole does. For
a logarithm, that is also needed. So where a variable is narrowed, a pass finds narrower activities. -/
theorem interval_isotone [BitPattern Exact] (settings : Settings Exact) :
    (∀ (kind : Kind Exact) (vars : VarId → Interval Exact) (xs ys : List (Interval Exact)),
      kind.op ∈ [.sum, .product, .abs, .pow, .exp, .log] → List.Forall₂ Interval.IsPart xs ys →
        (kind.StaysClear settings xs ys → ∀ n m, (Handler.default settings kind.op).interval kind xs vars = .ok n →
          (Handler.default settings kind.op).interval kind ys vars = .ok m → n.value.isSubset m.value = true) ∧
        (settings.minZeroDistance < posInf → kind.HasRealData → kind.Takes xs.length → (∀ x ∈ xs, x.IsRegular) →
          (∀ y ∈ ys, y.IsRegular) → (∃ n, (Handler.default settings kind.op).interval kind xs vars = .ok n) ∧
            ∃ m, (Handler.default settings kind.op).interval kind ys vars = .ok m)) ∧
    (∀ (vars : VarId → Interval Exact) (x y : Interval Exact), x.IsPart y →
      ∃ n m, (Handler.log settings).interval .log [x] vars = .ok n ∧
        (Handler.log settings).interval .log [y] vars = .ok m ∧
        (n.value.isSubset m.value = true ↔ settings.ClearsPole x y)) ∧
    ∀ (identity : Nat) (table : BoundTable Exact) (cs : List (Command Exact)) (w : Workspace Exact) (root : NodeId)
      (narrower : BoundTable Exact), (new settings identity table).PermitsAll cs →
      (new settings identity table).serveAll cs = .ok w → w.state.graph.operators.handler = .default settings →
      w.state.graph.isAlive root = true → w.state.Quiet root →
      (∀ v, (narrower.bounds v).isSubset (w.state.store.bounds v) = true) →
      (∀ n, w.state.graph.arena.Below n root → (w.state.graph.kindAt n).op ∉ [.sin, .cos, .entropy]) →
      (∀ h, w.state.graph.StaysClear h settings narrower.bounds w.state.store.bounds root) → ∀ f p f' p',
        (Propagation.forward root true).run { w.state with store := narrower } = .ok f p →
        (Propagation.forward root true).run w.state = .ok f' p' →
          f.activity.isSubset f'.activity = true ∧ (f.infeasible = false → ∀ n, w.state.graph.arena.Below n root →
            (p.graph.activityAt n).isSubset (p'.graph.activityAt n) = true) := by
  have hnovar {kind : Kind Exact} (hkind : kind.op ∈ [.sum, .product, .abs, .pow, .exp, .log]) (v : VarId) :
      kind ≠ .var v := by
    rintro rfl
    change Op.var ∈ _ at hkind
    exact absurd hkind (by decide)
  refine ⟨fun kind vars xs ys hkind hparts => ⟨fun hclear n m hn hm => ?_, fun hdistance hreal htakes hxs hys => ?_⟩,
    fun vars x y hpart => ⟨_, _, rfl, rfl, fun hsub => ?_, fun hclear => ?_⟩,
    fun identity table cs w root narrower hcs hrun hhandler hroot hquiet hvars hkinds hclear f p f' p' hf hf' => ?_⟩
  · have hwaves : kind.op ∉ [.sin, .cos, .entropy] := by
      revert hkind
      cases kind.op <;> decide
    exact Handler.isSubset_of_parts hwaves (fun v hv => absurd hv (hnovar hkind v)) hparts hclear hn hm
  · have hexists {zs : List (Interval Exact)} (htakes : kind.Takes zs.length) (hzs : ∀ z ∈ zs, z.IsRegular) :
        ∃ n, (Handler.default settings kind.op).interval kind zs vars = .ok n := by
      rw [Handler.interval_default_congr settings (hnovar hkind) zs vars fun _ => .entire]
      exact (Handler.exists_interval_default hdistance hreal htakes hzs fun _ => Interval.isRegular_entire).imp
        fun _ h => h.1
    exact ⟨hexists htakes hxs, hexists (hparts.length_eq ▸ htakes) hys⟩
  · exact Settings.clearsPole_of_isSubset_ln hpart hsub
  · exact Settings.isSubset_ln_raiseLower hpart hclear "log"
  · have htidy := tidy_of_serveAll (tidy_new settings identity table) hcs hrun
    exact Propagation.forward_isotone htidy.sound.acyclic (fun m hm => htidy.sound.counted.isAlive_of_below hm hroot)
      hquiet htidy.resting.tagsGiven (SlotPool.lowestFree?_ne_none htidy.resting.taken_eq) hhandler hvars hkinds
      (hclear _) hf hf'

/-- Both operands of the logarithm start below the smallest distance, and the part ends above it. -/
theorem interval_isotone_of_raised :
    let _ : BitPattern Exact := ⟨fun _ => 0, fun _ => 0⟩
    let settings : Settings Exact := ⟨real (1 / 4), real 0, 1, false⟩
    let x : Interval Exact := ⟨real 0, real 2⟩
    let y : Interval Exact := ⟨real (-1), real 3⟩
    x.IsPart y ∧ settings.ClearsPole x y ∧
      ∃ n m, (Handler.log settings).interval .log [x] (fun _ => .entire) = .ok n ∧
        (Handler.log settings).interval .log [y] (fun _ => .entire) = .ok m ∧ n.value.isSubset m.value = true := by
  intro _ settings x y
  have hpart : x.IsPart y := Interval.isPart_number (EReal.coe_le_coe_iff.mpr (by norm_num))
    (EReal.coe_le_coe_iff.mpr (by norm_num)) (EReal.coe_le_coe_iff.mpr (by norm_num))
  have hclear : settings.ClearsPole x y := by
    intro _ _ e he hpos
    change minNum (real (1 / 4)) (real 3) ≤ e
    rw [minNum_real]
    rcases he with rfl | rfl
    · exact absurd hpos (mt real_pos.mp (lt_irrefl 0))
    · exact number_le_number.mpr (EReal.coe_le_coe_iff.mpr (by norm_num))
  obtain ⟨hhandlers, -, -⟩ := interval_isotone settings
  have hstays : (Kind.log : Kind Exact).StaysClear settings [x] [y] := by
    rintro - _ _ ⟨⟩ ⟨⟩
    exact ⟨hclear, fun hpole => by cases hpole.choose_spec.1⟩
  have hsub := (hhandlers .log (fun _ => .entire) [x] [y] (by decide) (.cons hpart .nil)).1 hstays _ _ rfl rfl
  exact ⟨hpart, hclear, _, _, rfl, rfl, hsub⟩

/-- The logarithms of the numbers between a half and two are not all among those of the numbers between the smallest
distance, which is one, and two. -/
theorem not_forall_interval_isotone :
    ¬ ∀ [BitPattern Exact] (settings : Settings Exact) (kind : Kind Exact) (vars : VarId → Interval Exact)
      (xs ys : List (Interval Exact)), kind.op ∈ [.sum, .product, .abs, .pow, .exp, .log] →
      List.Forall₂ Interval.IsPart xs ys → ∀ n m, (Handler.default settings kind.op).interval kind xs vars = .ok n →
        (Handler.default settings kind.op).interval kind ys vars = .ok m → n.value.isSubset m.value = true := by
  intro h
  let _ : BitPattern Exact := ⟨fun _ => 0, fun _ => 0⟩
  let settings : Settings Exact := ⟨real 1, real 0, 1, false⟩
  have hpart : (⟨real (1 / 2), real 2⟩ : Interval Exact).IsPart ⟨real 0, real 2⟩ :=
    Interval.isPart_number (EReal.coe_le_coe_iff.mpr (by norm_num)) (EReal.coe_le_coe_iff.mpr (by norm_num)) le_rfl
  have hsub := h settings .log (fun _ => .entire) _ _ (by decide) (.cons hpart .nil) _ _ rfl rfl
  have hclear := Settings.clearsPole_of_isSubset_ln hpart hsub (number_le_number.mpr (EReal.coe_nonpos.mpr le_rfl))
    (real_pos.mpr two_pos) (real (1 / 2)) (Or.inl rfl) (real_pos.mpr (by norm_num))
  change minNum (real 1) (real 2) ≤ real (1 / 2) at hclear
  rw [minNum_real] at hclear
  exact absurd (EReal.coe_le_coe_iff.mp (number_le_number.mp hclear)) (by norm_num)

end Workspace

end IntervalDag
