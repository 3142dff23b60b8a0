import IntervalDag.Proofs.Analysis.Parts
import IntervalDag.Proofs.Operator.Bending

/-!
# Chords

In exact arithmetic, the verdict on the curvature of an expression of algebraic operators is right wherever the cached
activities hold the values of its parts: between two points, the value lies on the side of the chord that the verdict
allows (`Expression.allowsAt_of_curvature`). `Commons.curvature_allows` says so of the analysis and the evaluation of a
root, over a box of variable bounds.
-/

namespace IntervalDag

open Exact

/-! ### Verdicts on expressions -/

section

variable {α : Type} [Scalar α] [BitPattern α] {handlers : Kind α → Handler α} {settings : Settings α}

/-- A kind that takes its operands has a verdict, without a fault. -/
theorem Handler.exists_curvature_default (settings : Settings α) {kind : Kind α} {cs : List Curvature}
    {xs : List (Interval α)} (htakes : kind.Takes cs.length) (hxs : xs.length = cs.length) :
    ∃ c, (Handler.default settings kind.op).curvature kind cs xs = .ok c := by
  cases kind with
  | var v => exact ⟨_, rfl⟩
  | value v => exact ⟨_, rfl⟩
  | sum coefs constant => exact ⟨_, rfl⟩
  | product coef =>
    match cs with
    | [] => exact ⟨_, rfl⟩
    | [c] => exact ⟨_, rfl⟩
    | _ :: _ :: _ => exact ⟨_, rfl⟩
  | _ =>
    obtain ⟨c, rfl⟩ := List.length_eq_one_iff.mp (htakes.arity_eq 1 rfl).symm
    obtain ⟨x, rfl⟩ := List.length_eq_one_iff.mp hxs
    exact ⟨_, rfl⟩

namespace Expression

variable (hdefault : ∀ k, handlers k = Handler.default settings k.op)

include hdefault

/-- The verdict on an expression, from those on the operands. -/
theorem curvature_node {kind : Kind α} {activity : Interval α} {es : List (Expression α)} {c : Expression α → Curvature}
    (hc : ∀ e ∈ es, e.curvature handlers = .ok (c e)) : (node kind activity es).curvature handlers =
      (Handler.default settings kind.op).curvature kind (es.map c) (es.map Expression.activity) := by
  rw [curvature, fold_node, ← curvature, Checked.mapM_eq_ok hc, Checked.ok_bind, hdefault]

/-- The default handlers meet no fault. -/
theorem exists_curvature {e : Expression α} (hproper : e.Proper) : ∃ c, e.curvature handlers = .ok c := by
  induction e using ind with
  | node kind activity es ih =>
    have hverdicts : ∀ e ∈ es, ∃ c, e.curvature handlers = .ok c := fun e he => ih e he (hproper.operand he)
    choose! c hc using hverdicts
    rw [curvature_node hdefault hc]
    refine Handler.exists_curvature_default settings ?_ (by rw [List.length_map, List.length_map])
    rw [List.length_map]
    exact hproper kind activity es .refl

end Expression

end

namespace Expression

/-- The activities cached on an expression and its parts hold their values at a point. -/
def Encloses {α : Type} [Scalar α] (handlers : Kind α → Handler α) (point : Point α) (e : Expression α) : Prop :=
  ∀ d u, Part d e → d.value handlers point = .ok (some u) → u ∈ d.activity

theorem Encloses.operand {α : Type} [Scalar α] {handlers : Kind α → Handler α} {point : Point α} {kind : Kind α}
    {activity : Interval α} {es : List (Expression α)} (h : Encloses handlers point (.node kind activity es))
    {e : Expression α} (he : e ∈ es) : e.Encloses handlers point := fun d u hpart => h d u (.operand he hpart)

/-- All operators are algebraic. -/
def IsAlgebraic (e : Expression Exact) : Prop := ∀ kind activity es, Part (.node kind activity es) e → kind.IsAlgebraic

theorem IsAlgebraic.operand {kind : Kind Exact} {activity : Interval Exact} {es : List (Expression Exact)}
    (h : IsAlgebraic (.node kind activity es)) {e : Expression Exact} (he : e ∈ es) : e.IsAlgebraic :=
  fun _ _ _ hpart => h _ _ _ (.operand he hpart)

variable [BitPattern Exact] {handlers : Kind Exact → Handler Exact} {settings : Settings Exact}

/-- At real points, values are real. -/
theorem isReal_of_value (hdefault : ∀ k, handlers k = Handler.default settings k.op) {e : Expression Exact}
    (hproper : e.Proper) (halgebraic : e.IsAlgebraic) {x : VarId → Option ℝ} {u : Exact}
    (hu : e.value handlers (point x) = .ok (some u)) : u.IsReal := by
  induction e using ind generalizing u with
  | node kind activity es ih =>
    obtain ⟨f, hf, hu⟩ := exists_operand_values hdefault hproper hu
    refine (Handler.enclosesAt_default settings (halgebraic kind activity es .refl) (fun _ _ => isReal_of_point)
      (fun v hv => ?_) hu).1
    obtain ⟨e, he, rfl⟩ := List.mem_map.mp hv
    exact ih e he (hproper.operand he) (halgebraic.operand he) (hf e he)

/-- **Verdicts allow values.** By induction over the expression: the operands' values may be off their chords, as far as
the verdicts on them allow, and the operator's value follows. -/
theorem allowsAt_of_curvature (hdefault : ∀ k, handlers k = Handler.default settings k.op) {e : Expression Exact}
    (hproper : e.Proper) (halgebraic : e.IsAlgebraic) {x y : VarId → Option ℝ} {t : ℝ} (ht : 0 ≤ t) (ht' : t ≤ 1)
    (hx : e.Encloses handlers (point x)) (hy : e.Encloses handlers (point y))
    (hbetween : e.Encloses handlers (point (between t x y))) {u v w : Exact}
    (hu : e.value handlers (point x) = .ok (some u)) (hv : e.value handlers (point y) = .ok (some v))
    (hw : e.value handlers (point (between t x y)) = .ok (some w)) {c : Curvature}
    (hc : e.curvature handlers = .ok c) : c.AllowsAt t u v w := by
  induction e using ind generalizing u v w c with
  | node kind activity es ih =>
    obtain ⟨f, hf, hu⟩ := exists_operand_values hdefault hproper hu
    obtain ⟨g, hg, hv⟩ := exists_operand_values hdefault hproper hv
    obtain ⟨k, hk, hw⟩ := exists_operand_values hdefault hproper hw
    have hverdicts : ∀ e ∈ es, ∃ c, e.curvature handlers = .ok c := fun e he =>
      exists_curvature hdefault (hproper.operand he)
    choose! d hd using hverdicts
    rw [curvature_node hdefault hd] at hc
    have hoperands : ∀ e ∈ es, (d e).AllowsAt t (f e) (g e) (k e) := fun e he =>
      ih e he (hproper.operand he) (halgebraic.operand he) (hx.operand he) (hy.operand he) (hbetween.operand he)
        (hf e he) (hg e he) (hk e he) (hd e he)
    choose! a b m ha hb hm hallows using hoperands
    have hreal : ∀ {f : Expression Exact → Exact} {r : Expression Exact → ℝ}, (∀ e ∈ es, f e = real (r e)) →
        es.map f = (es.map r).map real := fun h => by
      rw [List.map_map]
      exact List.map_congr_left h
    rw [hreal ha] at hu
    rw [hreal hb] at hv
    rw [hreal hm] at hw
    refine Handler.allowsAt_default hallows ht ht' (fun e he => ?_) settings (halgebraic kind activity es .refl)
      hu hv hw hc
    rw [← ha e he, ← hb e he, ← hm e he]
    exact ⟨(hx.operand he) e _ .refl (hf e he), (hy.operand he) e _ .refl (hg e he),
      (hbetween.operand he) e _ .refl (hk e he)⟩

end Expression

/-! ### Roots of graphs -/

namespace Commons

section

variable {α : Type} [Scalar α] [BitPattern α] [NumberText α] {s : Commons α} {root : NodeId} {point : Point α}

/-- Evaluation comes to the value of the expression. -/
theorem Exhibits.exists_evaluate_iff (h : s.Exhibits root) {v : Option α} :
    (∃ g, s.graph.evaluate root point = .ok (g, v)) ↔
      (s.graph.unfold h.acyclic root).value s.graph.handlerFor point = .ok v := by
  have hevaluate : Meets (s.graph.evaluate root point) () _ _ := h.analysable.meets_evaluate
  rcases hrun : s.graph.evaluate root point with e | ⟨g, v'⟩
  · rw [hrun] at hevaluate
    exact iff_of_false nofun fun hv => nomatch hevaluate.symm.trans hv
  · rw [hrun] at hevaluate
    rw [show _ = _ from hevaluate.1]
    constructor
    · rintro ⟨g, heq⟩
      cases heq
      rfl
    · intro heq
      cases heq
      exact ⟨g, rfl⟩

/-- Cached activities hold the values of the parts of an expression if they hold those that evaluation comes to. -/
theorem Exhibits.encloses (h : s.Exhibits root) (hactivity : ∀ n g u, s.graph.arena.Below n root →
      s.graph.evaluate n point = .ok (g, some u) → ∃ activity, s.graph.activity n = .ok activity ∧ u ∈ activity) :
    (s.graph.unfold h.acyclic root).Encloses s.graph.handlerFor point := by
  intro d u hpart hu
  obtain ⟨n, hn, rfl⟩ := (Graph.part_unfold_iff h.acyclic).mp hpart
  obtain ⟨g, hg⟩ := (h.of_below hn).exists_evaluate_iff.mpr hu
  obtain ⟨activity, hrange, hmem⟩ := hactivity n g u hn hg
  cases (Graph.activity_eq_ok (h.isAlive n hn)).symm.trans hrange
  rw [Graph.unfold_eq]
  exact hmem

end

section

variable [BitPattern Exact] [NumberText Exact] {s : Commons Exact} {root : NodeId}

theorem Exhibits.isAlgebraic (h : s.Exhibits root)
    (hkinds : ∀ n kind, s.graph.arena.Below n root → s.graph.kind n = .ok kind → kind.IsAlgebraic) :
    (s.graph.unfold h.acyclic root).IsAlgebraic := by
  intro kind activity es hpart
  obtain ⟨n, hn, hkind, -⟩ := h.exists_kind_of_part hpart
  exact hkinds n kind hn hkind

/-- Activities that were never narrowed hold the values of all parts, which are real at real points. -/
theorem Exhibits.mem_activity_of_entire (h : s.Exhibits root)
    (hkinds : ∀ n kind, s.graph.arena.Below n root → s.graph.kind n = .ok kind → kind.IsAlgebraic)
    (hentire : ∀ n, s.graph.arena.Below n root → s.graph.activity n = .ok .entire) {x : VarId → Option ℝ} {n : NodeId}
    {g : Graph Exact} {u : Exact} (hn : s.graph.arena.Below n root)
    (hg : s.graph.evaluate n (point x) = .ok (g, some u)) :
    ∃ activity, s.graph.activity n = .ok activity ∧ u ∈ activity := by
  have hbelow := h.of_below hn
  obtain ⟨settings, hdefault⟩ := h.exists_settings
  obtain ⟨r, rfl⟩ := Expression.isReal_of_value hdefault hbelow.proper
    (hbelow.isAlgebraic fun m kind hm => hkinds m kind (hm.trans hn)) (hbelow.exists_evaluate_iff.mp ⟨g, hg⟩)
  exact ⟨.entire, hentire n hn, Interval.real_mem_entire r⟩

/-- **Curvature verdicts are right.** Take a root with algebraic operators only at and below it, and a box of variable
bounds. Let the cached activities hold the values that the nodes have anywhere in the box. The analysis meets no fault.
Where its verdict is convex, the value between two points of the box is not above the chord. It is not below the chord
where the verdict is concave, and on the chord where it is linear. -/
theorem curvature_allows (h : s.Exhibits root)
    (hkinds : ∀ n kind, s.graph.arena.Below n root → s.graph.kind n = .ok kind → kind.IsAlgebraic)
    (box : VarId → Interval Exact)
    (hactivity : ∀ x n g u, (point x).Within box → s.graph.arena.Below n root →
      s.graph.evaluate n (point x) = .ok (g, some u) →
        ∃ activity, s.graph.activity n = .ok activity ∧ u ∈ activity) :
    ∃ verdict, Prod.snd <$> s.graph.curvature root = .ok verdict ∧
      ∀ x y t, (point x).Within box → (point y).Within box → 0 ≤ t → t ≤ 1 → ∀ g₁ g₂ g₃ u v w,
        s.graph.evaluate root (point x) = .ok (g₁, some u) → s.graph.evaluate root (point y) = .ok (g₂, some v) →
        s.graph.evaluate root (point (between t x y)) = .ok (g₃, some w) →
          ∃ a b m : ℝ, u = real a ∧ v = real b ∧ w = real m ∧
            (verdict = .convex → m ≤ t * a + (1 - t) * b) ∧ (verdict = .concave → t * a + (1 - t) * b ≤ m) ∧
            (verdict = .linear → m = t * a + (1 - t) * b) := by
  obtain ⟨settings, hdefault⟩ := h.exists_settings
  have hencloses : ∀ {x}, (point x).Within box → _ := fun hx =>
    h.encloses fun n g u hn hg => hactivity _ n g u hx hn hg
  obtain ⟨verdict, hverdict⟩ := Expression.exists_curvature hdefault h.proper
  refine ⟨verdict, h.analysable.map_curvature.trans hverdict, fun x y t hx hy ht ht' g₁ g₂ g₃ u v w hu hv hw => ?_⟩
  obtain ⟨a, b, m, rfl, rfl, rfl, hallows⟩ := Expression.allowsAt_of_curvature hdefault h.proper (h.isAlgebraic hkinds)
    ht ht' (hencloses hx) (hencloses hy) (hencloses (within_between hx hy ht ht'))
    (h.exists_evaluate_iff.mp ⟨g₁, hu⟩) (h.exists_evaluate_iff.mp ⟨g₂, hv⟩) (h.exists_evaluate_iff.mp ⟨g₃, hw⟩) hverdict
  refine ⟨a, b, m, rfl, rfl, rfl, ?_, ?_, ?_⟩ <;> rintro rfl <;> exact hallows

end

end Commons

/-! ### A square -/

/-- A variable, squared. -/
def Expression.square (activity activity' : Interval Exact) : Expression Exact :=
  .node (.pow (real (2 : ℤ))) activity [.node (.var 0) activity' []]

section

variable [BitPattern Exact] {handlers : Kind Exact → Handler Exact} {settings : Settings Exact}
  (hdefault : ∀ k, handlers k = Handler.default settings k.op) {activity activity' : Interval Exact}

include hdefault

theorem Expression.value_square {x : VarId → Option ℝ} {r : ℝ} (hx : x 0 = some r) :
    (square activity activity').value handlers (point x) = .ok (some (real (r ^ (2 : ℤ)))) := by
  have hvar : (node (.var 0) activity' []).value handlers (point x) = .ok (some (real r)) := by
    rw [value_node hdefault (w := fun _ => none) (List.forall_mem_nil _)]
    exact congrArg (fun r => Except.ok (Option.map real r)) hx
  rw [square, value_node hdefault (w := fun _ => some (real r)) fun e he => List.mem_singleton.mp he ▸ hvar]
  change Except.ok (if Scalar.isFinite (Scalar.pow (real r) (real (2 : ℤ))) = true then _ else none) = _
  have hfinite : Scalar.isFinite (real (r ^ (2 : ℤ))) = true :=
    isFinite_number.mpr ⟨EReal.coe_ne_bot _, EReal.coe_ne_top _⟩
  rw [pow_real_int (by norm_num), if_pos hfinite]

theorem Expression.curvature_square : (square activity activity').curvature handlers = .ok .convex := by
  have hvar : (node (.var 0) activity' []).curvature handlers = .ok .linear := by
    rw [curvature_node hdefault (c := fun _ => .linear) (List.forall_mem_nil _)]
    rfl
  rw [square, curvature_node hdefault (c := fun _ => .linear) fun e he => List.mem_singleton.mp he ▸ hvar]
  have hbend : Power.curvatureOn (real (2 : ℤ)) activity' = .convex := by
    rw [Power.curvatureOn, integral?_real (by decide)]
    simp only [Bool.or_eq_true, real_int_beq_zero, real_int_beq_one, real_int_pos]
    norm_num
  change Except.ok (Curvature.compose (Power.curvatureOn _ activity') _ .linear) = _
  rw [hbend]
  rfl

end

namespace Commons

/-- The square of a variable is convex. At one, it is below the chord between the squares of minus one and three. -/
theorem curvature_allows_of_square :
    let _ : BitPattern Exact := ⟨fun _ => 0, fun _ => 0⟩
    let _ : NumberText Exact := ⟨fun _ => "", fun _ => "", fun _ => ""⟩
    let cs : List (Command Exact) :=
      [.work (.request (.var 0)), .work (.request (.add (.pow (real (2 : ℤ))) [0]))]
    let x : ℝ → VarId → Option ℝ := fun r v => if v = 0 then some r else none
    ∃ s answers, (new default 0 (.ofList [])).serveAll cs = .ok (s, answers) ∧
      Prod.snd <$> s.graph.curvature 1 = .ok .convex ∧
      ∃ g₁ g₂ g₃, ∃ a b m : ℝ, s.graph.evaluate 1 (point (x (-1))) = .ok (g₁, some (real a)) ∧
        s.graph.evaluate 1 (point (x 3)) = .ok (g₂, some (real b)) ∧
        s.graph.evaluate 1 (point (between (1 / 2) (x (-1)) (x 3))) = .ok (g₃, some (real m)) ∧
        m ≤ 1 / 2 * a + (1 - 1 / 2) * b := by
  intro _ _ cs x
  have hcs : (new default 0 (.ofList [])).OwnsAll cs := by decide +kernel
  obtain ⟨s, answers, hrun, h, hread⟩ := exists_exhibits default 0 (.ofList []) hcs (by simp [cs]) 1
    (f := fun g => ([0, 1].map g.kindAt, [0, 1].map g.arena.operands, [0, 1].map g.activityAt))
    (b := ([.var 0, .pow (real (2 : ℤ))], [[], [0]], [.entire, .entire])) (by with_unfolding_all rfl)
  simp only [List.map_cons, List.map_nil, Prod.mk.injEq, List.cons.injEq, and_true] at hread
  obtain ⟨⟨hk₀, hk₁⟩, ⟨ho₀, ho₁⟩, ha₀, ha₁⟩ := hread
  have hunfold : s.graph.unfold h.acyclic 1 = .square .entire .entire := by
    rw [Graph.unfold_of_kindAt h.acyclic hk₁ ho₁, List.map_singleton, Graph.unfold_of_kindAt h.acyclic hk₀ ho₀, ha₀,
      ha₁]
    rfl
  obtain ⟨settings, hdefault⟩ := h.exists_settings
  have hcurvature : Prod.snd <$> s.graph.curvature 1 = .ok .convex := by
    rw [h.analysable.map_curvature, hunfold]
    exact Expression.curvature_square hdefault
  have hevaluate : ∀ {z : VarId → Option ℝ} {r : ℝ}, z 0 = some r →
      ∃ g, s.graph.evaluate 1 (point z) = .ok (g, some (real (r ^ (2 : ℤ)))) := fun hz => by
    rw [h.exists_evaluate_iff, hunfold]
    exact Expression.value_square hdefault hz
  have hkinds : ∀ n kind, s.graph.arena.Below n 1 → s.graph.kind n = .ok kind → kind.IsAlgebraic := by
    intro n kind hn hkind
    cases (Graph.kind_eq_ok (h.isAlive n hn)).symm.trans hkind
    rcases Arena.eq_or_eq_of_below ho₁ ho₀ hn with rfl | rfl
    · rw [hk₁]
      exact Option.isSome_iff_exists.mpr ⟨_, integral?_real (by decide)⟩
    · rw [hk₀]
      trivial
  have hentire : ∀ n, s.graph.arena.Below n 1 → s.graph.activity n = .ok .entire := by
    intro n hn
    rw [Graph.activity_eq_ok (h.isAlive n hn)]
    rcases Arena.eq_or_eq_of_below ho₁ ho₀ hn with rfl | rfl
    · rw [ha₁]
    · rw [ha₀]
  have hwithin : ∀ z : VarId → Option ℝ, (point z).Within (fun _ => .entire) := by
    intro z v r hr
    obtain ⟨r, -, rfl⟩ := Option.map_eq_some_iff.mp hr
    exact Interval.real_mem_entire r
  obtain ⟨g₁, hg₁⟩ := hevaluate (z := x (-1)) (if_pos rfl)
  obtain ⟨g₂, hg₂⟩ := hevaluate (z := x 3) (if_pos rfl)
  obtain ⟨g₃, hg₃⟩ := hevaluate (z := between (1 / 2) (x (-1)) (x 3)) rfl
  obtain ⟨verdict, hverdict, hallows⟩ := curvature_allows h hkinds (fun _ => .entire)
    fun _ _ _ _ _ hn hg => h.mem_activity_of_entire hkinds hentire hn hg
  cases hcurvature.symm.trans hverdict
  obtain ⟨a, b, m, ha, hb, hm, hconvex, -⟩ := hallows _ _ (1 / 2) (hwithin _) (hwithin _) (by norm_num) (by norm_num)
    g₁ g₂ g₃ _ _ _ hg₁ hg₂ hg₃
  rw [ha] at hg₁
  rw [hb] at hg₂
  rw [hm] at hg₃
  exact ⟨s, answers, hrun, hcurvature, g₁, g₂, g₃, a, b, m, hg₁, hg₂, hg₃, hconvex rfl⟩

end Commons

end IntervalDag
