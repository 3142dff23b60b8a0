import IntervalDag.Analysis.BottomUp
import IntervalDag.Proofs.Graph.Requests
import IntervalDag.Proofs.Interval.Remote
import IntervalDag.Proofs.Operator.Bending
import IntervalDag.Proofs.Operator.LinearNarrowing
import IntervalDag.Proofs.Operator.ProductNarrowing

/-!
# How algebraic operators move

With its siblings held, the value of an algebraic operator is a function of one operand. Over exact arithmetic it moves
over the numbers of the operand's interval as the handler's verdict says (`Handler.exists_moves_default`). A sum moves as
the coefficient of the operand does. A product moves as the product of all other factors does, which lies in the
interval that the verdict is read from. Magnitudes and powers do not have siblings.
-/

namespace IntervalDag

open Scalar Exact
open IntervalDag.Interval (Box)

namespace Monotonicity

variable {D : Set ℝ} {z : Interval Exact} {c : ℝ}

/-- Multiples by a number in an interval move as the interval says. -/
theorem on_of_factor (hc : real c ∈ z) (D : Set ℝ) (k : ℝ) : (ofFactor z).On D fun r => k + c * r := by
  rw [ofFactor]
  split_ifs with hzero hinf hsup
  · obtain ⟨a, b, rfl, ha, hb⟩ := Interval.real_mem_iff.mp hc
    simp only [Bool.and_eq_true, zero_def, number_beq_number] at hzero
    obtain ⟨rfl, rfl⟩ := hzero
    obtain rfl : c = 0 := le_antisymm (EReal.coe_nonpos.mp hb) (EReal.coe_nonneg.mp ha)
    intro r _ s _
    simp
  · intro r _ s _ hle
    exact add_le_add_right (mul_le_mul_of_nonneg_left hle (Interval.nonneg_of_inf hinf hc)) k
  · intro r _ s _ hle
    exact add_le_add_right (mul_le_mul_of_nonpos_left hle (Interval.nonpos_of_sup hsup hc)) k
  · trivial

theorem ofFactor_of_neg {a b : ℝ} (ha : a < 0) (hb : b < 0) :
    ofFactor (⟨real a, real b⟩ : Interval Exact) = .decreasing := by
  have hzero : ¬ ((real a == 0) && (real b == 0)) = true := by
    rw [Bool.and_eq_true, real_beq_zero]
    exact fun h => ha.ne h.1
  have hinf : ¬ (0 : Exact) ≤ real a := fun h => ha.not_ge (EReal.coe_nonneg.mp h)
  have hsup : real b ≤ 0 := EReal.coe_nonpos.mpr hb.le
  rw [ofFactor, if_neg hzero, if_neg hinf, if_pos hsup]

end Monotonicity

namespace Product

/-- Products of intervals of numbers have numbers for ends. -/
theorem hasNumbers_range {xs : List (Interval Exact)} (hxs : ∀ x ∈ xs, x.HasNumbers) : (range xs).HasNumbers := by
  have hfoldl (acc : Interval Exact) (hacc : acc.HasNumbers) : (xs.foldl (· * ·) acc).HasNumbers := by
    induction xs generalizing acc with
    | nil => exact hacc
    | cons x xs ih =>
      obtain ⟨hx, hxs⟩ := List.forall_mem_cons.mp hxs
      exact ih hxs _ (hacc.mul hx)
  exact hfoldl _ (Interval.hasNumbers_number 1 1)

theorem monotonicity_append_cons (c : Exact) (us : List (Interval Exact)) (x : Interval Exact)
    (vs : List (Interval Exact)) :
    monotonicity (.product c) us.length (us ++ x :: vs) = Monotonicity.ofFactor <$> (range (us ++ vs)).scale c := by
  rw [← eraseIdx_append_cons us x vs, map_eq_pure_bind]
  rfl

end Product

namespace WeightedSum

/-- The coefficient at a position, between those before and those after it. -/
theorem exists_coefs_eq {ks : List ℝ} {us vs : List (Interval Exact)} {x : Interval Exact}
    (h : ks.length = (us ++ x :: vs).length) : ∃ cs c ds, ks = cs ++ c :: ds ∧ cs.length = us.length := by
  rw [List.length_append, List.length_cons] at h
  have hlt : us.length < ks.length := by omega
  exact ⟨ks.take us.length, ks[us.length], ks.drop (us.length + 1), by simp, by simp [hlt.le]⟩

theorem monotonicity_append_cons {cs : List ℝ} {i : Nat} (hcs : cs.length = i) (c : ℝ) (ds : List ℝ)
    (constant : Exact) (xs : List (Interval Exact)) :
    monotonicity (.sum ((cs ++ c :: ds).map real) constant) i xs = .ok (.ofFactor ⟨real c, real c⟩) := by
  have hget : Checked.get ((cs ++ c :: ds).map real) i = (.ok (real c) : Checked Exact Exact) := by
    rw [List.map_append, List.map_cons]
    exact Checked.get_append_cons (by simp [hcs]) _ _
  rw [monotonicity, parts, Checked.ok_bind]
  dsimp only
  rw [hget, Checked.ok_bind, Interval.point_real]
  rfl

end WeightedSum

theorem eq_nil_of_length_eq_one {α : Type} {as bs : List α} {a : α} (h : 1 = (as ++ a :: bs).length) :
    as = [] ∧ bs = [] := by
  rw [List.length_append, List.length_cons] at h
  exact ⟨List.length_eq_zero_iff.mp (by omega), List.length_eq_zero_iff.mp (by omega)⟩

namespace Handler

variable [BitPattern Exact] {settings : Settings Exact} {kind : Kind Exact} {us vs : List (Interval Exact)}
  {x : Interval Exact} {verdict : Monotonicity}

/-- The verdict on an operand of a kind that takes its operands is reached without a fault. -/
theorem exists_monotonicity_default (settings : Settings Exact) (hkind : kind.IsAlgebraic)
    (htakes : kind.Takes (us ++ x :: vs).length) (hnumbers : ∀ y ∈ us ++ vs, y.HasNumbers) :
    ∃ verdict, (Handler.default settings kind.op).monotonicity kind us.length (us ++ x :: vs) = .ok verdict := by
  cases kind with
  | var id | value v => exact absurd (htakes.arity_eq 0 rfl) (by simp)
  | sum coefs constant =>
    obtain ⟨ks, rfl⟩ := exists_map_real hkind.1
    obtain ⟨cs, c, ds, rfl, hcs⟩ :=
      WeightedSum.exists_coefs_eq ((List.length_map real).symm.trans (Kind.takes_sum_iff.mp htakes))
    exact ⟨_, WeightedSum.monotonicity_append_cons hcs c ds constant (us ++ x :: vs)⟩
  | product coef =>
    obtain ⟨c, rfl⟩ := hkind
    obtain ⟨z, hz⟩ := (Product.hasNumbers_range hnumbers).exists_scale c
    exact ⟨.ofFactor z, (Product.monotonicity_append_cons (real c) us x vs).trans (by rw [hz]; rfl)⟩
  | abs | pow exponent =>
    obtain ⟨y, hy⟩ := List.length_eq_one_iff.mp (htakes.arity_eq 1 rfl).symm
    rw [hy]
    exact ⟨_, rfl⟩
  | exp | log | sin | cos | entropy => exact hkind.elim

/-- **Operators move as verdicts say.** -/
theorem exists_moves_default (hkind : kind.IsAlgebraic) (htakes : kind.Takes (us ++ x :: vs).length)
    (hverdict : (Handler.default settings kind.op).monotonicity kind us.length (us ++ x :: vs) = .ok verdict)
    {rs ss : List ℝ} (hrs : rs ∈ Box us) (hss : ss ∈ Box vs) (point : Point Exact) :
    ∃ (D : Set ℝ) (f : ℝ → ℝ), verdict.On D f ∧ ∀ (r : ℝ) v, real r ∈ x →
      (Handler.default settings kind.op).eval kind ((rs ++ r :: ss).map real) point = .ok (some v) →
        r ∈ D ∧ v = real (f r) := by
  cases kind with
  | var id | value v => exact absurd (htakes.arity_eq 0 rfl) (by simp)
  | sum coefs constant =>
    obtain ⟨ks, rfl⟩ := exists_map_real hkind.1
    obtain ⟨k, rfl⟩ := hkind.2
    obtain ⟨cs, c, ds, rfl, hcs⟩ :=
      WeightedSum.exists_coefs_eq ((List.length_map real).symm.trans (Kind.takes_sum_iff.mp htakes))
    cases (WeightedSum.monotonicity_append_cons hcs c ds (real k) (us ++ x :: vs)).symm.trans hverdict
    refine ⟨Set.univ, _, Monotonicity.on_of_factor (Interval.real_mem_real.mpr ⟨le_rfl, le_rfl⟩) _
      (k + WeightedSum.realTotal (cs ++ ds) (rs ++ ss)), fun r v _ hv => ⟨trivial, ?_⟩⟩
    cases (WeightedSum.eval_real _ _ k point).symm.trans hv
    rw [WeightedSum.realTotal_append_cons (hcs.trans (Interval.length_of_mem_box hrs).symm)]
    congr 1
    ring
  | product coef =>
    obtain ⟨c, rfl⟩ := hkind
    have hothers : real (rs ++ ss).prod ∈ Product.range (us ++ vs) :=
      Product.mem_range_of_mem_box (Interval.mem_box_append.mpr ⟨rs, hrs, ss, hss, rfl⟩)
    obtain ⟨z, hz, hfactor⟩ := Interval.real_mem_scale hothers c
    have hmoves := Product.monotonicity_append_cons (real c) us x vs
    rw [hz] at hmoves
    cases hmoves.symm.trans hverdict
    refine ⟨Set.univ, _, Monotonicity.on_of_factor hfactor _ 0, fun r v _ hv => ⟨trivial, ?_⟩⟩
    cases (Product.eval_real _ c point).symm.trans hv
    rw [Product.prod_append_cons]
    congr 1
    ring
  | abs =>
    obtain ⟨rfl, rfl⟩ := eq_nil_of_length_eq_one (htakes.arity_eq 1 rfl)
    obtain rfl : rs = [] := by simpa using hrs
    cases hverdict
    refine ⟨_, _, Magnitude.absMove_on (x := x), fun r v hr hv => ⟨hr, ?_⟩⟩
    cases hv
    exact real_abs r
  | pow exponent =>
    obtain ⟨rfl, rfl⟩ := eq_nil_of_length_eq_one (htakes.arity_eq 1 rfl)
    obtain rfl : rs = [] := by simpa using hrs
    obtain ⟨n, hn⟩ := Option.isSome_iff_exists.mp hkind
    cases hverdict
    refine ⟨_, _, Power.monotonicityOn_on (x := x) hn, fun r v hr hv => ?_⟩
    obtain ⟨hpole, hvalue⟩ := Power.eq_of_eval hn point hv
    exact ⟨⟨hr, hpole⟩, hvalue⟩
  | exp | log | sin | cos | entropy => exact hkind.elim

end Handler

/-! ### Nodes -/

namespace Graph

variable [BitPattern Exact] {g : Graph Exact} {settings : Settings Exact} {n : NodeId} {kind : Kind Exact}
  {us vs : List (Interval Exact)} {x : Interval Exact}

omit [BitPattern Exact] in
/-- The verdict on an operand of a node is that of the node's handler. -/
theorem monotonicity_eq (hkind : g.kind n = .ok kind) (hactivities : g.childActivities n = .ok (us ++ x :: vs)) :
    g.monotonicity n us.length = (g.handlerFor kind).monotonicity kind us.length (us ++ x :: vs) := by
  obtain ⟨cs, hcs, hmap⟩ := Checked.bind_eq_ok.mp hactivities
  have hlt : ¬ cs.length ≤ us.length := by
    have hlen := Checked.length_of_mapM hmap
    rw [List.length_append, List.length_cons] at hlen
    omega
  rw [monotonicity, hcs, Checked.ok_bind, if_neg hlt, hactivities, hkind]
  rfl

/-- **Verdicts on operands are right.** Take a node with an algebraic operator and its operands' cached activities. The
verdict on the operand at a position is reached without a fault. With the siblings held at values in their activities,
let the operand have a value in its activity and then one that is not below it. Where the node has values, the second is
not below the first if the verdict is increasing, not above it if the verdict is decreasing, and equal to it if the
verdict is constant. -/
theorem monotonicity_moves (hkind : g.kind n = .ok kind)
    (hdefault : g.handlerFor kind = Handler.default settings kind.op) (halgebraic : kind.IsAlgebraic)
    (htakes : kind.Takes (us ++ x :: vs).length) (hactivities : g.childActivities n = .ok (us ++ x :: vs))
    (hnumbers : ∀ y ∈ us ++ x :: vs, y.HasNumbers) :
    ∃ verdict, g.monotonicity n us.length = .ok verdict ∧
      ∀ rs ∈ Box us, ∀ ss ∈ Box vs, ∀ (q r : ℝ) (point : Point Exact) (a b : Exact), real q ∈ x → real r ∈ x → q ≤ r →
        (g.handlerFor kind).eval kind ((rs ++ q :: ss).map real) point = .ok (some a) →
        (g.handlerFor kind).eval kind ((rs ++ r :: ss).map real) point = .ok (some b) →
          (verdict = .increasing → a ≤ b) ∧ (verdict = .decreasing → b ≤ a) ∧ (verdict = .constant → a = b) := by
  rw [monotonicity_eq hkind hactivities, hdefault]
  obtain ⟨verdict, hverdict⟩ := Handler.exists_monotonicity_default settings halgebraic htakes
    (forall_mem_append_cons.mp hnumbers).2
  refine ⟨verdict, hverdict, fun rs hrs ss hss q r point a b hq hr hle ha hb => ?_⟩
  obtain ⟨D, f, hmoves, hvalues⟩ := Handler.exists_moves_default halgebraic htakes hverdict hrs hss point
  obtain ⟨hqD, rfl⟩ := hvalues q a hq ha
  obtain ⟨hrD, rfl⟩ := hvalues r b hr hb
  refine ⟨?_, ?_, ?_⟩
  · rintro rfl
    exact EReal.coe_le_coe_iff.mpr (hmoves hqD hrD hle)
  · rintro rfl
    exact EReal.coe_le_coe_iff.mpr (hmoves hqD hrD hle)
  · rintro rfl
    exact congrArg real (hmoves q hqD r hrD)

end Graph

/-- The product of minus two, a variable and one between one and three. -/
noncomputable def Graph.falling [BitPattern Exact] : Checked Exact (Graph Exact) := do
  let (x, g) ← (empty default 0).addUnchecked (.var 0) []
  let (y, g) ← g.addUnchecked (.var 1) []
  let (_, g) ← g.addUnchecked (.product (real (-2))) [x, y]
  return g.modify y fun node => { node with activity := ⟨real 1, real 3⟩ }

/-- The product of minus two, a variable and one between one and three falls as the first variable rises. -/
theorem Graph.monotonicity_moves_of_product :
    let _ : BitPattern Exact := ⟨fun _ => 0, fun _ => 0⟩
    let kind : Kind Exact := .product (real (-2))
    let narrowed : Interval Exact := ⟨real 1, real 3⟩
    ∃ g, falling = .ok g ∧ g.kind 2 = .ok kind ∧ g.handlerFor kind = Handler.default default kind.op ∧
      kind.IsAlgebraic ∧ kind.Takes 2 ∧ g.childActivities 2 = .ok [.entire, narrowed] ∧
      (∀ y ∈ [.entire, narrowed], y.HasNumbers) ∧ g.monotonicity 2 0 = .ok .decreasing ∧
      ∃ a b, (g.handlerFor kind).eval kind ([1, 2].map real) (fun _ => none) = .ok (some a) ∧
        (g.handlerFor kind).eval kind ([5, 2].map real) (fun _ => none) = .ok (some b) ∧ b ≤ a := by
  intro _ kind narrowed
  obtain ⟨g, hg, hread⟩ := Checked.exists_ok_of_toOption (x := falling)
    (f := fun g => (g.kind 2, g.childActivities 2, g.handlerFor (.product (real (-2)))))
    (c := (.ok (.product (real (-2))), .ok [.entire, ⟨real 1, real 3⟩], .product)) (by with_unfolding_all rfl)
  simp only [Prod.mk.injEq] at hread
  obtain ⟨hkind, hactivities, hhandler⟩ := hread
  have halgebraic : kind.IsAlgebraic := ⟨-2, rfl⟩
  have htakes : kind.Takes ([] ++ Interval.entire :: [narrowed]).length := Kind.takes_product _ _
  have hnumbers : ∀ y ∈ [.entire, narrowed], y.HasNumbers :=
    List.forall_mem_cons.mpr ⟨Interval.hasNumbers_number _ _, List.forall_mem_singleton.mpr (Interval.hasNumbers_number _ _)⟩
  have hdefault : g.handlerFor kind = Handler.default default kind.op := hhandler
  have hinserted : g.childActivities 2 = .ok ([] ++ .entire :: [narrowed]) := hactivities
  obtain ⟨verdict, hverdict, hmoves⟩ := monotonicity_moves hkind hdefault halgebraic htakes hinserted hnumbers
  have hnonempty : narrowed.isEmpty = false :=
    Interval.isEmpty_of_mem (Interval.real_mem_real.mpr ⟨le_rfl, by norm_num⟩)
  have hone : (⟨number 1, number 1⟩ : Interval Exact).isEmpty = false :=
    Bool.eq_false_iff.mpr (mt Interval.isEmpty_number.mp le_rfl.not_gt)
  have hrange : Product.range [narrowed] = narrowed := by
    have hle : (1 : EReal) ≤ ((3 : ℝ) : EReal) := by
      rw [← EReal.coe_one]
      exact EReal.coe_le_coe_iff.mpr (by norm_num)
    refine (Interval.mul_number hone hnonempty).trans ?_
    simp [hle, narrowed, real]
  obtain rfl : .decreasing = verdict := by
    have hfactor : (Product.range [narrowed]).scale (real (-2)) = .ok ⟨real (-6), real (-2)⟩ := by
      rw [hrange]
      refine (Interval.scale_of_neg hnonempty (by norm_num)).trans ?_
      rw [← EReal.coe_mul, ← EReal.coe_mul]
      norm_num [real]
    have hmonotonicity := monotonicity_eq hkind hinserted
    rw [hhandler] at hmonotonicity
    have hproduct := Product.monotonicity_append_cons (real (-2)) [] .entire [narrowed]
    rw [List.nil_append, List.nil_append, hfactor] at hproduct
    rw [← Monotonicity.ofFactor_of_neg (a := -6) (b := -2) (by norm_num) (by norm_num)]
    exact Except.ok.inj (hproduct.symm.trans (hmonotonicity.symm.trans hverdict))
  refine ⟨g, hg, hkind, hhandler, halgebraic, htakes, hactivities, hnumbers, hverdict, ?_⟩
  have hvalue (r : ℝ) : (g.handlerFor kind).eval kind ([r, 2].map real) (fun _ => none) =
      .ok (some (real (-2 * [r, 2].prod))) := by
    rw [hhandler]
    exact Product.eval_real [r, 2] (-2) fun _ => none
  have htwo : [(2 : ℝ)] ∈ Box [narrowed] :=
    .cons (Interval.real_mem_real.mpr ⟨by norm_num, by norm_num⟩) .nil
  exact ⟨_, _, hvalue 1, hvalue 5, (hmoves [] .nil [2] htwo 1 5 _ _ _ (Interval.real_mem_entire 1)
    (Interval.real_mem_entire 5) (by norm_num) (hvalue 1) (hvalue 5)).2.1 rfl⟩

end IntervalDag
