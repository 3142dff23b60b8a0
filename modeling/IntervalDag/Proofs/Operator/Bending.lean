import Mathlib.Analysis.Convex.Mul
import Mathlib.Analysis.Convex.SpecificFunctions.Deriv
import IntervalDag.Proofs.Operator.Algebraic
import IntervalDag.Proofs.Operator.Verdicts

/-!
# How algebraic operators bend

Over exact arithmetic, the verdicts on powers and magnitudes are right for the numbers of an interval
(`Power.curvatureOn_on`, `Power.monotonicityOn_on`). A power of a number that is not positive is, up to its sign, that
of the mirror image. What the handlers of the operators of arithmetic answer is allowed for their values
(`Handler.allowsAt_default`).
-/

namespace IntervalDag

open Scalar Exact

/-! ### Powers -/

namespace Power

variable {D : Set ℝ} {n : ℤ}

/-- How powers of numbers that are not negative move. -/
def moveOf (n : ℤ) : Monotonicity := if n < 0 then .decreasing else .increasing

theorem moveOf_of_neg (h : n < 0) : moveOf n = .decreasing := if_pos h

theorem moveOf_of_not_neg (h : ¬ n < 0) : moveOf n = .increasing := if_neg h

section Sides

variable (hD : Convex ℝ D) (hpole : ∀ r ∈ D, ¬ (r = 0 ∧ n < 0))

include hD hpole

/-- Powers of numbers that are not negative bend upwards. -/
theorem convex_of_nonneg (hside : ∀ r ∈ D, 0 ≤ r) : Curvature.convex.On D (· ^ n) := by
  rcases lt_or_ge n 0 with hn | hn
  · have hpos : D ⊆ Set.Ioi 0 := fun r hr => (hside r hr).lt_of_ne fun h => hpole r hr ⟨h.symm, hn⟩
    exact .of_convexOn ((convexOn_zpow n).subset hpos hD)
  · lift n to ℕ using hn
    simpa using Curvature.On.of_convexOn ((convexOn_pow n).subset hside hD)

omit hD in
theorem moves_of_nonneg (hside : ∀ r ∈ D, 0 ≤ r) : (moveOf n).On D (· ^ n) := by
  rw [moveOf]
  split_ifs with hn
  · intro r hr s hs hle
    have hpos : 0 < r := (hside r hr).lt_of_ne fun h => hpole r hr ⟨h.symm, hn⟩
    have hle : r ^ (-n) ≤ s ^ (-n) := zpow_le_zpow_left₀ (neg_nonneg.mpr hn.le) hpos.le hle
    simpa using inv_anti₀ (zpow_pos hpos _) hle
  · intro r hr s hs hle
    exact zpow_le_zpow_left₀ (not_lt.mp hn) (hside r hr) hle

/-- Powers of numbers that are not positive are those of their mirror images. -/
theorem mirror_of_nonpos (hside : ∀ r ∈ D, r ≤ 0) :
    (Curvature.convex.On D fun r => (-r) ^ n) ∧ (moveOf n).negate.On D fun r => (-r) ^ n := by
  have hpole' : ∀ r ∈ -D, ¬ (r = 0 ∧ n < 0) := fun r hr h => hpole (-r) hr ⟨neg_eq_zero.mpr h.1, h.2⟩
  have hside' : ∀ r ∈ -D, 0 ≤ r := fun r hr => neg_nonpos.mp (hside (-r) hr)
  have hbend := (convex_of_nonneg hD.neg hpole' hside').comp_neg
  have hmove := (moves_of_nonneg hpole' hside').comp_neg
  rw [neg_neg] at hbend hmove
  exact ⟨hbend, hmove⟩

theorem even_of_nonpos (hside : ∀ r ∈ D, r ≤ 0) (hn : Even n) :
    Curvature.convex.On D (· ^ n) ∧ (moveOf n).negate.On D (· ^ n) := by
  simpa only [hn.neg_zpow] using mirror_of_nonpos hD hpole hside

theorem odd_of_nonpos (hside : ∀ r ∈ D, r ≤ 0) (hn : Odd n) :
    Curvature.concave.On D (· ^ n) ∧ (moveOf n).On D (· ^ n) := by
  obtain ⟨hbend, hmove⟩ := mirror_of_nonpos hD hpole hside
  have hbend : Curvature.concave.On D fun r => -(-r) ^ n := hbend.neg
  simpa only [hn.neg_zpow, neg_neg, Monotonicity.negate_negate] using And.intro hbend hmove.neg

end Sides

/-- The numbers in an interval that have a power. -/
def bases (n : ℤ) (x : Interval Exact) : Set ℝ := {r | real r ∈ x ∧ ¬ (r = 0 ∧ n < 0)}

variable {x : Interval Exact} {p : Exact}

theorem convex_bases (h : 0 ≤ n ∨ (∀ r ∈ bases n x, 0 ≤ r) ∨ ∀ r ∈ bases n x, r ≤ 0) : Convex ℝ (bases n x) := by
  refine Set.OrdConnected.convex ⟨fun r hr s hs u hu => ⟨(x.ordConnected_real.out hr.1 hs.1) hu, ?_⟩⟩
  rintro ⟨rfl, hn⟩
  rcases h with h | h | h
  · exact absurd hn (not_lt.mpr h)
  · exact hr.2 ⟨le_antisymm hu.1 (h r hr), hn⟩
  · exact hs.2 ⟨le_antisymm (h s hs) hu.2, hn⟩

theorem pole_bases : ∀ r ∈ bases n x, ¬ (r = 0 ∧ n < 0) := fun _ hr => hr.2

/-- Over an interval without negative numbers. -/
theorem on_of_nonneg (h : 0 ≤ x.inf) :
    Curvature.convex.On (bases n x) (· ^ n) ∧ (moveOf n).On (bases n x) (· ^ n) := by
  have hside : ∀ r ∈ bases n x, 0 ≤ r := fun r hr => Interval.nonneg_of_inf h hr.1
  exact ⟨convex_of_nonneg (convex_bases (.inr (.inl hside))) pole_bases hside, moves_of_nonneg pole_bases hside⟩

/-- Over an interval without positive numbers. -/
theorem on_of_nonpos (h : x.sup ≤ 0) :
    (Even n → Curvature.convex.On (bases n x) (· ^ n) ∧ (moveOf n).negate.On (bases n x) (· ^ n)) ∧
    (Odd n → Curvature.concave.On (bases n x) (· ^ n) ∧ (moveOf n).On (bases n x) (· ^ n)) := by
  have hside : ∀ r ∈ bases n x, r ≤ 0 := fun r hr => Interval.nonpos_of_sup h hr.1
  have hD := convex_bases (.inr (.inr hside))
  exact ⟨even_of_nonpos hD pole_bases hside, odd_of_nonpos hD pole_bases hside⟩

/-- Powers of all numbers with an exponent that is even and not negative bend upwards. -/
theorem convex_of_even (hn : Even n) (hnonneg : 0 ≤ n) : Curvature.convex.On (bases n x) (· ^ n) := by
  have hD : Convex ℝ (bases n x) := convex_bases (.inl hnonneg)
  lift n to ℕ using hnonneg
  have hn : Even n := by exact_mod_cast hn
  simpa using Curvature.On.of_convexOn (hn.convexOn_pow.subset (Set.subset_univ _) hD)

theorem linear_of_zero_or_one (hn : n = 0 ∨ n = 1) : Curvature.linear.On (bases n x) (· ^ n) := by
  refine ⟨fun _ => convex_bases (.inl ?_), fun r _ s _ t _ _ => ?_⟩
  · rcases hn with rfl | rfl <;> decide
  · rcases hn with rfl | rfl
    · simp [mix_self, Curvature.Allows]
    · simp [Curvature.Allows]

/-- **How powers bend.** -/
theorem curvatureOn_on (hp : Scalar.integral? p = some n) : (curvatureOn p x).On (bases n x) (· ^ n) := by
  rw [curvatureOn, hp]
  obtain rfl := eq_real_of_integral? hp
  simp only [Bool.or_eq_true, real_int_beq_zero, real_int_beq_one, real_int_pos]
  split_ifs with hsmall hparity hinf hsup hcase
  · exact linear_of_zero_or_one hsmall
  · exact (on_of_nonneg hinf).1
  · exact ((on_of_nonpos hsup).2 (Int.odd_iff.mpr (by omega))).1
  · exact Curvature.on_unknown _ _
  · have heven : Even n := Int.even_iff.mpr (not_not.mp hparity)
    rcases hcase with hn | hinf | hsup
    · exact convex_of_even heven hn.le
    · exact (on_of_nonneg (Exact.le_of_lt hinf)).1
    · exact ((on_of_nonpos (Exact.le_of_lt hsup)).1 heven).1
  · exact Curvature.on_unknown _ _

/-- Powers of all numbers with an exponent that is odd and positive rise. -/
theorem increasing_of_odd (hn : Odd n) (hpos : 0 < n) : Monotonicity.increasing.On D (· ^ n) := by
  lift n to ℕ using hpos.le
  have hn : Odd n := by exact_mod_cast hn
  intro r _ s _ hle
  simpa using hn.strictMono_pow.monotone hle

/-- **How powers move.** -/
theorem monotonicityOn_on (hp : Scalar.integral? p = some n) : (monotonicityOn p x).On (bases n x) (· ^ n) := by
  rw [monotonicityOn, hp]
  obtain rfl := eq_real_of_integral? hp
  simp only [real_int_beq_zero, real_int_pos, real_int_neg]
  have heven : ¬ n % 2 ≠ 0 → Even n := fun h => Int.even_iff.mpr (not_not.mp h)
  have hodd : n % 2 ≠ 0 → Odd n := fun h => Int.odd_iff.mpr (by omega)
  split_ifs with hzero hparity hpos hside hneg hinf hsup hinf hsup
  · subst hzero
    exact fun r _ s _ => (zpow_zero r).trans (zpow_zero s).symm
  · exact increasing_of_odd (hodd hparity) hpos
  · rw [← moveOf_of_neg (show n < 0 by omega)]
    rcases hside with hinf | hsup
    · exact (on_of_nonneg (Exact.le_of_lt hinf)).2
    · exact ((on_of_nonpos (Exact.le_of_lt hsup)).2 (hodd hparity)).2
  · trivial
  · change Monotonicity.decreasing.On _ _
    rw [← moveOf_of_neg hneg]
    exact (on_of_nonneg hinf).2
  · rw [← moveOf_of_neg hneg]
    exact ((on_of_nonpos hsup).1 (heven hparity)).2
  · trivial
  · rw [← moveOf_of_not_neg hneg]
    exact (on_of_nonneg hinf).2
  · change Monotonicity.increasing.negate.On _ _
    rw [← moveOf_of_not_neg hneg]
    exact ((on_of_nonpos hsup).1 (heven hparity)).2
  · trivial

end Power

/-! ### Magnitudes -/

namespace Magnitude

variable {x : Interval Exact}

theorem curvature_on : Curvature.convex.On {r | real r ∈ x} fun r => |r| :=
  .of_convexOn ((convexOn_norm (x.ordConnected_real.convex)).congr fun r _ => Real.norm_eq_abs r)

theorem absMove_on : (Handler.absMove x).On {r | real r ∈ x} fun r => |r| := by
  rw [Handler.absMove]
  split_ifs with hinf hsup
  · intro r hr s hs hle
    change |r| ≤ |s|
    rwa [abs_of_nonneg (Interval.nonneg_of_inf hinf hr), abs_of_nonneg (Interval.nonneg_of_inf hinf hs)]
  · intro r hr s hs hle
    change |s| ≤ |r|
    rw [abs_of_nonpos (Interval.nonpos_of_sup hsup hr), abs_of_nonpos (Interval.nonpos_of_sup hsup hs)]
    exact neg_le_neg hle
  · trivial

end Magnitude

/-! ### Sums -/

namespace WeightedSum

variable {ι : Type} {es : List ι} {t : ℝ}

theorem realTotal_mix (coefs : List ℝ) (a b : ι → ℝ) : realTotal coefs (es.map fun e => mix t (a e) (b e)) =
    mix t (realTotal coefs (es.map a)) (realTotal coefs (es.map b)) := by
  induction coefs generalizing es with
  | nil => exact (mix_self t 0).symm
  | cons k coefs ih =>
    cases es with
    | nil => exact (mix_self t 0).symm
    | cons e es => simp only [List.map_cons, realTotal_cons, mul_mix, mix_add, ih]

/-- Verdicts on operands make a verdict on the weighted sum of them. -/
theorem allows_foldl {c : ι → Curvature} {chord value : ι → ℝ} (hes : ∀ e ∈ es, (c e).Allows (chord e) (value e))
    (coefs : List ℝ) {acc : Curvature} {u v : ℝ} (hacc : acc.Allows u v) :
    (((coefs.map real).zip (es.map c)).foldl (fun acc (k, x) => acc.add (x.scale k)) acc).Allows
      (u + realTotal coefs (es.map chord)) (v + realTotal coefs (es.map value)) := by
  induction coefs generalizing es acc u v with
  | nil => simpa [realTotal] using hacc
  | cons k coefs ih =>
    cases es with
    | nil => simpa [realTotal] using hacc
    | cons e es =>
      obtain ⟨he, hes⟩ := List.forall_mem_cons.mp hes
      simp only [List.map_cons, realTotal_cons, ← add_assoc]
      exact ih hes (hacc.add (he.scale k))

end WeightedSum

/-! ### All operators -/

/-- The numbers between the values that two points give to variables. -/
def Exact.between (t : ℝ) (x y : VarId → Option ℝ) : VarId → Option ℝ := fun v => Option.map₂ (mix t) (x v) (y v)

/-- Between two points in a box lie points in the box. -/
theorem Exact.within_between {box : VarId → Interval Exact} {x y : VarId → Option ℝ} (hx : (point x).Within box)
    (hy : (point y).Within box) {t : ℝ} (ht : 0 ≤ t) (ht' : t ≤ 1) : (point (between t x y)).Within box := by
  intro v u hu
  obtain ⟨r, hr, rfl⟩ := Option.map_eq_some_iff.mp hu
  obtain ⟨a, b, ha, hb, rfl⟩ := Option.map₂_eq_some_iff.mp hr
  exact mix_mem (box v).ordConnected_real.convex ht ht' (hx v _ (congrArg (Option.map real) ha))
    (hy v _ (congrArg (Option.map real) hb))

/-- Values at two points and at one between them are real, and as a verdict allows. -/
def Curvature.AllowsAt (c : Curvature) (t : ℝ) (u v w : Exact) : Prop :=
  ∃ a b m : ℝ, u = real a ∧ v = real b ∧ w = real m ∧ c.Allows (mix t a b) m

namespace Handler

-- the operands' verdicts and activities, and their values at two points and at one between them
variable [BitPattern Exact] {ι : Type} {es : List ι} {c : ι → Curvature} {xs : ι → Interval Exact} {a b m : ι → ℝ}
  {t : ℝ} {p q r : Point Exact} {u v w : Exact} {verdict : Curvature}
  (hes : ∀ e ∈ es, (c e).Allows (mix t (a e) (b e)) (m e))

include hes

theorem allowsAt_sum {coefs : List Exact} {constant : Exact} (hcoefs : ∀ k ∈ coefs, k.IsReal)
    (hconstant : constant.IsReal)
    (hu : Handler.sum.eval (.sum coefs constant) ((es.map a).map real) p = .ok (some u))
    (hv : Handler.sum.eval (.sum coefs constant) ((es.map b).map real) q = .ok (some v))
    (hw : Handler.sum.eval (.sum coefs constant) ((es.map m).map real) r = .ok (some w))
    (hverdict : Handler.sum.curvature (.sum coefs constant) (es.map c) (es.map xs) = .ok verdict) :
    verdict.AllowsAt t u v w := by
  obtain ⟨ks, rfl⟩ := exists_map_real hcoefs
  obtain ⟨k, rfl⟩ := hconstant
  cases (WeightedSum.eval_real ks (es.map a) k p).symm.trans hu
  cases (WeightedSum.eval_real ks (es.map b) k q).symm.trans hv
  cases (WeightedSum.eval_real ks (es.map m) k r).symm.trans hw
  cases hverdict
  refine ⟨_, _, _, rfl, rfl, rfl, ?_⟩
  rw [mix_add, mix_self, ← WeightedSum.realTotal_mix]
  exact WeightedSum.allows_foldl hes ks (Curvature.allows_self .linear k)

theorem allowsAt_product {coef : Exact} (hcoef : coef.IsReal)
    (hu : Handler.product.eval (.product coef) ((es.map a).map real) p = .ok (some u))
    (hv : Handler.product.eval (.product coef) ((es.map b).map real) q = .ok (some v))
    (hw : Handler.product.eval (.product coef) ((es.map m).map real) r = .ok (some w))
    (hverdict : Handler.product.curvature (.product coef) (es.map c) (es.map xs) = .ok verdict) :
    verdict.AllowsAt t u v w := by
  obtain ⟨k, rfl⟩ := hcoef
  cases (Product.eval_real (es.map a) k p).symm.trans hu
  cases (Product.eval_real (es.map b) k q).symm.trans hv
  cases (Product.eval_real (es.map m) k r).symm.trans hw
  refine ⟨_, _, _, rfl, rfl, rfl, ?_⟩
  match es with
  | [] =>
    cases hverdict
    exact (mix_self t _).symm
  | [e] =>
    cases hverdict
    simp only [List.map_cons, List.map_nil, List.prod_singleton, ← mul_mix]
    exact (hes e List.mem_cons_self).scale k
  | _ :: _ :: _ =>
    cases hverdict
    trivial

variable (ht : 0 ≤ t) (ht' : t ≤ 1)
  (hxs : ∀ e ∈ es, real (a e) ∈ xs e ∧ real (b e) ∈ xs e ∧ real (m e) ∈ xs e)

include ht ht' hxs

theorem allowsAt_abs
    (hu : Handler.abs.eval .abs ((es.map a).map real) p = .ok (some u))
    (hv : Handler.abs.eval .abs ((es.map b).map real) q = .ok (some v))
    (hw : Handler.abs.eval .abs ((es.map m).map real) r = .ok (some w))
    (hverdict : Handler.abs.curvature .abs (es.map c) (es.map xs) = .ok verdict) : verdict.AllowsAt t u v w := by
  cases es with
  | nil => cases hu
  | cons e es =>
    cases hu
    cases hv
    cases hw
    cases hverdict
    obtain ⟨ha, hb, hm⟩ := hxs e List.mem_cons_self
    exact ⟨_, _, _, real_abs _, real_abs _, real_abs _,
      Magnitude.curvature_on.compose Magnitude.absMove_on ha hb hm ht ht' (hes e List.mem_cons_self)⟩

theorem allowsAt_pow (settings : Settings Exact) {exponent : Exact} {n : ℤ} (hn : Scalar.integral? exponent = some n)
    (hu : (Handler.pow settings).eval (.pow exponent) ((es.map a).map real) p = .ok (some u))
    (hv : (Handler.pow settings).eval (.pow exponent) ((es.map b).map real) q = .ok (some v))
    (hw : (Handler.pow settings).eval (.pow exponent) ((es.map m).map real) r = .ok (some w))
    (hverdict : (Handler.pow settings).curvature (.pow exponent) (es.map c) (es.map xs) = .ok verdict) :
    verdict.AllowsAt t u v w := by
  cases es with
  | nil => cases hu
  | cons e es =>
    obtain ⟨hpa, rfl⟩ := Power.eq_of_eval hn p hu
    obtain ⟨hpb, rfl⟩ := Power.eq_of_eval hn q hv
    obtain ⟨hpm, rfl⟩ := Power.eq_of_eval hn r hw
    cases hverdict
    obtain ⟨ha, hb, hm⟩ := hxs e List.mem_cons_self
    exact ⟨_, _, _, rfl, rfl, rfl, (Power.curvatureOn_on hn).compose (Power.monotonicityOn_on hn) ⟨ha, hpa⟩ ⟨hb, hpb⟩
      ⟨hm, hpm⟩ ht ht' (hes e List.mem_cons_self)⟩

/-- **What handlers answer is allowed.** Take operands whose values are real, lie in the activities and are as verdicts
on them allow. The verdict on the operator allows what its values are. -/
theorem allowsAt_default (settings : Settings Exact) {kind : Kind Exact} (hkind : kind.IsAlgebraic)
    {x y : VarId → Option ℝ}
    (hu : (Handler.default settings kind.op).eval kind ((es.map a).map real) (point x) = .ok (some u))
    (hv : (Handler.default settings kind.op).eval kind ((es.map b).map real) (point y) = .ok (some v))
    (hw : (Handler.default settings kind.op).eval kind ((es.map m).map real) (point (between t x y)) = .ok (some w))
    (hverdict : (Handler.default settings kind.op).curvature kind (es.map c) (es.map xs) = .ok verdict) :
    verdict.AllowsAt t u v w := by
  cases kind with
  | var id =>
    obtain ⟨a, ha, rfl⟩ := Option.map_eq_some_iff.mp (Except.ok.inj hu)
    obtain ⟨b, hb, rfl⟩ := Option.map_eq_some_iff.mp (Except.ok.inj hv)
    obtain ⟨m, hm, rfl⟩ := Option.map_eq_some_iff.mp (Except.ok.inj hw)
    rw [between, ha, hb] at hm
    cases hverdict
    exact ⟨a, b, m, rfl, rfl, rfl, (Option.some.inj hm).symm⟩
  | value v =>
    obtain ⟨k, rfl⟩ := hkind
    cases hu
    cases hv
    cases hw
    cases hverdict
    exact ⟨k, k, k, rfl, rfl, rfl, (mix_self t k).symm⟩
  | sum coefs constant => exact allowsAt_sum hes hkind.1 hkind.2 hu hv hw hverdict
  | product coef => exact allowsAt_product hes hkind hu hv hw hverdict
  | abs => exact allowsAt_abs hes ht ht' hxs hu hv hw hverdict
  | pow exponent =>
    obtain ⟨n, hn⟩ := Option.isSome_iff_exists.mp hkind
    exact allowsAt_pow hes ht ht' hxs settings hn hu hv hw hverdict
  | exp | log | sin | cos | entropy => exact hkind.elim

end Handler

end IntervalDag
