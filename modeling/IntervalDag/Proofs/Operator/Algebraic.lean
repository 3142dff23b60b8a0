import IntervalDag.Operator.Table
import IntervalDag.Proofs.Interval.Exact
import IntervalDag.Proofs.Propagation.Activities

/-!
# Ranges of algebraic operators

Variables, constants, sums, products, magnitudes and powers with whole exponents have real values at real points, and
over exact arithmetic the ranges of their handlers hold these (`Handler.enclosesAt_default`). A product and its range go
through the factors in the same order, and so does a sum. A power is computed by the power function at a point and by
repeated squaring and a reciprocal over an interval.
-/

namespace IntervalDag

open Scalar Exact

/-- The value is a real number. -/
def Exact.IsReal (a : Exact) : Prop := ∃ r, a = real r

/-- A point of real numbers. -/
def Exact.point (x : VarId → Option ℝ) : Point Exact := fun v => (x v).map real

theorem Exact.isReal_of_point {x : VarId → Option ℝ} {v : VarId} {a : Exact} (h : point x v = some a) : a.IsReal := by
  obtain ⟨r, -, hr⟩ := Option.map_eq_some_iff.mp h
  exact ⟨r, hr.symm⟩

/-- The operators of arithmetic, with data that are real numbers. -/
def Kind.IsAlgebraic : Kind Exact → Prop
  | .var _ | .abs => True
  | .value v => v.IsReal
  | .sum coefs constant => (∀ c ∈ coefs, c.IsReal) ∧ constant.IsReal
  | .product coef => coef.IsReal
  | .pow exponent => (Scalar.integral? exponent).isSome = true
  | .exp | .log | .sin | .cos | .entropy => False

/-- Real values are the images of real numbers. -/
theorem Exact.exists_map_real {as : List Exact} (h : ∀ a ∈ as, a.IsReal) : ∃ rs : List ℝ, as = rs.map real := by
  induction as with
  | nil => exact ⟨[], rfl⟩
  | cons a as ih =>
    obtain ⟨⟨r, rfl⟩, has⟩ := List.forall_mem_cons.mp h
    obtain ⟨rs, rfl⟩ := ih has
    exact ⟨r :: rs, rfl⟩

/-! ### Sums -/

namespace WeightedSum

/-- The weighted sum of real numbers. -/
def realTotal (coefs rs : List ℝ) : ℝ := ((coefs.zip rs).map fun (c, r) => c * r).sum

theorem realTotal_cons (c r : ℝ) (coefs rs : List ℝ) :
    realTotal (c :: coefs) (r :: rs) = c * r + realTotal coefs rs := rfl

theorem total_real (coefs rs : List ℝ) : total (coefs.map real) (rs.map real) = real (realTotal coefs rs) := by
  have hfoldl : ∀ (coefs rs : List ℝ) (acc : ℝ), ((coefs.map real).zip (rs.map real)).foldl
      (fun acc (c, x) => acc + c * x) (real acc) = real (acc + realTotal coefs rs) := by
    intro coefs
    induction coefs with
    | nil => simp [realTotal]
    | cons c coefs ih =>
      intro rs acc
      cases rs with
      | nil => simp [realTotal]
      | cons r rs =>
        simp only [List.map_cons, List.zip_cons_cons, List.foldl_cons, real_mul, real_add, ih, realTotal_cons]
        rw [add_assoc]
  rw [total, ← real_zero, real_neg, neg_zero, hfoldl, zero_add]

theorem eval_real (coefs rs : List ℝ) (k : ℝ) (point : Point Exact) :
    eval (.sum (coefs.map real) (real k)) (rs.map real) point = .ok (some (real (k + realTotal coefs rs))) := by
  rw [← real_add, ← total_real]
  rfl

theorem real_mem_range {rs : List ℝ} {xs : List (Interval Exact)} (hxs : List.Forall₂ (· ∈ ·) (rs.map real) xs)
    (coefs : List ℝ) {start : Interval Exact} {t : ℝ} (hstart : real t ∈ start) :
    ∃ z, range start ((coefs.map real).zip xs) = .ok z ∧ real (t + realTotal coefs rs) ∈ z := by
  induction coefs generalizing rs xs start t with
  | nil => exact ⟨start, rfl, by simpa [realTotal] using hstart⟩
  | cons c coefs ih =>
    cases rs with
    | nil =>
      obtain rfl := List.forall₂_nil_left_iff.mp hxs
      exact ⟨start, rfl, by simpa [realTotal] using hstart⟩
    | cons r rs =>
      obtain ⟨x, xs, hx, hrest, rfl⟩ := List.forall₂_cons_left_iff.mp hxs
      obtain ⟨scaled, hscaled, hmem⟩ := Interval.real_mem_scale hx c
      obtain ⟨sum, hsum, hmem⟩ := Interval.real_mem_add hstart hmem
      obtain ⟨z, hz, hmem⟩ := ih hrest hmem
      refine ⟨z, ?_, ?_⟩
      · simp only [range, List.map_cons, List.zip_cons_cons, List.foldlM_cons, hscaled, hsum, Checked.ok_bind]
        exact hz
      · rwa [realTotal_cons, ← add_assoc, mul_comm c r]

end WeightedSum

/-! ### Products -/

namespace Product

theorem foldl_real (rs : List ℝ) (acc : ℝ) :
    (rs.map real).foldl (· * ·) (real acc) = real (acc * rs.prod) := by
  induction rs generalizing acc with
  | nil => simp
  | cons r rs ih => simp [ih, mul_assoc]

theorem eval_real (rs : List ℝ) (c : ℝ) (point : Point Exact) :
    eval (.product (real c)) (rs.map real) point = .ok (some (real (c * rs.prod))) := by
  have hfoldl := foldl_real rs 1
  rw [one_mul, real_one] at hfoldl
  rw [← real_mul, ← hfoldl]
  rfl

theorem real_mem_range {rs : List ℝ} {xs : List (Interval Exact)} (hxs : List.Forall₂ (· ∈ ·) (rs.map real) xs) :
    real rs.prod ∈ range xs := by
  have hfoldl : ∀ (rs : List ℝ) (xs : List (Interval Exact)) (acc : Interval Exact) (t : ℝ),
      List.Forall₂ (· ∈ ·) (rs.map real) xs → real t ∈ acc → real (t * rs.prod) ∈ xs.foldl (· * ·) acc := by
    intro rs
    induction rs with
    | nil =>
      intro xs acc t hxs hacc
      obtain rfl := List.forall₂_nil_left_iff.mp hxs
      simpa using hacc
    | cons r rs ih =>
      intro xs acc t hxs hacc
      obtain ⟨x, xs, hx, hrest, rfl⟩ := List.forall₂_cons_left_iff.mp hxs
      rw [List.prod_cons, ← mul_assoc]
      exact ih xs _ _ hrest (Interval.real_mem_mul hacc hx)
  have hone : real 1 ∈ (⟨1, 1⟩ : Interval Exact) := by
    rw [← real_one]
    exact Interval.real_mem_iff.mpr ⟨_, _, rfl, le_refl _, le_refl _⟩
  simpa [range] using hfoldl rs xs _ 1 hxs hone

end Product

/-! ### Powers -/

/-- A power that has a value is not taken at a pole. -/
theorem Power.eq_of_eval {p : Exact} {n : ℤ} (hp : Scalar.integral? p = some n) {r : ℝ} {operands : List Exact}
    (point : Point Exact) {v : Exact} (hv : eval (.pow p) (real r :: operands) point = .ok (some v)) :
    ¬ (r = 0 ∧ n < 0) ∧ v = real (r ^ n) := by
  have hv : (if isFinite (Scalar.pow (real r) p) = true then some (Scalar.pow (real r) p) else none) = some v :=
    Except.ok.inj hv
  split_ifs at hv with hfinite
  rw [eq_real_of_integral? hp] at hv hfinite
  have hpole : ¬ (r = 0 ∧ n < 0) := by
    rintro ⟨rfl, hn⟩
    rw [pow_zero_of_neg hn] at hfinite
    simp at hfinite
  rw [pow_real_int hpole] at hv
  exact ⟨hpole, (Option.some.inj hv).symm⟩

/-! ### All operators -/

namespace Handler

variable [BitPattern Exact] {point : Point Exact} {rs : List ℝ} {v : Exact}

theorem enclosesAt_sum {coefs : List Exact} {constant : Exact} (hcoefs : ∀ c ∈ coefs, c.IsReal)
    (hconstant : constant.IsReal)
    (hv : Handler.sum.eval (.sum coefs constant) (rs.map real) point = .ok (some v)) :
    v.IsReal ∧ Handler.sum.EnclosesAt point (.sum coefs constant) (rs.map real) v := by
  obtain ⟨cs, rfl⟩ := exists_map_real hcoefs
  obtain ⟨k, rfl⟩ := hconstant
  have hvalue : v = real (k + WeightedSum.realTotal cs rs) :=
    (Option.some.inj (Except.ok.inj ((WeightedSum.eval_real cs rs k point).symm.trans hv))).symm
  refine ⟨⟨_, hvalue⟩, fun vars xs _ hxs => ?_⟩
  obtain ⟨start, hstart, hmem⟩ := Interval.real_mem_point k
  obtain ⟨z, hz, hmem⟩ := WeightedSum.real_mem_range hxs cs hmem
  refine ⟨.plain z, ?_, hvalue ▸ hmem⟩
  change WeightedSum.interval _ xs vars = _
  simp only [WeightedSum.interval, WeightedSum.parts, hstart, Checked.ok_bind, hz]
  rfl

theorem enclosesAt_product {coef : Exact} (hcoef : coef.IsReal)
    (hv : Handler.product.eval (.product coef) (rs.map real) point = .ok (some v)) :
    v.IsReal ∧ Handler.product.EnclosesAt point (.product coef) (rs.map real) v := by
  obtain ⟨c, rfl⟩ := hcoef
  have hvalue : v = real (rs.prod * c) := by
    rw [mul_comm]
    exact (Option.some.inj (Except.ok.inj ((Product.eval_real rs c point).symm.trans hv))).symm
  refine ⟨⟨_, hvalue⟩, fun vars xs _ hxs => ?_⟩
  obtain ⟨z, hz, hmem⟩ := Interval.real_mem_scale (Product.real_mem_range hxs) c
  refine ⟨.plain z, ?_, hvalue ▸ hmem⟩
  change Product.interval _ xs vars = _
  simp only [Product.interval, Product.coef, hz, Checked.ok_bind]
  rfl

theorem enclosesAt_abs (hv : Handler.abs.eval .abs (rs.map real) point = .ok (some v)) :
    v.IsReal ∧ Handler.abs.EnclosesAt point .abs (rs.map real) v := by
  cases rs with
  | nil => cases hv
  | cons r rs =>
    have hv : Scalar.abs (real r) = v := Option.some.inj (Except.ok.inj hv)
    rw [real_abs] at hv
    refine ⟨⟨_, hv.symm⟩, fun vars xs _ hxs => ?_⟩
    obtain ⟨x, xs, hx, -, rfl⟩ := List.forall₂_cons_left_iff.mp hxs
    exact ⟨.plain x.abs, rfl, hv ▸ Interval.real_mem_abs hx⟩

theorem enclosesAt_pow (settings : Settings Exact) {p : Exact} {n : ℤ} (hp : Scalar.integral? p = some n)
    (hv : (Handler.pow settings).eval (.pow p) (rs.map real) point = .ok (some v)) :
    v.IsReal ∧ (Handler.pow settings).EnclosesAt point (.pow p) (rs.map real) v := by
  cases rs with
  | nil => cases hv
  | cons r rs =>
    obtain ⟨hpole, rfl⟩ := Power.eq_of_eval hp point hv
    refine ⟨⟨_, rfl⟩, fun vars xs _ hxs => ?_⟩
    obtain ⟨x, xs, hx, -, rfl⟩ := List.forall₂_cons_left_iff.mp hxs
    obtain ⟨z, hz, hmem⟩ := Interval.real_mem_pow hx hp hpole
    refine ⟨.plain z, ?_, hmem⟩
    change Power.interval settings (.pow p) (x :: xs) vars = _
    have hwhole : Power.hasPole p = false := by simp [Power.hasPole, hp]
    simp only [Power.interval, Power.exponent, Checked.first, Checked.get, hwhole, List.getElem?_cons_zero,
      Checked.ok_bind, Bool.false_eq_true, if_false, Noted.plain, hz]
    rfl

/-- **Ranges of algebraic operators.** Where the point and the operands are real, so is the value, and the range
holds it. -/
theorem enclosesAt_default (settings : Settings Exact) {kind : Kind Exact} (hkind : kind.IsAlgebraic)
    (hpoint : ∀ id r, point id = some r → r.IsReal) {operands : List Exact} (hoperands : ∀ u ∈ operands, u.IsReal)
    (hv : (Handler.default settings kind.op).eval kind operands point = .ok (some v)) :
    v.IsReal ∧ (Handler.default settings kind.op).EnclosesAt point kind operands v := by
  obtain ⟨rs, rfl⟩ := exists_map_real hoperands
  cases kind with
  | var id =>
    have hv : point id = some v := Except.ok.inj hv
    exact ⟨hpoint id v hv, fun vars xs hvars _ => ⟨.plain (vars id), rfl, hvars id v hv⟩⟩
  | value c =>
    obtain rfl : c = v := Option.some.inj (Except.ok.inj hv)
    obtain ⟨r, rfl⟩ := hkind
    refine ⟨⟨r, rfl⟩, fun vars xs _ _ => ?_⟩
    obtain ⟨z, hz, hmem⟩ := Interval.real_mem_point r
    refine ⟨.plain z, ?_, hmem⟩
    change (do return Noted.plain (← Interval.point (real r))) = Except.ok (Noted.plain z)
    rw [hz, Checked.ok_bind]
    rfl
  | sum coefs constant => exact enclosesAt_sum hkind.1 hkind.2 hv
  | product coef => exact enclosesAt_product hkind hv
  | abs => exact enclosesAt_abs hv
  | pow p =>
    obtain ⟨n, hn⟩ := Option.isSome_iff_exists.mp hkind
    exact enclosesAt_pow settings hn hv
  | exp | log | sin | cos | entropy => exact hkind.elim

end Handler

end IntervalDag
