import IntervalDag.Proofs.Interval.PowerRanges
import IntervalDag.Proofs.Operator.Algebraic
import IntervalDag.Proofs.Operator.Poles

/-!
# Powers at points and over intervals

Where a power has a value at a point, its range over an interval around the point holds the value, and bounds around
the value leave the point in the interval (`Power.points_agree`). This needs what the operator asks of a base: one next
to a pole is at the smallest distance from it.

Whole exponents are told from others up to a magnitude of `2 ^ 31 - 1`. Beyond it the function at points goes on to take
whole exponents of numbers below zero, but over intervals they are dropped (`Power.interval_of_neg`).
-/

namespace IntervalDag

open Scalar Exact

/-! ### Values at points -/

theorem Exact.pow_eq_realPow (r p : ℝ) : Scalar.pow (real r) (real p) = realPow r p := by
  by_cases hone : p = 0 ∨ r = 1
  · have h : HasPower r p := by
      rcases hone with rfl | rfl
      · exact ⟨fun _ => ⟨0, Int.cast_zero.symm⟩, fun _ => le_rfl⟩
      · exact ⟨fun h => absurd h one_pos.not_gt, fun h => absurd h one_ne_zero⟩
    rw [pow_real h, realPow_of_hasPower h]
  · change pow (number r) (number p) = _
    simp [pow, hone, IsInfinite]

/-- Fractions, and whole numbers of a magnitude from `2 ^ 31 - 1` on, are not taken for whole numbers. -/
theorem Exact.integral?_eq_none {p : ℝ} (h : ∀ n : ℤ, p = n → 2 ^ 31 - 1 ≤ |n|) :
    Scalar.integral? (real p) = none :=
  if_neg fun hn => (h ⌊p⌋ (EReal.coe_eq_coe_iff.mp hn.1)).not_gt hn.2

theorem Exact.integral?_neg_half : Scalar.integral? (real (-1 / 2)) = none := integral?_eq_none fun n hn => by
  have htwice : 2 * n = -1 := by exact_mod_cast (by linarith : 2 * (n : ℝ) = -1)
  omega

namespace Power

variable {settings : Settings Exact} {p r : ℝ} {x bounds : Interval Exact} {v : Exact} {point : Point Exact}

/-- A power has a value exactly where real numbers have one. -/
theorem eval_eq_some_iff : eval (.pow (real p)) [real r] point = .ok (some v) ↔ HasPower r p ∧ v = real (r ^ p) := by
  have heval : eval (.pow (real p)) [real r] point =
      .ok (if isFinite (realPow r p) = true then some (realPow r p) else none) := by
    rw [← pow_eq_realPow]
    rfl
  rw [heval, Except.ok.injEq]
  constructor
  · intro hv
    split_ifs at hv with hfinite
    have hpower : HasPower r p := by
      constructor
      · intro hr
        by_contra hfrac
        rw [realPow, if_neg fun h => hr.ne h.1, if_pos ⟨hr, hfrac⟩] at hfinite
        obtain ⟨_, hreal⟩ := Interval.exists_real_of_isFinite hfinite
        cases hreal
      · intro hr
        by_contra hp
        rw [realPow, if_pos ⟨hr, not_le.mp hp⟩] at hfinite
        simp at hfinite
    rw [realPow_of_hasPower hpower] at hv
    exact ⟨hpower, (Option.some.inj hv).symm⟩
  · rintro ⟨hpower, rfl⟩
    rw [realPow_of_hasPower hpower, if_pos (Interval.isFinite_real _)]

/-! ### Ranges and bases -/

/-- The base over which a power is evaluated. -/
noncomputable def base (settings : Settings Exact) (p : Exact) (x : Interval Exact) : Noted Exact (Interval Exact) :=
  if hasPole p then settings.raiseLower "pow" x else .plain x

theorem interval_eq (settings : Settings Exact) (p : Exact) (x : Interval Exact) (vars : VarId → Interval Exact) :
    interval settings (.pow p) [x] vars = (⟨·, (base settings p x).notice⟩) <$> (base settings p x).value.pow p := by
  rw [map_eq_pure_bind]
  rfl

theorem real_mem_base (hr : real r ∈ x) (hpole : hasPole (real p) = true → settings.minZeroDistance ≤ real r) :
    real r ∈ (base settings (real p) x).value := by
  rw [base]
  split_ifs with hp
  · exact settings.real_mem_raiseLower (hpole hp) hr "pow"
  · exact hr

/-- What is left of a base within bounds. -/
theorem exists_reverse {z : Interval Exact} {p : Exact} (hz : Interval.powInverse bounds p x = .ok z)
    (settings : Settings Exact) : ∃ y : Noted Exact (Interval Exact),
      reverse settings (.pow p) bounds [x] = .ok ⟨⟨Feasibility.ofOperands [y.value], [y.value]⟩, y.notice⟩ ∧
        (∀ r, real r ∈ z → real r ∈ y.value) ∧ (z.IsRegular → y.value.IsRegular) := by
  refine ⟨if hasPole p then settings.relaxUpper "pow" z else .plain z, ?_, fun r hr => ?_, fun hregular => ?_⟩
  · rw [reverse, exponent, Checked.ok_bind]
    refine Handler.narrowFirst_cons ?_ []
    rw [hz, Checked.ok_bind]
    rfl
  · split_ifs
    · exact settings.real_mem_relaxUpper hr "pow"
    · exact hr
  · split_ifs
    · exact settings.isRegular_relaxUpper hregular "pow"
    · exact hregular

/-- An exponent that is not taken for a whole number has no range over numbers below zero. -/
theorem interval_of_neg {p : Exact} (hn : Scalar.integral? p = none) {a b : EReal} (hab : a ≤ b) (hb : b < 0)
    (settings : Settings Exact) (vars : VarId → Interval Exact) :
    interval settings (.pow p) [⟨number a, number b⟩] vars = .ok (.plain .empty) := by
  have hnonempty : (⟨number a, number b⟩ : Interval Exact).isEmpty = false :=
    Bool.eq_false_iff.mpr (mt Interval.isEmpty_number.mp hab.not_gt)
  have hbase : base settings p ⟨number a, number b⟩ = .plain ⟨number a, number b⟩ := by
    rw [base]
    split_ifs
    · exact if_neg fun h => hb.not_gt h.2.2
    · rfl
  have hpart : (⟨number a, number b⟩ : Interval Exact).inter Interval.nonnegative = .empty := by
    rw [Interval.nonnegative, zero_def, posInf_def, Interval.inter_number, if_pos]
    rw [min_eq_left le_top]
    exact lt_max_of_lt_right hb
  rw [interval_eq, hbase, Noted.plain, Interval.pow_of_none hn hnonempty, hpart, if_pos Interval.isEmpty_empty]
  rfl

/-! ### Agreement -/

/-- **Powers at points and over intervals agree**, except for whole exponents of a magnitude from `2 ^ 31 - 1` on at
bases below zero, and for bases nearer to a pole than the smallest distance. -/
theorem points_agree (settings : Settings Exact) (vars : VarId → Interval Exact) (hsmall : r < 0 → |p| < 2 ^ 31 - 1)
    (hpole : hasPole (real p) = true → settings.minZeroDistance ≤ real r) (hr : real r ∈ x)
    (hv : eval (.pow (real p)) [real r] point = .ok (some v)) :
    (∃ n, interval settings (.pow (real p)) [x] vars = .ok n ∧ v ∈ n.value) ∧
      ∀ bounds, v ∈ bounds → ∃ n, reverse settings (.pow (real p)) bounds [x] = .ok n ∧
        n.value.verdict = .feasible ∧ ∃ y, n.value.operands = [y] ∧ real r ∈ y := by
  obtain ⟨hpower, rfl⟩ := eval_eq_some_iff.mp hv
  refine ⟨?_, fun bounds hbounds => ?_⟩
  · obtain ⟨z, hz, hmem⟩ := Interval.exists_pow_of_size hsmall hpower (real_mem_base hr hpole)
    exact ⟨⟨z, (base settings (real p) x).notice⟩, by rw [interval_eq, hz]; rfl, hmem⟩
  · obtain ⟨z, hz, -, hkeeps⟩ := Interval.exists_powInverse_of_size
      (Or.inr (Interval.isProper_of_real_mem hbounds)) (Or.inr (Interval.isProper_of_real_mem hr)) p
    obtain ⟨y, hy, hkept, -⟩ := exists_reverse hz settings
    have hmem := hkept r (hkeeps r hsmall hr hpower hbounds)
    exact ⟨_, hy, Feasibility.ofOperands_singleton (Interval.isEmpty_of_mem hmem), y.value, rfl, hmem⟩

/-- The reciprocal of a square root, over an interval that reaches across the pole. -/
theorem points_agree_of_root :
    let settings : Settings Exact := ⟨real 1, real 0, 1, false⟩
    let x : Interval Exact := ⟨real (-1), real 9⟩
    hasPole (real (-1 / 2)) = true ∧ settings.minZeroDistance ≤ real 4 ∧ real 4 ∈ x ∧
      eval (.pow (real (-1 / 2))) [real 4] (fun _ => none) = .ok (some (real (1 / 2))) ∧
      (∃ n, interval settings (.pow (real (-1 / 2))) [x] (fun _ => .entire) = .ok n ∧ real (1 / 2) ∈ n.value) ∧
      ∃ n, reverse settings (.pow (real (-1 / 2))) ⟨real (1 / 2), real 1⟩ [x] = .ok n ∧
        n.value.verdict = .feasible ∧ ∃ y, n.value.operands = [y] ∧ real 4 ∈ y := by
  intro settings x
  have hpole : hasPole (real (-1 / 2)) = true := by
    rw [hasPole, integral?_neg_half, ← real_zero]
    exact Bool.and_eq_true_iff.mpr ⟨decide_eq_true (real_lt_real.mpr (by norm_num)), rfl⟩
  have hdistance : settings.minZeroDistance ≤ real 4 := EReal.coe_le_coe_iff.mpr (by norm_num)
  have hr : real 4 ∈ x := Interval.real_mem_real.mpr ⟨by norm_num, by norm_num⟩
  have hvalue : (4 : ℝ) ^ (-1 / 2 : ℝ) = 1 / 2 := by
    rw [show (4 : ℝ) = 2 ^ (2 : ℝ) by norm_num, ← Real.rpow_mul two_pos.le]
    norm_num [Real.rpow_neg_one]
  have hv : eval (.pow (real (-1 / 2))) [real 4] (fun _ => none) = .ok (some (real (1 / 2))) :=
    eval_eq_some_iff.mpr ⟨⟨fun h => absurd h (by norm_num), fun h => absurd h (by norm_num)⟩, by rw [hvalue]⟩
  have hbounds : real (1 / 2) ∈ (⟨real (1 / 2), real 1⟩ : Interval Exact) :=
    Interval.real_mem_real.mpr ⟨le_rfl, by norm_num⟩
  obtain ⟨hrange, hkept⟩ := points_agree settings (fun _ => .entire) (fun h => absurd h (by norm_num))
    (fun _ => hdistance) hr hv
  exact ⟨hpole, hdistance, hr, hv, hrange, hkept _ hbounds⟩

/-- The even power of `-1` with an exponent beyond the bound is in no range. -/
theorem not_forall_points_agree :
    ¬ ∀ (settings : Settings Exact) (vars : VarId → Interval Exact) (point : Point Exact) (p r : ℝ)
      (x : Interval Exact) (v : Exact), (p < 0 → (¬ ∃ n : ℤ, p = n) → settings.minZeroDistance ≤ real r) → real r ∈ x →
      eval (.pow (real p)) [real r] point = .ok (some v) →
        (∃ n, interval settings (.pow (real p)) [x] vars = .ok n ∧ v ∈ n.value) ∧
          ∀ bounds, v ∈ bounds → ∃ n, reverse settings (.pow (real p)) bounds [x] = .ok n ∧
            n.value.verdict = .feasible ∧ ∃ y, n.value.operands = [y] ∧ real r ∈ y := by
  intro h
  have hlarge : Scalar.integral? (real (2 ^ 31)) = none := integral?_eq_none fun n hn => by
    have hn : n = 2 ^ 31 := by exact_mod_cast hn.symm
    rw [hn]
    decide
  have hpower : HasPower (-1) (2 ^ 31) := ⟨fun _ => ⟨2 ^ 31, by norm_num⟩, fun _ => by positivity⟩
  have hempty := interval_of_neg hlarge (a := ((-1 : ℝ) : EReal)) le_rfl (EReal.coe_neg'.mpr (by norm_num)) default
    fun _ => .entire
  obtain ⟨⟨n, hn, hmem⟩, -⟩ := h default (fun _ => .entire) (fun _ => none) (2 ^ 31) (-1) ⟨real (-1), real (-1)⟩ _
    (fun hneg => absurd hneg (by positivity : (0 : ℝ) < 2 ^ 31).not_gt)
    (Interval.real_mem_real.mpr ⟨le_rfl, le_rfl⟩) (eval_eq_some_iff.mpr ⟨hpower, rfl⟩)
  cases hempty.symm.trans hn
  exact Interval.real_notMem_of_isEmpty Interval.isEmpty_empty _ hmem

end Power

end IntervalDag
