import Mathlib.Analysis.SpecialFunctions.Pow.NNReal
import IntervalDag.Proofs.Interval.Roots

/-!
# Ranges of powers with fractional exponents

An exponent that is not taken for a whole number takes the part of an interval that is not negative. There the power is
monotone, also at infinity, with its pole at zero for exponents below zero (`Exact.pow_number`), so that the powers of
the ends are the ends of the range (`Interval.exists_pow_of_none`). Ranges of powers hold the powers of the numbers in
the interval (`Interval.exists_pow_of_size`), for an exponent of any size those of numbers that are not negative.
-/

namespace IntervalDag

open Scalar Exact
open scoped ENNReal

namespace Exact

variable {p r : ℝ} {a b : EReal}

/-- The power of an extended number that is not negative. Zero has an infinite one below the exponent zero. -/
noncomputable def endPow (p : ℝ) (a : EReal) : EReal := ((a.toENNReal ^ p : ℝ≥0∞) : EReal)

theorem endPow_nonneg (p : ℝ) (a : EReal) : 0 ≤ endPow p a := EReal.coe_ennreal_nonneg _

/-- The power is infinite at its pole, and at infinity. -/
theorem endPow_eq_top_iff : endPow p a = ⊤ ↔ a ≤ 0 ∧ p < 0 ∨ a = ⊤ ∧ 0 < p := by
  rw [endPow, EReal.coe_ennreal_eq_top_iff, ENNReal.rpow_eq_top_iff, EReal.toENNReal_eq_zero_iff,
    EReal.toENNReal_eq_top_iff]

theorem endPow_mono (hp : 0 ≤ p) (h : a ≤ b) : endPow p a ≤ endPow p b :=
  EReal.coe_ennreal_le_coe_ennreal_iff.mpr (ENNReal.rpow_le_rpow (EReal.toENNReal_le_toENNReal h) hp)

theorem endPow_anti (hp : p ≤ 0) (h : a ≤ b) : endPow p b ≤ endPow p a := by
  obtain ⟨q, rfl⟩ : ∃ q, p = -q := ⟨-p, (neg_neg p).symm⟩
  rw [endPow, endPow, EReal.coe_ennreal_le_coe_ennreal_iff, ENNReal.rpow_neg, ENNReal.rpow_neg, ENNReal.inv_le_inv]
  exact ENNReal.rpow_le_rpow (EReal.toENNReal_le_toENNReal h) (neg_nonpos.mp hp)

theorem endPow_real (hr : 0 ≤ r) (h : HasPower r p) : endPow p r = ((r ^ p : ℝ) : EReal) := by
  rw [endPow, EReal.toENNReal_of_ne_top (EReal.coe_ne_top r), EReal.toReal_coe]
  rcases hr.eq_or_lt with rfl | hpos
  · rw [ENNReal.ofReal_rpow_of_nonneg le_rfl (h.nonneg_of_eq_zero rfl),
      EReal.coe_ennreal_ofReal, max_eq_left (Real.rpow_nonneg le_rfl p)]
  · rw [ENNReal.ofReal_rpow_of_pos hpos, EReal.coe_ennreal_ofReal, max_eq_left (Real.rpow_nonneg hr p)]

/-- The power of a number that is not negative. -/
theorem pow_number (ha : 0 ≤ a) (p : ℝ) : Scalar.pow (number a) (real p) = number (endPow p a) := by
  induction a with
  | bot => exact absurd ha EReal.bot_lt_zero.not_ge
  | coe r =>
    have hr : 0 ≤ r := EReal.coe_nonneg.mp ha
    by_cases hpole : r = 0 ∧ p < 0
    · obtain ⟨rfl, hp⟩ := hpole
      change pow (real 0) (number p) = _
      simp [pow, real, hp.ne, IsInfinite, realPow, hp, endPow, ENNReal.zero_rpow_of_neg hp]
    · have hpower : HasPower r p := ⟨fun h => absurd h hr.not_gt, fun h => not_lt.mp fun hp => hpole ⟨h, hp⟩⟩
      rw [endPow_real hr hpower]
      exact pow_real hpower
  | top =>
    change pow (number ⊤) (number p) = _
    have hone : (⊤ : EReal) ≠ 1 := (EReal.coe_ne_top 1).symm
    rcases lt_trichotomy p 0 with hp | rfl | hp
    · simp [pow, IsInfinite, hp, hp.ne, hone, endPow, ENNReal.top_rpow_of_neg hp]
    · simp [pow, endPow]
    · simp [pow, IsInfinite, hp.ne', hp.not_gt, hone, endPow, ENNReal.top_rpow_of_pos hp]

end Exact

namespace Interval

variable {x : Interval Exact} {p r : ℝ}

open Classical in
theorem beq_zero_of_integral? {p : Exact} (hn : Scalar.integral? p = none) : (p == 0) = false := by
  cases p with
  | nan => exact decide_eq_false id
  | number p =>
    refine Bool.eq_false_iff.mpr fun hp => ?_
    obtain rfl : p = 0 := by simpa [zero_def] using hp
    have hzero := integral?_real (n := 0) (by decide)
    rw [Int.cast_zero, real, EReal.coe_zero, hn] at hzero
    cases hzero

/-- The part of a proper interval that is not negative, if there is one. -/
theorem exists_nonnegative (hx : x.IsProper) (hpart : (x.inter nonnegative).isEmpty = false) :
    ∃ a b : EReal, x.inter nonnegative = ⟨number a, number b⟩ ∧ 0 ≤ a ∧ a ≤ b ∧ a ≠ ⊤ := by
  have hnonneg : (nonnegative : Interval Exact).IsProper := isProper_of_real_mem (real_mem_nonnegative.mpr le_rfl)
  have hproper := (isRegular_inter hx hnonneg).resolve_left (Bool.eq_false_iff.mp hpart)
  have hsub := inter_isSubset x hnonneg
  obtain ⟨a, b, hends, hab, ha, -⟩ := hproper.exists_ends
  rw [hends] at hpart hsub
  exact ⟨a, b, hends, ((isSubset_iff hpart).mp hsub).1, hab, ha⟩

theorem sup_inter_nonnegative (hx : x.IsProper) (hpart : (x.inter nonnegative).isEmpty = false) :
    (x.inter nonnegative).sup = x.sup := by
  obtain ⟨a, b, rfl, -⟩ := hx.exists_ends
  rw [nonnegative, zero_def, posInf_def, inter_number] at hpart ⊢
  split_ifs at hpart ⊢
  · rw [isEmpty_empty] at hpart
    cases hpart
  · rw [min_top_right]

/-- An exponent that is not taken for a whole number takes the part that is not negative. -/
theorem pow_of_none {p : Exact} (hn : Scalar.integral? p = none) (hx : x.isEmpty = false) :
    x.pow p = if (x.inter nonnegative).isEmpty then .ok empty
      else if 0 < p then ofBounds (Scalar.pow (x.inter nonnegative).inf p) (Scalar.pow (x.inter nonnegative).sup p)
      else ofBounds (Scalar.pow (x.inter nonnegative).sup p) (Scalar.pow (x.inter nonnegative).inf p) := by
  rw [pow, hx, if_neg Bool.false_ne_true, beq_zero_of_integral? hn, if_neg Bool.false_ne_true, hn]

/-- **Powers of the part that is not negative.** -/
theorem exists_pow_of_none (hn : Scalar.integral? (real p) = none) (hx : x.IsProper)
    (hpart : (x.inter nonnegative).isEmpty = false) : ∃ a b : EReal,
      x.inter nonnegative = ⟨number a, number b⟩ ∧ 0 ≤ a ∧ a ≤ b ∧ a ≠ ⊤ ∧
        x.pow (real p) = .ok (if 0 < p then ⟨number (endPow p a), number (endPow p b)⟩
          else ⟨number (endPow p b), number (endPow p a)⟩) := by
  obtain ⟨a, b, hends, ha, hab, ha'⟩ := exists_nonnegative hx hpart
  refine ⟨a, b, hends, ha, hab, ha', ?_⟩
  rw [pow_of_none hn hx.nonempty, hpart, if_neg Bool.false_ne_true, hends, pow_number ha, pow_number (ha.trans hab),
    ofBounds_number, ofBounds_number]
  by_cases hp : 0 < p
  · rw [if_pos hp, if_pos (real_pos.mpr hp)]
  · rw [if_neg hp, if_neg (mt real_pos.mp hp)]

/-- **Ranges of powers** hold the powers of the numbers in an interval, for an exponent of any size those of numbers
that are not negative. -/
theorem exists_pow_of_size (hsmall : r < 0 → |p| < 2 ^ 31 - 1) (hpower : HasPower r p) (hx : real r ∈ x) :
    ∃ z, x.pow (real p) = .ok z ∧ real (r ^ p) ∈ z := by
  cases hn : Scalar.integral? (real p) with
  | some n =>
    obtain rfl : p = n := EReal.coe_eq_coe_iff.mp (number.inj (eq_real_of_integral? hn))
    have hpole : ¬ (r = 0 ∧ n < 0) := fun h => (hpower.nonneg_of_eq_zero h.1).not_gt (Int.cast_lt_zero.mpr h.2)
    rw [Real.rpow_intCast]
    exact real_mem_pow hx hn hpole
  | none =>
    have hr := nonneg_of_integral? hn hpower hsmall
    have hmem : real r ∈ x.inter nonnegative := mem_inter hx (real_mem_nonnegative.mpr hr)
    obtain ⟨a, b, hends, ha, hab, -, heq⟩ :=
      exists_pow_of_none hn (isProper_of_real_mem hx) (isEmpty_of_mem hmem)
    rw [hends] at hmem
    obtain ⟨har, hrb⟩ := real_mem_number.mp hmem
    refine ⟨_, heq, ?_⟩
    split_ifs with hp
    · rw [real_mem_number, ← endPow_real hr hpower]
      exact ⟨endPow_mono hp.le har, endPow_mono hp.le hrb⟩
    · rw [real_mem_number, ← endPow_real hr hpower]
      exact ⟨endPow_anti (not_lt.mp hp) hrb, endPow_anti (not_lt.mp hp) har⟩

end Interval

end IntervalDag
