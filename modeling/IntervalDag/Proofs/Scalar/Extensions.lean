import Mathlib.Analysis.SpecialFunctions.Log.ENNRealLog
import Mathlib.Analysis.SpecialFunctions.Log.ERealExp
import IntervalDag.Proofs.Scalar.Exact

/-!
# Exponentials and logarithms of extended numbers

The exponential function and the natural logarithm are monotone on the extended real line, the logarithm from zero on
(`Exact.exp_number`, `Exact.ln_number`). They take no real number to an infinity, but for the pole of the logarithm at
zero. On all extended numbers that they apply to they answer with a number.
-/

namespace IntervalDag

open Scalar

namespace Exact

variable {a b : EReal}

/-! ### Exponentials -/

/-- The exponential function of an extended number. -/
noncomputable def endExp (a : EReal) : EReal := (EReal.exp a : EReal)

theorem exp_number (a : EReal) : Scalar.exp (number a) = number (endExp a) := by
  change lift (fun r => real (Real.exp r)) (number 0) (number ⊤) (number a) = _
  induction a with
  | bot => simp [lift, endExp]
  | coe r => simp [lift, endExp, real, (Real.exp_pos r).le]
  | top => simp [lift, endExp]

theorem endExp_mono (h : a ≤ b) : endExp a ≤ endExp b :=
  EReal.coe_ennreal_le_coe_ennreal_iff.mpr (EReal.exp_monotone h)

theorem endExp_nonneg (a : EReal) : 0 ≤ endExp a := EReal.coe_ennreal_nonneg _

theorem endExp_ne_top (h : a ≠ ⊤) : endExp a ≠ ⊤ :=
  EReal.coe_ennreal_eq_top_iff.not.mpr (EReal.exp_eq_top_iff.not.mpr h)

/-! ### Logarithms -/

/-- The logarithm of an extended number from zero on, where it is infinite. -/
noncomputable def endLn (a : EReal) : EReal := ENNReal.log a.toENNReal

theorem ln_number (ha : 0 ≤ a) : Scalar.ln (number a) = number (endLn a) := by
  change lift (fun r => if r < 0 then .nan else if r = 0 then .number ⊥ else real (Real.log r)) .nan (.number ⊤)
    (number a) = _
  induction a with
  | bot => exact absurd ha EReal.bot_lt_zero.not_ge
  | coe r =>
    have hr : 0 ≤ r := EReal.coe_nonneg.mp ha
    have hlog : endLn r = if r ≤ 0 then ⊥ else (Real.log r : EReal) := by
      rw [endLn, EReal.toENNReal_of_ne_top (EReal.coe_ne_top r), EReal.toReal_coe, ENNReal.log_ofReal]
    rw [hlog, lift, if_neg (EReal.coe_ne_bot r), if_neg (EReal.coe_ne_top r), EReal.toReal_coe, if_neg hr.not_gt]
    rcases hr.eq_or_lt with rfl | hpos
    · rw [if_pos rfl, if_pos le_rfl]
    · rw [if_neg hpos.ne', if_neg hpos.not_ge, real]
  | top => simp [lift, endLn]

theorem endLn_mono (h : a ≤ b) : endLn a ≤ endLn b :=
  ENNReal.log_monotone (EReal.toENNReal_le_toENNReal h)

theorem endLn_lt_endLn (ha : 0 ≤ a) (h : a < b) : endLn a < endLn b :=
  ENNReal.log_strictMono (EReal.toENNReal_lt_toENNReal ha h)

/-- Numbers below zero are taken for zero. -/
theorem endLn_max_zero (a : EReal) : endLn (max a 0) = endLn a := by
  rcases le_total 0 a with ha | ha
  · rw [max_eq_left ha]
  · rw [max_eq_right ha, endLn, endLn, EReal.toENNReal_of_nonpos ha, EReal.toENNReal_zero]

theorem endLn_ne_top (h : a ≠ ⊤) : endLn a ≠ ⊤ := by
  rw [endLn, ne_eq, ENNReal.log_eq_top_iff, EReal.toENNReal_eq_top_iff]
  exact h

theorem endLn_ne_bot (h : 0 < a) : endLn a ≠ ⊥ := by
  rw [endLn, ne_eq, ENNReal.log_eq_bot_iff, EReal.toENNReal_eq_zero_iff]
  exact h.not_ge

end Exact

end IntervalDag
