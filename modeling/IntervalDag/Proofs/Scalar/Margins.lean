import IntervalDag.Proofs.Scalar.Exact
import IntervalDag.Proofs.Scalar.Thresholds

/-!
# Margins in exact arithmetic

Sums and products that are numbers are those of the extended real line, so a margin that is not negative never leads
inward. What is not a number is comparable to nothing. Hence exact arithmetic has all that thresholds need.
-/

namespace IntervalDag

open Scalar

namespace Exact

variable {a b c r v : EReal} {eps x y : Exact}

theorem eq_add_of_number_add (h : number a + number b = number c) : c = a + b := by
  by_cases hnone : IsInfinite a ∧ b = -a
  · have hnan : number a + number b = nan := if_pos hnone
    cases hnan.symm.trans h
  · exact number.inj (h.symm.trans (number_add hnone))

theorem eq_mul_of_number_mul (h : number a * number b = number c) : c = a * b := by
  by_cases hnone : a = 0 ∧ IsInfinite b ∨ IsInfinite a ∧ b = 0
  · have hnan : number a * number b = nan := if_pos hnone
    cases hnan.symm.trans h
  · exact number.inj (h.symm.trans (number_mul hnone))

theorem neg_le_zero_of_nonneg (ha : 0 ≤ a) : -a ≤ 0 := by simpa using EReal.neg_le_neg_iff.mpr ha

/-- What is compared are numbers. -/
theorem exists_numbers_of_lt (h : x < y) : ∃ a b, x = number a ∧ y = number b ∧ a < b := by
  cases x with
  | nan => exact h.elim
  | number a =>
    cases y with
    | nan => exact h.elim
    | number b => exact ⟨a, b, rfl, rfl, h⟩

open Classical in
theorem exists_number_of_beq (h : (x == y) = true) : ∃ a, x = number a ∧ y = number a := by
  have hequal : Equal x y := of_decide_eq_true h
  cases x with
  | nan => exact hequal.elim
  | number a =>
    cases y with
    | nan => exact hequal.elim
    | number b => exact ⟨a, rfl, congrArg number (show a = b from hequal).symm⟩

/-- A margin is the product of a threshold and a number from one on. -/
theorem nonneg_of_margin (heps : 0 ≤ eps) (h : eps * maxNum (Scalar.abs (number r)) 1 = number v) : 0 ≤ v := by
  obtain ⟨e, rfl, he⟩ := exists_number_of_ge (x := 0) heps
  rw [abs_number, one_def, maxNum_number] at h
  rw [eq_mul_of_number_mul h]
  exact mul_nonneg he (zero_le_one.trans (le_max_right ..))

/-- A margin is added to a number. -/
theorem le_of_add_margin (heps : 0 ≤ eps) (h : x + eps * maxNum (Scalar.abs x) 1 = number c) :
    ∃ r, x = number r ∧ r ≤ c := by
  cases x with
  | nan => cases h
  | number r =>
    cases hv : eps * maxNum (Scalar.abs (number r)) 1 with
    | nan =>
      rw [hv] at h
      cases h
    | number v =>
      rw [hv] at h
      rw [eq_add_of_number_add h]
      exact ⟨r, rfl, le_add_of_nonneg_right (nonneg_of_margin heps hv)⟩

/-- A margin is taken from a number. -/
theorem le_of_sub_margin (heps : 0 ≤ eps) (h : x - eps * maxNum (Scalar.abs x) 1 = number c) :
    ∃ r, x = number r ∧ c ≤ r := by
  cases x with
  | nan => cases h
  | number r =>
    cases hv : eps * maxNum (Scalar.abs (number r)) 1 with
    | nan =>
      rw [hv] at h
      cases h
    | number v =>
      rw [hv] at h
      have h : number r + number (-v) = number c := h
      rw [eq_add_of_number_add h]
      exact ⟨r, rfl, add_le_of_nonpos_right (neg_le_zero_of_nonneg (nonneg_of_margin heps hv))⟩

end Exact

open Exact

/-- Exact arithmetic does not round. -/
instance : ThresholdScalar Exact where
  lt_trans hab hbc := by
    obtain ⟨a, b, rfl, rfl, hab⟩ := exists_numbers_of_lt hab
    obtain ⟨_, c, hb, rfl, hbc⟩ := exists_numbers_of_lt hbc
    cases hb
    exact number_lt_number.mpr (hab.trans hbc)
  le_of_lt := Exact.le_of_lt
  le_of_beq h := by
    obtain ⟨a, rfl, rfl⟩ := exists_number_of_beq h
    exact le_refl a
  self_le {a v} h := by
    cases a with
    | nan => cases v <;> exact h.elim
    | number a => exact le_refl a
  negInf_lt_posInf := number_lt_number.mpr bot_lt_top
  lt_of_add_lt heps h := by
    obtain ⟨c, b, hc, rfl, hcb⟩ := exists_numbers_of_lt h
    obtain ⟨r, rfl, hr⟩ := le_of_add_margin heps hc
    exact number_lt_number.mpr (hr.trans_lt hcb)
  lt_of_lt_sub heps h := by
    obtain ⟨b, c, rfl, hc, hbc⟩ := exists_numbers_of_lt h
    obtain ⟨r, rfl, hr⟩ := le_of_sub_margin heps hc
    exact number_lt_number.mpr (hbc.trans_le hr)

end IntervalDag
