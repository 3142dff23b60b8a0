import Mathlib.Data.EReal.Operations
import IntervalDag.Proofs.Scalar.Order
import IntervalDag.Scalar.Exact

/-!
# The laws of exact arithmetic

How the operations of the exact carrier act on extended real numbers, as rewriting rules. On real numbers they are
those of the field (`Exact.real_add` and the like). Powers with natural exponents are powers in the extended real
numbers, infinities included (`Exact.powi_number`).
-/

namespace IntervalDag

open Scalar

namespace Exact

variable {x y : EReal} {r s : ℝ} {a : Exact}

theorem zero_def : (0 : Exact) = .number 0 := rfl

theorem one_def : (1 : Exact) = .number 1 := rfl

theorem real_zero : real 0 = 0 := by
  rw [zero_def, real, EReal.coe_zero]

theorem real_one : real 1 = 1 := by
  rw [one_def, real, EReal.coe_one]

theorem posInf_def : (posInf : Exact) = .number ⊤ := rfl

theorem negInf_def : (negInf : Exact) = .number ⊥ := rfl

@[simp] theorem isInfinite_coe (r : ℝ) : ¬ IsInfinite (r : EReal) := by
  simp [IsInfinite]

/-! ### Comparison -/

@[simp] theorem number_le_number : (number x ≤ number y) ↔ x ≤ y := Iff.rfl

@[simp] theorem number_lt_number : (number x < number y) ↔ x < y := Iff.rfl

open Classical in
@[simp] theorem number_beq_number : (number x == number y) = true ↔ x = y := decide_eq_true_iff

@[simp] theorem real_lt_real : (real r < real s) ↔ r < s := EReal.coe_lt_coe_iff

@[simp] theorem real_beq_real : (real r == real s) = true ↔ r = s :=
  number_beq_number.trans EReal.coe_eq_coe_iff

theorem real_beq_zero : (real r == 0) = true ↔ r = 0 := by
  rw [← real_zero, real_beq_real]

theorem real_pos : 0 < real r ↔ 0 < r := by
  rw [← real_zero, real_lt_real]

/-- What is compared with a number is one. -/
theorem exists_number_of_le (h : a ≤ number x) : ∃ y, a = number y ∧ y ≤ x := by
  cases a with
  | nan => exact h.elim
  | number y => exact ⟨y, rfl, h⟩

theorem exists_number_of_ge (h : number x ≤ a) : ∃ y, a = number y ∧ x ≤ y := by
  cases a with
  | nan => exact h.elim
  | number y => exact ⟨y, rfl, h⟩

@[simp] theorem isNaN_number (x : EReal) : isNaN (number x) = false := by
  simp [isNaN]

open Classical in
@[simp] theorem isNaN_nan : isNaN Exact.nan = true := by
  have hne : (Exact.nan == Exact.nan) = false := decide_eq_false id
  rw [isNaN, hne, Bool.not_false]

@[simp] theorem isFinite_number : isFinite (number x) = true ↔ x ≠ ⊥ ∧ x ≠ ⊤ := by
  simp [isFinite, posInf_def, negInf_def, bot_lt_iff_ne_bot, lt_top_iff_ne_top]

@[simp] theorem minNum_number : minNum (number x) (number y) = number (min x y) := by
  simp only [minNum, number_lt_number, isNaN_number, Bool.false_eq_true, if_false]
  split_ifs with h
  · rw [min_eq_right h.le]
  · rw [min_eq_left (not_lt.mp h)]

@[simp] theorem maxNum_number : maxNum (number x) (number y) = number (max x y) := by
  simp only [maxNum, number_lt_number, isNaN_number, Bool.false_eq_true, if_false]
  split_ifs with h
  · rw [max_eq_right h.le]
  · rw [max_eq_left (not_lt.mp h)]

theorem le_of_lt {a b : Exact} (h : a < b) : a ≤ b := by
  cases a with
  | nan => exact h.elim
  | number a =>
    cases b with
    | nan => exact h.elim
    | number b => exact (show (a : EReal) < b from h).le

/-! ### Arithmetic -/

@[simp] theorem neg_number (x : EReal) : -number x = number (-x) := rfl

@[simp] theorem abs_number (x : EReal) : Scalar.abs (number x) = number (max x (-x)) := rfl

/-- Sums of numbers that are not infinities of opposite sign. -/
theorem number_add (h : ¬ (IsInfinite x ∧ y = -x)) : number x + number y = number (x + y) := if_neg h

/-- Products of numbers that are not zero and an infinity. -/
theorem number_mul (h : ¬ (x = 0 ∧ IsInfinite y ∨ IsInfinite x ∧ y = 0)) :
    number x * number y = number (x * y) := if_neg h

/-- Quotients of a real number and a number other than zero. -/
theorem real_div (h : y ≠ 0) : real r / number y = number (r / y) := by
  change div (number r) (number y) = _
  simp [div, h]

theorem one_div_number (h : x ≠ 0) : 1 / number x = number (1 / x) := by
  rw [← real_one, real_div h, EReal.coe_one]

theorem one_div_real (h : r ≠ 0) : 1 / real r = real (1 / r) := by
  rw [← real_one]
  exact real_div (EReal.coe_ne_zero.mpr h)

@[simp] theorem real_add (r s : ℝ) : real r + real s = real (r + s) := by
  simp [real, number_add]

@[simp] theorem real_mul (r s : ℝ) : real r * real s = real (r * s) := by
  simp [real, number_mul]

@[simp] theorem real_neg (r : ℝ) : -real r = real (-r) := by
  simp [real]

@[simp] theorem real_abs (r : ℝ) : Scalar.abs (real r) = real |r| := by
  simp only [real, abs_number, abs_eq_max_neg, number.injEq]
  norm_cast

/-! ### Powers -/

/-- Repeated squaring computes powers in any monoid of values. -/
theorem powiFrom_eq {α M : Type} [Scalar α] [Monoid M] {f : M → α} (hf : ∀ u v, f (u * v) = f u * f v) (acc u : M)
    (n : ℕ) : powiFrom (f acc) (f u) n = f (acc * u ^ n) := by
  induction n using Nat.strong_induction_on generalizing acc u with
  | _ n ih =>
    rw [powiFrom]
    have hodd : (if n % 2 = 1 then f acc * f u else f acc) = f (acc * u ^ (n % 2)) := by
      rcases Nat.mod_two_eq_zero_or_one n with h | h
      · simp [h]
      · simp [h, hf]
    have hsplit : acc * u ^ n = acc * u ^ (n % 2) * (u * u) ^ (n / 2) := by
      rw [← pow_two, ← pow_mul, mul_assoc, ← pow_add, Nat.mod_add_div]
    simp only [hodd]
    split_ifs with h
    · rw [hsplit, h, pow_zero, mul_one]
    · rw [← hf, ih (n / 2) (by omega), hsplit]

/-- **Powers with natural exponents.** -/
theorem powi_number (x : EReal) (n : ℕ) : powi (number x) n = number (x ^ n) := by
  by_cases hx : x = 0
  · -- the real numbers are closed under products, and so are the numbers other than zero
    have hreal := powiFrom_eq (f := real) (fun r s => (real_mul r s).symm) 1 0 n
    subst hx
    rw [powi, one_def]
    simpa [real] using hreal
  · have hne := powiFrom_eq (f := fun u : nonZeroDivisors EReal => number u) (fun u v => ?_) 1
      ⟨x, mem_nonZeroDivisors_of_ne_zero hx⟩ n
    · rw [powi, one_def]
      simpa using hne
    · have hu : (u : EReal) ≠ 0 := nonZeroDivisors.ne_zero u.2
      have hv : (v : EReal) ≠ 0 := nonZeroDivisors.ne_zero v.2
      simp [number_mul, hu, hv]

/-- What is found to be whole is so. -/
theorem eq_real_of_integral? {p : Exact} {n : ℤ} (h : Scalar.integral? p = some n) : p = real n := by
  change integral? p = some n at h
  cases p with
  | nan => cases h
  | number x =>
    rw [integral?] at h
    split_ifs at h with hx
    obtain rfl := Option.some.inj h
    rw [real, ← hx.1]

/-- Whole numbers of less than 31 bits are found to be whole. -/
theorem integral?_real {n : ℤ} (h : |n| < 2 ^ 31 - 1) : Scalar.integral? (real n) = some n := by
  change integral? (number (n : ℝ)) = some n
  simpa [integral?] using h

section

variable {n : ℤ}

theorem real_int_beq_zero : ((real (n : ℝ)) == 0) = true ↔ n = 0 := by
  rw [← real_zero, real_beq_real, Int.cast_eq_zero]

theorem real_int_beq_one : ((real (n : ℝ)) == 1) = true ↔ n = 1 := by
  rw [← real_one, real_beq_real, Int.cast_eq_one]

theorem real_int_pos : (0 < real (n : ℝ)) ↔ 0 < n := by
  rw [← real_zero, real_lt_real, Int.cast_pos]

theorem real_int_neg : (real (n : ℝ) < 0) ↔ n < 0 := by
  rw [← real_zero, real_lt_real, Int.cast_lt_zero]

end

/-- **Powers with whole exponents.** Zero has none that are negative. -/
theorem pow_real_int {r : ℝ} {n : ℤ} (h : ¬ (r = 0 ∧ n < 0)) : Scalar.pow (real r) (real n) = real (r ^ n) := by
  change pow (number r) (number (n : ℝ)) = _
  by_cases hone : n = 0 ∨ r = 1
  · rcases hone with rfl | rfl
    · simp [pow, real]
    · simp [pow, real]
  · simp only [not_and] at h
    simpa [pow, realPow, hone, IsInfinite] using fun hr hn => absurd hn (h hr)

theorem pow_zero_of_neg {n : ℤ} (h : n < 0) : Scalar.pow (real 0) (real n) = number ⊤ := by
  change pow (number (0 : ℝ)) (number (n : ℝ)) = _
  have hne : n ≠ 0 := h.ne
  have hneg : (n : ℝ) < 0 := by exact_mod_cast h
  simp [pow, realPow, IsInfinite, hne, hneg]

end Exact

/-- The order of exact numbers is that of the extended real line. -/
instance : OrderedScalar Exact where
  le_self {a v} h := by
    cases v with
    | nan => cases a <;> exact h.elim
    | number x => exact le_refl x
  not_lt {a v b} h h' := by
    cases v with
    | nan => cases a <;> exact h.elim
    | number x =>
      obtain ⟨y, rfl, hy⟩ := Exact.exists_number_of_le h
      obtain ⟨z, rfl, hz⟩ := Exact.exists_number_of_ge h'
      exact not_lt.mpr (hy.trans hz)
  negInf_le {v} h := by
    cases v with
    | nan => exact h.elim
    | number x => exact bot_le (a := x)
  le_posInf {v} h := by
    cases v with
    | nan => exact h.elim
    | number x => exact le_top (a := x)
  beq_self {v} h := by
    cases v with
    | nan => exact h.elim
    | number x => exact Exact.number_beq_number.mpr rfl

end IntervalDag
