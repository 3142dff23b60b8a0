import Mathlib.Algebra.Order.Group.MinMax
import Mathlib.Algebra.Order.Ring.Rat
import Mathlib.Tactic.Linarith
import IntervalDag.Proofs.Scalar.Thresholds
import IntervalDag.Scalar.Extended

/-!
# Exact thresholds

Where arithmetic does not round and every value is a number, the order is linear and thresholds respect it: of two
finite ends, the one that lies further in has the margin that lies further in, as long as the relative threshold is
at most one. `LinearScalar` lists this much of exact arithmetic. Rational arithmetic has it.
-/

namespace IntervalDag

open Scalar

/-- The order is linear on all values, and margins respect it. -/
class LinearScalar (α : Type) [Scalar α] : Prop extends ThresholdScalar α where
  le_of_not_lt {a b : α} : ¬ b < a → a ≤ b
  le_antisymm {a b : α} : a ≤ b → b ≤ a → a = b
  eq_of_beq {a b : α} : (a == b) = true → a = b
  /-- The margin of the threshold zero is none. -/
  add_margin_lt {a b : α} : negInf < a → a < b → a + 0 * maxNum (abs a) 1 < b
  lt_sub_margin {a b : α} : a < posInf → b < a → b < a - 0 * maxNum (abs a) 1
  /-- With thresholds up to one, margins of finite ends are in order. -/
  add_margin_le {eps a b : α} : 0 ≤ eps → eps ≤ 1 → negInf < a → a ≤ b → b < posInf →
    a + eps * maxNum (abs a) 1 ≤ b + eps * maxNum (abs b) 1
  sub_margin_le {eps a b : α} : 0 ≤ eps → eps ≤ 1 → negInf < a → a ≤ b → b < posInf →
    a - eps * maxNum (abs a) 1 ≤ b - eps * maxNum (abs b) 1

namespace Scalar

variable {α : Type} [Scalar α] [LinearScalar α] {a b c : α}

theorem le_refl (a : α) : a ≤ a := LinearScalar.le_of_not_lt (lt_irrefl a)

theorem not_lt_of_le (h : a ≤ b) : ¬ b < a := OrderedScalar.not_lt (le_refl a) h

theorem not_lt_iff : ¬ a < b ↔ b ≤ a := ⟨LinearScalar.le_of_not_lt, not_lt_of_le⟩

theorem le_trans (h₁ : a ≤ b) (h₂ : b ≤ c) : a ≤ c := LinearScalar.le_of_not_lt (OrderedScalar.not_lt h₁ h₂)

theorem lt_of_le_of_lt (h₁ : a ≤ b) (h₂ : b < c) : a < c := by
  by_contra h
  exact not_lt_of_le (le_trans (LinearScalar.le_of_not_lt h) h₁) h₂

theorem lt_of_lt_of_le (h₁ : a < b) (h₂ : b ≤ c) : a < c := by
  by_contra h
  exact not_lt_of_le (le_trans h₂ (LinearScalar.le_of_not_lt h)) h₁

theorem negInf_le (a : α) : negInf ≤ a := OrderedScalar.negInf_le (le_refl a)

theorem le_posInf (a : α) : a ≤ posInf := OrderedScalar.le_posInf (le_refl a)

theorem isNaN_eq_false (a : α) : isNaN a = false := isNaN_of_self_le (le_refl a)

theorem beq_iff : (a == b) = true ↔ a = b := by
  constructor
  · exact LinearScalar.eq_of_beq
  · rintro rfl
    exact OrderedScalar.beq_self (le_refl a)

theorem ne_negInf_iff : a ≠ negInf ↔ negInf < a := by
  constructor
  · intro hne
    by_contra h
    exact hne (LinearScalar.le_antisymm (LinearScalar.le_of_not_lt h) (negInf_le a))
  · rintro h rfl
    exact lt_irrefl _ h

theorem ne_posInf_iff : a ≠ posInf ↔ a < posInf := by
  constructor
  · intro hne
    by_contra h
    exact hne (LinearScalar.le_antisymm (le_posInf a) (LinearScalar.le_of_not_lt h))
  · rintro h rfl
    exact lt_irrefl _ h

/-! ### Greater and smaller values -/

theorem maxNum_eq_left (h : b ≤ a) : maxNum a b = a := by
  rw [maxNum, if_neg (not_lt_of_le h), isNaN_eq_false, if_neg Bool.false_ne_true]

theorem maxNum_eq_right (h : a ≤ b) : maxNum a b = b := by
  rw [maxNum]
  split_ifs with hlt hnan
  · rfl
  · rfl
  · exact LinearScalar.le_antisymm h (LinearScalar.le_of_not_lt hlt)

theorem minNum_eq_left (h : a ≤ b) : minNum a b = a := by
  rw [minNum, if_neg (not_lt_of_le h), isNaN_eq_false, if_neg Bool.false_ne_true]

theorem minNum_eq_right (h : b ≤ a) : minNum a b = b := by
  rw [minNum]
  split_ifs with hlt hnan
  · rfl
  · rfl
  · exact LinearScalar.le_antisymm (LinearScalar.le_of_not_lt hlt) h

theorem le_total (a b : α) : a ≤ b ∨ b ≤ a := by
  by_cases h : b < a
  · exact Or.inr (ThresholdScalar.le_of_lt h)
  · exact Or.inl (LinearScalar.le_of_not_lt h)

theorem le_maxNum_left (a b : α) : a ≤ maxNum a b := by
  rcases le_total a b with h | h
  · rwa [maxNum_eq_right h]
  · rw [maxNum_eq_left h]
    exact le_refl a

theorem le_maxNum_right (a b : α) : b ≤ maxNum a b := by
  rcases le_total a b with h | h
  · rw [maxNum_eq_right h]
    exact le_refl b
  · rwa [maxNum_eq_left h]

theorem minNum_le_left (a b : α) : minNum a b ≤ a := by
  rcases le_total a b with h | h
  · rw [minNum_eq_left h]
    exact le_refl a
  · rwa [minNum_eq_right h]

theorem minNum_le_right (a b : α) : minNum a b ≤ b := by
  rcases le_total a b with h | h
  · rwa [minNum_eq_left h]
  · rw [minNum_eq_right h]
    exact le_refl b

end Scalar

/-! ### Rational arithmetic -/

namespace Extended

variable {p q : ℚ} {a b m eps : Extended}

/-- Where a value stands on the line. -/
def place : Extended → WithBot (WithTop ℚ)
  | .negInf => ⊥
  | .rat q => ((q : WithTop ℚ) : WithBot (WithTop ℚ))
  | .posInf => ((⊤ : WithTop ℚ) : WithBot (WithTop ℚ))

theorem place_injective : Function.Injective place := by
  intro a b h
  cases a <;> cases b <;> simp_all [place]

theorem lt_iff_place : a < b ↔ a.place < b.place := by
  change lt a b = true ↔ _
  cases a <;> cases b <;> simp [place, lt, bot_lt_iff_ne_bot, -WithBot.coe_top]

theorem le_iff_place : a ≤ b ↔ a.place ≤ b.place := by
  rw [← not_lt, ← lt_iff_place]
  exact (Bool.not_eq_true _).to_iff.symm

@[simp] theorem rat_lt_rat : (rat p < rat q) ↔ p < q := decide_eq_true_iff

@[simp] theorem rat_le_rat : (rat p ≤ rat q) ↔ p ≤ q := decide_eq_false_iff_not.trans not_lt

@[simp] theorem rat_sub (p q : ℚ) : rat p - rat q = rat (p - q) := congrArg rat (sub_eq_add_neg p q).symm

@[simp] theorem rat_mul (p q : ℚ) : rat p * rat q = rat (p * q) := rfl

theorem maxNum_abs_rat (q : ℚ) : maxNum (Scalar.abs (rat q)) 1 = rat (max |q| 1) := by
  change (if rat |q| < rat 1 then rat 1 else if !decide (rat |q| = rat |q|) then rat 1 else rat |q|) = _
  rw [decide_eq_true rfl]
  simp only [rat_lt_rat, Bool.not_true, Bool.false_eq_true, if_false]
  split_ifs with h
  · rw [max_eq_right h.le]
  · rw [max_eq_left (not_lt.mp h)]

/-- Products of values that are not negative are not. -/
theorem zero_le_mul (ha : 0 ≤ a) (hb : 0 ≤ b) : 0 ≤ a * b := by
  have hsign : ∀ {c : Extended}, 0 ≤ c → 0 ≤ c.sign := by
    intro c hc
    cases c with
    | negInf => exact absurd hc (by decide)
    | posInf => decide
    | rat q => exact Int.sign_nonneg_iff.mpr (Rat.num_nonneg.mpr (rat_le_rat.mp hc))
  have hinfinite : ∀ {i : ℤ}, 0 ≤ i → 0 ≤ infinite i := by
    intro i hi
    rw [infinite]
    split_ifs with hzero hpos
    · decide
    · decide
    · omega
  have hmixed := hinfinite (Int.mul_nonneg (hsign ha) (hsign hb))
  cases a with
  | rat p =>
    cases b with
    | rat q => exact rat_le_rat.mpr (mul_nonneg (rat_le_rat.mp ha) (rat_le_rat.mp hb))
    | _ => exact hmixed
  | _ => exact hmixed

/-- Margins are not negative. -/
theorem margin_nonneg (heps : 0 ≤ eps) (a : Extended) : 0 ≤ eps * maxNum (Scalar.abs a) 1 := by
  refine zero_le_mul heps ?_
  cases a with
  | rat q =>
    rw [maxNum_abs_rat]
    exact rat_le_rat.mpr (le_max_of_le_left (abs_nonneg q))
  | _ => decide

theorem le_add (hm : 0 ≤ m) (a : Extended) : a ≤ a + m := by
  cases a with
  | negInf => rfl
  | posInf =>
    cases m with
    | negInf => exact absurd hm (by decide)
    | _ => rfl
  | rat p =>
    cases m with
    | negInf => exact absurd hm (by decide)
    | posInf => rfl
    | rat q => exact rat_le_rat.mpr (le_add_of_nonneg_right (rat_le_rat.mp hm))

theorem sub_le (hm : 0 ≤ m) (a : Extended) : a - m ≤ a := by
  cases a with
  | negInf => rfl
  | posInf => cases m <;> rfl
  | rat p =>
    cases m with
    | negInf => exact absurd hm (by decide)
    | posInf => rfl
    | rat q =>
      rw [rat_sub]
      exact rat_le_rat.mpr (sub_le_self p (rat_le_rat.mp hm))

/-- What lies strictly between the infinities is rational. -/
theorem exists_rat (hinf : negInf < a) (hsup : a < posInf) : ∃ q, a = .rat q := by
  cases a with
  | rat q => exact ⟨q, rfl⟩
  | negInf => cases hinf
  | posInf => cases hsup

theorem exists_rats (h₀ : 0 ≤ eps) (h₁ : eps ≤ 1) (hinf : negInf < a) (hle : a ≤ b) (hsup : b < posInf) :
    ∃ p q e, a = .rat p ∧ b = .rat q ∧ eps = .rat e ∧ p ≤ q ∧ 0 ≤ e ∧ e ≤ 1 := by
  have hle' := le_iff_place.mp hle
  obtain ⟨p, rfl⟩ := exists_rat hinf (lt_iff_place.mpr (hle'.trans_lt (lt_iff_place.mp hsup)))
  obtain ⟨q, rfl⟩ := exists_rat (lt_iff_place.mpr ((lt_iff_place.mp hinf).trans_le hle')) hsup
  cases eps with
  | negInf => exact absurd h₀ (by decide)
  | posInf => exact absurd h₁ (by decide)
  | rat e => exact ⟨p, q, e, rfl, rfl, rfl, rat_le_rat.mp hle, rat_le_rat.mp h₀, rat_le_rat.mp h₁⟩

/-- A margin changes by at most what the end does. -/
theorem margin_sub_le {e : ℚ} (h₀ : 0 ≤ e) (h₁ : e ≤ 1) (p q : ℚ) :
    e * max |p| 1 - e * max |q| 1 ≤ |p - q| := by
  have hle : max |p| 1 - max |q| 1 ≤ |p - q| :=
    (le_abs_self _).trans ((abs_max_sub_max_le_abs |p| |q| 1).trans (abs_abs_sub_abs_le p q))
  calc e * max |p| 1 - e * max |q| 1 = e * (max |p| 1 - max |q| 1) := (mul_sub ..).symm
    _ ≤ e * |p - q| := mul_le_mul_of_nonneg_left hle h₀
    _ ≤ |p - q| := mul_le_of_le_one_left (abs_nonneg _) h₁

end Extended

open Extended in
instance : LinearScalar Extended where
  le_self _ := le_iff_place.mpr le_rfl
  not_lt h₁ h₂ := by
    rw [lt_iff_place, not_lt]
    exact (le_iff_place.mp h₁).trans (le_iff_place.mp h₂)
  negInf_le _ := le_iff_place.mpr bot_le
  le_posInf _ := le_iff_place.mpr le_top
  beq_self _ := decide_eq_true rfl
  lt_trans h₁ h₂ := lt_iff_place.mpr ((lt_iff_place.mp h₁).trans (lt_iff_place.mp h₂))
  le_of_lt h := le_iff_place.mpr (lt_iff_place.mp h).le
  le_of_beq h := of_decide_eq_true h ▸ le_iff_place.mpr le_rfl
  self_le _ := le_iff_place.mpr le_rfl
  negInf_lt_posInf := rfl
  lt_of_add_lt {eps a b} heps h := by
    have hle := le_iff_place.mp (le_add (margin_nonneg heps a) a)
    exact lt_iff_place.mpr (hle.trans_lt (lt_iff_place.mp h))
  lt_of_lt_sub {eps a b} heps h := by
    have hle := le_iff_place.mp (sub_le (margin_nonneg heps a) a)
    exact lt_iff_place.mpr ((lt_iff_place.mp h).trans_le hle)
  le_of_not_lt h := le_iff_place.mpr (not_lt.mp (lt_iff_place.not.mp h))
  le_antisymm h₁ h₂ := place_injective (le_antisymm (le_iff_place.mp h₁) (le_iff_place.mp h₂))
  eq_of_beq h := of_decide_eq_true h
  add_margin_lt {a b} hinf hlt := by
    obtain ⟨q, rfl⟩ := exists_rat hinf (lt_iff_place.mpr ((lt_iff_place.mp hlt).trans_le le_top))
    rw [maxNum_abs_rat]
    change rat (q + 0 * _) < b
    rwa [zero_mul, add_zero]
  lt_sub_margin {a b} hsup hlt := by
    obtain ⟨q, rfl⟩ := exists_rat (lt_iff_place.mpr (bot_le.trans_lt (lt_iff_place.mp hlt))) hsup
    rw [maxNum_abs_rat]
    change b < rat (q + -(0 * _))
    rwa [zero_mul, neg_zero, add_zero]
  add_margin_le {eps a b} h₀ h₁ hinf hle hsup := by
    obtain ⟨p, q, e, rfl, rfl, rfl, hle, h₀, h₁⟩ := exists_rats h₀ h₁ hinf hle hsup
    rw [maxNum_abs_rat, maxNum_abs_rat]
    have hmargin := margin_sub_le h₀ h₁ p q
    rw [abs_of_nonpos (sub_nonpos.mpr hle)] at hmargin
    exact rat_le_rat.mpr (by linarith)
  sub_margin_le {eps a b} h₀ h₁ hinf hle hsup := by
    obtain ⟨p, q, e, rfl, rfl, rfl, hle, h₀, h₁⟩ := exists_rats h₀ h₁ hinf hle hsup
    rw [maxNum_abs_rat, maxNum_abs_rat, rat_mul, rat_mul, rat_sub, rat_sub]
    have hmargin := margin_sub_le h₀ h₁ q p
    rw [abs_of_nonneg (sub_nonneg.mpr hle)] at hmargin
    exact rat_le_rat.mpr (by linarith)

end IntervalDag
