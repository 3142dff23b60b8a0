import IntervalDag.Proofs.Scalar.Order

/-!
# Thresholds

An end counts as improved if it moved by more than a relative threshold. `ThresholdScalar` lists what of the order
and of rounding is needed so that such an end did move: margins are not negative, and moving an end outward by a
margin does not bring it further in.
-/

namespace IntervalDag

open Scalar

/-- The order is transitive on numbers, and margins lead outward. -/
class ThresholdScalar (α : Type) [Scalar α] : Prop extends OrderedScalar α where
  lt_trans {a b c : α} : a < b → b < c → a < c
  le_of_lt {a b : α} : a < b → a ≤ b
  le_of_beq {a b : α} : (a == b) = true → a ≤ b
  /-- What is compared is a number, also on the left. -/
  self_le {a v : α} : a ≤ v → a ≤ a
  negInf_lt_posInf : (negInf : α) < posInf
  lt_of_add_lt {eps a b : α} : 0 ≤ eps → a + eps * maxNum (abs a) 1 < b → a < b
  lt_of_lt_sub {eps a b : α} : 0 ≤ eps → b < a - eps * maxNum (abs a) 1 → b < a

/-- Any two numbers can be compared. -/
class ComparableScalar (α : Type) [Scalar α] : Prop extends ThresholdScalar α where
  le_of_not_lt {a b : α} : a ≤ a → b ≤ b → ¬ b < a → a ≤ b

namespace Scalar

variable {α : Type} [Scalar α] [ThresholdScalar α] {a b : α}

theorem lt_irrefl (a : α) : ¬ a < a := fun h =>
  OrderedScalar.not_lt (ThresholdScalar.le_of_lt h) (ThresholdScalar.le_of_lt h) h

theorem isNaN_of_self_le (h : a ≤ a) : isNaN a = false := by
  rw [isNaN, OrderedScalar.beq_self h]
  rfl

/-- What lies above something is a number. -/
theorem isNaN_right_of_lt (h : a < b) : isNaN b = false :=
  isNaN_of_self_le (OrderedScalar.le_self (ThresholdScalar.le_of_lt h))

/-- What lies below something is a number. -/
theorem isNaN_left_of_lt (h : a < b) : isNaN a = false :=
  isNaN_of_self_le (ThresholdScalar.self_le (ThresholdScalar.le_of_lt h))

theorem isNaN_of_beq (h : (a == b) = true) : isNaN a = false :=
  isNaN_of_self_le (ThresholdScalar.self_le (ThresholdScalar.le_of_beq h))

end Scalar

/-- The order is transitive. -/
theorem ComparableScalar.le_trans {α : Type} [Scalar α] [ComparableScalar α] {a b c : α} (h₁ : a ≤ b) (h₂ : b ≤ c) :
    a ≤ c :=
  le_of_not_lt (ThresholdScalar.self_le h₁) (OrderedScalar.le_self h₂) (OrderedScalar.not_lt h₁ h₂)

end IntervalDag
