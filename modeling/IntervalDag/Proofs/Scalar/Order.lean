import Mathlib.Algebra.Order.Ring.Int
import Mathlib.Data.Nat.Cast.Order.Ring
import Mathlib.Data.Prod.Lex
import IntervalDag.Scalar.Binary64

/-!
# The order of scalars

Interval arithmetic over floating point has no algebra to go by, but the order is still one on numbers.
`OrderedScalar` lists what little of it membership in intervals needs. A value `v` is a number if `v ≤ v`.

Binary floating point is such a carrier. Its comparison is that of ranks on a number line that has two zeros
at one place and no place for values that are not numbers (`Binary64.compare_eq`).
-/

namespace IntervalDag

open Scalar

/-- The order is one on numbers. -/
class OrderedScalar (α : Type) [Scalar α] : Prop where
  /-- What is compared is a number. -/
  le_self {a v : α} : a ≤ v → v ≤ v
  /-- Ends with a value between them are in order. -/
  not_lt {a v b : α} : a ≤ v → v ≤ b → ¬ b < a
  /-- Numbers lie between the infinities. -/
  negInf_le {v : α} : v ≤ v → negInf ≤ v
  le_posInf {v : α} : v ≤ v → v ≤ posInf
  /-- Numbers equal themselves. -/
  beq_self {v : α} : v ≤ v → (v == v) = true

/-! ### Binary floating point -/

namespace Binary64

open Float.Model

/-- Where an unpacked value stands on the number line: by sign and magnitude class, then by exponent, then by
mantissa. -/
def rank : UnpackedFloat → Option (ℤ ×ₗ ℤ ×ₗ ℤ)
  | .notANumber => none
  | .infinity .negative => some (toLex (-2, toLex (0, 0)))
  | .finite .negative m e _ => some (toLex (-1, toLex (-e, -(m : ℤ))))
  | .zero _ => some (toLex (0, toLex (0, 0)))
  | .finite .positive m e _ => some (toLex (1, toLex (e, (m : ℤ))))
  | .infinity .positive => some (toLex (2, toLex (0, 0)))

theorem compare_neg (x y : ℤ) : compare (-x) (-y) = (compare x y).swap := by
  rw [Int.compare_swap, Int.compare_eq_ite_lt, Int.compare_eq_ite_lt]
  simp only [neg_lt_neg_iff]

theorem compare_natCast (m n : ℕ) : compare (m : ℤ) n = compare m n := by
  rw [Int.compare_eq_ite_lt, Nat.compare_eq_ite_lt]
  simp only [Nat.cast_lt]

/-- Of one sign and class, values are compared by exponent and mantissa. -/
theorem compare_toLex (c e m e' m' : ℤ) :
    compare (toLex (c, toLex (e, m))) (toLex (c, toLex (e', m'))) = (compare e e').then (compare m m') := by
  have hc : compare c c = .eq := Std.ReflCmp.compare_self
  exact congrArg (fun o : Ordering => o.then ((compare e e').then (compare m m'))) hc

/-- **Values are compared by rank.** -/
theorem compare_eq (a b : UnpackedFloat) : a.compare b = (rank a).bind fun i => (rank b).map (compare i) := by
  rcases a with (_ | _) | _ | (_ | _) | ⟨_ | _, m, e, hm⟩ <;>
    rcases b with (_ | _) | _ | (_ | _) | ⟨_ | _, m', e', hm'⟩
  case finite.negative.finite.negative =>
    change some ((compare e e').then (compare m m')).swap =
      some (compare (toLex (-1, toLex (-e, -(m : ℤ)))) (toLex (-1, toLex (-e', -(m' : ℤ)))))
    rw [compare_toLex, compare_neg, compare_neg, compare_natCast, Ordering.swap_then]
  case finite.positive.finite.positive =>
    change some ((compare e e').then (compare m m')) =
      some (compare (toLex (1, toLex (e, (m : ℤ)))) (toLex (1, toLex (e', (m' : ℤ)))))
    rw [compare_toLex, compare_natCast]
  -- all others differ in sign or class, or are equal
  all_goals rfl

/-- The rank of a value. -/
def rankOf (x : Float) : Option (ℤ ×ₗ ℤ ×ₗ ℤ) := rank x.toModel.unpack

theorem le_iff {x y : Float} : x ≤ y ↔ ∃ i j, rankOf x = some i ∧ rankOf y = some j ∧ i ≤ j := by
  change decide (x.toModel ≤ y.toModel) = true ↔ _
  rw [decide_eq_true_iff]
  change (x.toModel.unpack.compare y.toModel.unpack).any (·.isLE) = true ↔ _
  rw [compare_eq]
  simp only [rankOf]
  rcases rank x.toModel.unpack with _ | i
  · simp
  rcases rank y.toModel.unpack with _ | j
  · simp
  · simp [Ordering.isLE_iff_ne_gt, compare_le_iff_le]

theorem lt_iff {x y : Float} : x < y ↔ ∃ i j, rankOf x = some i ∧ rankOf y = some j ∧ i < j := by
  change decide (x.toModel < y.toModel) = true ↔ _
  rw [decide_eq_true_iff]
  change (x.toModel.unpack.compare y.toModel.unpack == some .lt) = true ↔ _
  rw [compare_eq]
  simp only [rankOf]
  rcases rank x.toModel.unpack with _ | i
  · simp
  rcases rank y.toModel.unpack with _ | j
  · simp
  · simp [compare_lt_iff_lt]

theorem beq_of_rankOf {x : Float} {i : ℤ ×ₗ ℤ ×ₗ ℤ} (hx : rankOf x = some i) : (x == x) = true := by
  change (x.toModel.unpack.compare x.toModel.unpack == some .eq) = true
  rw [rankOf] at hx
  rw [compare_eq, hx]
  simp

/-- All ranks lie between those of the infinities. -/
theorem rank_between {a : UnpackedFloat} {i : ℤ ×ₗ ℤ ×ₗ ℤ} (h : rank a = some i) :
    toLex (-2, toLex (0, 0)) ≤ i ∧ i ≤ toLex (2, toLex (0, 0)) := by
  rcases a with (_ | _) | _ | _ | ⟨_ | _, m, e, hm⟩
  case notANumber => cases h
  all_goals
    cases h
    simp [Prod.Lex.toLex_le_toLex]

end Binary64

open Binary64 in
instance : OrderedScalar Float where
  le_self h := by
    obtain ⟨i, j, -, hj, -⟩ := le_iff.mp h
    exact le_iff.mpr ⟨j, j, hj, hj, le_rfl⟩
  not_lt {a v b} hav hvb hba := by
    obtain ⟨i, j, ha, hv, hij⟩ := le_iff.mp hav
    obtain ⟨j', k, hv', hb, hjk⟩ := le_iff.mp hvb
    obtain ⟨k', i', hb', ha', hki⟩ := lt_iff.mp hba
    obtain rfl : j = j' := Option.some.inj (hv.symm.trans hv')
    obtain rfl : k = k' := Option.some.inj (hb.symm.trans hb')
    obtain rfl : i = i' := Option.some.inj (ha.symm.trans ha')
    exact absurd hki (not_lt_of_ge (hij.trans hjk))
  negInf_le h := by
    obtain ⟨i, j, hi, -, -⟩ := le_iff.mp h
    have hinf : rankOf negInf = some (toLex (-2, toLex (0, 0))) := by decide +kernel
    exact le_iff.mpr ⟨_, i, hinf, hi, (rank_between hi).1⟩
  le_posInf h := by
    obtain ⟨i, j, hi, -, -⟩ := le_iff.mp h
    have hinf : rankOf posInf = some (toLex (2, toLex (0, 0))) := by decide +kernel
    exact le_iff.mpr ⟨i, _, hi, hinf, (rank_between hi).2⟩
  beq_self h := by
    obtain ⟨i, j, hi, -, -⟩ := le_iff.mp h
    exact beq_of_rankOf hi

end IntervalDag
