import IntervalDag.Bounds
import IntervalDag.Operator.Handler
import IntervalDag.Proofs.Scalar.Order

/-!
# Membership in intervals

The values in an interval are those that `contains` answers yes for. An interval with a value in it is not
empty, and narrowing it by another one that holds the value does not lose it. A bound table that is narrowed in
this way goes on to hold a point that it held (`BoundTable.tighten_of_mem`).
-/

namespace IntervalDag

variable {α : Type} [Scalar α]

/-- A value is in an interval if it lies between the ends. -/
instance : Membership α (Interval α) := ⟨fun x v => x.contains v = true⟩

instance (v : α) (x : Interval α) : Decidable (v ∈ x) := inferInstanceAs (Decidable (x.contains v = true))

namespace Interval

open Scalar

variable {x y : Interval α} {v : α}

theorem mem_iff : v ∈ x ↔ x.inf ≤ v ∧ v ≤ x.sup := by
  change (decide (x.inf ≤ v) && decide (v ≤ x.sup)) = true ↔ _
  simp

theorem maxNum_le {a b v : α} (ha : a ≤ v) (hb : b ≤ v) : maxNum a b ≤ v := by
  unfold maxNum
  split_ifs
  · exact hb
  · exact hb
  · exact ha

theorem le_minNum {a b v : α} (ha : v ≤ a) (hb : v ≤ b) : v ≤ minNum a b := by
  unfold minNum
  split_ifs
  · exact hb
  · exact hb
  · exact ha

variable [OrderedScalar α]

theorem isEmpty_of_mem (h : v ∈ x) : x.isEmpty = false := by
  obtain ⟨hinf, hsup⟩ := mem_iff.mp h
  exact decide_eq_false (OrderedScalar.not_lt hinf hsup)

/-- The common part of two intervals holds what both of them hold. -/
theorem mem_inter (hx : v ∈ x) (hy : v ∈ y) : v ∈ x.inter y := by
  obtain ⟨hxinf, hxsup⟩ := mem_iff.mp hx
  obtain ⟨hyinf, hysup⟩ := mem_iff.mp hy
  have hz : v ∈ (⟨maxNum x.inf y.inf, minNum x.sup y.sup⟩ : Interval α) :=
    mem_iff.mpr ⟨maxNum_le hxinf hyinf, le_minNum hxsup hysup⟩
  rw [inter, isEmpty_of_mem hz]
  exact hz

/-- What lies in some interval is a number, so it lies on the line. -/
theorem mem_entire (h : v ∈ x) : v ∈ (entire : Interval α) := by
  have hv := OrderedScalar.le_self (mem_iff.mp h).1
  exact mem_iff.mpr ⟨OrderedScalar.negInf_le hv, OrderedScalar.le_posInf hv⟩

theorem exists_point_of_mem (h : v ∈ x) : ∃ y, point v = .ok y ∧ v ∈ y := by
  have hv := OrderedScalar.le_self (mem_iff.mp h).1
  refine ⟨⟨v, v⟩, ?_, mem_iff.mpr ⟨hv, hv⟩⟩
  simp [point, ofBounds, isNaN, OrderedScalar.beq_self hv]

end Interval

/-- The values that a point gives to variables lie in their domains. -/
def Point.Within (point : Point α) (vars : VarId → Interval α) : Prop :=
  ∀ v r, point v = some r → r ∈ vars v

/-- **Tightening a table.** A domain that is met with an interval around the point's value is not refused, and
the table goes on to hold the point. -/
theorem BoundTable.tighten_of_mem [OrderedScalar α] {t : BoundTable α} {point : Point α}
    (h : point.Within t.bounds) {v : VarId} {r : α} (hr : point v = some r) {x : Interval α} (hx : r ∈ x) :
    (t.tighten v x).2 ≠ .infeasible ∧ point.Within (t.tighten v x).1.bounds := by
  have hmem : r ∈ (t.bounds v).inter x := Interval.mem_inter (h v r hr) hx
  rw [tighten]
  simp only [Interval.isEmpty_of_mem hmem, Bool.false_eq_true, if_false]
  split_ifs
  · refine ⟨nofun, fun w q hq => ?_⟩
    rw [bounds_set]
    split_ifs with hw
    · subst hw
      obtain rfl : r = q := Option.some.inj (hr.symm.trans hq)
      exact hmem
    · exact h w q hq
  · exact ⟨nofun, h⟩

end IntervalDag
