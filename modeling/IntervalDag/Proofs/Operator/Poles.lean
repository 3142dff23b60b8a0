import IntervalDag.Operator.Table
import IntervalDag.Proofs.Interval.Hulls

/-!
# Keeping away from poles

The lower end of an operand that reaches from zero or below into the positive numbers is raised to the smallest distance
from the pole, and an upper end below that distance is relaxed up to it. Neither loses a number that is at the distance
from the pole (`Settings.real_mem_raiseLower`, `Settings.real_mem_relaxUpper`), and both leave proper intervals proper
where the distance is a real number.
-/

namespace IntervalDag

open Scalar Exact

variable {s : Settings Exact} {x y : Interval Exact} {r c : ℝ} {a : Exact}

/-- What is below the positive infinity is a number. -/
theorem Exact.exists_number_of_lt_posInf (h : a < posInf) : ∃ e, a = number e ∧ e ≠ ⊤ := by
  cases a with
  | nan => exact h.elim
  | number e => exact ⟨e, rfl, (number_lt_number.mp h).ne⟩

namespace Settings

/-- A number from the smallest distance on stays in an operand whose lower end is raised. -/
theorem real_mem_raiseLower (h : s.minZeroDistance ≤ real r) (hr : real r ∈ x) (name : String) :
    real r ∈ (s.raiseLower name x).value := by
  obtain ⟨m, hm, hmr⟩ := exists_number_of_le h
  obtain ⟨a, b, rfl, ha, hb⟩ := Interval.real_mem_iff.mp hr
  rw [raiseLower, hm]
  split_ifs
  · dsimp only
    rw [minNum_number]
    exact Interval.real_mem_number.mpr ⟨min_le_of_left_le hmr, hb⟩
  · exact hr

/-- Relaxing the upper end loses nothing. -/
theorem real_mem_relaxUpper (s : Settings Exact) (hr : real r ∈ x) (name : String) :
    real r ∈ (s.relaxUpper name x).value := by
  obtain ⟨a, b, rfl, ha, hb⟩ := Interval.real_mem_iff.mp hr
  rw [relaxUpper]
  split_ifs with hmoved
  · obtain ⟨m, hm, hbm⟩ := exists_number_of_ge (le_of_lt hmoved.2)
    dsimp only
    rw [hm]
    exact Interval.real_mem_number.mpr ⟨ha, hb.trans hbm⟩
  · exact hr

/-- A lower end that is raised to a finite distance stays below the upper end, which is not touched. -/
theorem isRegular_raiseLower (hdistance : s.minZeroDistance < posInf) (hx : x.IsRegular) (name : String) :
    (s.raiseLower name x).value.IsRegular ∧ (s.raiseLower name x).value.isEmpty = x.isEmpty ∧
      (s.raiseLower name x).value.sup = x.sup := by
  obtain ⟨m, hm, hmtop⟩ := exists_number_of_lt_posInf hdistance
  rw [raiseLower]
  split_ifs with hraised
  · obtain ⟨a, b, rfl, -, -, hb⟩ :=
      (hx.resolve_left (Bool.eq_false_iff.mp hraised.1)).exists_ends
    dsimp only
    rw [hm, minNum_number, hraised.1]
    exact ⟨Interval.isRegular_number (min_le_left m b |>.trans_lt (lt_top_iff_ne_top.mpr hmtop)).ne hb,
      Bool.eq_false_iff.mpr (mt Interval.isEmpty_number.mp (min_le_right m b).not_gt), rfl⟩
  · exact ⟨hx, rfl, rfl⟩

theorem isRegular_relaxUpper (s : Settings Exact) (hx : x.IsRegular) (name : String) :
    (s.relaxUpper name x).value.IsRegular := by
  rw [relaxUpper]
  split_ifs with hrelaxed
  · obtain ⟨a, b, rfl, -, ha, hb⟩ := (hx.resolve_left (Bool.eq_false_iff.mp hrelaxed.1)).exists_ends
    obtain ⟨m, hm, hbm⟩ := exists_number_of_ge (le_of_lt hrelaxed.2)
    dsimp only
    rw [hm]
    exact Interval.isRegular_number ha ((bot_lt_iff_ne_bot.mpr hb).trans_le hbm).ne'
  · exact hx

end Settings

/-- The only operand that a function takes is narrowed. -/
theorem Handler.narrowFirst_cons {narrow : Interval Exact → Checked Exact (Noted Exact (Interval Exact))}
    {n : Noted Exact (Interval Exact)} (h : narrow x = .ok n) (xs : List (Interval Exact)) :
    narrowFirst narrow (x :: xs) =
      .ok ⟨⟨Feasibility.ofOperands (n.value :: xs), n.value :: xs⟩, n.notice⟩ := by
  rw [narrowFirst, Checked.first, Checked.get, List.getElem?_cons_zero, Checked.ok_bind, h]
  rfl

theorem Feasibility.ofOperands_singleton (h : x.isEmpty = false) : ofOperands [x] = .feasible := by
  rw [ofOperands, List.any_cons, h]
  rfl

end IntervalDag
