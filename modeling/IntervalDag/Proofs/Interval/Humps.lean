import Mathlib.Algebra.Order.Archimedean.Basic
import Mathlib.Analysis.SpecialFunctions.Log.NegMulLog
import Mathlib.Order.Filter.EventuallyConst
import IntervalDag.Proofs.Interval.Isotonicity
import IntervalDag.Proofs.Interval.Remote
import IntervalDag.Proofs.Scalar.Logarithms

/-!
# Solving for the operand of a hump

The entropy term `-x ln x` rises from zero to its maximum, which it takes at that very number, and falls from there on
without bound (`isHump_negMulLog`). Values are searched for on either side of the peak by halving brackets
(`Interval.exists_bisect`). Where the function falls, the other end of the first bracket is found by doubling
(`IsHump.exists_doubleWhileAbove?`). `Interval.humpInverse_keeps`: whatever the function is, as long as it is such a hump
(`IsHump`), no solution is lost.
-/

namespace IntervalDag

open Scalar Exact Filter

/-- A function that is zero at zero and at one, rises up to a peak below one, where its value is the peak again, and
falls from there on without bound. -/
structure IsHump (F : ℝ → ℝ) (peak : ℝ) : Prop where
  zero_eq : F 0 = 0
  one_eq : F 1 = 0
  peak_eq : F peak = peak
  peak_lt : peak < 1
  rises : StrictMonoOn F (Set.Icc 0 peak)
  falls : StrictAntiOn F (Set.Ici peak)
  unbounded : ∀ b, ∃ r, peak ≤ r ∧ F r < b

/-- **The entropy term is a hump**, with its peak at `1/e`. -/
theorem isHump_negMulLog : IsHump Real.negMulLog (Real.exp (-1)) where
  zero_eq := Real.negMulLog_zero
  one_eq := Real.negMulLog_one
  peak_eq := by simp [Real.negMulLog]
  peak_lt := Real.exp_lt_one_iff.mpr (by norm_num)
  rises := by
    refine strictMonoOn_of_deriv_pos (convex_Icc _ _) Real.continuous_negMulLog.continuousOn fun r hr => ?_
    rw [interior_Icc] at hr
    rw [Real.deriv_negMulLog hr.1.ne']
    linarith [(Real.log_lt_iff_lt_exp hr.1).mpr hr.2]
  falls := by
    refine strictAntiOn_of_deriv_neg (convex_Ici _) Real.continuous_negMulLog.continuousOn fun r hr => ?_
    rw [interior_Ici] at hr
    have hpos : 0 < r := (Real.exp_pos _).trans hr
    rw [Real.deriv_negMulLog hpos.ne']
    linarith [(Real.lt_log_iff_exp_lt hpos).mpr hr]
  unbounded b := by
    have hone : (1 : ℝ) ≤ |b| + 1 := by linarith [abs_nonneg b]
    refine ⟨Real.exp (|b| + 1), Real.exp_le_exp.mpr (by linarith), ?_⟩
    have hexp : 1 ≤ Real.exp (|b| + 1) := Real.one_le_exp (by linarith)
    rw [Real.negMulLog, Real.log_exp]
    nlinarith [neg_abs_le b]

namespace Interval

theorem entropyAt_real {r : ℝ} (hr : 0 ≤ r) : entropyAt (real r) = real (Real.negMulLog r) := by
  rw [entropyAt]
  split_ifs with hzero hinfinite
  · rw [real_beq_zero.mp hzero, Real.negMulLog_zero, real_zero]
  · rw [posInf_def, negInf_def, real, Bool.or_eq_true_iff, number_beq_number, number_beq_number] at hinfinite
    exact absurd hinfinite (isInfinite_coe r)
  · have hne : r ≠ 0 := mt real_beq_zero.mpr hzero
    have hln : Scalar.ln (real r) = real (Real.log r) := by
      change lift (fun r => if r < 0 then nan else if r = 0 then number ⊥ else real (Real.log r)) nan (number ⊤)
        (real r) = _
      rw [lift_real, if_neg hr.not_gt, if_neg hne]
    rw [hln, real_neg, real_mul, Real.negMulLog]

/-! ### Halving -/

/-- A bracket inside `[p, q]`. A test says yes at its lower end and no at its upper end, other than at `p` and `q`. -/
structure IsBracket (before : Exact → Bool) (p q u v : ℝ) : Prop where
  le_lower : p ≤ u
  le : u ≤ v
  upper_le : v ≤ q
  lower : u = p ∨ before (real u) = true
  upper : v = q ∨ before (real v) = false

/-- **Halving** ends with a bracket, after any number of steps. -/
theorem exists_bisect (before : Exact → Bool) (steps : Nat) {p q : ℝ} (h : p ≤ q) :
    ∃ u v : ℝ, bisect before steps (real p) (real q) = (real u, real v) ∧ IsBracket before p q u v := by
  suffices hinside : ∀ u v : ℝ, IsBracket before p q u v →
      ∃ u' v' : ℝ, bisect before steps (real u) (real v) = (real u', real v') ∧ IsBracket before p q u' v' from
    hinside p q ⟨le_rfl, h, le_rfl, Or.inl rfl, Or.inl rfl⟩
  induction steps with
  | zero => exact fun u v huv => ⟨u, v, rfl, huv⟩
  | succ steps ih =>
    intro u v huv
    have hmid : (0.5 : Exact) * (real u + real v) = real (0.5 * (u + v)) := by
      rw [real_add]
      exact real_mul _ _
    rw [bisect, hmid]
    by_cases hstop : real (0.5 * (u + v)) ≤ real u ∨ real v ≤ real (0.5 * (u + v))
    · rw [if_pos hstop]
      exact ⟨u, v, rfl, huv⟩
    · rw [if_neg hstop]
      have hle := huv.le
      have hlow : u ≤ 0.5 * (u + v) := by linarith
      have hhigh : 0.5 * (u + v) ≤ v := by linarith
      cases htest : before (real (0.5 * (u + v))) with
      | true => exact ih _ _ ⟨huv.le_lower.trans hlow, hhigh, huv.upper_le, Or.inr htest, huv.upper⟩
      | false => exact ih _ _ ⟨huv.le_lower, hlow, hhigh.trans huv.upper_le, huv.lower, Or.inr htest⟩

variable {F : ℝ → ℝ} {f : Exact → Exact} {p q u v r : ℝ} {t : EReal}

/-- A value of a function on real numbers is below a target. -/
theorem decide_lt_target (hf : f (real r) = real (F r)) :
    decide (f (real r) < number t) = true ↔ (F r : EReal) < t := by
  rw [hf, decide_eq_true_iff, real, number_lt_number]

theorem decide_target_lt (hf : f (real r) = real (F r)) :
    decide (number t < f (real r)) = true ↔ t < (F r : EReal) := by
  rw [hf, decide_eq_true_iff, real, number_lt_number]

/-- **Where a function rises**, what reaches a target is not below a bracket, and what does not exceed it is not
above. -/
theorem IsBracket.between_of_mono (h : IsBracket (fun x => decide (f x < number t)) p q u v)
    (hf : ∀ r, p ≤ r → f (real r) = real (F r)) (hF : StrictMonoOn F (Set.Icc p q)) (hpr : p ≤ r) (hrq : r ≤ q) :
    (t ≤ F r → u ≤ r) ∧ ((F r : EReal) ≤ t → r ≤ v) := by
  refine ⟨fun ht => ?_, fun ht => ?_⟩
  · rcases h.lower with rfl | hlower
    · exact hpr
    · have hlt := ((decide_lt_target (hf u h.le_lower)).mp hlower).trans_le ht
      exact ((hF.lt_iff_lt ⟨h.le_lower, h.le.trans h.upper_le⟩ ⟨hpr, hrq⟩).mp (EReal.coe_lt_coe_iff.mp hlt)).le
  · rcases h.upper with rfl | hupper
    · exact hrq
    · have hge := mt (decide_lt_target (hf v (h.le_lower.trans h.le))).mpr (Bool.eq_false_iff.mp hupper)
      have hle := EReal.coe_le_coe_iff.mp (ht.trans (not_lt.mp hge))
      exact (hF.le_iff_le ⟨hpr, hrq⟩ ⟨h.le_lower.trans h.le, h.upper_le⟩).mp hle

/-- **Where it falls**, the other way around. -/
theorem IsBracket.between_of_anti (h : IsBracket (fun x => decide (number t < f x)) p q u v)
    (hf : ∀ r, p ≤ r → f (real r) = real (F r)) (hF : StrictAntiOn F (Set.Icc p q)) (hpr : p ≤ r) (hrq : r ≤ q) :
    ((F r : EReal) ≤ t → u ≤ r) ∧ (t ≤ F r → r ≤ v) := by
  refine ⟨fun ht => ?_, fun ht => ?_⟩
  · rcases h.lower with rfl | hlower
    · exact hpr
    · have hlt := ht.trans_lt ((decide_target_lt (hf u h.le_lower)).mp hlower)
      exact ((hF.lt_iff_gt ⟨hpr, hrq⟩ ⟨h.le_lower, h.le.trans h.upper_le⟩).mp (EReal.coe_lt_coe_iff.mp hlt)).le
  · rcases h.upper with rfl | hupper
    · exact hrq
    · have hge := mt (decide_target_lt (hf v (h.le_lower.trans h.le))).mpr (Bool.eq_false_iff.mp hupper)
      have hle := EReal.coe_le_coe_iff.mp ((not_lt.mp hge).trans ht)
      exact (hF.le_iff_ge ⟨h.le_lower.trans h.le, h.upper_le⟩ ⟨hpr, hrq⟩).mp hle

/-! ### Hulls of two parts -/

/-- The hull of two intervals holds what either of them does. -/
theorem real_mem_hullAll {x y : Interval Exact} (hx : x.IsRegular) (hy : y.IsRegular) (h : real r ∈ x ∨ real r ∈ y) :
    real r ∈ hullAll [x, y] := by
  have hpair : hullAll [x, y] = x.hull y := by
    rw [hullAll, List.foldl_cons, hull, if_pos isEmpty_empty]
    rfl
  rw [hpair, hull]
  split_ifs with hempty hempty'
  · exact h.resolve_left (real_notMem_of_isEmpty hempty r)
  · exact h.resolve_right (real_notMem_of_isEmpty hempty' r)
  · obtain ⟨a, b, rfl⟩ := hx.exists_ends
    obtain ⟨c, d, rfl⟩ := hy.exists_ends
    rw [minNum_number, maxNum_number, real_mem_number]
    rcases h with h | h
    · obtain ⟨hlow, hhigh⟩ := real_mem_number.mp h
      exact ⟨min_le_of_left_le hlow, le_max_of_le_left hhigh⟩
    · obtain ⟨hlow, hhigh⟩ := real_mem_number.mp h
      exact ⟨min_le_of_right_le hlow, le_max_of_le_right hhigh⟩

end Interval

/-! ### Solutions on either side of a peak -/

namespace IsHump

open IntervalDag.Interval

variable {F : ℝ → ℝ} {f : Exact → Exact} {peak r : ℝ} {t : EReal}

/-- The peak is above zero, since zero and one have the same value. -/
theorem peak_pos (h : IsHump F peak) : 0 < peak := by
  by_contra hle
  have hlt := h.falls (not_lt.mp hle) h.peak_lt.le one_pos
  rw [h.zero_eq, h.one_eq] at hlt
  exact lt_irrefl _ hlt

/-- The value at the peak is the greatest. -/
theorem le_peak (h : IsHump F peak) (hr : 0 ≤ r) : F r ≤ peak := by
  rw [← h.peak_eq]
  rcases le_total r peak with hle | hge
  · exact h.rises.monotoneOn ⟨hr, hle⟩ ⟨h.peak_pos.le, le_rfl⟩ hle
  · exact h.falls.antitoneOn (Set.mem_Ici.mpr le_rfl) hge hge

/-- Values before the peak are not negative. -/
theorem nonneg_of_le_peak (h : IsHump F peak) (hr : 0 ≤ r) (hle : r ≤ peak) : 0 ≤ F r := by
  rw [← h.zero_eq]
  exact h.rises.monotoneOn ⟨le_rfl, h.peak_pos.le⟩ ⟨hr, hle⟩ hr

/-- **Doublings of one** get to values that do not exceed a target. -/
theorem exists_pow_le (h : IsHump F peak) (ht : t ≠ ⊥) : ∃ n : ℕ, (F (2 ^ n) : EReal) ≤ t := by
  obtain ⟨b, hb⟩ : ∃ b : ℝ, (b : EReal) ≤ t := by
    induction t with
    | bot => exact absurd rfl ht
    | coe b => exact ⟨b, le_rfl⟩
    | top => exact ⟨0, le_top⟩
  obtain ⟨r, hr, hrb⟩ := h.unbounded b
  obtain ⟨n, hn⟩ := pow_unbounded_of_one_lt r one_lt_two
  have hle := h.falls.antitoneOn hr (hr.trans hn.le) hn.le
  exact ⟨n, (EReal.coe_le_coe_iff.mpr (hle.trans hrb.le)).trans hb⟩

/-- What doubling ends at: a number where the value does not exceed the target. -/
theorem of_doubleWhileAbove? (hf : ∀ r, 0 ≤ r → f (real r) = real (F r)) {steps : Nat} (hr : 0 ≤ r) {hi : Exact}
    (h : doubleWhileAbove? f (number t) steps (real r) = some hi) : ∃ q, r ≤ q ∧ hi = real q ∧ (F q : EReal) ≤ t := by
  induction steps generalizing r with
  | zero => cases h
  | succ steps ih =>
    have hdouble : real r * (2.0 : Exact) = real (r * 2.0) := real_mul _ _
    have hle : r ≤ r * 2.0 := by linarith
    rw [doubleWhileAbove?, hdouble] at h
    split_ifs at h with habove
    · obtain ⟨q, hq, hend⟩ := ih (hr.trans hle) h
      exact ⟨q, hle.trans hq, hend⟩
    · refine ⟨r, le_rfl, (Option.some.inj h).symm, not_lt.mp fun hlt => habove ⟨?_, isFinite_real r⟩⟩
      rw [hf r hr]
      exact hlt

/-- Below all numbers there is no value, so doubling does not end. -/
theorem doubleWhileAbove?_bot (hf : ∀ r, 0 ≤ r → f (real r) = real (F r)) (steps : Nat) :
    doubleWhileAbove? f (number ⊥) steps 1 = none := by
  cases h : doubleWhileAbove? f (number ⊥) steps 1 with
  | none => rfl
  | some hi =>
    rw [← real_one] at h
    obtain ⟨q, -, -, hq⟩ := of_doubleWhileAbove? hf one_pos.le h
    exact absurd hq (EReal.bot_lt_coe _).not_ge

/-- **Doubling ends** at the first power of two that does. -/
theorem exists_doubleWhileAbove? (h : IsHump F peak) (hf : ∀ r, 0 ≤ r → f (real r) = real (F r)) (ht : t ≠ ⊥) :
    ∃ n : ℕ, (F (2 ^ n) : EReal) ≤ t ∧
      ∀ steps, n < steps → doubleWhileAbove? f (number t) steps 1 = some (real (2 ^ n)) := by
  classical
  have hexists := h.exists_pow_le ht
  refine ⟨Nat.find hexists, Nat.find_spec hexists, fun steps hsteps => ?_⟩
  -- from every power up to the first one, as many steps as are left are enough
  suffices hfrom : ∀ k, k ≤ Nat.find hexists → ∀ steps, Nat.find hexists - k < steps →
      doubleWhileAbove? f (number t) steps (real (2 ^ k)) = some (real (2 ^ Nat.find hexists)) by
    have hzero := hfrom 0 (Nat.zero_le _) steps hsteps
    rwa [pow_zero, real_one] at hzero
  intro k hk steps hsteps
  induction steps generalizing k with
  | zero => exact absurd hsteps (Nat.not_lt_zero _)
  | succ steps ih =>
    have hvalue : f (real (2 ^ k)) = real (F (2 ^ k)) := hf _ (by positivity)
    rw [doubleWhileAbove?]
    rcases hk.eq_or_lt with rfl | hlt
    · rw [if_neg]
      rintro ⟨habove, -⟩
      rw [hvalue] at habove
      exact (Nat.find_spec hexists).not_gt habove
    · have hdouble : real (2 ^ k) * (2.0 : Exact) = real (2 ^ (k + 1)) :=
        (real_mul _ _).trans (congrArg real (by rw [pow_succ]; norm_num))
      have habove : number t < f (real (2 ^ k)) := by
        rw [hvalue]
        exact not_le.mp (Nat.find_min hexists hlt)
      rw [if_pos ⟨habove, isFinite_real _⟩, hdouble]
      exact ih (k + 1) hlt (by omega)

/-- **Bracket before the peak.** -/
theorem exists_bisect_rising (h : IsHump F peak) (hf : ∀ r, 0 ≤ r → f (real r) = real (F r)) (t : EReal) (steps : Nat)
    {p q : ℝ} (hp : 0 ≤ p) (hpq : p ≤ q) (hq : q ≤ peak) :
    ∃ u v : ℝ, bisect (fun x => f x < number t) steps (real p) (real q) = (real u, real v) ∧ p ≤ u ∧ u ≤ v ∧ v ≤ q ∧
      ∀ r, p ≤ r → r ≤ q → (t ≤ F r → u ≤ r) ∧ ((F r : EReal) ≤ t → r ≤ v) := by
  obtain ⟨u, v, hrun, hbracket⟩ := exists_bisect (fun x => decide (f x < number t)) steps hpq
  refine ⟨u, v, hrun, hbracket.le_lower, hbracket.le, hbracket.upper_le, fun r => ?_⟩
  exact hbracket.between_of_mono (fun r hr => hf r (hp.trans hr)) (h.rises.mono (Set.Icc_subset_Icc hp hq))

/-- **Bracket from the peak on.** -/
theorem exists_bisect_falling (h : IsHump F peak) (hf : ∀ r, 0 ≤ r → f (real r) = real (F r)) (t : EReal) (steps : Nat)
    {p q : ℝ} (hp : peak ≤ p) (hpq : p ≤ q) :
    ∃ u v : ℝ, bisect (fun x => number t < f x) steps (real p) (real q) = (real u, real v) ∧ p ≤ u ∧ u ≤ v ∧ v ≤ q ∧
      ∀ r, p ≤ r → r ≤ q → ((F r : EReal) ≤ t → u ≤ r) ∧ (t ≤ F r → r ≤ v) := by
  obtain ⟨u, v, hrun, hbracket⟩ := exists_bisect (fun x => decide (number t < f x)) steps hpq
  refine ⟨u, v, hrun, hbracket.le_lower, hbracket.le, hbracket.upper_le, fun r => ?_⟩
  exact hbracket.between_of_anti (fun r hr => hf r (h.peak_pos.le.trans (hp.trans hr)))
    (h.falls.mono fun _ hr => hp.trans hr.1)

/-- The bracket that is searched from the peak on, also if doubling is cut off. -/
theorem exists_fallingBracket (h : IsHump F peak) (hf : ∀ r, 0 ≤ r → f (real r) = real (F r)) (steps : Nat)
    (t : EReal) : ∃ (u : ℝ) (b : EReal), fallingBracket steps f (real peak) (number t) = (real u, number b) ∧
      ∀ r, peak ≤ r → ((F r : EReal) ≤ t → u ≤ r) ∧ (t ≤ F r → r ≤ b) := by
  rw [fallingBracket, ← real_one]
  cases hdouble : doubleWhileAbove? f (number t) steps (real 1) with
  | none => exact ⟨peak, ⊤, rfl, fun r hr => ⟨fun _ => hr, fun _ => le_top⟩⟩
  | some hi =>
    obtain ⟨q, hq, rfl, hvalue⟩ := of_doubleWhileAbove? hf one_pos.le hdouble
    have hpeak : peak ≤ q := h.peak_lt.le.trans hq
    obtain ⟨u, v, hrun, -, huv, hvq, hbetween⟩ := h.exists_bisect_falling hf t bisectionSteps le_rfl hpeak
    refine ⟨u, v, (if_pos (isFinite_real q)).trans hrun, fun r hr => ?_⟩
    rcases le_or_gt r q with hrq | hqr
    · exact (hbetween r hr hrq).imp_right fun hle ht => EReal.coe_le_coe_iff.mpr (hle ht)
    · -- beyond the bracket all values are below the target
      have hlt : (F r : EReal) < t := (EReal.coe_lt_coe_iff.mpr (h.falls hpeak hr hqr)).trans_le hvalue
      exact ⟨fun _ => huv.trans (hvq.trans hqr.le), fun ht => absurd ht hlt.not_ge⟩

/-- Once doubling ends, more steps change nothing. -/
theorem eventuallyConst_fallingBracket (h : IsHump F peak) (hf : ∀ r, 0 ≤ r → f (real r) = real (F r)) (ht : t ≠ ⊥) :
    EventuallyConst (fun steps => fallingBracket steps f (real peak) (number t)) atTop := by
  obtain ⟨n, -, hdouble⟩ := h.exists_doubleWhileAbove? hf ht
  refine eventuallyConst_atTop.mpr ⟨n + 1, fun steps hsteps => ?_⟩
  rw [fallingBracket, fallingBracket, hdouble steps hsteps, hdouble (n + 1) n.lt_succ_self]

theorem real_mem_risingPart (h : IsHump F peak) (hf : ∀ r, 0 ≤ r → f (real r) = real (F r)) {a b : EReal} (hr : 0 ≤ r)
    (hpeak : r ≤ peak) (ha : a ≤ F r) (hb : (F r : EReal) ≤ b) :
    real r ∈ risingPart f (real peak) ⟨number a, number b⟩ := by
  have hbracket (t : EReal) := h.exists_bisect_rising hf t bisectionSteps le_rfl h.peak_pos.le le_rfl
  obtain ⟨u, v, hlower, -, -, -, hbetween⟩ := hbracket a
  obtain ⟨u', v', hupper, -, -, -, hbetween'⟩ := hbracket b
  rw [real_zero] at hlower hupper
  rw [mem_iff, risingPart]
  refine ⟨?_, ?_⟩
  · dsimp only
    split_ifs
    · rw [← real_zero]
      exact EReal.coe_le_coe_iff.mpr hr
    · rw [risingBracket, hlower]
      exact EReal.coe_le_coe_iff.mpr ((hbetween r hr hpeak).1 ha)
  · dsimp only
    split_ifs
    · exact EReal.coe_le_coe_iff.mpr hpeak
    · rw [risingBracket, hupper]
      exact EReal.coe_le_coe_iff.mpr ((hbetween' r hr hpeak).2 hb)

theorem real_mem_fallingPart (h : IsHump F peak) (hf : ∀ r, 0 ≤ r → f (real r) = real (F r)) (steps : Nat)
    {a b : EReal} (hpeak : peak ≤ r) (ha : a ≤ F r) (hb : (F r : EReal) ≤ b) :
    real r ∈ fallingPart steps f (real peak) ⟨number a, number b⟩ := by
  obtain ⟨u, v, hlower, hbetween⟩ := h.exists_fallingBracket hf steps b
  obtain ⟨u', v', hupper, hbetween'⟩ := h.exists_fallingBracket hf steps a
  rw [mem_iff, fallingPart]
  refine ⟨?_, ?_⟩
  · dsimp only
    split_ifs
    · exact EReal.coe_le_coe_iff.mpr hpeak
    · rw [hlower]
      exact EReal.coe_le_coe_iff.mpr ((hbetween r hpeak).1 hb)
  · dsimp only
    split_ifs
    · exact number_le_number.mpr le_top
    · rw [hupper]
      exact number_le_number.mpr ((hbetween' r hpeak).2 ha)

/-- Below all numbers nothing is searched for, so no doubling is needed there. -/
theorem eventuallyConst_fallingPart (h : IsHump F peak) (hf : ∀ r, 0 ≤ r → f (real r) = real (F r)) (a : EReal)
    (ht : t ≠ ⊥) : EventuallyConst (fun steps => fallingPart steps f (real peak) ⟨number a, number t⟩) atTop := by
  have hlower := (h.eventuallyConst_fallingBracket hf ht).comp fun bracket =>
    if real peak ≤ number t then real peak else bracket.1
  have hupper : EventuallyConst (fun steps =>
      if number a == negInf then posInf else (fallingBracket steps f (real peak) (number a)).2) atTop := by
    rcases eq_or_ne a ⊥ with rfl | ha
    · have hnone : ((number ⊥ : Exact) == negInf) = true := by rw [negInf_def, number_beq_number]
      simp only [hnone, if_true]
      exact .const _
    · exact (h.eventuallyConst_fallingBracket hf ha).comp fun bracket => if number a == negInf then posInf else bracket.2
  exact hlower.comp₂ Interval.mk hupper

/-- **No solution is lost.** -/
theorem real_mem_humpInverse (h : IsHump F peak) (hf : ∀ r, 0 ≤ r → f (real r) = real (F r)) (steps : Nat)
    {bounds within : Interval Exact} (hr : 0 ≤ r) (hwithin : real r ∈ within) (hbounds : f (real r) ∈ bounds) :
    real r ∈ humpInverse steps f (real peak) bounds within := by
  have hnonnegative : real r ∈ (nonnegative : Interval Exact) := by
    rw [nonnegative, ← real_zero]
    exact real_mem_ray.mpr hr
  have hpart := mem_inter hwithin hnonnegative
  have hregular : within.IsRegular := Or.inr (isProper_of_real_mem hwithin)
  have hpartRegular := hregular.inter isRegular_nonnegative
  rw [hf r hr] at hbounds
  have hnonempty := isEmpty_of_mem hbounds
  obtain ⟨a, b, rfl, ha, hb⟩ := real_mem_iff.mp hbounds
  have hreaches : ¬ real peak < number a := fun hlt =>
    (hlt.trans_le (ha.trans (EReal.coe_le_coe_iff.mpr (h.le_peak hr)))).false
  have hsearched : ((⟨number a, number b⟩ : Interval Exact).isEmpty || (within.inter nonnegative).isEmpty ||
      decide (real peak < number a)) = false := by
    rw [hnonempty, isEmpty_of_mem hpart, decide_eq_false hreaches]
    rfl
  have hrising : (if number b < 0 then empty else risingPart f (real peak) ⟨number a, number b⟩).IsRegular := by
    split_ifs
    · exact isRegular_empty
    · exact isRegular_risingPart f peak _
  rw [humpInverse]
  dsimp only
  rw [hsearched, if_neg Bool.false_ne_true]
  refine real_mem_hullAll (hrising.inter hpartRegular) ((isRegular_fallingPart steps f peak _).inter hpartRegular) ?_
  rcases le_total r peak with hpeak | hpeak
  · have hnonneg : ¬ number b < 0 := fun hlt =>
      ((EReal.coe_nonneg.mpr (h.nonneg_of_le_peak hr hpeak)).trans hb).not_gt hlt
    rw [if_neg hnonneg]
    exact Or.inl (mem_inter (h.real_mem_risingPart hf hr hpeak ha hb) hpart)
  · exact Or.inr (mem_inter (h.real_mem_fallingPart hf steps hpeak ha hb) hpart)

/-- **What is found does not depend on the number of steps**, once that is great enough, unless doubling is asked to go
below all numbers. -/
theorem eventuallyConst_humpInverse (h : IsHump F peak) (hf : ∀ r, 0 ≤ r → f (real r) = real (F r))
    {bounds : Interval Exact} (hbounds : bounds.HasNumbers) (hpoint : bounds ≠ ⟨negInf, negInf⟩)
    (within : Interval Exact) :
    EventuallyConst (fun steps => humpInverse steps f (real peak) bounds within) atTop := by
  obtain ⟨a, b, rfl⟩ := hbounds.exists_ends
  by_cases hempty : (⟨number a, number b⟩ : Interval Exact).isEmpty = true
  · simp only [humpInverse, hempty, Bool.true_or, if_true]
    exact .const _
  have hb : b ≠ ⊥ := by
    rintro rfl
    obtain rfl : a = ⊥ := le_bot_iff.mp (not_lt.mp (mt isEmpty_number.mpr hempty))
    exact hpoint rfl
  obtain ⟨n, hfalling⟩ := eventuallyConst_atTop.mp (h.eventuallyConst_fallingPart hf a hb)
  refine eventuallyConst_atTop.mpr ⟨n, fun steps hsteps => ?_⟩
  rw [humpInverse, humpInverse, hfalling steps hsteps]

end IsHump

namespace Interval

/-- What is left of the part that is not negative is a part of the whole. -/
theorem inter_part_isSubset (z : Interval Exact) {a b : EReal}
    (hpart : ((⟨number a, number b⟩ : Interval Exact).inter nonnegative).isEmpty = false) :
    (z.inter ((⟨number a, number b⟩ : Interval Exact).inter nonnegative)).isSubset ⟨number a, number b⟩ = true := by
  rw [inter_nonnegative] at hpart ⊢
  split_ifs at hpart ⊢
  · rw [isEmpty_empty] at hpart
    cases hpart
  · exact inter_isSubset_number z (le_max_left a 0) le_rfl

/-- What is found is a part of the interval that is narrowed, whatever the function and the bounds are. -/
theorem humpInverse_isSubset (steps : Nat) (f : Exact → Exact) (peak : Exact) (bounds : Interval Exact)
    {within : Interval Exact} (h : within.HasNumbers) :
    (humpInverse steps f peak bounds within).isSubset within = true := by
  obtain ⟨a, b, rfl⟩ := h.exists_ends
  rw [humpInverse]
  dsimp only
  by_cases hnone : (bounds.isEmpty || ((⟨number a, number b⟩ : Interval Exact).inter nonnegative).isEmpty ||
      decide (peak < bounds.inf)) = true
  · rw [if_pos hnone]
    exact isSubset_empty _
  · have hpart : ((⟨number a, number b⟩ : Interval Exact).inter nonnegative).isEmpty = false := by
      rw [Bool.or_eq_true_iff, Bool.or_eq_true_iff] at hnone
      exact Bool.eq_false_iff.mpr fun hempty => hnone (Or.inl (Or.inr hempty))
    rw [if_neg hnone]
    refine hullAll_isSubset fun y hy => ?_
    rcases List.mem_pair.mp hy with rfl | rfl
    · exact inter_part_isSubset _ hpart
    · exact inter_part_isSubset _ hpart

/-- **Inverting a hump.** In exact arithmetic, take any function that is a hump on the numbers that are not negative.
Doubling ends for every target but the one below all numbers. After any number of halvings the ends of a bracket are in
order and inside the one that was halved, and every solution in that one is between them. For all bounds but the point
below all numbers, what is found is the same from some number of doublings on, namely once all doubling comes to its
end. Then every number that is not negative, is in the interval to be narrowed and has its value in the bounds is kept,
and what is kept is a part of that interval. -/
theorem humpInverse_keeps {F : ℝ → ℝ} {f : Exact → Exact} {peak : ℝ} (h : IsHump F peak)
    (hf : ∀ r, 0 ≤ r → f (real r) = real (F r)) :
    (∀ t : EReal, t ≠ ⊥ → ∃ n : ℕ, (F (2 ^ n) : EReal) ≤ t ∧
      ∀ steps, n < steps → doubleWhileAbove? f (number t) steps 1 = some (real (2 ^ n))) ∧
    (∀ (t : EReal) (steps : Nat) (p q : ℝ), 0 ≤ p → p ≤ q → q ≤ peak → ∃ u v : ℝ,
      bisect (fun x => f x < number t) steps (real p) (real q) = (real u, real v) ∧ p ≤ u ∧ u ≤ v ∧ v ≤ q ∧
      ∀ r, p ≤ r → r ≤ q → (t ≤ F r → u ≤ r) ∧ ((F r : EReal) ≤ t → r ≤ v)) ∧
    (∀ (t : EReal) (steps : Nat) (p q : ℝ), peak ≤ p → p ≤ q → ∃ u v : ℝ,
      bisect (fun x => number t < f x) steps (real p) (real q) = (real u, real v) ∧ p ≤ u ∧ u ≤ v ∧ v ≤ q ∧
      ∀ r, p ≤ r → r ≤ q → ((F r : EReal) ≤ t → u ≤ r) ∧ (t ≤ F r → r ≤ v)) ∧
    ∀ bounds within : Interval Exact, bounds.HasNumbers → bounds ≠ ⟨negInf, negInf⟩ → ∃ z n,
      (∀ steps, n ≤ steps → humpInverse steps f (real peak) bounds within = z) ∧
      (∀ r, 0 ≤ r → real r ∈ within → f (real r) ∈ bounds → real r ∈ z) ∧
      (within.HasNumbers → z.isSubset within = true) := by
  refine ⟨fun t => h.exists_doubleWhileAbove? hf, fun t steps p q => h.exists_bisect_rising hf t steps,
    fun t steps p q => h.exists_bisect_falling hf t steps, fun bounds within hnumbers hpoint => ?_⟩
  obtain ⟨n, hn⟩ := eventuallyConst_atTop.mp (h.eventuallyConst_humpInverse hf hnumbers hpoint within)
  exact ⟨_, n, hn, fun r => h.real_mem_humpInverse hf n, humpInverse_isSubset n f _ bounds⟩

/-- The entropy term has no value below all numbers, so doubling never ends when it is asked for one. -/
theorem not_forall_doubling_ends : ¬ ∀ t : EReal, ∃ steps hi,
    doubleWhileAbove? entropyAt (number t) steps 1 = some hi := by
  intro h
  obtain ⟨steps, hi, hrun⟩ := h ⊥
  rw [IsHump.doubleWhileAbove?_bot (fun r => entropyAt_real) steps] at hrun
  cases hrun

/-- Values of the entropy term from zero to one are taken at one and at the peak. -/
theorem humpInverse_keeps_of_entropy :
    IsHump Real.negMulLog (Real.exp (-1)) ∧ (∀ r, 0 ≤ r → entropyAt (real r) = real (Real.negMulLog r)) ∧
    ∃ z n, (∀ steps, n ≤ steps →
        humpInverse steps entropyAt (real (Real.exp (-1))) ⟨real 0, real 1⟩ nonnegative = z) ∧
      real 1 ∈ z ∧ real (Real.exp (-1)) ∈ z ∧ z.isSubset nonnegative = true := by
  have hf (r : ℝ) (hr : 0 ≤ r) : entropyAt (real r) = real (Real.negMulLog r) := entropyAt_real hr
  obtain ⟨-, -, -, hkeeps⟩ := humpInverse_keeps isHump_negMulLog hf
  have hpoint : (⟨real 0, real 1⟩ : Interval Exact) ≠ ⟨negInf, negInf⟩ := fun heq => by
    have hends := congrArg Interval.inf heq
    rw [negInf_def] at hends
    exact EReal.coe_ne_bot 0 (number.inj hends)
  obtain ⟨z, n, hz, hmem, hsubset⟩ := hkeeps ⟨real 0, real 1⟩ nonnegative (hasNumbers_number _ _) hpoint
  have hnonnegative {r : ℝ} (hr : 0 ≤ r) : real r ∈ (nonnegative : Interval Exact) := by
    rw [nonnegative, ← real_zero]
    exact real_mem_ray.mpr hr
  have hpeak := Real.exp_pos (-1)
  refine ⟨isHump_negMulLog, hf, z, n, hz, hmem 1 one_pos.le (hnonnegative one_pos.le) ?_,
    hmem _ hpeak.le (hnonnegative hpeak.le) ?_, hsubset (hasNumbers_number 0 ⊤)⟩
  · rw [hf 1 one_pos.le, Real.negMulLog_one, real_mem_real]
    exact ⟨le_rfl, one_pos.le⟩
  · rw [hf _ hpeak.le, isHump_negMulLog.peak_eq, real_mem_real]
    exact ⟨hpeak.le, isHump_negMulLog.peak_lt.le⟩

end Interval

end IntervalDag
