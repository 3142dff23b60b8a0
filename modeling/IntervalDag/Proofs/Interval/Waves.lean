import Mathlib.Algebra.Ring.Periodic
import Mathlib.Analysis.SpecialFunctions.Trigonometric.Basic
import IntervalDag.Proofs.Interval.Isotonicity
import IntervalDag.Proofs.Interval.Remote
import IntervalDag.Proofs.Scalar.Logarithms

/-!
# Ranges of periodic functions

The range of a function such as the sine is read off the ends of an interval and off the peaks and troughs in it.
`Interval.periodicRange_encloses` says that this is right for every function that swings like the sine (`IsWave`), and
exact arithmetic with any period (`ExactTurning`). One division finds a peak or a trough if there is one
(`Interval.hitsPeriod_iff`). Between two troughs a wave is nowhere below both its values at the ends
(`IsWave.min_le`), and upside down it is a wave too (`IsWave.neg`).
-/

namespace IntervalDag

open Scalar Exact

/-! ### Waves -/

/-- A function that repeats after a period, rises from `-1` at a trough over half of it to `1`, and falls back over the
other half. The peak may be the one of any period. -/
structure IsWave (F : ℝ → ℝ) (period peak trough : ℝ) : Prop where
  periodic : Function.Periodic F period
  peak_eq : F peak = 1
  trough_eq : F trough = -1
  rises : MonotoneOn F (Set.Icc trough (trough + period / 2))
  falls : AntitoneOn F (Set.Icc (trough + period / 2) (trough + period))
  apart : ∃ k : ℤ, peak = trough + period / 2 + k * period

namespace IsWave

variable {F : ℝ → ℝ} {period peak trough p q r : ℝ}

/-- The trough may be the one of any period as well. -/
theorem shift (h : IsWave F period peak trough) (k : ℤ) : IsWave F period peak (trough + k * period) := by
  have hback (u : ℝ) : F (u - k * period) = F u := (h.periodic.int_mul k).sub_eq u
  refine ⟨h.periodic, h.peak_eq, ((h.periodic.int_mul k) trough).trans h.trough_eq, fun u hu v hv huv => ?_,
    fun u hu v hv huv => ?_, ?_⟩
  · rw [← hback u, ← hback v]
    exact h.rises ⟨by linarith [hu.1], by linarith [hu.2]⟩ ⟨by linarith [hv.1], by linarith [hv.2]⟩ (by linarith)
  · rw [← hback u, ← hback v]
    exact h.falls ⟨by linarith [hu.1], by linarith [hu.2]⟩ ⟨by linarith [hv.1], by linarith [hv.2]⟩ (by linarith)
  · obtain ⟨j, hj⟩ := h.apart
    exact ⟨j - k, by push_cast; linarith⟩

/-- **Upside down** peaks are troughs. -/
theorem neg (h : IsWave F period peak trough) : IsWave (-F) period trough peak := by
  obtain ⟨k, hk⟩ := h.apart
  refine ⟨fun u => congrArg Neg.neg (h.periodic u), by simp [h.trough_eq], by simp [h.peak_eq], ?_, ?_, -k - 1, ?_⟩
  · have hfalls := (h.shift k).falls.neg
    rwa [show trough + k * period + period / 2 = peak by linarith,
      show trough + k * period + period = peak + period / 2 by linarith] at hfalls
  · have hrises := (h.shift (k + 1)).rises.neg
    rwa [show trough + ((k + 1 : ℤ) : ℝ) * period = peak + period / 2 by push_cast; linarith,
      show peak + period / 2 + period / 2 = peak + period by ring] at hrises
  · push_cast
    linarith

/-- A number lies between a trough and the next. -/
theorem exists_trough_le (hperiod : 0 < period) (trough r : ℝ) :
    ∃ k : ℤ, trough + k * period ≤ r ∧ r < trough + k * period + period := by
  have hle := Int.sub_floor_div_mul_nonneg (r - trough) hperiod
  have hlt := Int.sub_floor_div_mul_lt (r - trough) hperiod
  exact ⟨⌊(r - trough) / period⌋, by linarith, by linarith⟩

/-- From a trough to the next, a wave is nowhere between two numbers below both its values there. -/
theorem min_le_of_trough_le (h : IsWave F period peak trough) (hp : trough ≤ p) (hpr : p ≤ r) (hrq : r ≤ q)
    (hq : q ≤ trough + period) : min (F p) (F q) ≤ F r := by
  rcases le_total r (trough + period / 2) with hr | hr
  · exact min_le_of_left_le (h.rises ⟨hp, hpr.trans hr⟩ ⟨hp.trans hpr, hr⟩ hpr)
  · exact min_le_of_right_le (h.falls ⟨hr, hrq.trans hq⟩ ⟨hr.trans hrq, hq⟩ hrq)

theorem neg_one_le (h : IsWave F period peak trough) (hperiod : 0 < period) (r : ℝ) : -1 ≤ F r := by
  obtain ⟨k, hle, hlt⟩ := exists_trough_le hperiod trough r
  have hshift := h.shift k
  have hmin := hshift.min_le_of_trough_le le_rfl hle hlt.le le_rfl
  rwa [h.periodic, min_self, hshift.trough_eq] at hmin

theorem le_one (h : IsWave F period peak trough) (hperiod : 0 < period) (r : ℝ) : F r ≤ 1 :=
  neg_le_neg_iff.mp (h.neg.neg_one_le hperiod r)

/-- **Without a trough** between two numbers, a wave is nowhere between them below both its values there. -/
theorem min_le (h : IsWave F period peak trough) (hperiod : 0 < period) (hpr : p ≤ r) (hrq : r ≤ q)
    (hnone : ∀ k : ℤ, ¬ (p ≤ trough + k * period ∧ trough + k * period ≤ q)) : min (F p) (F q) ≤ F r := by
  obtain ⟨k, hle, hlt⟩ := exists_trough_le hperiod trough p
  have hnext : trough + ((k + 1 : ℤ) : ℝ) * period = trough + k * period + period := by push_cast; ring
  -- the next trough is above `p`, so it is above `q`
  have hq : q < trough + k * period + period := by
    by_contra hq
    exact hnone (k + 1) ⟨hnext ▸ hlt.le, hnext ▸ not_lt.mp hq⟩
  exact (h.shift k).min_le_of_trough_le hle hpr hrq hq.le

/-- **Without a peak** a wave is nowhere above both. -/
theorem le_max (h : IsWave F period peak trough) (hperiod : 0 < period) (hpr : p ≤ r) (hrq : r ≤ q)
    (hnone : ∀ k : ℤ, ¬ (p ≤ peak + k * period ∧ peak + k * period ≤ q)) : F r ≤ max (F p) (F q) := by
  have hmin := h.neg.min_le hperiod hpr hrq hnone
  simp only [Pi.neg_apply, min_neg_neg] at hmin
  exact neg_le_neg_iff.mp hmin

end IsWave

/-- The sine is a wave. -/
theorem isWave_sin : IsWave Real.sin (2 * Real.pi) (Real.pi / 2) (-(Real.pi / 2)) where
  periodic := Real.sin_periodic
  peak_eq := Real.sin_pi_div_two
  trough_eq := by rw [Real.sin_neg, Real.sin_pi_div_two]
  rises := by
    rw [show -(Real.pi / 2) + 2 * Real.pi / 2 = Real.pi / 2 by ring]
    exact Real.strictMonoOn_sin.monotoneOn
  falls u hu v hv huv := by
    rw [← Real.sin_pi_sub u, ← Real.sin_pi_sub v]
    have hpi := Real.pi_pos
    exact Real.strictMonoOn_sin.monotoneOn ⟨by linarith [hv.2], by linarith [hv.1]⟩
      ⟨by linarith [hu.2], by linarith [hu.1]⟩ (by linarith)
  apart := ⟨0, by push_cast; ring⟩

/-! ### Any period -/

/-- Exact arithmetic in which sine and cosine are taken to have a given period. -/
def ExactTurning (_ : Set.Ioi (0 : ℝ)) : Type := Exact

namespace ExactTurning

variable {period : Set.Ioi (0 : ℝ)}

noncomputable instance : Scalar (ExactTurning period) :=
  { (inferInstance : Scalar Exact) with pi := real (period / (1 + 1)) }

theorem tau_eq : (tau : ExactTurning period) = (real period : Exact) :=
  (real_add _ _).trans (congrArg real (by rw [one_add_one_eq_two, add_halves]))

end ExactTurning

namespace Interval

variable {period : Set.Ioi (0 : ℝ)} {x : Interval Exact} {F : ℝ → ℝ} {f : Exact → Exact} {peak trough r : ℝ}

theorem hitsPeriod_exactTurning (x : Interval Exact) (base : Exact) : hitsPeriod (α := ExactTurning period) x base =
    decide (base + Scalar.ceil ((x.inf - base) / real period) * real period ≤ x.sup) := by
  rw [← ExactTurning.tau_eq]
  rfl

theorem periodicRange_exactTurning (x : Interval Exact) (f : Exact → Exact) (peak trough : Exact) :
    periodicRange (α := ExactTurning period) x f peak trough =
      if x.isEmpty then empty
      else if !x.isBounded || decide (real period ≤ x.sup - x.inf) then ⟨-1, 1⟩
      else ⟨if hitsPeriod (α := ExactTurning period) x trough then -1
          else maxNum (nudgeDown (minNum (f x.inf) (f x.sup))) (-1),
        if hitsPeriod (α := ExactTurning period) x peak then 1
          else minNum (nudgeUp (maxNum (f x.inf) (f x.sup))) 1⟩ := by
  rw [← ExactTurning.tau_eq]
  rfl

/-! ### Peaks and troughs -/

/-- From an end at an infinity on, whole numbers of periods do not lead back. -/
theorem next_at_infinity {e : EReal} (he : IsInfinite e) (base : ℝ) (hpos : (0 : ℝ) < period) :
    real base + Scalar.ceil ((number e - real base) / real period) * real period = number e := by
  have hdiv : e / (period : ℝ) = e := by
    rcases he with rfl | rfl
    · exact EReal.top_div_of_pos_ne_top (EReal.coe_pos.mpr hpos) (EReal.coe_ne_top _)
    · exact EReal.bot_div_of_pos_ne_top (EReal.coe_pos.mpr hpos) (EReal.coe_ne_top _)
  have hceil : Scalar.ceil (number e) = number e := by
    rcases he with rfl | rfl
    · exact lift_top
    · exact lift_bot
  have hmul : number e * real period = number (e * (period : ℝ)) :=
    number_mul_real hpos.ne'
  have hadd : real base + number e = number e := by
    rcases he with rfl | rfl
    · exact (number_add (by simp)).trans (congrArg number (EReal.coe_add_top base))
    · exact (number_add (by simp)).trans (congrArg number (EReal.add_bot base))
  rw [IsRemote.number_sub_real he, IsRemote.number_div_real hpos.ne', hdiv, hceil, hmul, IsRemote.mul_of_pos he hpos,
    hadd]

/-- Dividing and rounding up leads to the least number from a start on that is whole periods away from a base. -/
theorem isLeast_next {period : ℝ} (hpos : 0 < period) (base p : ℝ) :
    IsLeast {r | p ≤ r ∧ ∃ k : ℤ, r = base + k * period} (base + ⌈(p - base) / period⌉ * period) := by
  have hle := (div_le_iff₀ hpos).mp (Int.le_ceil ((p - base) / period))
  refine ⟨⟨by linarith, _, rfl⟩, ?_⟩
  rintro _ ⟨hk, k, rfl⟩
  have hceil : ⌈(p - base) / period⌉ ≤ k := Int.ceil_le.mpr ((div_le_iff₀ hpos).mpr (by linarith))
  have hmul := mul_le_mul_of_nonneg_right (Int.cast_le (R := ℝ).mpr hceil) hpos.le
  linarith

theorem next_real {period : ℝ} (hpos : 0 < period) (base p : ℝ) :
    real base + Scalar.ceil ((real p - real base) / real period) * real period =
      real (base + ⌈(p - base) / period⌉ * period) := by
  rw [real_sub, real_div_real hpos.ne', ceil_real, real_mul, real_add]

/-- The first place from a real end on that is whole periods away from a base is not above a bound exactly if any such
place from there on is not. -/
theorem next_le_iff (hpos : (0 : ℝ) < period) (base p : ℝ) (b : EReal) :
    real base + Scalar.ceil ((real p - real base) / real period) * real period ≤ number b ↔
      ∃ k : ℤ, p ≤ base + k * period ∧ ((base + k * period : ℝ) : EReal) ≤ b := by
  obtain ⟨⟨hle, k, hk⟩, hleast⟩ := isLeast_next hpos base p
  rw [next_real hpos, real, number_le_number]
  constructor
  · intro h
    rw [hk] at hle h
    exact ⟨k, hle, h⟩
  · rintro ⟨k, hk, h⟩
    exact (EReal.coe_le_coe_iff.mpr (hleast ⟨hk, k, rfl⟩)).trans h

/-- From minus infinity on there is such a place below every bound but minus infinity itself. -/
theorem next_le_iff_of_bot (hpos : (0 : ℝ) < period) (base : ℝ) (b : EReal) :
    real base + Scalar.ceil ((number ⊥ - real base) / real period) * real period ≤ number b ↔
      (∃ k : ℤ, real (base + k * period) ∈ (⟨number ⊥, number b⟩ : Interval Exact)) ∨
        IsRemote ⟨number ⊥, number b⟩ := by
  rw [next_at_infinity (Or.inr rfl) base hpos]
  refine iff_of_true (number_le_number.mpr bot_le) ?_
  rcases eq_or_ne b ⊥ with rfl | hb
  · exact Or.inr isRemote_bot
  · obtain ⟨r, -, hr⟩ := exists_real_between bot_le bot_ne_top hb
    obtain ⟨k, hk, -⟩ := IsWave.exists_trough_le hpos base r
    exact Or.inl ⟨k, real_mem_number.mpr ⟨bot_le, (EReal.coe_le_coe_iff.mpr hk).trans hr⟩⟩

/-- From infinity on there is none. -/
theorem next_le_iff_of_top (hpos : (0 : ℝ) < period) (base : ℝ) (b : EReal) :
    real base + Scalar.ceil ((number ⊤ - real base) / real period) * real period ≤ number b ↔
      (∃ k : ℤ, real (base + k * period) ∈ (⟨number ⊤, number b⟩ : Interval Exact)) ∨
        IsRemote ⟨number ⊤, number b⟩ := by
  rw [next_at_infinity (Or.inl rfl) base hpos, number_le_number, top_le_iff]
  constructor
  · rintro rfl
    exact Or.inr isRemote_top
  · rintro (⟨k, hk⟩ | ⟨e, -, he⟩)
    · exact absurd (real_mem_number.mp hk).1 (EReal.coe_lt_top _).not_ge
    · cases he
      rfl

/-- Nothing is hit in an interval with an end that is no number. -/
theorem hasNumbers_of_hitsPeriod {base : Exact} (h : hitsPeriod (α := ExactTurning period) x base = true) :
    x.HasNumbers := by
  rw [hitsPeriod_exactTurning, decide_eq_true_iff] at h
  obtain ⟨a, b⟩ := x
  cases a with
  | nan => cases b <;> cases base <;> exact h.elim
  | number a =>
    cases b with
    | nan => exact (OrderedScalar.le_self h).elim
    | number b => exact hasNumbers_number a b

/-- **One division decides.** The first place from the lower end on that is whole periods away from a base is in an
interval exactly if there is any such place in it, other than for the points at infinity, which hold no real number. -/
theorem hitsPeriod_iff (x : Interval Exact) (base : ℝ) : hitsPeriod (α := ExactTurning period) x (real base) = true ↔
    (∃ k : ℤ, real (base + k * period) ∈ x) ∨ x.IsRemote := by
  have hpos : (0 : ℝ) < period := period.2
  by_cases hnumbers : x.HasNumbers
  · obtain ⟨a, b, rfl⟩ := hnumbers.exists_ends
    rw [hitsPeriod_exactTurning, decide_eq_true_iff]
    induction a with
    | bot => exact next_le_iff_of_bot hpos base b
    | top => exact next_le_iff_of_top hpos base b
    | coe p =>
      have hremote : ¬ IsRemote ⟨number p, number b⟩ := by
        rintro ⟨e, he, heq⟩
        cases heq
        exact isInfinite_coe p he
      simp only [real_mem_number]
      rw [or_iff_left hremote]
      exact (next_le_iff hpos base p b).trans (exists_congr fun k => and_congr_left' EReal.coe_le_coe_iff.symm)
  · refine iff_of_false (mt hasNumbers_of_hitsPeriod hnumbers) ?_
    rintro (⟨k, hk⟩ | hremote)
    · exact hnumbers (isProper_of_real_mem hk).hasNumbers
    · exact hnumbers hremote.hasNumbers

/-! ### Ranges -/

/-- Places that are not hit are not between the ends. -/
theorem notMem_of_hitsPeriod {p q base : ℝ}
    (h : ¬ hitsPeriod (α := ExactTurning period) (⟨real p, real q⟩ : Interval Exact) (real base) = true) (k : ℤ) :
    ¬ (p ≤ base + k * period ∧ base + k * period ≤ q) := fun hk =>
  h ((hitsPeriod_iff _ base).mpr (Or.inl ⟨k, real_mem_real.mpr hk⟩))

/-- **The lower end** of the range of a wave between two numbers. -/
theorem exists_lower (hwave : IsWave F period peak trough) (hf : ∀ r, f (real r) = real (F r)) (p q : ℝ) :
    ∃ lo : ℝ, (if hitsPeriod (α := ExactTurning period) (⟨real p, real q⟩ : Interval Exact) (real trough) then -1
        else maxNum (nudgeDown (minNum (f (real p)) (f (real q)))) (-1)) = real lo ∧
      -1 ≤ lo ∧ ∀ r, p ≤ r → r ≤ q → lo ≤ F r := by
  split_ifs with hhit
  · exact ⟨-1, real_neg_one.symm, le_rfl, fun r _ _ => hwave.neg_one_le period.2 r⟩
  · refine ⟨max (min (F p) (F q) - 1e-12 * max |min (F p) (F q)| 1) (-1), ?_, le_max_right _ _, fun r hpr hrq => ?_⟩
    · rw [hf, hf, minNum_real, nudgeDown_real, ← real_neg_one, maxNum_real]
    · have hmargin : (0 : ℝ) ≤ 1e-12 * max |min (F p) (F q)| 1 := by positivity
      have hmin := hwave.min_le period.2 hpr hrq (notMem_of_hitsPeriod hhit)
      exact max_le ((sub_le_self _ hmargin).trans hmin) (hwave.neg_one_le period.2 r)

/-- **The upper end.** -/
theorem exists_upper (hwave : IsWave F period peak trough) (hf : ∀ r, f (real r) = real (F r)) (p q : ℝ) :
    ∃ hi : ℝ, (if hitsPeriod (α := ExactTurning period) (⟨real p, real q⟩ : Interval Exact) (real peak) then 1
        else minNum (nudgeUp (maxNum (f (real p)) (f (real q)))) 1) = real hi ∧
      hi ≤ 1 ∧ ∀ r, p ≤ r → r ≤ q → F r ≤ hi := by
  split_ifs with hhit
  · exact ⟨1, real_one.symm, le_rfl, fun r _ _ => hwave.le_one period.2 r⟩
  · refine ⟨min (max (F p) (F q) + 1e-12 * max |max (F p) (F q)| 1) 1, ?_, min_le_right _ _, fun r hpr hrq => ?_⟩
    · rw [hf, hf, maxNum_real, nudgeUp_real, ← real_one, minNum_real]
    · have hmargin : (0 : ℝ) ≤ 1e-12 * max |max (F p) (F q)| 1 := by positivity
      have hmax := hwave.le_max period.2 hpr hrq (notMem_of_hitsPeriod hhit)
      exact le_min (hmax.trans (le_add_of_nonneg_right hmargin)) (hwave.le_one period.2 r)

/-- The range over an interval with real ends. -/
theorem exists_range_real (hwave : IsWave F period peak trough) (hf : ∀ r, f (real r) = real (F r)) {p q : ℝ}
    (hempty : (⟨real p, real q⟩ : Interval Exact).isEmpty ≠ true)
    (hnarrow : (!(⟨real p, real q⟩ : Interval Exact).isBounded || decide (real period ≤ real q - real p)) ≠ true) :
    ∃ lo hi : ℝ, periodicRange (α := ExactTurning period) (⟨real p, real q⟩ : Interval Exact) f (real peak)
        (real trough) = (⟨real lo, real hi⟩ : Interval Exact) ∧ -1 ≤ lo ∧ hi ≤ 1 ∧
      ∀ r, p ≤ r → r ≤ q → lo ≤ F r ∧ F r ≤ hi := by
  obtain ⟨lo, hlo, hle, hlower⟩ := exists_lower hwave hf p q
  obtain ⟨hi, hhi, hge, hupper⟩ := exists_upper hwave hf p q
  refine ⟨lo, hi, ?_, hle, hge, fun r hpr hrq => ⟨hlower r hpr hrq, hupper r hpr hrq⟩⟩
  rw [periodicRange_exactTurning, if_neg hempty, if_neg hnarrow, hlo, hhi]

/-- **Ranges of waves.** In exact arithmetic with any period, take a function that swings like the sine. The range
found over an interval holds the values at all real numbers in it, and is a part of `[-1, 1]`. Whether a place that is
whole periods away from a base is in the interval is decided rightly, except that the points at infinity count as hit,
although there is no real number in them. -/
theorem periodicRange_encloses {period : Set.Ioi (0 : ℝ)} {F : ℝ → ℝ} {f : Exact → Exact} {peak trough : ℝ}
    (hwave : IsWave F period peak trough) (hf : ∀ r, f (real r) = real (F r)) (x : Interval Exact) :
    ∃ range : Interval Exact, periodicRange (α := ExactTurning period) x f (real peak) (real trough) = range ∧
      (∀ r, real r ∈ x → f (real r) ∈ range) ∧ range.isSubset ⟨-1, 1⟩ = true ∧
      ∀ base : ℝ, hitsPeriod (α := ExactTurning period) x (real base) = true ↔
        (∃ k : ℤ, real (base + k * period) ∈ x) ∨ x.IsRemote := by
  suffices h : ∃ range : Interval Exact,
      periodicRange (α := ExactTurning period) x f (real peak) (real trough) = range ∧
        (∀ r, real r ∈ x → f (real r) ∈ range) ∧ range.isSubset ⟨-1, 1⟩ = true by
    obtain ⟨range, hrange, hmem, hsubset⟩ := h
    exact ⟨range, hrange, hmem, hsubset, hitsPeriod_iff x⟩
  rw [← real_neg_one, ← real_one]
  by_cases hempty : x.isEmpty = true
  · refine ⟨empty, ?_, fun r hr => absurd hr (real_notMem_of_isEmpty hempty r), isSubset_empty _⟩
    rw [periodicRange_exactTurning, if_pos hempty]
  by_cases hwide : (!x.isBounded || decide (real period ≤ x.sup - x.inf)) = true
  · refine ⟨⟨real (-1), real 1⟩, ?_, fun r _ => ?_, isSubset_number le_rfl le_rfl⟩
    · rw [periodicRange_exactTurning, if_neg hempty, if_pos hwide, real_neg_one, real_one]
    · rw [hf, real_mem_real]
      exact ⟨hwave.neg_one_le period.2 r, hwave.le_one period.2 r⟩
  have hbounded : x.isBounded = true := by
    rw [Bool.or_eq_true_iff, not_or] at hwide
    simpa using hwide.1
  obtain ⟨p, q, rfl, -⟩ := IsCompact.exists_ends ⟨Bool.eq_false_iff.mpr hempty, hbounded⟩
  obtain ⟨lo, hi, hrange, hle, hge, hmem⟩ := exists_range_real hwave hf hempty hwide
  refine ⟨_, hrange, fun r hr => ?_, isSubset_number (EReal.coe_le_coe_iff.mpr hle) (EReal.coe_le_coe_iff.mpr hge)⟩
  obtain ⟨hpr, hrq⟩ := real_mem_real.mp hr
  rw [hf, real_mem_real]
  exact hmem r hpr hrq

/-- A point at infinity is hit although no place is in it: the nearest place is as far away as the point itself. -/
theorem exists_hit_of_infinite :
    let period : Set.Ioi (0 : ℝ) := ⟨2 * Real.pi, Real.two_pi_pos⟩
    let x : Interval Exact := ⟨number ⊤, number ⊤⟩
    hitsPeriod (α := ExactTurning period) x (real (Real.pi / 2)) = true ∧
      ¬ ∃ k : ℤ, real (Real.pi / 2 + k * period) ∈ x := by
  intro period x
  have hx : x.IsRemote := isRemote_top
  exact ⟨(hitsPeriod_iff x _).mpr (Or.inr hx), fun ⟨_, hk⟩ => hx.real_notMem _ hk⟩

/-- The quarter of a period lies between one and two, so the sine has its maximum there. -/
theorem periodicRange_encloses_of_sine :
    let period : Set.Ioi (0 : ℝ) := ⟨2 * Real.pi, Real.two_pi_pos⟩
    let x : Interval Exact := ⟨real 1, real 2⟩
    IsWave Real.sin period (Real.pi / 2) (-(Real.pi / 2)) ∧ (∀ r, Scalar.sin (real r) = real (Real.sin r)) ∧
    ∃ range : Interval Exact,
      periodicRange (α := ExactTurning period) x (Scalar.sin : Exact → Exact) (real (Real.pi / 2))
        (real (-(Real.pi / 2))) = range ∧ real 1 ∈ range ∧ range.isSubset ⟨-1, 1⟩ = true ∧
      hitsPeriod (α := ExactTurning period) x (real (Real.pi / 2)) = true := by
  intro period x
  have hsin (r : ℝ) : Scalar.sin (real r) = real (Real.sin r) := lift_real r
  have hquarter : real (Real.pi / 2) ∈ x :=
    real_mem_real.mpr ⟨by linarith [Real.two_le_pi], by linarith [Real.pi_le_four]⟩
  have hwave : IsWave Real.sin period (Real.pi / 2) (-(Real.pi / 2)) := isWave_sin
  obtain ⟨range, hrange, hmem, hsubset, hhit⟩ := periodicRange_encloses hwave hsin x
  refine ⟨hwave, hsin, range, hrange, ?_, hsubset, (hhit _).mpr (Or.inl ⟨0, ?_⟩)⟩
  · have hmax := hmem _ hquarter
    rwa [hsin, Real.sin_pi_div_two] at hmax
  · simpa using hquarter

end Interval

end IntervalDag
