import Mathlib.Topology.Order.IntermediateValue
import Mathlib.Topology.Algebra.Ring.Real
import IntervalDag.Interval.Inverse
import IntervalDag.Proofs.Checked
import IntervalDag.Proofs.Interval.Reals

/-!
# Products and the factors that solve them

The product of bounded intervals is exactly the set of products of members (`Interval.reals_mul`). For a factor and
a target, `Interval.quotients` holds the numbers that some member of the factor takes into the target. What
`Interval.solveProduct` leaves of an interval is the hull of those of its members that are in a set around the
quotients, and this set is the quotients where the factor is bounded (`Interval.exists_solveProduct`).

The quotients by a factor that touches zero form up to two rays. A factor may have infinite ends, by which a finite end
of the target is divided to zero.
-/

namespace IntervalDag

open Scalar Exact
open scoped Pointwise

namespace Interval

variable {x y target factor : Interval Exact} {a b : EReal} {r d e u v : ℝ}

/-! ### Bounded intervals -/

/-- The interval is not empty and both its ends are finite. -/
structure IsCompact {α : Type} [Scalar α] (x : Interval α) : Prop where
  nonempty : x.isEmpty = false
  bounded : x.isBounded = true

theorem exists_real_of_isFinite {a : Exact} (h : isFinite a = true) : ∃ p, a = real p := by
  cases a with
  | nan => exact absurd (of_decide_eq_true (Bool.and_eq_true_iff.mp h).1) id
  | number a =>
    obtain ⟨hbot, htop⟩ := isFinite_number.mp h
    lift a to ℝ using ⟨htop, hbot⟩
    exact ⟨a, rfl⟩

/-- The ends of a bounded interval. -/
theorem IsCompact.exists_ends (h : x.IsCompact) : ∃ p q : ℝ, x = ⟨real p, real q⟩ ∧ p ≤ q := by
  obtain ⟨hnonempty, hbounded⟩ := h
  obtain ⟨a, b⟩ := x
  obtain ⟨ha, hb⟩ := Bool.and_eq_true_iff.mp hbounded
  obtain ⟨p, rfl⟩ := exists_real_of_isFinite ha
  obtain ⟨q, rfl⟩ := exists_real_of_isFinite hb
  refine ⟨p, q, rfl, not_lt.mp fun hlt => ?_⟩
  exact Bool.false_ne_true (hnonempty.symm.trans (isEmpty_number.mpr (EReal.coe_lt_coe_iff.mpr hlt)))

theorem isCompact_real {p q : ℝ} (h : p ≤ q) : IsCompact ⟨real p, real q⟩ where
  nonempty := Bool.eq_false_iff.mpr fun hempty => (EReal.coe_lt_coe_iff.mp (isEmpty_number.mp hempty)).not_ge h
  bounded := Bool.and_eq_true_iff.mpr
    ⟨isFinite_number.mpr ⟨EReal.coe_ne_bot p, EReal.coe_ne_top p⟩,
      isFinite_number.mpr ⟨EReal.coe_ne_bot q, EReal.coe_ne_top q⟩⟩

theorem reals_real (p q : ℝ) : reals ⟨real p, real q⟩ = Set.Icc p q := Set.ext fun _ => real_mem_real

theorem IsCompact.isProper (h : x.IsCompact) : x.IsProper := by
  obtain ⟨p, q, rfl, hpq⟩ := h.exists_ends
  exact isProper_of_real_mem (real_mem_real.mpr ⟨le_refl p, hpq⟩)

theorem IsCompact.add (hx : x.IsCompact) (hy : y.IsCompact) : ∃ z, x.add y = .ok z ∧ z.IsCompact := by
  have hnonempty : (x.isEmpty || y.isEmpty) = false := by rw [hx.nonempty, hy.nonempty]; rfl
  obtain ⟨p, q, rfl, hpq⟩ := hx.exists_ends
  obtain ⟨u, v, rfl, huv⟩ := hy.exists_ends
  refine ⟨⟨real (p + u), real (q + v)⟩, ?_, isCompact_real (add_le_add hpq huv)⟩
  rw [Interval.add, hnonempty, if_neg Bool.false_ne_true, real_add, real_add]
  exact ofBounds_number

theorem IsCompact.scale (hx : x.IsCompact) (c : ℝ) : ∃ z, x.scale (real c) = .ok z ∧ z.IsCompact := by
  have hnonempty := hx.nonempty
  obtain ⟨p, q, rfl, hpq⟩ := hx.exists_ends
  rcases lt_trichotomy c 0 with hneg | rfl | hpos
  · refine ⟨_, (scale_of_neg hnonempty hneg).trans ?_, isCompact_real (mul_le_mul_of_nonpos_right hpq hneg.le)⟩
    rw [← EReal.coe_mul, ← EReal.coe_mul]
    rfl
  · refine ⟨_, ?_, isCompact_real (le_refl 0)⟩
    rw [Interval.scale, hnonempty, if_neg Bool.false_ne_true, if_pos (real_beq_zero.mpr rfl), ← real_zero, point_real]
  · refine ⟨_, (scale_of_pos hnonempty hpos).trans ?_, isCompact_real (mul_le_mul_of_nonneg_right hpq hpos.le)⟩
    rw [← EReal.coe_mul, ← EReal.coe_mul]
    rfl

/-! ### Products -/

theorem mul_number (hx : (⟨number a, number b⟩ : Interval Exact).isEmpty = false) {c d : EReal}
    (hy : (⟨number c, number d⟩ : Interval Exact).isEmpty = false) :
    (⟨number a, number b⟩ : Interval Exact) * ⟨number c, number d⟩ =
      ⟨number (min (a * c) (min (a * d) (min (b * c) (b * d)))),
        number (max (a * c) (max (a * d) (max (b * c) (b * d))))⟩ := by
  change mul _ _ = _
  rw [mul, hx, hy]
  simp [mulBound_number, posInf_def, negInf_def, min_assoc, max_assoc]

/-- Numbers between products are products of numbers between. -/
theorem ordConnected_mul (p q u v : ℝ) : (Set.Icc p q * Set.Icc u v).OrdConnected := by
  rw [← Set.image_mul_prod]
  exact ((isPreconnected_Icc.prod isPreconnected_Icc).image _ continuous_mul.continuousOn).ordConnected

/-- **Products of bounded intervals.** -/
theorem reals_mul (hx : x.IsCompact) (hy : y.IsCompact) : (x * y).IsCompact ∧ (x * y).reals = x.reals * y.reals := by
  obtain ⟨p, q, rfl, hpq⟩ := hx.exists_ends
  obtain ⟨u, v, rfl, huv⟩ := hy.exists_ends
  have hends : (⟨real p, real q⟩ : Interval Exact) * ⟨real u, real v⟩ =
      ⟨real (min (p * u) (min (p * v) (min (q * u) (q * v)))),
        real (max (p * u) (max (p * v) (max (q * u) (q * v))))⟩ := by
    refine (mul_number hx.nonempty hy.nonempty).trans ?_
    simp only [← EReal.coe_mul, ← EReal.coe_strictMono.monotone.map_min, ← EReal.coe_strictMono.monotone.map_max]
    rfl
  have hle : min (p * u) (min (p * v) (min (q * u) (q * v))) ≤ max (p * u) (max (p * v) (max (q * u) (q * v))) :=
    min_le_of_left_le (le_max_left ..)
  refine ⟨hends ▸ isCompact_real hle, Set.Subset.antisymm (fun t ht => ?_) ?_⟩
  · rw [hends, reals_real] at ht
    rw [reals_real, reals_real]
    have hcorner {s t : ℝ} (hs : s ∈ Set.Icc p q) (ht : t ∈ Set.Icc u v) : s * t ∈ Set.Icc p q * Set.Icc u v :=
      Set.mul_mem_mul hs ht
    have hp := Set.left_mem_Icc.mpr hpq
    have hq := Set.right_mem_Icc.mpr hpq
    have hu := Set.left_mem_Icc.mpr huv
    have hv := Set.right_mem_Icc.mpr huv
    refine (ordConnected_mul p q u v).out ?_ ?_ ht
    · exact min_rec' (· ∈ _) (hcorner hp hu) (min_rec' (· ∈ _) (hcorner hp hv)
        (min_rec' (· ∈ _) (hcorner hq hu) (hcorner hq hv)))
    · exact max_rec' (· ∈ _) (hcorner hp hu) (max_rec' (· ∈ _) (hcorner hp hv)
        (max_rec' (· ∈ _) (hcorner hq hu) (hcorner hq hv)))
  · rintro _ ⟨s, hs, t, ht, rfl⟩
    exact real_mem_mul hs ht

/-! ### Quotients -/

/-- The numbers that some member of a factor takes into a target. -/
def quotients (target factor : Interval Exact) : Set ℝ := {r | ∃ d, real d ∈ factor ∧ real (r * d) ∈ target}

/-- A number is a quotient if its multiples by members of the factor do not all miss the target on one side. -/
theorem mem_quotients {d₁ d₂ : ℝ} (htarget : IsProper ⟨number a, number b⟩) (h₁ : real d₁ ∈ factor)
    (hlow : a ≤ ((r * d₁ : ℝ) : EReal)) (h₂ : real d₂ ∈ factor) (hhigh : ((r * d₂ : ℝ) : EReal) ≤ b) :
    r ∈ quotients ⟨number a, number b⟩ factor := by
  rcases le_or_gt ((r * d₁ : ℝ) : EReal) b with hb | hb
  · exact ⟨d₁, h₁, real_mem_number.mpr ⟨hlow, hb⟩⟩
  rcases le_or_gt a ((r * d₂ : ℝ) : EReal) with ha | ha
  · exact ⟨d₂, h₂, real_mem_number.mpr ⟨ha, hhigh⟩⟩
  -- the multiples take every value between one below the target and one above it
  obtain ⟨e, he⟩ := isProper_iff.mp htarget
  obtain ⟨hae, heb⟩ := real_mem_number.mp he
  have hbetween : e ∈ Set.uIcc (r * d₂) (r * d₁) := Set.Icc_subset_uIcc
    ⟨EReal.coe_le_coe_iff.mp (ha.le.trans hae), EReal.coe_le_coe_iff.mp (heb.trans hb.le)⟩
  obtain ⟨d, hd, rfl⟩ := intermediate_value_uIcc (f := fun d => r * d) (continuous_const_mul r).continuousOn hbetween
  exact ⟨d, (ordConnected_real factor).uIcc_subset h₂ h₁ hd, he⟩

theorem mul_one_div_mul (a : EReal) (hd : d ≠ 0) : a * ((1 / d : ℝ) : EReal) * d = a := by
  rw [mul_assoc, ← EReal.coe_mul, one_div_mul_cancel hd, EReal.coe_one, mul_one]

theorem le_mul_of_mul_one_div_le (hd : 0 < d) (h : a * ((1 / d : ℝ) : EReal) ≤ r) : a ≤ ((r * d : ℝ) : EReal) := by
  have hle := mul_le_mul_of_nonneg_right h (EReal.coe_nonneg.mpr hd.le)
  rwa [mul_one_div_mul a hd.ne', ← EReal.coe_mul] at hle

theorem mul_le_of_le_mul_one_div (hd : 0 < d) (h : r ≤ a * ((1 / d : ℝ) : EReal)) : ((r * d : ℝ) : EReal) ≤ a := by
  have hle := mul_le_mul_of_nonneg_right h (EReal.coe_nonneg.mpr hd.le)
  rwa [mul_one_div_mul a hd.ne', ← EReal.coe_mul] at hle

theorem mul_le_of_mul_one_div_le (hd : d < 0) (h : a * ((1 / d : ℝ) : EReal) ≤ r) : ((r * d : ℝ) : EReal) ≤ a := by
  have hle := Exact.mul_le_mul_of_nonpos_left h (EReal.coe_nonpos.mpr hd.le)
  rwa [mul_comm (d : EReal), mul_comm (d : EReal), mul_one_div_mul a hd.ne, ← EReal.coe_mul] at hle

theorem le_mul_of_le_mul_one_div (hd : d < 0) (h : r ≤ a * ((1 / d : ℝ) : EReal)) : a ≤ ((r * d : ℝ) : EReal) := by
  have hle := Exact.mul_le_mul_of_nonpos_left h (EReal.coe_nonpos.mpr hd.le)
  rwa [mul_comm (d : EReal), mul_comm (d : EReal), mul_one_div_mul a hd.ne, ← EReal.coe_mul] at hle

/-- The reciprocals of a bounded interval without zero. -/
theorem recip_real (huv : u ≤ v) (h : real 0 ∉ (⟨real u, real v⟩ : Interval Exact)) :
    (0 < u ∨ v < 0) ∧ recip ⟨real u, real v⟩ = ⟨real (1 / v), real (1 / u)⟩ := by
  rw [real_mem_real, not_and_or, not_le, not_le] at h
  have hu : u ≠ 0 := by rintro rfl; rcases h with h | h <;> linarith
  have hv : v ≠ 0 := by rintro rfl; rcases h with h | h <;> linarith
  have hacross : ¬ (real u < 0 ∧ 0 < real v) := by
    rw [← real_zero, real_lt_real, real_lt_real]
    rintro ⟨hneg, hpos⟩
    rcases h with h | h <;> linarith
  have hpoint : ((⟨real u, real v⟩ : Interval Exact).isEmpty || (real u == 0 && real v == 0)) = false := by
    rw [(isCompact_real huv).nonempty, Bool.eq_false_iff.mpr (mt real_beq_zero.mp hu)]
    rfl
  refine ⟨h, ?_⟩
  rw [recip, hpoint, if_neg Bool.false_ne_true, if_neg hacross, if_neg (mt real_beq_zero.mp hu),
    if_neg (mt real_beq_zero.mp hv), one_div_real hu, one_div_real hv]

/-- A quotient by a bounded interval without zero has its ends among the products with the reciprocals. -/
theorem div_real (hx : (⟨number a, number b⟩ : Interval Exact).isEmpty = false) (huv : u ≤ v)
    (h : real 0 ∉ (⟨real u, real v⟩ : Interval Exact)) : (⟨number a, number b⟩ : Interval Exact) / ⟨real u, real v⟩ =
      ⟨number (min (a * ((1 / v : ℝ) : EReal)) (min (a * ((1 / u : ℝ) : EReal))
          (min (b * ((1 / v : ℝ) : EReal)) (b * ((1 / u : ℝ) : EReal))))),
        number (max (a * ((1 / v : ℝ) : EReal)) (max (a * ((1 / u : ℝ) : EReal))
          (max (b * ((1 / v : ℝ) : EReal)) (b * ((1 / u : ℝ) : EReal)))))⟩ := by
  obtain ⟨-, hrecip⟩ := recip_real huv h
  have hu : real u ∈ (⟨real u, real v⟩ : Interval Exact) := real_mem_real.mpr ⟨le_refl u, huv⟩
  have hnonempty : (⟨real (1 / v), real (1 / u)⟩ : Interval Exact).isEmpty = false :=
    hrecip ▸ isEmpty_of_mem (real_mem_recip hu fun heq => h (heq ▸ hu))
  exact (congrArg (_ * ·) hrecip).trans (mul_number hx hnonempty)

/-- What lies in a quotient by a bounded interval without zero is a quotient by some member. -/
theorem reals_div_subset (htarget : target.IsProper) (hfactor : factor.IsCompact) (hzero : real 0 ∉ factor) :
    (target / factor).reals ⊆ quotients target factor := by
  intro r hr
  obtain ⟨u, v, rfl, huv⟩ := hfactor.exists_ends
  obtain ⟨hsign, -⟩ := recip_real huv hzero
  have hnonempty := htarget.nonempty
  obtain ⟨a, b, rfl, hab, -⟩ := htarget.exists_ends
  have hu : real u ∈ (⟨real u, real v⟩ : Interval Exact) := real_mem_real.mpr ⟨le_refl u, huv⟩
  have hv : real v ∈ (⟨real u, real v⟩ : Interval Exact) := real_mem_real.mpr ⟨huv, le_refl v⟩
  rw [div_real hnonempty huv hzero, mem_reals, real_mem_number] at hr
  simp only [min_le_iff, le_max_iff] at hr
  obtain ⟨hlow, hhigh⟩ := hr
  obtain ⟨d, hd, e, hae, heb, hlow⟩ : ∃ d, real d ∈ (⟨real u, real v⟩ : Interval Exact) ∧ ∃ e : EReal, a ≤ e ∧ e ≤ b ∧
      e * ((1 / d : ℝ) : EReal) ≤ r := by
    rcases hlow with h | h | h | h
    exacts [⟨v, hv, a, le_refl a, hab, h⟩, ⟨u, hu, a, le_refl a, hab, h⟩, ⟨v, hv, b, hab, le_refl b, h⟩,
      ⟨u, hu, b, hab, le_refl b, h⟩]
  obtain ⟨d', hd', e', hae', heb', hhigh⟩ : ∃ d, real d ∈ (⟨real u, real v⟩ : Interval Exact) ∧ ∃ e : EReal, a ≤ e ∧
      e ≤ b ∧ r ≤ e * ((1 / d : ℝ) : EReal) := by
    rcases hhigh with h | h | h | h
    exacts [⟨v, hv, a, le_refl a, hab, h⟩, ⟨u, hu, a, le_refl a, hab, h⟩, ⟨v, hv, b, hab, le_refl b, h⟩,
      ⟨u, hu, b, hab, le_refl b, h⟩]
  rcases hsign with hpos | hneg
  · have hpos {d : ℝ} (hd : real d ∈ (⟨real u, real v⟩ : Interval Exact)) : 0 < d :=
      hpos.trans_le (real_mem_real.mp hd).1
    exact mem_quotients htarget hd (hae.trans (le_mul_of_mul_one_div_le (hpos hd) hlow)) hd'
      ((mul_le_of_le_mul_one_div (hpos hd') hhigh).trans heb')
  · have hneg {d : ℝ} (hd : real d ∈ (⟨real u, real v⟩ : Interval Exact)) : d < 0 :=
      (real_mem_real.mp hd).2.trans_lt hneg
    exact mem_quotients htarget hd' (hae'.trans (le_mul_of_le_mul_one_div (hneg hd') hhigh)) hd
      ((mul_le_of_mul_one_div_le (hneg hd) hlow).trans heb)

/-- **Quotients by a factor without zero.** -/
theorem reals_div (htarget : target.IsProper) (hfactor : factor.IsProper) (hzero : real 0 ∉ factor) :
    (target / factor).IsProper ∧ quotients target factor ⊆ (target / factor).reals ∧
      (factor.IsCompact → (target / factor).reals ⊆ quotients target factor) := by
  have hmem {t d : ℝ} (ht : real t ∈ target) (hd : real d ∈ factor) : real (t * d⁻¹) ∈ target / factor :=
    real_mem_mul ht (real_mem_recip hd fun h => hzero (h ▸ hd))
  refine ⟨?_, fun r ⟨d, hd, hrd⟩ => ?_, fun hcompact => reals_div_subset htarget hcompact hzero⟩
  · obtain ⟨t, ht⟩ := isProper_iff.mp htarget
    obtain ⟨d, hd⟩ := isProper_iff.mp hfactor
    exact isProper_of_real_mem (hmem ht hd)
  · have hne : d ≠ 0 := fun h => hzero (h ▸ hd)
    have h := hmem hrd hd
    rwa [mul_inv_cancel_right₀ hne] at h

/-! ### Rays -/

theorem div_neg (a b : EReal) : a / -b = -(a / b) := by
  rw [EReal.div_eq_inv_mul, EReal.inv_neg, neg_mul, ← EReal.div_eq_inv_mul]

/-- What takes a member of a factor up to a number above zero lies beyond the quotient by an end of the factor. -/
theorem div_le_of_le_mul (he : 0 < e) (hr : 0 < r) (h : e ≤ r * d) (hd : (d : EReal) ≤ b) :
    0 < b ∧ (e : EReal) / b ≤ r := by
  have hpos : 0 < d := (mul_pos_iff_of_pos_left hr).mp (he.trans_le h)
  refine ⟨(EReal.coe_pos.mpr hpos).trans_le hd, ?_⟩
  induction b with
  | bot => simp at hd
  | top => simpa using hr.le
  | coe b =>
    have hd := EReal.coe_le_coe_iff.mp hd
    rw [← EReal.coe_div, EReal.coe_le_coe_iff, div_le_iff₀ (hpos.trans_le hd)]
    exact h.trans (mul_le_mul_of_nonneg_left hd hr.le)

/-- The numbers beyond the quotients of `e` by ends of different sign. -/
def beyond (e : ℝ) (lo hi : EReal) : Set ℝ := {r | lo < 0 ∧ (r : EReal) ≤ e / lo ∨ 0 < hi ∧ (e : EReal) / hi ≤ r}

theorem mem_beyond (he : 0 < e) (hlo : a ≤ d) (hhi : (d : EReal) ≤ b) (h : e ≤ r * d) : r ∈ beyond e a b := by
  rcases lt_trichotomy r 0 with hr | rfl | hr
  · obtain ⟨hpos, hle⟩ := div_le_of_le_mul (b := -a) he (neg_pos.mpr hr) (by rwa [neg_mul_neg])
      (EReal.neg_le_neg_iff.mpr hlo)
    rw [div_neg, EReal.coe_neg, EReal.neg_le_neg_iff] at hle
    exact Or.inl ⟨by simpa using EReal.neg_lt_neg_iff.mpr hpos, hle⟩
  · rw [zero_mul] at h
    exact absurd h he.not_ge
  · exact Or.inr (div_le_of_le_mul he hr h hhi)

theorem exists_le_mul_of_mem_beyond (huv : u ≤ v) (h : r ∈ beyond e u v) :
    ∃ d, (u ≤ d ∧ d ≤ v) ∧ e ≤ r * d := by
  rcases h with ⟨hneg, hle⟩ | ⟨hpos, hle⟩
  · rw [← EReal.coe_div, EReal.coe_le_coe_iff] at hle
    refine ⟨u, ⟨le_refl u, huv⟩, ?_⟩
    rwa [le_div_iff_of_neg (EReal.coe_neg'.mp hneg)] at hle
  · rw [← EReal.coe_div, EReal.coe_le_coe_iff] at hle
    refine ⟨v, ⟨huv, le_refl v⟩, ?_⟩
    rwa [div_le_iff₀ (EReal.coe_pos.mp hpos)] at hle

/-- Both signs turned around, the ends of the factor change places. -/
theorem mem_beyond_neg {lo hi : EReal} :
    r ∈ beyond (-e) (-hi) (-lo) ↔ 0 < hi ∧ (r : EReal) ≤ e / hi ∨ lo < 0 ∧ (e : EReal) / lo ≤ r := by
  have hdiv (m : EReal) : ((-e : ℝ) : EReal) / -m = e / m := by
    rw [div_neg, EReal.coe_neg, EReal.div_eq_inv_mul, mul_neg, neg_neg, ← EReal.div_eq_inv_mul]
  have hhi : -hi < 0 ↔ 0 < hi := by rw [EReal.neg_lt_comm, neg_zero]
  have hlo : 0 < -lo ↔ lo < 0 := by rw [EReal.lt_neg_comm, neg_zero]
  rw [beyond, Set.mem_ofPred_eq, hdiv, hdiv, hhi, hlo]

/-- A real number has real quotients, also by infinities. -/
theorem exists_coe_eq_div (e : ℝ) (m : EReal) : ∃ s : ℝ, (e : EReal) / m = s := by
  induction m with
  | bot => exact ⟨0, by simp⟩
  | top => exact ⟨0, by simp⟩
  | coe m => exact ⟨e / m, (EReal.coe_div e m).symm⟩

theorem isProper_below (e : ℝ) (m : EReal) : IsProper ⟨number ⊥, number (e / m)⟩ := by
  obtain ⟨s, hs⟩ := exists_coe_eq_div e m
  exact isProper_of_real_mem (real_mem_number.mpr ⟨bot_le, hs.ge⟩)

theorem isProper_above (e : ℝ) (m : EReal) : IsProper ⟨number (e / m), number ⊤⟩ := by
  obtain ⟨s, hs⟩ := exists_coe_eq_div e m
  exact isProper_of_real_mem (real_mem_number.mpr ⟨hs.le, le_top⟩)

theorem rayBelow_eq {num den : Exact} {p : Prop} [Decidable p] (h : p → num / den = number a) :
    rayBelow num den (decide p) = .ok (if p then [⟨number ⊥, number a⟩] else []) := by
  by_cases hp : p
  · rw [rayBelow, if_pos (decide_eq_true hp), h hp, negInf_def, ofBounds_number, if_pos hp]
    rfl
  · rw [rayBelow, decide_eq_false hp, if_neg Bool.false_ne_true, if_neg hp]

theorem rayAbove_eq {num den : Exact} {p : Prop} [Decidable p] (h : p → num / den = number a) :
    rayAbove num den (decide p) = .ok (if p then [⟨number a, number ⊤⟩] else []) := by
  by_cases hp : p
  · rw [rayAbove, if_pos (decide_eq_true hp), h hp, posInf_def, ofBounds_number, if_pos hp]
    rfl
  · rw [rayAbove, decide_eq_false hp, if_neg Bool.false_ne_true, if_neg hp]

/-- Up to two rays. -/
theorem exists_rays {m n : EReal} {p q : Prop} [Decidable p] [Decidable q] (hm : p → m ≠ 0) (hn : q → n ≠ 0) (e : ℝ) :
    ∃ rays, (do
        let left ← rayBelow (real e) (number m) (decide p)
        let right ← rayAbove (real e) (number n) (decide q)
        return left ++ right : Checked Exact (List (Interval Exact))) = .ok rays ∧ (∀ z ∈ rays, z.IsProper) ∧
      ∀ r : ℝ, (∃ z ∈ rays, real r ∈ z) ↔ p ∧ (r : EReal) ≤ e / m ∨ q ∧ (e : EReal) / n ≤ r := by
  refine ⟨_, by rw [rayBelow_eq fun hp => real_div (hm hp), Checked.ok_bind, rayAbove_eq fun hq => real_div (hn hq),
    Checked.ok_bind]; rfl, fun z hz => ?_, fun r => ?_⟩
  · rcases List.mem_append.mp hz with hz | hz
    · obtain ⟨-, rfl⟩ : p ∧ z = _ := by simpa using hz
      exact isProper_below e m
    · obtain ⟨-, rfl⟩ : q ∧ z = _ := by simpa using hz
      exact isProper_above e n
  · simp [or_and_right, exists_or]

section SolutionRays

variable (hfactor : factor.IsProper) (hzero : real 0 ∈ factor)

include hfactor hzero

/-- The rays for a target above zero. -/
theorem exists_solutionRays_of_pos (he : 0 < e) (htarget : IsProper ⟨real e, number b⟩) :
    ∃ rays, solutionRays ⟨real e, number b⟩ factor = .ok rays ∧ (∀ z ∈ rays, z.IsProper) ∧
      quotients ⟨real e, number b⟩ factor ⊆ {r | ∃ z ∈ rays, real r ∈ z} ∧
      (factor.IsCompact → {r | ∃ z ∈ rays, real r ∈ z} ⊆ quotients ⟨real e, number b⟩ factor) := by
  obtain ⟨lo, hi, rfl, -⟩ := hfactor.exists_ends
  have hlo (h : number lo < (0 : Exact)) : lo ≠ 0 := ne_of_lt h
  have hhi (h : (0 : Exact) < number hi) : hi ≠ 0 := ne_of_gt h
  obtain ⟨rays, hrays, hproper, hmem⟩ := exists_rays hlo hhi e
  refine ⟨rays, by rw [solutionRays, if_pos (real_pos.mpr he)]; exact hrays, hproper, fun r ⟨d, hd, hrd⟩ => ?_,
    fun hcompact r hr => ?_⟩
  · obtain ⟨hlod, hdhi⟩ := real_mem_number.mp hd
    exact (hmem r).mpr (mem_beyond he hlod hdhi (EReal.coe_le_coe_iff.mp (real_mem_number.mp hrd).1))
  · obtain ⟨u, v, heq, huv⟩ := hcompact.exists_ends
    cases heq
    obtain ⟨d, hd, hle⟩ := exists_le_mul_of_mem_beyond huv ((hmem r).mp hr)
    obtain ⟨t, ht⟩ := isProper_iff.mp htarget
    obtain ⟨het, htb⟩ := real_mem_number.mp ht
    exact mem_quotients htarget (real_mem_real.mpr hd) (EReal.coe_le_coe_iff.mpr hle) hzero
      (by rw [mul_zero]; exact (EReal.coe_le_coe_iff.mpr he.le).trans (het.trans htb))

/-- The rays for a target below zero. -/
theorem exists_solutionRays_of_neg (he : e < 0) (htarget : IsProper ⟨number a, real e⟩) :
    ∃ rays, solutionRays ⟨number a, real e⟩ factor = .ok rays ∧ (∀ z ∈ rays, z.IsProper) ∧
      quotients ⟨number a, real e⟩ factor ⊆ {r | ∃ z ∈ rays, real r ∈ z} ∧
      (factor.IsCompact → {r | ∃ z ∈ rays, real r ∈ z} ⊆ quotients ⟨number a, real e⟩ factor) := by
  obtain ⟨lo, hi, rfl, -⟩ := hfactor.exists_ends
  have hlo (h : number lo < (0 : Exact)) : lo ≠ 0 := ne_of_lt h
  have hhi (h : (0 : Exact) < number hi) : hi ≠ 0 := ne_of_gt h
  obtain ⟨rays, hrays, hproper, hmem⟩ := exists_rays hhi hlo e
  obtain ⟨t, ht⟩ := isProper_iff.mp htarget
  obtain ⟨hat, hte⟩ := real_mem_number.mp ht
  have ha : a < 0 := (hat.trans hte).trans_lt (EReal.coe_neg'.mpr he)
  have hnot : ¬ (0 : Exact) < number a := fun h => ha.not_gt (number_lt_number.mp h)
  refine ⟨rays, by rw [solutionRays, if_neg hnot]; exact hrays, hproper, fun r ⟨d, hd, hrd⟩ => ?_,
    fun hcompact r hr => ?_⟩
  · obtain ⟨hlod, hdhi⟩ := real_mem_number.mp hd
    have hle : -e ≤ r * -d := by
      rw [mul_neg]
      exact neg_le_neg (EReal.coe_le_coe_iff.mp (real_mem_number.mp hrd).2)
    exact (hmem r).mpr (mem_beyond_neg.mp (mem_beyond (neg_pos.mpr he) (EReal.neg_le_neg_iff.mpr hdhi)
      (EReal.neg_le_neg_iff.mpr hlod) hle))
  · obtain ⟨u, v, heq, huv⟩ := hcompact.exists_ends
    cases heq
    obtain ⟨d, ⟨hvd, hdu⟩, hle⟩ := exists_le_mul_of_mem_beyond (neg_le_neg huv) (mem_beyond_neg.mpr ((hmem r).mp hr))
    have hd : real (-d) ∈ (⟨real u, real v⟩ : Interval Exact) :=
      real_mem_real.mpr ⟨le_neg_of_le_neg hdu, neg_le_of_neg_le hvd⟩
    refine mem_quotients htarget hzero (by rw [mul_zero, EReal.coe_zero]; exact ha.le) hd
      (EReal.coe_le_coe_iff.mpr ?_)
    rw [mul_neg]
    exact neg_le_of_neg_le hle

/-- **The rays that solve a product** with a factor around zero. -/
theorem exists_solutionRays (htarget : target.IsProper) (hne : real 0 ∉ target) :
    ∃ rays, solutionRays target factor = .ok rays ∧ (∀ z ∈ rays, z.IsProper) ∧
      quotients target factor ⊆ {r | ∃ z ∈ rays, real r ∈ z} ∧
      (factor.IsCompact → {r | ∃ z ∈ rays, real r ∈ z} ⊆ quotients target factor) := by
  obtain ⟨a, b, rfl, -, ha, hb⟩ := htarget.exists_ends
  rw [real_mem_number, EReal.coe_zero, not_and_or, not_le, not_le] at hne
  rcases hne with hpos | hneg
  · lift a to ℝ using ⟨ha, (bot_le.trans_lt hpos).ne'⟩
    exact exists_solutionRays_of_pos hfactor hzero (EReal.coe_pos.mp hpos) htarget
  · lift b to ℝ using ⟨(hneg.trans_le le_top).ne, hb⟩
    exact exists_solutionRays_of_neg hfactor hzero (EReal.coe_neg'.mp hneg) htarget

end SolutionRays

/-! ### Solving a product -/

/-- Rays that are clipped to an interval. -/
theorem hullAll_inter {rays : List (Interval Exact)} (hrays : ∀ z ∈ rays, z.IsProper) (hx : x.IsProper) :
    hullAll (rays.map (·.inter x)) = hullOf ({r | ∃ z ∈ rays, real r ∈ z} ∩ x.reals) := by
  have hfoldl : ∀ (rays : List (Interval Exact)) (s : Set ℝ), (∀ z ∈ rays, z.IsProper) →
      (rays.map (·.inter x)).foldl hull (hullOf s) = hullOf (s ∪ {r | ∃ z ∈ rays, real r ∈ z} ∩ x.reals) := by
    intro rays
    induction rays with
    | nil => simp
    | cons z rays ih =>
      intro s hrays
      obtain ⟨hz, hrays⟩ := List.forall_mem_cons.mp hrays
      have hsplit : {r | ∃ y ∈ z :: rays, real r ∈ y} = z.reals ∪ {r | ∃ y ∈ rays, real r ∈ y} := by
        ext r
        simp
      rw [List.map_cons, List.foldl_cons, inter_eq_hullOf hz hx, ← hullOf_union, ih _ hrays, hsplit,
        Set.union_inter_distrib_right, Set.union_assoc]
  have h := hfoldl rays ∅ hrays
  rwa [hullOf_empty, Set.empty_union] at h

theorem containsZero_iff : x.containsZero = true ↔ real 0 ∈ x := by
  rw [real_zero]
  rfl

/-- A factor of zero takes no number into a target without zero. -/
theorem quotients_zero (hzero : (factor.inf == 0 && factor.sup == 0) = true) (hne : real 0 ∉ target) :
    quotients target factor = ∅ := by
  refine Set.eq_empty_iff_forall_notMem.mpr fun r ⟨d, hd, hrd⟩ => hne ?_
  obtain ⟨a, b, rfl, ha, hb⟩ := real_mem_iff.mp hd
  obtain ⟨rfl, rfl⟩ : a = 0 ∧ b = 0 := by simpa [zero_def] using hzero
  obtain rfl : d = 0 := le_antisymm (EReal.coe_nonpos.mp hb) (EReal.coe_nonneg.mp ha)
  rwa [mul_zero] at hrd

/-- **Solving a product** keeps the quotients, and nothing else but the gaps between them where the factor is
bounded. -/
theorem exists_solveProduct (htarget : target.isEmpty = true ∨ target.IsProper) (hfactor : factor.IsProper)
    (hx : x.IsProper) : ∃ s, solveProduct target factor x = .ok (hullOf (s ∩ x.reals)) ∧ quotients target factor ⊆ s ∧
      (factor.IsCompact → s ⊆ quotients target factor) := by
  rcases htarget with hempty | htarget
  · refine ⟨∅, ?_, fun r ⟨d, _, hrd⟩ => ?_, fun _ => Set.empty_subset _⟩
    · rw [solveProduct, hempty, Bool.true_or, Bool.true_or, if_pos rfl, Set.empty_inter, hullOf_empty]
    · rw [isEmpty_of_mem hrd] at hempty
      cases hempty
  have hnonempty : (target.isEmpty || factor.isEmpty || x.isEmpty) = false := by
    rw [htarget.nonempty, hfactor.nonempty, hx.nonempty]
    rfl
  have hiff : (target.containsZero && factor.containsZero) = true ↔ real 0 ∈ target ∧ real 0 ∈ factor := by
    rw [Bool.and_eq_true, containsZero_iff, containsZero_iff]
  rw [solveProduct, hnonempty, if_neg Bool.false_ne_true]
  by_cases hboth : real 0 ∈ target ∧ real 0 ∈ factor
  · -- zero solves the product for all numbers
    refine ⟨Set.univ, ?_, Set.subset_univ _, fun _ r _ => ⟨0, hboth.2, by rw [mul_zero]; exact hboth.1⟩⟩
    rw [if_pos (hiff.mpr hboth), Set.univ_inter, hullOf_reals hx]
  rw [if_neg (mt hiff.mp hboth)]
  by_cases hpoint : (factor.inf == 0 && factor.sup == 0) = true
  · have hzero : real 0 ∈ factor := by
      obtain ⟨a, b, rfl, -⟩ := hfactor.exists_ends
      obtain ⟨rfl, rfl⟩ : a = 0 ∧ b = 0 := by simpa [zero_def] using hpoint
      simp
    have hnone := quotients_zero hpoint fun h => hboth ⟨h, hzero⟩
    refine ⟨∅, ?_, hnone.subset, fun _ => Set.empty_subset _⟩
    rw [if_pos hpoint, Set.empty_inter, hullOf_empty]
  rw [if_neg hpoint]
  by_cases hzero : real 0 ∈ factor
  · obtain ⟨rays, hrays, hproper, hsub, hexact⟩ :=
      exists_solutionRays hfactor hzero htarget fun h => hboth ⟨h, hzero⟩
    refine ⟨_, ?_, hsub, hexact⟩
    rw [if_neg (by simp [containsZero_iff.mpr hzero]), hrays, Checked.ok_bind, ← hullAll_inter hproper hx]
    rfl
  · obtain ⟨hproper, hsub, hexact⟩ := reals_div htarget hfactor hzero
    refine ⟨_, ?_, hsub, hexact⟩
    rw [if_pos (by simpa [← containsZero_iff] using hzero), inter_eq_hullOf hproper hx]

/-! ### Parts of an interval -/

theorem isSubset_iff (hy : y.isEmpty = false) : y.isSubset x = true ↔ x.inf ≤ y.inf ∧ y.sup ≤ x.sup := by
  rw [isSubset, hy, Bool.false_or, Bool.and_eq_true, decide_eq_true_eq, decide_eq_true_eq]

theorem isSubset_empty (x : Interval Exact) : isSubset empty x = true := by
  rw [isSubset, isEmpty_empty, Bool.true_or]

theorem isSubset_refl (h : x.IsProper) : x.isSubset x = true := by
  obtain ⟨a, b, rfl, -⟩ := h.exists_ends
  simp [isSubset]

theorem number_le_maxNum (z : Exact) {a c : EReal} (h : a ≤ c) : number a ≤ maxNum z (number c) := by
  cases z with
  | nan => rw [maxNum, isNaN_nan, if_pos rfl, ite_self]; exact h
  | number z => exact maxNum_number ▸ le_max_of_le_right h

theorem minNum_le_number (z : Exact) {b d : EReal} (h : d ≤ b) : minNum z (number d) ≤ number b := by
  cases z with
  | nan => rw [minNum, isNaN_nan, if_pos rfl, ite_self]; exact h
  | number z => exact minNum_number ▸ min_le_of_right_le h

/-- A meet is a part, whatever it is with. -/
theorem inter_isSubset_number (z : Interval Exact) {a b c d : EReal} (hinf : a ≤ c) (hsup : d ≤ b) :
    (z.inter ⟨number c, number d⟩).isSubset ⟨number a, number b⟩ = true := by
  rw [inter]
  dsimp only
  split_ifs with hempty
  · exact isSubset_empty _
  · exact (isSubset_iff (Bool.eq_false_iff.mpr hempty)).mpr ⟨number_le_maxNum z.inf hinf, minNum_le_number z.sup hsup⟩

theorem inter_isSubset (z : Interval Exact) (hx : x.IsProper) : (z.inter x).isSubset x = true := by
  obtain ⟨a, b, rfl, -⟩ := hx.exists_ends
  exact inter_isSubset_number z le_rfl le_rfl

theorem hull_isSubset {z : Interval Exact} (hy : y.isSubset x = true) (hz : z.isSubset x = true) :
    (y.hull z).isSubset x = true := by
  rw [hull]
  split_ifs with hempty hempty'
  · exact hz
  · exact hy
  · have hy := (isSubset_iff (Bool.eq_false_iff.mpr hempty)).mp hy
    have hz := (isSubset_iff (Bool.eq_false_iff.mpr hempty')).mp hz
    rw [isSubset, decide_eq_true (le_minNum hy.1 hz.1), decide_eq_true (maxNum_le hy.2 hz.2), Bool.and_self,
      Bool.or_true]

theorem hullAll_isSubset {parts : List (Interval Exact)} (h : ∀ y ∈ parts, y.isSubset x = true) :
    (hullAll parts).isSubset x = true := by
  have hfoldl : ∀ (parts : List (Interval Exact)) (z : Interval Exact), z.isSubset x = true →
      (∀ y ∈ parts, y.isSubset x = true) → (parts.foldl hull z).isSubset x = true := by
    intro parts
    induction parts with
    | nil => exact fun z hz _ => hz
    | cons y parts ih =>
      intro z hz h
      obtain ⟨hy, h⟩ := List.forall_mem_cons.mp h
      exact ih _ (hull_isSubset hz hy) h
  exact hfoldl parts empty (isSubset_empty x) h

/-- What is left of an interval is a part of it, whatever the target and the factor are. -/
theorem isSubset_of_solveProduct (hx : x.IsProper) (h : solveProduct target factor x = .ok y) :
    y.isSubset x = true := by
  rw [solveProduct] at h
  split_ifs at h
  · cases h
    exact isSubset_empty x
  · cases h
    exact isSubset_refl hx
  · cases h
    exact isSubset_empty x
  · cases h
    exact inter_isSubset _ hx
  · obtain ⟨rays, -, h⟩ := Checked.bind_eq_ok.mp h
    cases h
    refine hullAll_isSubset fun z hz => ?_
    obtain ⟨ray, -, rfl⟩ := List.mem_map.mp hz
    exact inter_isSubset ray hx

/-- A part of a bounded interval is bounded, unless it is empty. -/
theorem IsCompact.of_isSubset (hx : x.IsCompact) (h : y.isSubset x = true) (hy : y.isEmpty = false) : y.IsCompact := by
  obtain ⟨p, q, rfl, -⟩ := hx.exists_ends
  obtain ⟨c, d⟩ := y
  have h := (isSubset_iff hy).mp h
  obtain ⟨c, rfl, hc⟩ := exists_number_of_ge h.1
  obtain ⟨d, rfl, hd⟩ := exists_number_of_le h.2
  have hcd : c ≤ d := not_lt.mp fun hlt => Bool.false_ne_true (hy.symm.trans (isEmpty_number.mpr hlt))
  refine ⟨hy, Bool.and_eq_true_iff.mpr ⟨isFinite_number.mpr ⟨?_, ?_⟩, isFinite_number.mpr ⟨?_, ?_⟩⟩⟩
  · exact ((EReal.bot_lt_coe p).trans_le hc).ne'
  · exact ((hcd.trans hd).trans_lt (EReal.coe_lt_top q)).ne
  · exact ((EReal.bot_lt_coe p).trans_le (hc.trans hcd)).ne'
  · exact (hd.trans_lt (EReal.coe_lt_top q)).ne

theorem hullOf_isSubset {s : Set ℝ} (hx : x.IsProper) (h : s ⊆ x.reals) : (hullOf s).isSubset x = true := by
  obtain ⟨a, b, rfl, -⟩ := hx.exists_ends
  have hinf : number a ≤ (hullOf s).inf := le_iInf₂ fun r hr => (real_mem_number.mp (h hr)).1
  have hsup : (hullOf s).sup ≤ number b := iSup₂_le fun r hr => (real_mem_number.mp (h hr)).2
  rw [isSubset, decide_eq_true hinf, decide_eq_true hsup, Bool.and_self, Bool.or_true]

end Interval

end IntervalDag
