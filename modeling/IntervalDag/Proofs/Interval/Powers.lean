import IntervalDag.Proofs.Interval.Hulls

/-!
# Integral powers of intervals

The range that a power with a whole exponent is given is the hull of the powers of members (`Interval.pow_optimal`).
Natural powers are continuous on the extended real numbers, so the powers of the ends are limits of powers, and an even
power of a magnitude is that of the number. A negative power is a reciprocal of a natural one. Its range may be taken of
the hull because the natural powers of an interval have no gaps between them.
-/

namespace IntervalDag

open Scalar Exact
open scoped Pointwise

namespace Exact

/-- Natural powers are continuous, at the infinities too. -/
theorem continuous_npow (n : ℕ) : Continuous fun e : EReal => e ^ n := by
  induction n with
  | zero => simpa using continuous_const
  | succ n ih =>
    refine continuous_iff_continuousAt.mpr fun e => ?_
    simp only [pow_succ]
    -- a power is zero for zero only, and no power of zero is infinite
    have hne {c : EReal} (hc : c ≠ 0) : e ^ n ≠ 0 ∨ e ≠ c := by
      rcases eq_or_ne e 0 with rfl | he
      · exact Or.inr hc.symm
      · exact Or.inl (pow_ne_zero n he)
    have hfinite {c : EReal} (hc : IsInfinite c) : e ^ n ≠ c ∨ e ≠ 0 := by
      rcases eq_or_ne e 0 with rfl | he
      · refine Or.inl fun h => isInfinite_coe (0 ^ n) ?_
        rwa [EReal.coe_pow, EReal.coe_zero, h]
      · exact Or.inr he
    exact EReal.Tendsto.mul ih.continuousAt Filter.tendsto_id (hne EReal.bot_ne_zero) (hne EReal.top_ne_zero)
      (hfinite (Or.inr rfl)) (hfinite (Or.inl rfl))

theorem magnitude_pow {n : ℕ} (hn : Even n) (a : EReal) : max a (-a) ^ n = a ^ n := by
  rcases max_choice a (-a) with h | h
  · rw [h]
  · rw [h, hn.neg_pow]

end Exact

namespace Interval

variable {x : Interval Exact} {a b : EReal} {s : Set ℝ}

/-! ### Natural exponents -/

theorem pow_mem_limits (h : a ∈ limits s) (n : ℕ) : a ^ n ∈ limits ((· ^ n) '' s) :=
  map_mem_limits (continuous_npow n).continuousAt h fun r hr => ⟨r ^ n, Set.mem_image_of_mem _ hr, EReal.coe_pow r n⟩

/-- Even powers run from the power of zero, or from that of the end nearer to it, up to that of the other end. -/
theorem exists_powNat_of_even {n : ℕ} (hn : Even n) (ha : a ∈ limits (reals ⟨number a, number b⟩))
    (hb : b ∈ limits (reals ⟨number a, number b⟩)) :
    ∃ c ∈ limits ((· ^ n) '' reals ⟨number a, number b⟩), ∃ d ∈ limits ((· ^ n) '' reals ⟨number a, number b⟩),
      powNat ⟨number a, number b⟩ n = .ok ⟨number c, number d⟩ := by
  have hpow {e : EReal} (he : e ∈ limits (reals ⟨number a, number b⟩)) :
      max e (-e) ^ n ∈ limits ((· ^ n) '' reals ⟨number a, number b⟩) := by
    rw [magnitude_pow hn]
    exact pow_mem_limits he n
  have hmax := max_rec' (· ^ n ∈ limits ((· ^ n) '' reals ⟨number a, number b⟩)) (hpow ha) (hpow hb)
  rw [powNat, if_pos (Nat.even_iff.mp hn)]
  by_cases hzero : (⟨number a, number b⟩ : Interval Exact).containsZero = true
  · refine ⟨_, pow_mem_limits (coe_mem_limits (containsZero_iff.mp hzero)) n, _, hmax, ?_⟩
    rw [EReal.coe_zero, if_pos hzero, zero_def, abs_number, abs_number, maxNum_number]
    dsimp only
    rw [powi_number, powi_number, ofBounds_number]
  · have hmin := min_rec' (· ^ n ∈ limits ((· ^ n) '' reals ⟨number a, number b⟩)) (hpow ha) (hpow hb)
    refine ⟨_, hmin, _, hmax, ?_⟩
    rw [if_neg hzero, abs_number, abs_number, maxNum_number, minNum_number]
    dsimp only
    rw [powi_number, powi_number, ofBounds_number]

/-- **Natural powers are optimal.** -/
theorem powNat_eq_hullOf (hx : x.IsProper) (n : ℕ) : x.powNat n = .ok (hullOf ((· ^ n) '' x.reals)) := by
  obtain ⟨a, b, rfl, -⟩ := hx.exists_ends
  obtain ⟨ha, hb⟩ := ends_mem_limits hx
  obtain ⟨c, hc, d, hd, hz⟩ : ∃ c ∈ limits ((· ^ n) '' reals ⟨number a, number b⟩),
      ∃ d ∈ limits ((· ^ n) '' reals ⟨number a, number b⟩),
        powNat ⟨number a, number b⟩ n = .ok ⟨number c, number d⟩ := by
    rcases Nat.even_or_odd n with hn | hn
    · exact exists_powNat_of_even hn ha hb
    · refine ⟨_, pow_mem_limits ha n, _, pow_mem_limits hb n, ?_⟩
      rw [powNat, if_neg (Nat.mod_two_ne_zero.mpr (Nat.odd_iff.mp hn)), powi_number, powi_number, ofBounds_number]
  have hmem : (· ^ n) '' reals ⟨number a, number b⟩ ⊆ reals ⟨number c, number d⟩ := by
    rintro _ ⟨r, hr, rfl⟩
    obtain ⟨z, hz', hr⟩ := real_mem_powNat hr n
    cases hz.symm.trans hz'
    exact hr
  rw [hz, eq_hullOf hmem hc hd]

/-! ### Integral exponents -/

/-- Natural powers of an interval have no gaps between them. -/
theorem ordConnected_image_pow (x : Interval Exact) (n : ℕ) : ((· ^ n) '' x.reals).OrdConnected :=
  ((ordConnected_real x).isPreconnected.image _ (continuous_pow n).continuousOn).ordConnected

/-- The powers of the numbers in an interval. Zero has none that are negative. -/
def powers (x : Interval Exact) (n : ℤ) : Set ℝ := {q | ∃ r, real r ∈ x ∧ (n < 0 → r ≠ 0) ∧ r ^ n = q}

theorem powers_natCast (x : Interval Exact) (n : ℕ) : powers x n = (· ^ n) '' x.reals := by
  ext q
  constructor
  · rintro ⟨r, hr, -, rfl⟩
    exact ⟨r, hr, (zpow_natCast r n).symm⟩
  · rintro ⟨r, hr, rfl⟩
    exact ⟨r, hr, fun hn => absurd hn (Int.natCast_nonneg n).not_gt, zpow_natCast r n⟩

theorem powers_zero (hx : x.IsProper) : powers x 0 = reals ⟨real 1, real 1⟩ := by
  have himage := powers_natCast x 0
  simp only [pow_zero, (isProper_iff.mp hx).image_const] at himage
  rw [reals_point]
  exact himage

/-- Negative powers are the reciprocals of the others. -/
theorem powers_neg (x : Interval Exact) {n : ℕ} (hn : n ≠ 0) : powers x (-n) = (((· ^ n) '' x.reals) \ {0})⁻¹ := by
  have hneg : -(n : ℤ) < 0 := neg_neg_of_pos (Int.natCast_pos.mpr (Nat.pos_of_ne_zero hn))
  have hpow (r : ℝ) : r ^ (-(n : ℤ)) = (r ^ n)⁻¹ := by rw [zpow_neg, zpow_natCast]
  ext q
  constructor
  · rintro ⟨r, hr, hr₀, rfl⟩
    rw [hpow]
    exact Set.inv_mem_inv.mpr ⟨⟨r, hr, rfl⟩, pow_ne_zero n (hr₀ hneg)⟩
  · rintro ⟨⟨r, hr, hrq⟩, hq⟩
    have hrq : r ^ n = q⁻¹ := hrq
    refine ⟨r, hr, fun _ hr₀ => hq ?_, ?_⟩
    · rw [← hrq, hr₀]
      exact zero_pow hn
    · rw [hpow, hrq, inv_inv]

/-- **Integral powers are optimal.** -/
theorem pow_optimal (hx : x.IsRegular) {n : ℤ} (hn : |n| < 2 ^ 31 - 1) :
    ∃ z, x.pow (real n) = .ok z ∧ z.IsHull (powers x n) := by
  suffices h : x.pow (real n) = .ok (hullOf (powers x n)) from ⟨_, h, isHull_hullOf _⟩
  rcases hx with hx | hx
  · have hnone : powers x n = ∅ := Set.eq_empty_of_forall_notMem fun _ ⟨r, hr, _⟩ => real_notMem_of_isEmpty hx r hr
    rw [pow, if_pos hx, hnone, hullOf_empty]
  rw [pow, hx.nonempty, if_neg Bool.false_ne_true, integral?_real hn]
  by_cases hzero : n = 0
  · rw [if_pos (real_int_beq_zero.mpr hzero), ← real_one, point_real, hzero, powers_zero hx,
      hullOf_reals (isProper_point 1)]
  rw [if_neg (mt real_int_beq_zero.mp hzero)]
  dsimp only
  obtain ⟨m, rfl | rfl⟩ := n.eq_nat_or_neg
  · rw [if_neg (Int.natCast_nonneg m).not_gt, Int.natAbs_natCast, powNat_eq_hullOf hx, powers_natCast]
  · have hm : m ≠ 0 := fun h => hzero (by rw [h]; rfl)
    rw [if_pos (by omega), Int.natAbs_neg, Int.natAbs_natCast, powNat_eq_hullOf hx, powers_neg x hm,
      ← recip_hullOf (ordConnected_image_pow x m)]
    rfl

/-- The powers of an interval that straddles zero with a negative exponent. -/
theorem pow_optimal_of_straddling :
    let x : Interval Exact := ⟨real (-1), posInf⟩
    x.IsRegular ∧ |(-2 : ℤ)| < 2 ^ 31 - 1 ∧ ∃ z, x.pow (real (-2 : ℤ)) = .ok z ∧ z.IsHull (Set.Ioi 0) := by
  intro x
  have hx : x.IsRegular := Or.inr (isProper_of_real_mem (real_mem_ray.mpr (le_refl (-1))))
  have hn : |(-2 : ℤ)| < 2 ^ 31 - 1 := by decide
  obtain ⟨z, hz, hhull⟩ := pow_optimal hx hn
  have hset : powers x (-2) = Set.Ioi 0 := by
    ext q
    constructor
    · rintro ⟨r, -, hr, rfl⟩
      exact Even.zpow_pos (by decide) (hr (by decide))
    · intro hq
      have hpos : 0 < Real.sqrt q⁻¹ := Real.sqrt_pos.mpr (inv_pos.mpr hq)
      refine ⟨Real.sqrt q⁻¹, real_mem_ray.mpr (by linarith), fun _ => hpos.ne', ?_⟩
      rw [zpow_neg, zpow_ofNat, Real.sq_sqrt (inv_pos.mpr hq).le, inv_inv]
  exact ⟨hx, hn, z, hz, hset ▸ hhull⟩

end Interval

end IntervalDag
