import IntervalDag.Proofs.Interval.Hulls

/-!
# Inverse powers

The numbers in an interval whose powers lie in given bounds are all in the part of it that the inverse relation of the
power leaves (`Interval.powInverse_keeps`). The root of a magnitude with the sign of the number is monotone and undoes
odd powers (`Exact.signedPow_rpow_of_odd`), and on the numbers that are not negative it undoes every power. So roots of
ends bound the roots of what lies between the ends (`Interval.exists_roots`), also after the ends are widened. Even
powers are powers of magnitudes and leave two branches that mirror each other, and negative powers are reciprocals.
-/

namespace IntervalDag

open Scalar Exact

namespace Exact

variable {p q r : ℝ} {a : EReal}

/-! ### Powers of real numbers -/

/-- A real number has a power: one below zero has powers with whole exponents only, and zero none with an exponent
below zero. -/
structure HasPower (r p : ℝ) : Prop where
  whole_of_neg : r < 0 → ∃ n : ℤ, p = n
  nonneg_of_eq_zero : r = 0 → 0 ≤ p

theorem realPow_of_hasPower (h : HasPower r p) : realPow r p = real (r ^ p) := by
  have hzero : ¬ (r = 0 ∧ p < 0) := fun hr => (h.nonneg_of_eq_zero hr.1).not_gt hr.2
  have hneg : ¬ (r < 0 ∧ ¬ ∃ n : ℤ, p = n) := fun hr => hr.2 (h.whole_of_neg hr.1)
  rw [realPow, if_neg hzero, if_neg hneg]

theorem pow_real (h : HasPower r p) : Scalar.pow (real r) (real p) = real (r ^ p) := by
  change pow (number r) (number p) = _
  by_cases hone : p = 0 ∨ r = 1
  · rcases hone with rfl | rfl
    · simp [pow, real]
    · simp [pow, real]
  · simpa [pow, hone, IsInfinite] using realPow_of_hasPower h

theorem pow_top (hp : 0 < p) : Scalar.pow (number ⊤) (real p) = number ⊤ := by
  change pow (number ⊤) (number p) = _
  have hne : p ≠ 0 := hp.ne'
  have hone : (⊤ : EReal) ≠ 1 := (EReal.coe_ne_top 1).symm
  simp [pow, IsInfinite, hne, hone, hp.not_gt]

/-- Opposite exponents make reciprocal powers. -/
theorem rpow_neg_mul_rpow (h : HasPower r p) (hr : r ≠ 0) : r ^ (-p) * r ^ p = 1 := by
  rcases hr.lt_or_gt with hneg | hpos
  · obtain ⟨n, rfl⟩ := h.whole_of_neg hneg
    rw [← Int.cast_neg, Real.rpow_intCast, Real.rpow_intCast, ← zpow_add₀ hr, neg_add_cancel, zpow_zero]
  · rw [← Real.rpow_add hpos, neg_add_cancel, Real.rpow_zero]

theorem HasPower.neg (h : HasPower r p) (hr : r ≠ 0) : HasPower r (-p) where
  whole_of_neg hneg := by
    obtain ⟨n, rfl⟩ := h.whole_of_neg hneg
    exact ⟨-n, (Int.cast_neg n).symm⟩
  nonneg_of_eq_zero h₀ := absurd h₀ hr

/-! ### Roots of real numbers -/

/-- The power of the magnitude, with the sign of the number. -/
noncomputable def signedPow (q r : ℝ) : ℝ := if r < 0 then -|r| ^ q else |r| ^ q

theorem signedPow_of_nonneg (hr : 0 ≤ r) : signedPow q r = r ^ q := by
  rw [signedPow, if_neg hr.not_gt, abs_of_nonneg hr]

theorem signedPow_monotone (hq : 0 ≤ q) : Monotone (signedPow q) := by
  intro r v hrv
  unfold signedPow
  split_ifs with hr hv hv
  · rw [abs_of_neg hr, abs_of_neg hv]
    exact neg_le_neg (Real.rpow_le_rpow (neg_pos.mpr hv).le (neg_le_neg hrv) hq)
  · exact (neg_nonpos.mpr (Real.rpow_nonneg (abs_nonneg r) q)).trans (Real.rpow_nonneg (abs_nonneg v) q)
  · exact absurd (hrv.trans_lt hv) hr
  · rw [abs_of_nonneg (not_lt.mp hr), abs_of_nonneg (not_lt.mp hv)]
    exact Real.rpow_le_rpow (not_lt.mp hr) hrv hq

theorem signedPow_neg (hq : q ≠ 0) (r : ℝ) : signedPow q (-r) = -signedPow q r := by
  unfold signedPow
  rcases lt_trichotomy r 0 with hr | rfl | hr
  · rw [if_neg (neg_pos.mpr hr).not_gt, if_pos hr, abs_neg, neg_neg]
  · simp [Real.zero_rpow hq]
  · rw [if_pos (neg_neg_of_pos hr), if_neg hr.not_gt, abs_neg]

theorem signedPow_rpow (hp : p ≠ 0) (hr : 0 ≤ r) : signedPow (1 / p) (r ^ p) = r := by
  rw [signedPow_of_nonneg (Real.rpow_nonneg hr p), one_div, Real.rpow_rpow_inv hr hp]

/-- **Roots undo odd powers**, of numbers of either sign. -/
theorem signedPow_rpow_of_odd {n : ℤ} (hn : Odd n) (r : ℝ) : signedPow (1 / (n : ℝ)) (r ^ (n : ℝ)) = r := by
  have hn₀ : (n : ℝ) ≠ 0 := by
    rw [Int.cast_ne_zero]
    rintro rfl
    exact absurd hn (by decide)
  rcases le_total 0 r with hr | hr
  · exact signedPow_rpow hn₀ hr
  · have hneg := signedPow_rpow hn₀ (neg_nonneg.mpr hr)
    rw [Real.rpow_intCast, hn.neg_zpow, signedPow_neg (one_div_ne_zero hn₀), neg_inj, ← Real.rpow_intCast] at hneg
    exact hneg

/-- Powers undo roots, of numbers of either sign. -/
theorem signedPow_signedPow_inv (hp : 0 < p) (v : ℝ) : signedPow p (signedPow (1 / p) v) = v := by
  have hnonneg {u : ℝ} (hu : 0 ≤ u) : signedPow p (signedPow (1 / p) u) = u := by
    rw [signedPow_of_nonneg hu, signedPow_of_nonneg (Real.rpow_nonneg hu _), one_div, Real.rpow_inv_rpow hu hp.ne']
  rcases le_total 0 v with hv | hv
  · exact hnonneg hv
  · have h := hnonneg (neg_nonneg.mpr hv)
    rwa [signedPow_neg (one_div_ne_zero hp.ne'), signedPow_neg hp.ne', neg_inj] at h

theorem signedPow_inv_signedPow (hp : 0 < p) (v : ℝ) : signedPow (1 / p) (signedPow p v) = v := by
  have h := signedPow_signedPow_inv (one_div_pos.mpr hp) v
  rwa [one_div_one_div] at h

theorem signedPow_inv_le_iff (hp : 0 < p) {u : ℝ} : signedPow (1 / p) u ≤ v ↔ u ≤ signedPow p v := by
  constructor <;> intro h
  · exact signedPow_signedPow_inv hp u ▸ signedPow_monotone hp.le h
  · exact signedPow_inv_signedPow hp v ▸ signedPow_monotone (one_div_pos.mpr hp).le h

theorem le_signedPow_inv_iff (hp : 0 < p) {u : ℝ} : v ≤ signedPow (1 / p) u ↔ signedPow p v ≤ u := by
  constructor <;> intro h
  · exact signedPow_signedPow_inv hp u ▸ signedPow_monotone hp.le h
  · exact signedPow_inv_signedPow hp v ▸ signedPow_monotone (one_div_pos.mpr hp).le h

/-! ### Signs and differences -/

open Classical in
theorem isNegative_number : Scalar.isNegative (number a) = true ↔ a < 0 := decide_eq_true_iff

theorem isNegative_real : Scalar.isNegative (real r) = true ↔ r < 0 := isNegative_number.trans EReal.coe_neg'

theorem real_sub (r s : ℝ) : real r - real s = real (r - s) := by
  rw [sub_eq_add_neg, ← real_add, ← real_neg]
  rfl

end Exact

namespace Interval

variable {x y bounds : Interval Exact} {p v : ℝ} {a b : EReal}

/-! ### Roots of ends -/

theorem signedRoot_real (hp : 0 < p) (v : ℝ) : signedRoot (real p) (real v) = real (signedPow (1 / p) v) := by
  have hpow : Scalar.pow (Scalar.abs (real v)) (1 / real p) = real (|v| ^ (1 / p)) := by
    rw [real_abs, one_div_real hp.ne']
    exact pow_real ⟨fun h => absurd h (abs_nonneg v).not_gt, fun _ => (one_div_pos.mpr hp).le⟩
  rw [signedRoot, hpow, signedPow]
  by_cases hv : v < 0
  · rw [if_pos hv, if_pos (isNegative_real.mpr hv), real_neg]
  · rw [if_neg hv, if_neg (mt isNegative_real.mp hv)]

theorem signedRoot_top (hp : 0 < p) : signedRoot (real p) (number ⊤) = number ⊤ := by
  rw [signedRoot, abs_number, max_eq_left le_top, one_div_real hp.ne', pow_top (one_div_pos.mpr hp)]
  exact if_neg (mt isNegative_number.mp not_top_lt)

theorem signedRoot_bot (hp : 0 < p) : signedRoot (real p) (number ⊥) = number ⊥ := by
  rw [signedRoot, abs_number, EReal.neg_bot, max_eq_right le_top, one_div_real hp.ne', pow_top (one_div_pos.mpr hp)]
  exact if_pos (isNegative_number.mpr EReal.bot_lt_zero)

/-- Roots of an end order the numbers as the end orders their powers. -/
theorem exists_signedRoot (hp : 0 < p) (a : EReal) : ∃ c : EReal, signedRoot (real p) (number a) = number c ∧
    (∀ v : ℝ, c ≤ v ↔ a ≤ signedPow p v) ∧ ∀ v : ℝ, v ≤ c ↔ signedPow p v ≤ a := by
  induction a with
  | bot => exact ⟨⊥, signedRoot_bot hp, by simp, by simp⟩
  | top => exact ⟨⊤, signedRoot_top hp, by simp, by simp⟩
  | coe u =>
    refine ⟨signedPow (1 / p) u, signedRoot_real hp u, fun v => ?_, fun v => ?_⟩
    · rw [EReal.coe_le_coe_iff, EReal.coe_le_coe_iff, signedPow_inv_le_iff hp]
    · rw [EReal.coe_le_coe_iff, EReal.coe_le_coe_iff, le_signedPow_inv_iff hp]

theorem isFinite_real (v : ℝ) : isFinite (real v) = true :=
  isFinite_number.mpr ⟨EReal.coe_ne_bot v, EReal.coe_ne_top v⟩

/-- The margin by which an end at a real number is widened. -/
theorem nudge_mul_real (v : ℝ) :
    (nudge : Exact) * maxNum (Scalar.abs (real v)) 1 = real (1e-12 * max |v| 1) := by
  rw [real_abs, ← real_one, real, real, maxNum_number, ← EReal.coe_strictMono.monotone.map_max]
  exact real_mul _ _

theorem nudgeDown_real (v : ℝ) : nudgeDown (real v) = real (v - 1e-12 * max |v| 1) := by
  rw [nudgeDown, if_pos (isFinite_real v), nudge_mul_real, real_sub]

theorem nudgeUp_real (v : ℝ) : nudgeUp (real v) = real (v + 1e-12 * max |v| 1) := by
  rw [nudgeUp, if_pos (isFinite_real v), nudge_mul_real, real_add]

/-- Ends are widened outward. -/
theorem exists_nudge (a : EReal) :
    (∃ c ≤ a, nudgeDown (number a) = number c) ∧ ∃ d ≥ a, nudgeUp (number a) = number d := by
  by_cases hfinite : isFinite (number a) = true
  · obtain ⟨v, hv⟩ := exists_real_of_isFinite hfinite
    obtain rfl : a = v := number.inj hv
    have hnonneg : 0 ≤ 1e-12 * max |v| 1 := by positivity
    exact ⟨⟨(v - 1e-12 * max |v| 1 : ℝ), EReal.coe_le_coe_iff.mpr (sub_le_self v hnonneg), nudgeDown_real v⟩,
      ⟨(v + 1e-12 * max |v| 1 : ℝ), EReal.coe_le_coe_iff.mpr (le_add_of_nonneg_right hnonneg), nudgeUp_real v⟩⟩
  · exact ⟨⟨a, le_rfl, if_neg hfinite⟩, ⟨a, le_rfl, if_neg hfinite⟩⟩

/-- **Roots of bounds.** Between the widened roots of two ends lie the roots of the numbers between the ends. -/
theorem exists_roots (hp : 0 < p) (a b : EReal) : ∃ c d : EReal,
    nudgeDown (signedRoot (real p) (number a)) = number c ∧ nudgeUp (signedRoot (real p) (number b)) = number d ∧
      ∀ v, real v ∈ (⟨number a, number b⟩ : Interval Exact) →
        real (signedPow (1 / p) v) ∈ (⟨number c, number d⟩ : Interval Exact) := by
  obtain ⟨c, hc, hlow, -⟩ := exists_signedRoot hp a
  obtain ⟨d, hd, -, hhigh⟩ := exists_signedRoot hp b
  obtain ⟨⟨c', hc', hdown⟩, -⟩ := exists_nudge c
  obtain ⟨-, d', hd', hup⟩ := exists_nudge d
  refine ⟨c', d', by rw [hc, hdown], by rw [hd, hup], fun v hv => ?_⟩
  rw [← signedPow_signedPow_inv hp v] at hv
  obtain ⟨hav, hvb⟩ := real_mem_number.mp hv
  exact real_mem_number.mpr ⟨hc'.trans ((hlow _).mpr hav), ((hhigh _).mpr hvb).trans hd'⟩

/-! ### Exponents above zero -/

theorem isRegular_inter (hx : x.IsProper) (hy : y.IsProper) : (x.inter y).IsRegular :=
  inter_eq_hullOf hx hy ▸ isRegular_hullOf _

/-- A part of `x` with every number of it that has a power in the bounds. -/
structure HoldsRoots (bounds : Interval Exact) (p : ℝ) (x z : Interval Exact) : Prop where
  isSubset : z.isSubset x = true
  holds : ∀ r, real r ∈ x → HasPower r p → real (r ^ p) ∈ bounds → real r ∈ z

theorem holdsRoots_empty (h : ∀ r, real r ∈ x → HasPower r p → real (r ^ p) ∉ bounds) :
    HoldsRoots bounds p x empty where
  isSubset := isSubset_empty x
  holds r hr hpower hrp := absurd hrp (h r hr hpower)

theorem holdsRoots_of_isEmpty (h : bounds.isEmpty = true ∨ x.isEmpty = true) : HoldsRoots bounds p x empty :=
  holdsRoots_empty fun r hr _ hrp => by
    rcases h with h | h
    · exact real_notMem_of_isEmpty h _ hrp
    · exact real_notMem_of_isEmpty h _ hr

theorem exists_oddRootsWithin {n : ℤ} (hn : Odd n) (hpos : 0 < (n : ℝ)) (hbounds : bounds.IsProper) (hx : x.IsProper) :
    ∃ z, oddRootsWithin bounds (real n) x = .ok z ∧ z.IsRegular ∧ HoldsRoots bounds n x z := by
  obtain ⟨v, hv⟩ := isProper_iff.mp hbounds
  obtain ⟨a, b, rfl, -⟩ := hbounds.exists_ends
  obtain ⟨c, d, hc, hd, hroots⟩ := exists_roots hpos a b
  refine ⟨inter ⟨number c, number d⟩ x, ?_, isRegular_inter (isProper_of_real_mem (hroots v hv)) hx,
    inter_isSubset _ hx, fun r hr _ hrp => mem_inter ?_ hr⟩
  · rw [oddRootsWithin, hc, hd, ofBounds_number]
    rfl
  · have hroot := hroots _ hrp
    rwa [signedPow_rpow_of_odd hn] at hroot

theorem real_mem_nonnegative : real v ∈ (nonnegative : Interval Exact) ↔ 0 ≤ v := by
  rw [nonnegative, ← real_zero, real_mem_ray]

/-- The roots of the part of the bounds that is not negative, if there is such a part. -/
theorem exists_positiveRoots (hp : 0 < p) (hbounds : bounds.IsProper)
    (hpart : (bounds.inter nonnegative).isEmpty = false) :
    ∃ y, positiveRoots (bounds.inter nonnegative) (real p) = .ok y ∧ y.IsProper ∧
      ∀ r, 0 ≤ r → real (r ^ p) ∈ bounds → real r ∈ y := by
  have hnonneg : (nonnegative : Interval Exact).IsProper := isProper_of_real_mem (real_mem_nonnegative.mpr le_rfl)
  have hreals := reals_inter hbounds hnonneg
  have hproper : (bounds.inter nonnegative).IsProper := by
    rw [inter_eq_hullOf hbounds hnonneg] at hpart ⊢
    exact isProper_hullOf.mpr (isEmpty_hullOf.mp hpart)
  obtain ⟨a, b, hends, -⟩ := hproper.exists_ends
  obtain ⟨c, d, hc, hd, hroots⟩ := exists_roots hp a b
  have hmem {v : ℝ} (hv : v ∈ (bounds.inter nonnegative).reals) :
      real (signedPow (1 / p) v) ∈ (⟨number (max c 0), number d⟩ : Interval Exact) := by
    have hv₀ : 0 ≤ v := real_mem_nonnegative.mp (hreals ▸ hv).2
    have hroot : 0 ≤ signedPow (1 / p) v := signedPow_of_nonneg hv₀ ▸ Real.rpow_nonneg hv₀ _
    obtain ⟨hlow, hhigh⟩ := real_mem_number.mp (hroots v (hends ▸ hv))
    exact real_mem_number.mpr ⟨max_le hlow (EReal.coe_nonneg.mpr hroot), hhigh⟩
  refine ⟨⟨number (max c 0), number d⟩, ?_, ?_, fun r hr hrp => ?_⟩
  · rw [hends, positiveRoots, hc, hd, zero_def, maxNum_number, ofBounds_number]
  · obtain ⟨v, hv⟩ := isProper_iff.mp hproper
    exact isProper_of_real_mem (hmem hv)
  · have hvalue : r ^ p ∈ (bounds.inter nonnegative).reals :=
      mem_inter hrp (real_mem_nonnegative.mpr (Real.rpow_nonneg hr p))
    have hroot := hmem hvalue
    rwa [signedPow_rpow hp.ne' hr] at hroot

/-- Branches that mirror each other hold the numbers whose magnitude is in one of them. -/
theorem mem_mirrored (hy : y.IsProper) (hx : x.IsProper) : (hullAll [y.inter x, (-y).inter x]).IsRegular ∧
    (hullAll [y.inter x, (-y).inter x]).isSubset x = true ∧
      ∀ r, real r ∈ x → real |r| ∈ y → real r ∈ hullAll [y.inter x, (-y).inter x] := by
  have hhull : hullAll ([y, -y].map (·.inter x)) = hullOf ({r | ∃ z ∈ [y, -y], real r ∈ z} ∩ x.reals) :=
    hullAll_inter (by simp [hy, hy.neg]) hx
  rw [List.map_cons, List.map_singleton] at hhull
  rw [hhull]
  refine ⟨isRegular_hullOf _, hullOf_isSubset hx Set.inter_subset_right,
    fun r hr habs => real_mem_hullOf ⟨?_, hr⟩⟩
  rcases abs_choice r with h | h
  · exact ⟨y, by simp, h ▸ habs⟩
  · have hmem := real_mem_neg habs
    rw [h, neg_neg] at hmem
    exact ⟨-y, by simp, hmem⟩

/-- Numbers below zero have no powers with fractional exponents, and of the whole ones those are told apart whose
magnitude is small. -/
theorem nonneg_of_integral? {r : ℝ} (hn : Scalar.integral? (real p) = none) (h : HasPower r p)
    (hsmall : r < 0 → |p| < 2 ^ 31 - 1) : 0 ≤ r := by
  by_contra hr
  obtain ⟨n, rfl⟩ := h.whole_of_neg (not_le.mp hr)
  rw [integral?_real (by exact_mod_cast hsmall (not_le.mp hr))] at hn
  cases hn

section RootsWithin

variable (hp : 0 < p) (hbounds : bounds.IsProper) (hx : x.IsProper)

include hp hbounds hx

theorem exists_rootsWithin_of_whole {n : ℤ} (hn : Scalar.integral? (real p) = some n) :
    ∃ z, rootsWithin bounds (real p) x = .ok z ∧ z.IsRegular ∧ HoldsRoots bounds p x z := by
  obtain rfl : p = n := EReal.coe_eq_coe_iff.mp (number.inj (eq_real_of_integral? hn))
  rw [rootsWithin, if_neg (by simp [hbounds.nonempty, hx.nonempty]), hn]
  dsimp only
  by_cases hodd : n % 2 ≠ 0
  · rw [if_pos hodd]
    exact exists_oddRootsWithin (Int.odd_iff.mpr (Int.emod_two_ne_zero.mp hodd)) hp hbounds hx
  rw [if_neg hodd]
  -- an even power is that of the magnitude
  have habs (r : ℝ) : r ^ (n : ℝ) = |r| ^ (n : ℝ) := by
    rw [Real.rpow_intCast, Real.rpow_intCast, (Int.even_iff.mpr (not_not.mp hodd)).zpow_abs]
  by_cases hpart : (bounds.inter nonnegative).isEmpty = true
  · refine ⟨empty, by rw [if_pos hpart]; rfl, Or.inl isEmpty_empty, holdsRoots_empty fun r _ _ hrp => ?_⟩
    have hnonneg : 0 ≤ r ^ (n : ℝ) := habs r ▸ Real.rpow_nonneg (abs_nonneg r) _
    exact real_notMem_of_isEmpty hpart _ (mem_inter hrp (real_mem_nonnegative.mpr hnonneg))
  · obtain ⟨y, hy, hproper, hroots⟩ := exists_positiveRoots hp hbounds (Bool.eq_false_iff.mpr hpart)
    obtain ⟨hregular, hsub, hmem⟩ := mem_mirrored hproper hx
    refine ⟨_, by rw [if_neg hpart, hy]; rfl, hregular, hsub, fun r hr _ hrp => hmem r hr ?_⟩
    exact hroots _ (abs_nonneg r) (habs r ▸ hrp)

/-- Exponents that are not taken for whole ones leave the numbers that are not negative. -/
theorem exists_rootsWithin_of_none (hn : Scalar.integral? (real p) = none) :
    ∃ z, rootsWithin bounds (real p) x = .ok z ∧ z.IsRegular ∧ z.isSubset x = true ∧
      ∀ r, 0 ≤ r → real r ∈ x → real (r ^ p) ∈ bounds → real r ∈ z := by
  rw [rootsWithin, if_neg (by simp [hbounds.nonempty, hx.nonempty]), hn]
  dsimp only
  by_cases hpart : (bounds.inter nonnegative).isEmpty = true
  · refine ⟨empty, by rw [if_pos hpart]; rfl, Or.inl isEmpty_empty, isSubset_empty x, fun r hr _ hrp => ?_⟩
    exact absurd (mem_inter hrp (real_mem_nonnegative.mpr (Real.rpow_nonneg hr p)))
      (real_notMem_of_isEmpty hpart _)
  · obtain ⟨y, hy, hproper, hroots⟩ := exists_positiveRoots hp hbounds (Bool.eq_false_iff.mpr hpart)
    exact ⟨y.inter x, by rw [if_neg hpart, hy]; rfl, isRegular_inter hproper hx, inter_isSubset y hx,
      fun r hr hrx hrp => mem_inter (hroots r hr hrp) hrx⟩

theorem exists_rootsWithin_of_fractional (hn : Scalar.integral? (real p) = none) (hlt : |p| < 2 ^ 31 - 1) :
    ∃ z, rootsWithin bounds (real p) x = .ok z ∧ HoldsRoots bounds p x z := by
  obtain ⟨z, hz, -, hsub, hholds⟩ := exists_rootsWithin_of_none hp hbounds hx hn
  exact ⟨z, hz, hsub, fun r hr h => hholds r (nonneg_of_integral? hn h fun _ => hlt) hr⟩

end RootsWithin

theorem exists_rootsWithin (hp : 0 < p) (hlt : |p| < 2 ^ 31 - 1) (hbounds : bounds.IsRegular) (hx : x.IsRegular) :
    ∃ z, rootsWithin bounds (real p) x = .ok z ∧ HoldsRoots bounds p x z := by
  by_cases hnone : bounds.isEmpty = true ∨ x.isEmpty = true
  · exact ⟨empty, by rw [rootsWithin, if_pos (Bool.or_eq_true_iff.mpr hnone)], holdsRoots_of_isEmpty hnone⟩
  have hbounds := hbounds.resolve_left fun h => hnone (Or.inl h)
  have hx := hx.resolve_left fun h => hnone (Or.inr h)
  cases hn : Scalar.integral? (real p) with
  | some n =>
    obtain ⟨z, hz, -, hholds⟩ := exists_rootsWithin_of_whole hp hbounds hx hn
    exact ⟨z, hz, hholds⟩
  | none => exact exists_rootsWithin_of_fractional hp hbounds hx hn hlt

/-- An exponent of any size loses no number that is not negative. -/
theorem exists_rootsWithin_of_size (hp : 0 < p) (hbounds : bounds.IsRegular) (hx : x.IsRegular) :
    ∃ z, rootsWithin bounds (real p) x = .ok z ∧ z.IsRegular ∧ ∀ r, (r < 0 → |p| < 2 ^ 31 - 1) →
      real r ∈ x → HasPower r p → real (r ^ p) ∈ bounds → real r ∈ z := by
  by_cases hnone : bounds.isEmpty = true ∨ x.isEmpty = true
  · have hempty : HoldsRoots bounds p x empty := holdsRoots_of_isEmpty hnone
    exact ⟨empty, by rw [rootsWithin, if_pos (Bool.or_eq_true_iff.mpr hnone)], Or.inl isEmpty_empty,
      fun r _ => hempty.holds r⟩
  have hbounds := hbounds.resolve_left fun h => hnone (Or.inl h)
  have hx := hx.resolve_left fun h => hnone (Or.inr h)
  cases hn : Scalar.integral? (real p) with
  | some n =>
    obtain ⟨z, hz, hregular, hroots⟩ := exists_rootsWithin_of_whole hp hbounds hx hn
    exact ⟨z, hz, hregular, fun r _ => hroots.holds r⟩
  | none =>
    obtain ⟨z, hz, hregular, -, hroots⟩ := exists_rootsWithin_of_none hp hbounds hx hn
    exact ⟨z, hz, hregular, fun r hsmall hr h => hroots r (nonneg_of_integral? hn h hsmall) hr⟩

/-! ### All exponents -/

/-- An exponent below zero is turned around, with the reciprocals of the bounds for bounds. -/
theorem exists_reciprocals (hp : p < 0) (hbounds : bounds.IsProper) (hx : x.isEmpty = false) :
    ∃ base, base.IsRegular ∧ powInverse bounds (real p) x = rootsWithin base (real (-p)) x ∧
      ∀ r, HasPower r p → real (r ^ p) ∈ bounds → HasPower r (-p) ∧ real (r ^ (-p)) ∈ base := by
  have hentire : (entire : Interval Exact).IsProper := isProper_of_real_mem (real_mem_entire 0)
  obtain ⟨s, hs, hquotients, -⟩ := exists_solveProduct (Or.inr (isProper_point 1)) hbounds hentire
  refine ⟨hullOf (s ∩ reals entire), isRegular_hullOf _, ?_, fun r h hrp => ?_⟩
  · rw [real_one] at hs
    have hneg : real p < 0 := by rwa [← real_zero, real_lt_real]
    rw [powInverse, if_neg (by simp [hbounds.nonempty, hx]), if_neg (mt real_beq_zero.mp hp.ne), if_pos hneg,
      hs, Checked.ok_bind, real_neg]
  · have hr₀ : r ≠ 0 := fun h₀ => (h.nonneg_of_eq_zero h₀).not_gt hp
    refine ⟨h.neg hr₀, real_mem_hullOf ⟨hquotients ⟨r ^ p, hrp, ?_⟩, real_mem_entire _⟩⟩
    rw [rpow_neg_mul_rpow h hr₀]
    exact real_mem_real.mpr ⟨le_rfl, le_rfl⟩

theorem exists_powInverse_of_neg (hp : p < 0) (hlt : |p| < 2 ^ 31 - 1) (hbounds : bounds.IsProper) (hx : x.IsProper) :
    ∃ z, powInverse bounds (real p) x = .ok z ∧ HoldsRoots bounds p x z := by
  obtain ⟨base, hbase, heq, hpowers⟩ := exists_reciprocals hp hbounds hx.nonempty
  obtain ⟨z, hz, hroots⟩ := exists_rootsWithin (neg_pos.mpr hp) (by rwa [abs_neg]) hbase (Or.inr hx)
  refine ⟨z, heq.trans hz, hroots.isSubset, fun r hr h hrp => ?_⟩
  obtain ⟨h, hrp⟩ := hpowers r h hrp
  exact hroots.holds r hr h hrp

theorem powInverse_of_isEmpty (h : bounds.isEmpty = true ∨ x.isEmpty = true) (p : Exact) :
    powInverse bounds p x = .ok empty := by
  rw [powInverse, if_pos (Bool.or_eq_true_iff.mpr h)]

theorem powInverse_of_pos (hp : 0 < p) (hbounds : bounds.IsProper) (hx : x.IsProper) :
    powInverse bounds (real p) x = rootsWithin bounds (real p) x := by
  have hlt : ¬ real p < 0 := by
    rw [← real_zero, real_lt_real]
    exact hp.not_gt
  rw [powInverse, if_neg (by simp [hbounds.nonempty, hx.nonempty]), if_neg (mt real_beq_zero.mp hp.ne'), if_neg hlt]

/-- With the exponent zero all powers are one. -/
theorem powInverse_zero (hbounds : bounds.IsProper) (hx : x.IsProper) :
    powInverse bounds (real 0) x = .ok (if bounds.contains 1 then x else empty) := by
  rw [powInverse, if_neg (by simp [hbounds.nonempty, hx.nonempty]), if_pos (real_beq_zero.mpr rfl)]

/-- Inverse powers with an exponent of any size lose no number that is not negative. -/
theorem exists_powInverse_of_size (hbounds : bounds.IsRegular) (hx : x.IsRegular) (p : ℝ) :
    ∃ z, powInverse bounds (real p) x = .ok z ∧ z.IsRegular ∧ ∀ r, (r < 0 → |p| < 2 ^ 31 - 1) →
      real r ∈ x → HasPower r p → real (r ^ p) ∈ bounds → real r ∈ z := by
  by_cases hnone : bounds.isEmpty = true ∨ x.isEmpty = true
  · have hempty : HoldsRoots bounds p x empty := holdsRoots_of_isEmpty hnone
    exact ⟨empty, powInverse_of_isEmpty hnone _, Or.inl isEmpty_empty, fun r _ => hempty.holds r⟩
  have hbounds := hbounds.resolve_left fun h => hnone (Or.inl h)
  have hx := hx.resolve_left fun h => hnone (Or.inr h)
  rcases lt_trichotomy p 0 with hneg | rfl | hpos
  · obtain ⟨base, hbase, heq, hpowers⟩ := exists_reciprocals hneg hbounds hx.nonempty
    obtain ⟨z, hz, hregular, hroots⟩ := exists_rootsWithin_of_size (neg_pos.mpr hneg) hbase (Or.inr hx)
    refine ⟨z, heq.trans hz, hregular, fun r hsmall hr h hrp => ?_⟩
    obtain ⟨h, hrp⟩ := hpowers r h hrp
    exact hroots r (by rwa [abs_neg]) hr h hrp
  · refine ⟨_, powInverse_zero hbounds hx, ?_, fun r _ hr _ hrp => ?_⟩
    · split_ifs
      · exact Or.inr hx
      · exact Or.inl isEmpty_empty
    · rw [Real.rpow_zero, real_one] at hrp
      have hone : bounds.contains 1 = true := hrp
      rwa [if_pos hone]
  · rw [powInverse_of_pos hpos hbounds hx]
    exact exists_rootsWithin_of_size hpos (Or.inr hbounds) (Or.inr hx)

/-- **Inverse powers lose no solution.** -/
theorem powInverse_keeps (hbounds : bounds.IsRegular) (hx : x.IsRegular) (hlt : |p| < 2 ^ 31 - 1) :
    ∃ z, powInverse bounds (real p) x = .ok z ∧ z.isSubset x = true ∧
      ∀ r, real r ∈ x → HasPower r p → real (r ^ p) ∈ bounds → real r ∈ z := by
  suffices h : ∃ z, powInverse bounds (real p) x = .ok z ∧ HoldsRoots bounds p x z by
    obtain ⟨z, hz, hroots⟩ := h
    exact ⟨z, hz, hroots.isSubset, hroots.holds⟩
  by_cases hnone : bounds.isEmpty = true ∨ x.isEmpty = true
  · exact ⟨empty, by rw [powInverse, if_pos (Bool.or_eq_true_iff.mpr hnone)], holdsRoots_of_isEmpty hnone⟩
  have hbounds := hbounds.resolve_left fun h => hnone (Or.inl h)
  have hx := hx.resolve_left fun h => hnone (Or.inr h)
  rcases lt_trichotomy p 0 with hneg | rfl | hpos
  · exact exists_powInverse_of_neg hneg hlt hbounds hx
  · rw [powInverse, if_neg (mt Bool.or_eq_true_iff.mp hnone), if_pos (real_beq_zero.mpr rfl)]
    refine ⟨_, rfl, ?_, fun r hr _ hrp => ?_⟩
    · split_ifs
      · exact isSubset_refl hx
      · exact isSubset_empty x
    · rw [Real.rpow_zero, real_one] at hrp
      have hone : bounds.contains 1 = true := hrp
      rwa [if_pos hone]
  · have hlt₀ : ¬ real p < 0 := by
      rw [← real_zero, real_lt_real]
      exact hpos.not_gt
    rw [powInverse, if_neg (mt Bool.or_eq_true_iff.mp hnone), if_neg (mt real_beq_zero.mp hpos.ne'), if_neg hlt₀]
    exact exists_rootsWithin hpos hlt (Or.inr hbounds) (Or.inr hx)

/-- A number below zero whose inverse square is in the bounds. -/
theorem powInverse_keeps_of_reciprocal :
    let bounds : Interval Exact := ⟨real (1 / 4), posInf⟩
    let x : Interval Exact := ⟨negInf, real 1⟩
    bounds.IsRegular ∧ x.IsRegular ∧ |(-2 : ℝ)| < 2 ^ 31 - 1 ∧
      real (-2) ∈ x ∧ HasPower (-2) (-2) ∧ real ((-2) ^ (-2 : ℝ)) ∈ bounds ∧
      ∃ z, powInverse bounds (real (-2)) x = .ok z ∧ z.isSubset x = true ∧ real (-2) ∈ z := by
  intro bounds x
  have hbounds : bounds.IsRegular := isRegular_number (EReal.coe_ne_top _) top_ne_bot
  have hx : x.IsRegular := isRegular_number bot_ne_top (EReal.coe_ne_bot _)
  have hlt : |(-2 : ℝ)| < 2 ^ 31 - 1 := by norm_num
  have hmem : real (-2) ∈ x := real_mem_number.mpr ⟨bot_le, EReal.coe_le_coe_iff.mpr (by norm_num)⟩
  have hpower : HasPower (-2) (-2) := ⟨fun _ => ⟨-2, by norm_num⟩, by norm_num⟩
  have hvalue : real ((-2) ^ (-2 : ℝ)) ∈ bounds := by
    have hsquare : (-2 : ℝ) ^ ((-2 : ℤ) : ℝ) = 1 / 4 := by
      rw [Real.rpow_intCast]
      norm_num
    rw [Int.cast_neg, Int.cast_ofNat] at hsquare
    rw [hsquare]
    exact real_mem_ray.mpr le_rfl
  obtain ⟨z, hz, hsub, hkeeps⟩ := powInverse_keeps hbounds hx hlt
  exact ⟨hbounds, hx, hlt, hmem, hpower, hvalue, z, hz, hsub, hkeeps _ hmem hpower hvalue⟩

end Interval

end IntervalDag
