import IntervalDag.Interval.Elementary
import IntervalDag.Proofs.Interval.Membership
import IntervalDag.Proofs.Scalar.Exact

/-!
# Interval arithmetic over exact numbers

Over the exact carrier, an operation on intervals holds what the operation on real numbers makes of their members.
There is one lemma for each operation. Where an operation may fault, the lemma says that it does not on intervals
with a real number in them.
-/

namespace IntervalDag

open Scalar Exact

/-! ### Products of extended real numbers -/

namespace Exact

variable {a b c d r s : EReal}

/-- A factor that is not positive turns the order around. -/
theorem mul_le_mul_of_nonpos_left (h : a ≤ b) (hr : r ≤ 0) : r * b ≤ r * a := by
  have hle := mul_le_mul_of_nonneg_left h (EReal.neg_nonneg.mpr hr)
  rwa [neg_mul, neg_mul, EReal.neg_le_neg_iff] at hle

/-- Multiples of a number between two ends lie between the multiples of the ends. -/
theorem mul_mem_hull (hc : c ≤ s) (hd : s ≤ d) : min (r * c) (r * d) ≤ r * s ∧ r * s ≤ max (r * c) (r * d) := by
  rcases le_total 0 r with hr | hr
  · exact ⟨min_le_of_left_le (mul_le_mul_of_nonneg_left hc hr), le_max_of_le_right (mul_le_mul_of_nonneg_left hd hr)⟩
  · exact ⟨min_le_of_right_le (mul_le_mul_of_nonpos_left hd hr), le_max_of_le_left (mul_le_mul_of_nonpos_left hc hr)⟩

/-- Odd powers keep the order. -/
theorem pow_le_pow_of_odd {n : ℕ} (hn : Odd n) (h : a ≤ b) : a ^ n ≤ b ^ n := by
  rcases le_total 0 a with ha | ha
  · exact pow_le_pow_left₀ ha h n
  rcases le_total 0 b with hb | hb
  · have hneg := pow_nonneg (EReal.neg_nonneg.mpr ha) n
    rw [hn.neg_pow, EReal.neg_nonneg] at hneg
    exact hneg.trans (pow_nonneg hb n)
  · have hle := pow_le_pow_left₀ (EReal.neg_nonneg.mpr hb) (EReal.neg_le_neg_iff.mpr h) n
    rwa [hn.neg_pow, hn.neg_pow, EReal.neg_le_neg_iff] at hle

/-- Reciprocals turn the order of positive numbers around. -/
theorem one_div_le_of_le {x : ℝ} (hx : 0 < x) (h : (x : EReal) ≤ b) : 1 / b ≤ (x⁻¹ : ℝ) := by
  induction b with
  | bot => simp at h
  | top => simpa using EReal.coe_nonneg.mpr (inv_nonneg.mpr hx.le)
  | coe y =>
    have hle := inv_anti₀ hx (EReal.coe_le_coe_iff.mp h)
    rw [one_div, ← EReal.coe_inv]
    exact_mod_cast hle

theorem le_one_div_of_le {x : ℝ} (ha : 0 < a) (h : a ≤ (x : EReal)) : ((x⁻¹ : ℝ) : EReal) ≤ 1 / a := by
  induction a with
  | bot => simp at ha
  | top => simp at h
  | coe y =>
    have hle := inv_anti₀ (EReal.coe_pos.mp ha) (EReal.coe_le_coe_iff.mp h)
    rw [one_div, ← EReal.coe_inv]
    exact_mod_cast hle

theorem inv_le_one_div {x : ℝ} (hx : x < 0) (h : a ≤ (x : EReal)) : ((x⁻¹ : ℝ) : EReal) ≤ 1 / a := by
  induction a with
  | bot => simpa using EReal.coe_nonpos.mpr (inv_nonpos.mpr hx.le)
  | top => simp at h
  | coe y =>
    have hle := (inv_le_inv_of_neg hx ((EReal.coe_le_coe_iff.mp h).trans_lt hx)).mpr (EReal.coe_le_coe_iff.mp h)
    rw [one_div, ← EReal.coe_inv]
    exact_mod_cast hle

theorem one_div_le_inv {x : ℝ} (hb : b < 0) (h : (x : EReal) ≤ b) : 1 / b ≤ (x⁻¹ : ℝ) := by
  induction b with
  | bot => simp at h
  | top => simp at hb
  | coe y =>
    have hy := EReal.coe_neg'.mp hb
    have hle := (inv_le_inv_of_neg hy ((EReal.coe_le_coe_iff.mp h).trans_lt hy)).mpr (EReal.coe_le_coe_iff.mp h)
    rw [one_div, ← EReal.coe_inv]
    exact_mod_cast hle

theorem magnitude_nonneg (a : EReal) : 0 ≤ max a (-a) := by
  rcases le_total 0 a with ha | ha
  · exact le_max_of_le_left ha
  · exact le_max_of_le_right (EReal.neg_nonneg.mpr ha)

theorem coe_abs (x : ℝ) : ((|x| : ℝ) : EReal) = max (x : EReal) (-x) := by
  rcases le_total 0 x with hx | hx
  · rw [abs_of_nonneg hx, max_eq_left]
    exact_mod_cast (neg_nonpos.mpr hx).trans hx
  · rw [abs_of_nonpos hx, EReal.coe_neg, max_eq_right]
    exact_mod_cast hx.trans (neg_nonneg.mpr hx)

/-- Magnitudes between two ends lie between zero and the greater magnitude of the ends. -/
theorem magnitude_le (ha : a ≤ r) (hb : r ≤ b) : max r (-r) ≤ max (max a (-a)) (max b (-b)) :=
  max_le (hb.trans (le_max_of_le_right (le_max_left ..)))
    ((EReal.neg_le_neg_iff.mpr ha).trans (le_max_of_le_left (le_max_right ..)))

/-- If zero is not between the ends, the lesser magnitude of them is the least. -/
theorem le_magnitude (ha : a ≤ r) (hb : r ≤ b) (h : ¬ (a ≤ 0 ∧ 0 ≤ b)) :
    min (max a (-a)) (max b (-b)) ≤ max r (-r) := by
  rcases not_and_or.mp h with h | h
  · have hpos := (not_le.mp h).le
    have hneg : -a ≤ a := (EReal.neg_le_neg_iff.mpr hpos).trans (by simpa using hpos)
    exact min_le_of_left_le (max_le (ha.trans (le_max_left ..)) (hneg.trans (ha.trans (le_max_left ..))))
  · have hnonpos := (not_le.mp h).le
    have hneg : b ≤ -b := hnonpos.trans (EReal.neg_nonneg.mpr hnonpos)
    have hle := EReal.neg_le_neg_iff.mpr hb
    exact min_le_of_right_le (max_le (hneg.trans (hle.trans (le_max_right ..))) (hle.trans (le_max_right ..)))

end Exact

namespace Interval

variable {x y : Interval Exact} {a b : EReal} {r s : ℝ}

/-! ### Membership -/

/-- The ends of an interval with a real number in it are numbers on both sides of it. -/
theorem real_mem_iff : real r ∈ x ↔ ∃ a b : EReal, x = ⟨number a, number b⟩ ∧ a ≤ r ∧ (r : EReal) ≤ b := by
  rw [mem_iff]
  constructor
  · rintro ⟨hinf, hsup⟩
    obtain ⟨a, ha, har⟩ := exists_number_of_le hinf
    obtain ⟨b, hb, hrb⟩ := exists_number_of_ge hsup
    exact ⟨a, b, by rw [← ha, ← hb], har, hrb⟩
  · rintro ⟨a, b, rfl, ha, hb⟩
    exact ⟨ha, hb⟩

theorem real_mem_entire (r : ℝ) : real r ∈ (entire : Interval Exact) :=
  real_mem_iff.mpr ⟨⊥, ⊤, rfl, bot_le, le_top⟩

/-- An interval has no gaps. -/
theorem ordConnected_real (x : Interval Exact) : {r : ℝ | real r ∈ x}.OrdConnected := by
  refine ⟨fun r hr s hs u hu => ?_⟩
  obtain ⟨a, b, rfl, ha, -⟩ := real_mem_iff.mp hr
  obtain ⟨a', b', heq, -, hb⟩ := real_mem_iff.mp hs
  cases heq
  exact real_mem_iff.mpr ⟨a, b, rfl, ha.trans (EReal.coe_le_coe_iff.mpr hu.1), (EReal.coe_le_coe_iff.mpr hu.2).trans hb⟩

theorem nonneg_of_inf (h : 0 ≤ x.inf) (hr : real r ∈ x) : 0 ≤ r := by
  obtain ⟨a, b, rfl, ha, -⟩ := real_mem_iff.mp hr
  exact EReal.coe_nonneg.mp (le_trans (show (0 : EReal) ≤ a from h) ha)

theorem nonpos_of_sup (h : x.sup ≤ 0) (hr : real r ∈ x) : r ≤ 0 := by
  obtain ⟨a, b, rfl, -, hb⟩ := real_mem_iff.mp hr
  exact EReal.coe_nonpos.mp (le_trans hb (show b ≤ (0 : EReal) from h))

@[simp] theorem ofBounds_number : ofBounds (number a) (number b) = .ok ⟨number a, number b⟩ := by
  simp [ofBounds]

theorem real_mem_point (r : ℝ) : ∃ z, point (real r) = .ok z ∧ real r ∈ z :=
  ⟨_, ofBounds_number, real_mem_iff.mpr ⟨r, r, rfl, le_refl _, le_refl _⟩⟩

/-! ### Sums and multiples -/

theorem real_mem_add (hx : real r ∈ x) (hy : real s ∈ y) : ∃ z, x.add y = .ok z ∧ real (r + s) ∈ z := by
  have hnonempty : (x.isEmpty || y.isEmpty) = false := by simp [isEmpty_of_mem hx, isEmpty_of_mem hy]
  obtain ⟨a, b, rfl, ha, hb⟩ := real_mem_iff.mp hx
  obtain ⟨c, d, rfl, hc, hd⟩ := real_mem_iff.mp hy
  -- a lower end is no positive infinity, and an upper end no negative one
  have hinf : number a + number c = number (a + c) := number_add fun h => by
    rcases h with ⟨rfl | rfl, rfl⟩
    · simp at ha
    · simp at hc
  have hsup : number b + number d = number (b + d) := number_add fun h => by
    rcases h with ⟨rfl | rfl, rfl⟩
    · simp at hd
    · simp at hb
  rw [add, hnonempty]
  simp only [hinf, hsup, Bool.false_eq_true, if_false, ofBounds_number]
  refine ⟨_, rfl, real_mem_iff.mpr ⟨_, _, rfl, ?_, ?_⟩⟩
  · rw [EReal.coe_add]
    exact add_le_add ha hc
  · rw [EReal.coe_add]
    exact add_le_add hb hd

theorem real_mem_scale (hx : real r ∈ x) (c : ℝ) : ∃ z, x.scale (real c) = .ok z ∧ real (r * c) ∈ z := by
  have hnonempty := isEmpty_of_mem hx
  obtain ⟨a, b, rfl, ha, hb⟩ := real_mem_iff.mp hx
  rw [scale, hnonempty]
  have hmul : ∀ e : EReal, c ≠ 0 → number e * real c = number (e * c) := fun e hc =>
    number_mul (by simp [hc])
  rw [← real_zero]
  rcases lt_trichotomy c 0 with hc | rfl | hc
  · have hbeq : ¬ (real c == real 0) = true := by rw [real_beq_real]; exact hc.ne
    have hpos : ¬ real 0 < real c := by rw [real_lt_real]; exact hc.not_gt
    simp only [hbeq, hpos, hmul _ hc.ne, Bool.false_eq_true, if_false, ofBounds_number]
    have hnonpos : (c : EReal) ≤ 0 := by exact_mod_cast hc.le
    refine ⟨_, rfl, real_mem_iff.mpr ⟨_, _, rfl, ?_, ?_⟩⟩
    · rw [EReal.coe_mul, mul_comm b, mul_comm (r : EReal)]
      exact mul_le_mul_of_nonpos_left hb hnonpos
    · rw [EReal.coe_mul, mul_comm a, mul_comm (r : EReal)]
      exact mul_le_mul_of_nonpos_left ha hnonpos
  · have hbeq : (real 0 == real 0) = true := by rw [real_beq_real]
    rw [mul_zero, if_neg Bool.false_ne_true, if_pos hbeq]
    exact real_mem_point 0
  · have hbeq : ¬ (real c == real 0) = true := by rw [real_beq_real]; exact hc.ne'
    have hpos : real 0 < real c := by rwa [real_lt_real]
    simp only [hbeq, hpos, hmul _ hc.ne', Bool.false_eq_true, if_false, if_true, ofBounds_number]
    have hnonneg : (0 : EReal) ≤ c := by exact_mod_cast hc.le
    refine ⟨_, rfl, real_mem_iff.mpr ⟨_, _, rfl, ?_, ?_⟩⟩
    · rw [EReal.coe_mul]
      exact mul_le_mul_of_nonneg_right ha hnonneg
    · rw [EReal.coe_mul]
      exact mul_le_mul_of_nonneg_right hb hnonneg

/-! ### Products and reciprocals -/

/-- The product of ends takes zero times an infinity for zero, as the extended real numbers do. -/
@[simp] theorem mulBound_number (a b : EReal) : mulBound (number a) (number b) = number (a * b) := by
  unfold mulBound
  simp only [zero_def, Bool.or_eq_true, number_beq_number]
  split_ifs with h
  · rcases h with rfl | rfl
    · rw [zero_mul]
    · rw [mul_zero]
  · rw [not_or] at h
    exact number_mul (by simp [h])

theorem real_mem_mul (hx : real r ∈ x) (hy : real s ∈ y) : real (r * s) ∈ x * y := by
  have hnonempty : (x.isEmpty || y.isEmpty) = false := by simp [isEmpty_of_mem hx, isEmpty_of_mem hy]
  obtain ⟨a, b, rfl, ha, hb⟩ := real_mem_iff.mp hx
  obtain ⟨c, d, rfl, hc, hd⟩ := real_mem_iff.mp hy
  change _ ∈ mul _ _
  rw [mul, hnonempty]
  simp only [mulBound_number, List.foldl_cons, List.foldl_nil, posInf_def, negInf_def, minNum_number, maxNum_number,
    Bool.false_eq_true, if_false, top_inf_eq, bot_sup_eq, min_assoc, max_assoc]
  -- move one factor to an end and then the other one
  obtain ⟨hrlow, hrhigh⟩ := mul_mem_hull (r := (s : EReal)) ha hb
  obtain ⟨hclow, hchigh⟩ := mul_mem_hull (r := a) hc hd
  obtain ⟨hdlow, hdhigh⟩ := mul_mem_hull (r := b) hc hd
  rw [mul_comm _ a, mul_comm _ b, mul_comm _ (r : EReal)] at hrlow hrhigh
  refine real_mem_iff.mpr ⟨_, _, rfl, ?_, ?_⟩
  · rw [EReal.coe_mul, ← min_assoc]
    exact (min_le_min hclow hdlow).trans hrlow
  · rw [EReal.coe_mul, ← max_assoc]
    exact hrhigh.trans (max_le_max hchigh hdhigh)

open Classical in
theorem recip_number (h : (⟨number a, number b⟩ : Interval Exact).isEmpty = false) :
    recip ⟨number a, number b⟩ =
      if a = 0 ∧ b = 0 then empty
      else if a < 0 ∧ 0 < b then ⟨number ⊥, number ⊤⟩
      else if a = 0 then ⟨number (1 / b), number ⊤⟩
      else if b = 0 then ⟨number ⊥, number (1 / a)⟩
      else ⟨number (1 / b), number (1 / a)⟩ := by
  rw [recip, h]
  simp only [zero_def, Bool.false_or, Bool.and_eq_true, number_beq_number, number_lt_number]
  split_ifs with hzero hacross hinf hsup
  · rfl
  · rfl
  · rw [one_div_number fun hb => hzero ⟨hinf, hb⟩]
    rfl
  · rw [one_div_number hinf]
    rfl
  · rw [one_div_number hinf, one_div_number hsup]

/-- The reciprocal of a member other than zero. -/
theorem real_mem_recip (hx : real r ∈ x) (hr : r ≠ 0) : real r⁻¹ ∈ x.recip := by
  have hnonempty := isEmpty_of_mem hx
  obtain ⟨a, b, rfl, ha, hb⟩ := real_mem_iff.mp hx
  rw [recip_number hnonempty]
  split_ifs with hzero hacross hinf hsup
  · -- zero is the only member
    obtain ⟨rfl, rfl⟩ := hzero
    exact absurd (le_antisymm (EReal.coe_nonpos.mp hb) (EReal.coe_nonneg.mp ha)) hr
  · exact real_mem_iff.mpr ⟨⊥, ⊤, rfl, bot_le, le_top⟩
  · subst hinf
    have hpos := lt_of_le_of_ne (EReal.coe_nonneg.mp ha) hr.symm
    exact real_mem_iff.mpr ⟨_, _, rfl, one_div_le_of_le hpos hb, le_top⟩
  · subst hsup
    have hneg := lt_of_le_of_ne (EReal.coe_nonpos.mp hb) hr
    exact real_mem_iff.mpr ⟨_, _, rfl, bot_le, inv_le_one_div hneg ha⟩
  · refine real_mem_iff.mpr ⟨_, _, rfl, ?_⟩
    rcases lt_or_gt_of_ne hinf with ha₀ | ha₀
    · have hb₀ : b < 0 := lt_of_le_of_ne (not_lt.mp fun hb₀ => hacross ⟨ha₀, hb₀⟩) hsup
      exact ⟨one_div_le_inv hb₀ hb, inv_le_one_div (EReal.coe_neg'.mp (hb.trans_lt hb₀)) ha⟩
    · exact ⟨one_div_le_of_le (EReal.coe_pos.mp (ha₀.trans_le ha)) hb, le_one_div_of_le ha₀ ha⟩

/-! ### Magnitudes and powers -/

theorem real_mem_neg (hx : real r ∈ x) : real (-r) ∈ -x := by
  have hnonempty := isEmpty_of_mem hx
  obtain ⟨a, b, rfl, ha, hb⟩ := real_mem_iff.mp hx
  change _ ∈ neg _
  rw [neg, hnonempty]
  refine real_mem_iff.mpr ⟨_, _, rfl, ?_, ?_⟩
  · exact EReal.neg_le_neg_iff.mpr hb
  · exact EReal.neg_le_neg_iff.mpr ha

theorem real_mem_abs (hx : real r ∈ x) : real |r| ∈ x.abs := by
  have hneg := real_mem_neg hx
  have hnonempty := isEmpty_of_mem hx
  obtain ⟨a, b, rfl, ha, hb⟩ := real_mem_iff.mp hx
  rw [abs, hnonempty]
  simp only [zero_def, number_le_number, Bool.false_eq_true, if_false]
  split_ifs with hinf hsup
  · rwa [abs_of_nonneg (EReal.coe_nonneg.mp (hinf.trans ha))]
  · rwa [abs_of_nonpos (EReal.coe_nonpos.mp (hb.trans hsup))]
  · rw [neg_number, maxNum_number]
    refine real_mem_iff.mpr ⟨_, _, rfl, EReal.coe_nonneg.mpr (abs_nonneg r), ?_⟩
    rw [Exact.coe_abs]
    exact max_le (hb.trans (le_max_right ..)) ((EReal.neg_le_neg_iff.mpr ha).trans (le_max_left ..))

/-- Even powers are powers of magnitudes, and these rise. -/
theorem real_mem_evenPow {lo hi : EReal} {n : ℕ} (hn : Even n) (hnonneg : 0 ≤ lo) (hlo : lo ≤ max (r : EReal) (-r))
    (hhi : max (r : EReal) (-r) ≤ hi) :
    ∃ z, ofBounds (powi (number lo) n) (powi (number hi) n) = .ok z ∧ real (r ^ n) ∈ z := by
  have hpow : ((r ^ n : ℝ) : EReal) = max (r : EReal) (-r) ^ n := by
    rw [← hn.pow_abs, EReal.coe_pow, Exact.coe_abs]
  rw [powi_number, powi_number, ofBounds_number]
  refine ⟨_, rfl, real_mem_iff.mpr ⟨_, _, rfl, ?_⟩⟩
  rw [hpow]
  exact ⟨pow_le_pow_left₀ hnonneg hlo n, pow_le_pow_left₀ (hnonneg.trans hlo) hhi n⟩

/-- **Natural powers.** -/
theorem real_mem_powNat (hx : real r ∈ x) (n : ℕ) : ∃ z, x.powNat n = .ok z ∧ real (r ^ n) ∈ z := by
  obtain ⟨a, b, rfl, ha, hb⟩ := real_mem_iff.mp hx
  rw [powNat]
  by_cases hn : n % 2 = 0
  · have hhi := magnitude_le ha hb
    rw [if_pos hn]
    by_cases hzero : (⟨number a, number b⟩ : Interval Exact).containsZero = true
    · simpa [hzero, zero_def] using real_mem_evenPow (Nat.even_iff.mpr hn) (le_refl _) (magnitude_nonneg _) hhi
    · have hlo := le_magnitude ha hb fun h => hzero (by simpa [containsZero, contains, zero_def] using h)
      have hnonneg := le_min (magnitude_nonneg a) (magnitude_nonneg b)
      simpa [hzero] using real_mem_evenPow (Nat.even_iff.mpr hn) hnonneg hlo hhi
  · have hodd : Odd n := Nat.odd_iff.mpr (Nat.mod_two_ne_zero.mp hn)
    rw [if_neg hn, powi_number, powi_number, ofBounds_number]
    refine ⟨_, rfl, real_mem_iff.mpr ⟨_, _, rfl, ?_⟩⟩
    rw [EReal.coe_pow]
    exact ⟨pow_le_pow_of_odd hodd ha, pow_le_pow_of_odd hodd hb⟩

/-- **Powers with whole exponents.** -/
theorem real_mem_pow (hx : real r ∈ x) {p : Exact} {n : ℤ} (hp : Scalar.integral? p = some n)
    (hpole : ¬ (r = 0 ∧ n < 0)) : ∃ z, x.pow p = .ok z ∧ real (r ^ n) ∈ z := by
  obtain ⟨z, hz, hmem⟩ := real_mem_powNat hx n.natAbs
  rw [pow, isEmpty_of_mem hx]
  by_cases hzero : (p == 0) = true
  · obtain rfl : n = 0 := by
      rw [eq_real_of_integral? hp] at hzero
      exact real_int_beq_zero.mp hzero
    simpa [hzero, ← real_one] using real_mem_point 1
  simp only [hzero, hp, hz, Bool.false_eq_true, if_false]
  split_ifs with hneg
  · have hne : r ≠ 0 := fun hr => hpole ⟨hr, hneg⟩
    refine ⟨z.recip, rfl, ?_⟩
    have hpow : r ^ n = (r ^ n.natAbs)⁻¹ := by
      rw [← zpow_natCast, ← zpow_neg, Int.ofNat_natAbs_of_nonpos hneg.le, neg_neg]
    rw [hpow]
    exact real_mem_recip hmem (pow_ne_zero _ hne)
  · refine ⟨z, rfl, ?_⟩
    rwa [← Int.natAbs_of_nonneg (not_lt.mp hneg), zpow_natCast]

end Interval

end IntervalDag
