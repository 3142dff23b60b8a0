import IntervalDag.Proofs.Interval.Regularity
import IntervalDag.Proofs.Scalar.Margins

/-!
# Operations over parts

An operation over intervals is isotone if its range over part of an interval is part of its range over all of it. Sums,
products, exponentials, magnitudes, logarithms and powers are, also where ends are infinite. `Interval.IsPart` is the
relation between operands: the part is not empty, so the ends of both are numbers (`Interval.IsPart.exists_ends`). What
is proved of an operation is that its ends move the right way with the ends of its operands.
-/

namespace IntervalDag

open Scalar Exact

variable {a b c d : EReal} {p : Exact}

/-! ### Ends -/

namespace Exact

/-- Reciprocals turn the order of extended numbers around on either side of zero. -/
theorem one_div_anti (h : 0 < a ∨ b < 0) (hab : a ≤ b) : 1 / b ≤ 1 / a := by
  rw [one_div, one_div]
  rcases h with ha | hb
  · exact EReal.inv_strictAntiOn.antitoneOn ha (ha.trans_le hab) hab
  · have hneg : -b ∈ Set.Ioi 0 ∧ -a ∈ Set.Ioi 0 := ⟨EReal.neg_pos.mpr hb, EReal.neg_pos.mpr (hab.trans_lt hb)⟩
    have hle := EReal.inv_strictAntiOn.antitoneOn hneg.1 hneg.2 (EReal.neg_le_neg_iff.mpr hab)
    rwa [EReal.inv_neg, EReal.inv_neg, EReal.neg_le_neg_iff] at hle

/-! ### Magnitudes of the numbers between two ends -/

/-- The least magnitude of a number between two ends. -/
noncomputable def leastMagnitude (a b : EReal) : EReal := max (max a (-b)) 0

/-- The greatest magnitude of a number between two ends. -/
noncomputable def greatestMagnitude (a b : EReal) : EReal := max (-a) b

theorem leastMagnitude_nonneg (a b : EReal) : 0 ≤ leastMagnitude a b := le_max_right ..

/-- Between ends further apart, the least magnitude is less and the greatest one is greater. -/
theorem magnitudes_mono (hca : c ≤ a) (hbd : b ≤ d) :
    leastMagnitude c d ≤ leastMagnitude a b ∧ greatestMagnitude a b ≤ greatestMagnitude c d :=
  ⟨max_le_max (max_le_max hca (EReal.neg_le_neg_iff.mpr hbd)) le_rfl,
    max_le_max (EReal.neg_le_neg_iff.mpr hca) hbd⟩

theorem magnitudes_of_nonneg (ha : 0 ≤ a) (hab : a ≤ b) : leastMagnitude a b = a ∧ greatestMagnitude a b = b := by
  have hb : -b ≤ 0 := neg_le_zero_of_nonneg (ha.trans hab)
  rw [leastMagnitude, greatestMagnitude, max_eq_left (hb.trans ha), max_eq_left ha, max_eq_right]
  · exact ⟨rfl, rfl⟩
  · exact (neg_le_zero_of_nonneg ha).trans (ha.trans hab)

theorem magnitudes_of_nonpos (hb : b ≤ 0) (hab : a ≤ b) :
    leastMagnitude a b = -b ∧ greatestMagnitude a b = -a := by
  have hb' : 0 ≤ -b := EReal.neg_nonneg.mpr hb
  rw [leastMagnitude, greatestMagnitude, max_eq_right (hab.trans (hb.trans hb')), max_eq_left hb', max_eq_left]
  · exact ⟨rfl, rfl⟩
  · exact hb.trans (EReal.neg_nonneg.mpr (hab.trans hb))

theorem leastMagnitude_of_zero (ha : a ≤ 0) (hb : 0 ≤ b) : leastMagnitude a b = 0 :=
  max_eq_right (max_le ha (neg_le_zero_of_nonneg hb))

theorem leastMagnitude_le (hab : a ≤ b) : leastMagnitude a b ≤ greatestMagnitude a b := by
  rcases le_total 0 a with ha | ha
  · obtain ⟨hleast, hgreatest⟩ := magnitudes_of_nonneg ha hab
    rwa [hleast, hgreatest]
  rcases le_total 0 b with hb | hb
  · rw [leastMagnitude_of_zero ha hb]
    exact le_max_of_le_right hb
  · obtain ⟨hleast, hgreatest⟩ := magnitudes_of_nonpos hb hab
    rw [hleast, hgreatest]
    exact EReal.neg_le_neg_iff.mpr hab

/-- The greatest magnitude is that of an end, and so is the least one if zero is not between the ends. -/
theorem magnitudes_eq (hab : a ≤ b) : max (max a (-a)) (max b (-b)) = greatestMagnitude a b ∧
    (¬ (a ≤ 0 ∧ 0 ≤ b) → min (max a (-a)) (max b (-b)) = leastMagnitude a b) := by
  have hneg := EReal.neg_le_neg_iff.mpr hab
  rcases le_total 0 a with ha | ha
  · obtain ⟨hleast, hgreatest⟩ := magnitudes_of_nonneg ha hab
    rw [hleast, hgreatest, max_eq_left ((neg_le_zero_of_nonneg ha).trans ha),
      max_eq_left ((neg_le_zero_of_nonneg (ha.trans hab)).trans (ha.trans hab))]
    exact ⟨max_eq_right hab, fun _ => min_eq_left hab⟩
  rcases le_total 0 b with hb | hb
  · refine ⟨?_, fun h => absurd ⟨ha, hb⟩ h⟩
    rw [greatestMagnitude, max_eq_right (ha.trans (EReal.neg_nonneg.mpr ha)),
      max_eq_left ((neg_le_zero_of_nonneg hb).trans hb)]
  · obtain ⟨hleast, hgreatest⟩ := magnitudes_of_nonpos hb hab
    rw [hleast, hgreatest, max_eq_right (ha.trans (EReal.neg_nonneg.mpr ha)),
      max_eq_right (hb.trans (EReal.neg_nonneg.mpr hb))]
    exact ⟨max_eq_left hneg, fun _ => min_eq_right hneg⟩

/-! ### Powers of numbers that are not negative -/

theorem infinitePow_of_nonneg (ha : 0 ≤ a) (below above : EReal) :
    infinitePow a below above = if a < 1 then below else if 1 < a then above else 1 := by
  have hmax : max a (-a) = a := max_eq_left ((neg_le_zero_of_nonneg ha).trans ha)
  rw [infinitePow, hmax]

/-- With an infinite exponent, a power rises or falls with its base from zero on. -/
theorem infinitePow_mono_anti (ha : 0 ≤ a) (hab : a ≤ b) {low high : EReal} (hlow : low ≤ 1) (hhigh : 1 ≤ high) :
    infinitePow a low high ≤ infinitePow b low high ∧ infinitePow b high low ≤ infinitePow a high low := by
  rw [infinitePow_of_nonneg ha, infinitePow_of_nonneg ha, infinitePow_of_nonneg (ha.trans hab),
    infinitePow_of_nonneg (ha.trans hab)]
  grind

theorem pow_infinite (a : EReal) : Scalar.pow (number a) (number ⊤) = number (infinitePow a 0 ⊤) ∧
    Scalar.pow (number a) (number ⊥) = number (infinitePow a ⊤ 0) := by
  change pow _ _ = _ ∧ pow _ _ = _
  rcases eq_or_ne a 1 with rfl | ha
  · simp [pow, infinitePow_of_nonneg]
  · simp [pow, ha]

/-- A power without an exponent is a number for the base one only. -/
theorem eq_one_of_pow_nan (h : Scalar.pow (number a) nan = number b) : b = 1 := by
  change pow _ _ = _ at h
  by_cases ha : a = 1
  · simpa [pow, ha, eq_comm] using h
  · simp [pow, ha] at h

/-- A power of numbers that are not negative rises with the base for exponents above zero and falls for others. -/
theorem pow_mono_anti {u v : EReal} (ha : 0 ≤ a) (hab : a ≤ b) (hu : Scalar.pow (number a) p = number u)
    (hv : Scalar.pow (number b) p = number v) : (0 < p → u ≤ v) ∧ (¬ 0 < p → v ≤ u) := by
  cases p with
  | nan => exact ⟨False.elim, fun _ => le_of_eq ((eq_one_of_pow_nan hv).trans (eq_one_of_pow_nan hu).symm)⟩
  | number p =>
    induction p with
    | coe p =>
      obtain rfl := number.inj (hu.symm.trans (pow_number ha p))
      obtain rfl := number.inj (hv.symm.trans (pow_number (ha.trans hab) p))
      rw [← real, real_pos]
      exact ⟨fun hp => endPow_mono hp.le hab, fun hp => endPow_anti (not_lt.mp hp) hab⟩
    | top =>
      obtain rfl := number.inj (hu.symm.trans (pow_infinite a).1)
      obtain rfl := number.inj (hv.symm.trans (pow_infinite b).1)
      exact ⟨fun _ => (infinitePow_mono_anti ha hab zero_le_one le_top).1, fun hp => absurd EReal.zero_lt_top hp⟩
    | bot =>
      obtain rfl := number.inj (hu.symm.trans (pow_infinite a).2)
      obtain rfl := number.inj (hv.symm.trans (pow_infinite b).2)
      refine ⟨fun hp => absurd (number_lt_number.mp hp) not_lt_bot, fun _ => ?_⟩
      exact (infinitePow_mono_anti ha hab zero_le_one le_top).2

end Exact

namespace Interval

variable {x x' y y' z w : Interval Exact}

/-! ### Parts -/

/-- The interval `x` is not empty, and each of its values lies in `y`. -/
structure IsPart (x y : Interval Exact) : Prop where
  nonempty : x.isEmpty = false
  subset : x.isSubset y = true

theorem isSubset_number (hinf : c ≤ a) (hsup : b ≤ d) :
    (⟨number a, number b⟩ : Interval Exact).isSubset ⟨number c, number d⟩ = true := by
  rw [isSubset, Bool.or_eq_true_iff, Bool.and_eq_true, decide_eq_true_eq, decide_eq_true_eq]
  exact Or.inr ⟨hinf, hsup⟩

theorem isPart_number (hinf : c ≤ a) (hab : a ≤ b) (hsup : b ≤ d) :
    IsPart ⟨number a, number b⟩ ⟨number c, number d⟩ :=
  ⟨Bool.eq_false_iff.mpr (mt isEmpty_number.mp hab.not_gt), isSubset_number hinf hsup⟩

/-- The ends of a part are numbers between those of the whole. -/
theorem IsPart.exists_ends (h : x.IsPart y) : ∃ a b c d : EReal, x = ⟨number a, number b⟩ ∧
    y = ⟨number c, number d⟩ ∧ c ≤ a ∧ a ≤ b ∧ b ≤ d := by
  obtain ⟨hinf, hsup⟩ := (isSubset_iff h.nonempty).mp h.subset
  obtain ⟨lo, hi⟩ := x
  obtain ⟨lo', hi'⟩ := y
  -- what is not a number is comparable to nothing
  cases lo with
  | nan => cases lo' <;> exact hinf.elim
  | number a =>
    cases hi with
    | nan => cases hi' <;> exact hsup.elim
    | number b =>
      obtain ⟨c, rfl, hca⟩ := exists_number_of_le hinf
      obtain ⟨d, rfl, hbd⟩ := exists_number_of_ge hsup
      exact ⟨a, b, c, d, rfl, rfl, hca, not_lt.mp (mt isEmpty_number.mpr (Bool.eq_false_iff.mp h.nonempty)), hbd⟩

theorem IsPart.whole_nonempty (h : x.IsPart y) : y.isEmpty = false := by
  obtain ⟨a, b, c, d, rfl, rfl, hca, hab, hbd⟩ := h.exists_ends
  exact (isPart_number le_rfl (hca.trans (hab.trans hbd)) le_rfl).nonempty

/-- The part itself may be empty. -/
theorem isSubset_of_nonempty (h : x.isEmpty = false → x.IsPart y) : x.isSubset y = true := by
  cases hx : x.isEmpty with
  | false => exact (h hx).subset
  | true => rw [isSubset, hx, Bool.true_or]

theorem ofBounds_eq_ok {u v : Exact} (h : ofBounds u v = .ok z) :
    ∃ a b, u = number a ∧ v = number b ∧ z = ⟨number a, number b⟩ := by
  rw [ofBounds] at h
  split_ifs at h with hnan
  cases h
  rw [Bool.or_eq_true_iff, not_or] at hnan
  cases u with
  | nan => exact absurd isNaN_nan hnan.1
  | number a =>
    cases v with
    | nan => exact absurd isNaN_nan hnan.2
    | number b => exact ⟨a, b, rfl, rfl, rfl⟩

namespace IsPart

/-! ### Sums and multiples -/

/-- **Sums.** -/
theorem add (h : x.IsPart y) (h' : x'.IsPart y') (hz : x.add x' = .ok z) (hw : y.add y' = .ok w) : z.IsPart w := by
  rw [Interval.add, h.nonempty, h'.nonempty] at hz
  rw [Interval.add, h.whole_nonempty, h'.whole_nonempty] at hw
  obtain ⟨a, b, c, d, rfl, rfl, hca, hab, hbd⟩ := h.exists_ends
  obtain ⟨a', b', c', d', rfl, rfl, hca', hab', hbd'⟩ := h'.exists_ends
  obtain ⟨u, v, hu, hv, rfl⟩ := ofBounds_eq_ok hz
  obtain ⟨u', v', hu', hv', rfl⟩ := ofBounds_eq_ok hw
  rw [eq_add_of_number_add hu, eq_add_of_number_add hv, eq_add_of_number_add hu', eq_add_of_number_add hv']
  exact isPart_number (add_le_add hca hca') (add_le_add hab hab') (add_le_add hbd hbd')

theorem point (h : Interval.point p = .ok z) : z.IsPart z := by
  obtain ⟨u, v, hu, hv, rfl⟩ := ofBounds_eq_ok h
  obtain rfl := number.inj (hu.symm.trans hv)
  exact isPart_number le_rfl le_rfl le_rfl

/-- **Multiples.** -/
theorem scale (h : x.IsPart y) (hz : x.scale p = .ok z) (hw : y.scale p = .ok w) : z.IsPart w := by
  rw [Interval.scale, h.nonempty] at hz
  rw [Interval.scale, h.whole_nonempty] at hw
  obtain ⟨a, b, c, d, rfl, rfl, hca, hab, hbd⟩ := h.exists_ends
  by_cases hzero : (p == 0) = true
  · rw [if_neg Bool.false_ne_true, if_pos hzero] at hz hw
    cases hz.symm.trans hw
    exact point hz
  rw [if_neg Bool.false_ne_true, if_neg hzero] at hz hw
  by_cases hpos : 0 < p
  · rw [if_pos hpos] at hz hw
    obtain ⟨u, v, hu, hv, rfl⟩ := ofBounds_eq_ok hz
    obtain ⟨u', v', hu', hv', rfl⟩ := ofBounds_eq_ok hw
    cases p with
    | nan => exact hpos.elim
    | number p =>
      have hp : 0 ≤ p := le_of_lt (number_lt_number.mp hpos)
      rw [eq_mul_of_number_mul hu, eq_mul_of_number_mul hv, eq_mul_of_number_mul hu', eq_mul_of_number_mul hv']
      exact isPart_number (mul_le_mul_of_nonneg_right hca hp) (mul_le_mul_of_nonneg_right hab hp)
        (mul_le_mul_of_nonneg_right hbd hp)
  · rw [if_neg hpos] at hz hw
    obtain ⟨u, v, hu, hv, rfl⟩ := ofBounds_eq_ok hz
    obtain ⟨u', v', hu', hv', rfl⟩ := ofBounds_eq_ok hw
    cases p with
    | nan => cases hu
    | number p =>
      have hp : p ≤ 0 := not_lt.mp fun h => hpos (number_lt_number.mpr h)
      rw [eq_mul_of_number_mul hu, eq_mul_of_number_mul hv, eq_mul_of_number_mul hu', eq_mul_of_number_mul hv']
      exact isPart_number (EReal.mul_le_mul_of_nonpos_right hbd hp) (EReal.mul_le_mul_of_nonpos_right hab hp)
        (EReal.mul_le_mul_of_nonpos_right hca hp)

/-! ### Products -/

/-- **Products.** -/
theorem mul (h : x.IsPart y) (h' : x'.IsPart y') : (x * x').IsPart (y * y') := by
  obtain ⟨a, b, c, d, rfl, rfl, hca, hab, hbd⟩ := h.exists_ends
  obtain ⟨a', b', c', d', rfl, rfl, hca', hab', hbd'⟩ := h'.exists_ends
  rw [mul_number h.nonempty h'.nonempty, mul_number h.whole_nonempty h'.whole_nonempty]
  -- a product of numbers between ends lies between the products of ends
  have hmem {s t : EReal} (hs : c ≤ s ∧ s ≤ d) (ht : c' ≤ t ∧ t ≤ d') :
      min (c * c') (min (c * d') (min (d * c') (d * d'))) ≤ s * t ∧
        s * t ≤ max (c * c') (max (c * d') (max (d * c') (d * d'))) := by
    obtain ⟨hlow, hhigh⟩ := mul_mem_hull (r := t) hs.1 hs.2
    obtain ⟨hclow, hchigh⟩ := mul_mem_hull (r := c) ht.1 ht.2
    obtain ⟨hdlow, hdhigh⟩ := mul_mem_hull (r := d) ht.1 ht.2
    rw [mul_comm t c, mul_comm t d, mul_comm t s] at hlow hhigh
    rw [← min_assoc, ← max_assoc]
    exact ⟨(min_le_min hclow hdlow).trans hlow, hhigh.trans (max_le_max hchigh hdhigh)⟩
  have ha := And.intro hca (hab.trans hbd)
  have hb := And.intro (hca.trans hab) hbd
  have ha' := And.intro hca' (hab'.trans hbd')
  have hb' := And.intro (hca'.trans hab') hbd'
  refine isPart_number ?_ (min_le_left .. |>.trans (le_max_left ..)) ?_
  · exact le_min (hmem ha ha').1 (le_min (hmem ha hb').1 (le_min (hmem hb ha').1 (hmem hb hb').1))
  · exact max_le (hmem ha ha').2 (max_le (hmem ha hb').2 (max_le (hmem hb ha').2 (hmem hb hb').2))

/-! ### Monotone functions and magnitudes -/

/-- **Exponentials.** -/
theorem exp (h : x.IsPart y) : x.exp.IsPart y.exp := by
  rw [Interval.exp, Interval.exp, h.nonempty, h.whole_nonempty]
  obtain ⟨a, b, c, d, rfl, rfl, hca, hab, hbd⟩ := h.exists_ends
  simp only [exp_number]
  exact isPart_number (endExp_mono hca) (endExp_mono hab) (endExp_mono hbd)

end IsPart

/-- Magnitudes run from the least one to the greatest. -/
theorem abs_eq_magnitudes (hab : a ≤ b) :
    abs ⟨number a, number b⟩ = ⟨number (leastMagnitude a b), number (greatestMagnitude a b)⟩ := by
  have hnonempty := (isPart_number le_rfl hab le_rfl).nonempty
  rw [abs, hnonempty]
  simp only [zero_def, number_le_number, Bool.false_eq_true, if_false]
  split_ifs with ha hb
  · rw [(magnitudes_of_nonneg ha hab).1, (magnitudes_of_nonneg ha hab).2]
  · rw [(magnitudes_of_nonpos hb hab).1, (magnitudes_of_nonpos hb hab).2]
    change neg _ = _
    rw [neg, hnonempty, if_neg Bool.false_ne_true, neg_number, neg_number]
  · rw [leastMagnitude_of_zero (not_le.mp ha).le (not_le.mp hb).le, neg_number, maxNum_number, greatestMagnitude]

/-- **Magnitudes.** -/
theorem IsPart.abs (h : x.IsPart y) : x.abs.IsPart y.abs := by
  obtain ⟨a, b, c, d, rfl, rfl, hca, hab, hbd⟩ := h.exists_ends
  rw [abs_eq_magnitudes hab, abs_eq_magnitudes (hca.trans (hab.trans hbd))]
  obtain ⟨hleast, hgreatest⟩ := magnitudes_mono hca hbd
  exact isPart_number hleast (leastMagnitude_le hab) hgreatest

/-! ### Whole powers -/

/-- Even powers are powers of magnitudes. -/
theorem powNat_of_even (hab : a ≤ b) {n : ℕ} (hn : Even n) : powNat ⟨number a, number b⟩ n =
    .ok ⟨number (leastMagnitude a b ^ n), number (greatestMagnitude a b ^ n)⟩ := by
  obtain ⟨hgreatest, hleast⟩ := magnitudes_eq hab
  rw [powNat, if_pos (Nat.even_iff.mp hn)]
  simp only [containsZero, contains, zero_def, number_le_number, Bool.and_eq_true, decide_eq_true_eq, abs_number,
    minNum_number, maxNum_number, hgreatest]
  split_ifs with hzero
  · rw [leastMagnitude_of_zero hzero.1 hzero.2, powi_number, powi_number, ofBounds_number]
  · rw [hleast hzero, powi_number, powi_number, ofBounds_number]

/-- **Natural powers.** -/
theorem IsPart.exists_powNat (h : x.IsPart y) (n : ℕ) :
    ∃ z w, x.powNat n = .ok z ∧ y.powNat n = .ok w ∧ z.IsPart w := by
  obtain ⟨a, b, c, d, rfl, rfl, hca, hab, hbd⟩ := h.exists_ends
  rcases n.even_or_odd with hn | hn
  · obtain ⟨hleast, hgreatest⟩ := magnitudes_mono hca hbd
    have hordered := leastMagnitude_le hab
    have hnonneg := leastMagnitude_nonneg a b
    exact ⟨_, _, powNat_of_even hab hn, powNat_of_even (hca.trans (hab.trans hbd)) hn,
      isPart_number (pow_le_pow_left₀ (leastMagnitude_nonneg c d) hleast n) (pow_le_pow_left₀ hnonneg hordered n)
        (pow_le_pow_left₀ (hnonneg.trans hordered) hgreatest n)⟩
  · have hpow {a b : EReal} : powNat ⟨number a, number b⟩ n = .ok ⟨number (a ^ n), number (b ^ n)⟩ := by
      rw [powNat, if_neg (Nat.mod_two_ne_zero.mpr (Nat.odd_iff.mp hn)), powi_number, powi_number, ofBounds_number]
    exact ⟨_, _, hpow, hpow, isPart_number (pow_le_pow_of_odd hn hca) (pow_le_pow_of_odd hn hab)
      (pow_le_pow_of_odd hn hbd)⟩

/-! ### Reciprocals -/

open Classical in
theorem recip_of_nonneg (ha : 0 ≤ a) (hab : a ≤ b) (hb : 0 < b) : recip ⟨number a, number b⟩ =
    ⟨number (1 / b), number (if a = 0 then ⊤ else 1 / a)⟩ := by
  rw [recip_number (isPart_number le_rfl hab le_rfl).nonempty, if_neg fun h => hb.ne' h.2,
    if_neg fun h => ha.not_gt h.1]
  split_ifs with hzero hb'
  · rfl
  · exact absurd hb' hb.ne'
  · rfl

open Classical in
theorem recip_of_nonpos (ha : a < 0) (hab : a ≤ b) (hb : b ≤ 0) : recip ⟨number a, number b⟩ =
    ⟨number (if b = 0 then ⊥ else 1 / b), number (1 / a)⟩ := by
  rw [recip_number (isPart_number le_rfl hab le_rfl).nonempty, if_neg fun h => ha.ne h.1, if_neg fun h => hb.not_gt h.2,
    if_neg ha.ne]
  split_ifs <;> rfl

/-- **Reciprocals.** -/
theorem IsPart.recip (h : x.IsPart y) : x.recip.isSubset y.recip = true := by
  classical
  have hx := h.nonempty
  have hy := h.whole_nonempty
  obtain ⟨a, b, c, d, rfl, rfl, hca, hab, hbd⟩ := h.exists_ends
  by_cases hzero : a = 0 ∧ b = 0
  · rw [recip_number hx, if_pos hzero]
    exact isSubset_empty _
  by_cases hacross : c < 0 ∧ 0 < d
  · have hwhole : Interval.recip ⟨number c, number d⟩ = ⟨number ⊥, number ⊤⟩ := by
      rw [recip_number hy, if_neg fun h => hacross.1.ne h.1, if_pos hacross]
    rw [hwhole, recip_number hx]
    split_ifs <;> exact isSubset_number bot_le le_top
  rcases le_or_gt 0 c with hc | hc
  · -- the part does not hold zero alone, so it reaches beyond
    have ha := hc.trans hca
    have hb : 0 < b := (ha.trans hab).lt_of_ne fun hb => hzero ⟨le_antisymm (hab.trans hb.ge) ha, hb.symm⟩
    rw [recip_of_nonneg ha hab hb, recip_of_nonneg hc (hca.trans (hab.trans hbd)) (hb.trans_le hbd)]
    refine isSubset_number (one_div_anti (Or.inl hb) hbd) ?_
    split_ifs with ha₀ hc₀ hc₀
    · exact le_rfl
    · exact absurd (le_antisymm (hca.trans ha₀.le) hc) hc₀
    · exact le_top
    · exact one_div_anti (Or.inl (hc.lt_of_ne' hc₀)) hca
  · have hd : d ≤ 0 := not_lt.mp fun hd => hacross ⟨hc, hd⟩
    have hb := hbd.trans hd
    have ha : a < 0 := (hab.trans hb).lt_of_ne fun ha => hzero ⟨ha, le_antisymm hb (ha.ge.trans hab)⟩
    rw [recip_of_nonpos ha hab hb, recip_of_nonpos hc (hca.trans (hab.trans hbd)) hd]
    refine isSubset_number ?_ (one_div_anti (Or.inr ha) hca)
    split_ifs with hd₀ hb₀ hb₀
    · exact le_rfl
    · exact bot_le
    · exact absurd (le_antisymm hd (hb₀.ge.trans hbd)) hd₀
    · exact one_div_anti (Or.inr (hd.lt_of_ne hd₀)) hbd

/-! ### The part that is not negative -/

theorem inter_nonnegative (a b : EReal) : (⟨number a, number b⟩ : Interval Exact).inter nonnegative =
    if b < max a 0 then empty else ⟨number (max a 0), number b⟩ := by
  rw [nonnegative, zero_def, posInf_def, inter_number, min_top_right]

/-- What is not negative in a part is part of what is not negative in the whole. -/
theorem IsPart.nonnegative_ends (h : x.IsPart y) (hpart : (x.inter nonnegative).isEmpty = false) :
    ∃ a b c d : EReal, x.inter nonnegative = ⟨number a, number b⟩ ∧ y.inter nonnegative = ⟨number c, number d⟩ ∧
      0 ≤ c ∧ c ≤ a ∧ a ≤ b ∧ b ≤ d := by
  obtain ⟨a, b, c, d, rfl, rfl, hca, hab, hbd⟩ := h.exists_ends
  have hle : max a 0 ≤ b := by
    rw [inter_nonnegative] at hpart
    split_ifs at hpart with hlt
    · rw [isEmpty_empty] at hpart
      cases hpart
    · exact not_lt.mp hlt
  have hca' : max c 0 ≤ max a 0 := max_le_max hca le_rfl
  refine ⟨max a 0, b, max c 0, d, ?_, ?_, le_max_right .., hca', hle, hbd⟩
  · rw [inter_nonnegative, if_neg hle.not_gt]
  · rw [inter_nonnegative, if_neg (hca'.trans (hle.trans hbd)).not_gt]

/-- Where no number is positive, there are no logarithms. -/
theorem ln_of_nonpos (a : EReal) (hb : b ≤ 0) : ln ⟨number a, number b⟩ = empty := by
  have hnone : ((⟨number a, number b⟩ : Interval Exact).inter nonnegative).isEmpty ||
      ((⟨number a, number b⟩ : Interval Exact).inter nonnegative).sup == 0 := by
    rw [inter_nonnegative]
    split_ifs with hlt
    · rw [isEmpty_empty, Bool.true_or]
    · have hzero : b = 0 := le_antisymm hb ((le_max_right ..).trans (not_lt.mp hlt))
      exact Bool.or_eq_true_iff.mpr (Or.inr (number_beq_number.mpr hzero))
  rw [Interval.ln, if_pos hnone]

theorem ln_of_pos (hab : a ≤ b) (hb : 0 < b) : ln ⟨number a, number b⟩ = ⟨number (endLn a), number (endLn b)⟩ := by
  have hle : max a 0 ≤ b := max_le hab hb.le
  have hends : (⟨number a, number b⟩ : Interval Exact).inter nonnegative = ⟨number (max a 0), number b⟩ := by
    rw [inter_nonnegative, if_neg hle.not_gt]
  have hsome : ¬ ((⟨number (max a 0), number b⟩ : Interval Exact).isEmpty || number b == 0) = true := by
    rw [Bool.or_eq_true_iff, not_or]
    exact ⟨mt isEmpty_number.mp hle.not_gt, mt number_beq_number.mp hb.ne'⟩
  rw [Interval.ln, hends, if_neg hsome, ln_number (le_max_right a 0), ln_number hb.le, endLn_max_zero]

/-- **Logarithms.** -/
theorem IsPart.ln (h : x.IsPart y) : x.ln.isSubset y.ln = true := by
  obtain ⟨a, b, c, d, rfl, rfl, hca, hab, hbd⟩ := h.exists_ends
  rcases le_or_gt b 0 with hb | hb
  · rw [ln_of_nonpos a hb]
    exact isSubset_empty _
  · rw [ln_of_pos hab hb, ln_of_pos (hca.trans (hab.trans hbd)) (hb.trans_le hbd)]
    exact isSubset_number (endLn_mono hca) (endLn_mono hbd)

/-! ### Powers -/

/-- Powers with an exponent that is an integer. -/
theorem IsPart.pow_integral (h : x.IsPart y) {n : Int} (hn : Scalar.integral? p = some n) (hz : x.pow p = .ok z)
    (hw : y.pow p = .ok w) : z.isSubset w = true := by
  obtain ⟨z', w', hz', hw', hpart⟩ := h.exists_powNat n.natAbs
  rw [Interval.pow, h.nonempty, if_neg Bool.false_ne_true, hn] at hz
  rw [Interval.pow, h.whole_nonempty, if_neg Bool.false_ne_true, hn] at hw
  by_cases hzero : (p == 0) = true
  · rw [if_pos hzero] at hz hw
    cases hz.symm.trans hw
    exact (IsPart.point hz).subset
  rw [if_neg hzero] at hz hw
  dsimp only at hz hw
  rw [hz'] at hz
  rw [hw'] at hw
  by_cases hneg : n < 0
  · rw [if_pos hneg] at hz hw
    cases hz
    cases hw
    exact hpart.recip
  · rw [if_neg hneg] at hz hw
    cases hz
    cases hw
    exact hpart.subset

/-- Powers with an exponent that is no integer are those of what is not negative. -/
theorem IsPart.pow_fractional (h : x.IsPart y) (hn : Scalar.integral? p = none) (hz : x.pow p = .ok z)
    (hw : y.pow p = .ok w) : z.isSubset w = true := by
  rw [pow_of_none hn h.nonempty] at hz
  rw [pow_of_none hn h.whole_nonempty] at hw
  by_cases hempty : (x.inter nonnegative).isEmpty = true
  · rw [if_pos hempty] at hz
    cases hz
    exact isSubset_empty _
  obtain ⟨a, b, c, d, hx, hy, hc, hca, hab, hbd⟩ := h.nonnegative_ends (Bool.eq_false_iff.mpr hempty)
  have hsome : (y.inter nonnegative).isEmpty = false := by
    rw [hy]
    exact (isPart_number le_rfl (hca.trans (hab.trans hbd)) le_rfl).nonempty
  rw [if_neg hempty, hx] at hz
  rw [hsome, if_neg Bool.false_ne_true, hy] at hw
  have ha := hc.trans hca
  by_cases hp : 0 < p
  · rw [if_pos hp] at hz hw
    obtain ⟨u, v, hu, hv, rfl⟩ := ofBounds_eq_ok hz
    obtain ⟨u', v', hu', hv', rfl⟩ := ofBounds_eq_ok hw
    exact isSubset_number ((pow_mono_anti hc hca hu' hu).1 hp) ((pow_mono_anti (ha.trans hab) hbd hv hv').1 hp)
  · rw [if_neg hp] at hz hw
    obtain ⟨u, v, hu, hv, rfl⟩ := ofBounds_eq_ok hz
    obtain ⟨u', v', hu', hv', rfl⟩ := ofBounds_eq_ok hw
    exact isSubset_number ((pow_mono_anti (ha.trans hab) hbd hu hu').2 hp) ((pow_mono_anti hc hca hv' hv).2 hp)

/-- **Powers.** -/
theorem IsPart.pow (h : x.IsPart y) (hz : x.pow p = .ok z) (hw : y.pow p = .ok w) : z.isSubset w = true := by
  cases hn : Scalar.integral? p with
  | some n => exact h.pow_integral hn hz hw
  | none => exact h.pow_fractional hn hz hw

end Interval

end IntervalDag
