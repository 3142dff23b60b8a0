import IntervalDag.Interval.Inverse
import IntervalDag.Proofs.Interval.Powers
import IntervalDag.Proofs.Interval.PowerRanges
import IntervalDag.Proofs.Scalar.Extensions

/-!
# Operations that keep intervals regular

An interval is regular if it is empty or no end of it is at the wrong infinity. Ends of regular intervals are numbers,
and infinities of opposite sign never meet in sums of them. Operations on regular intervals answer with regular ones.
There is one lemma for each operation but the inverse relations of sine and cosine, which have to find the ends of what
they leave first. Inverse relations clip intervals to the one that they narrow, and those are regular before they are
clipped.

The only exception are powers with a pole (`Interval.exists_pow_isRegular_iff`): if zero is the greatest number of an
interval then all that is left of its powers is the pole, an infinity that is no number.
-/

namespace IntervalDag

open Scalar Exact

/-! ### Ends -/

namespace Exact

variable {p r : ℝ}

theorem minNum_real (p q : ℝ) : minNum (real p) (real q) = real (min p q) := by
  rw [real, real, minNum_number, ← EReal.coe_strictMono.monotone.map_min, real]

theorem maxNum_real (p q : ℝ) : maxNum (real p) (real q) = real (max p q) := by
  rw [real, real, maxNum_number, ← EReal.coe_strictMono.monotone.map_max, real]

theorem real_neg_one : real (-1) = -1 := by rw [← real_neg, real_one]

theorem real_div_real (h : r ≠ 0) : real p / real r = real (p / r) := real_div (EReal.coe_ne_zero.mpr h)

theorem ceil_real (r : ℝ) : Scalar.ceil (real r) = real ⌈r⌉ := by
  change lift (fun r => real ⌈r⌉) (number ⊥) (number ⊤) (number r) = _
  simp [lift]

end Exact

namespace Interval

variable {x y bounds : Interval Exact} {a b : EReal} {p r : ℝ}

theorem isRegular_empty : (empty : Interval Exact).IsRegular := Or.inl isEmpty_empty

theorem isRegular_real (p q : ℝ) : IsRegular ⟨real p, real q⟩ :=
  isRegular_number (EReal.coe_ne_top p) (EReal.coe_ne_bot q)

theorem isRegular_entire : (entire : Interval Exact).IsRegular := isRegular_number bot_ne_top top_ne_bot

theorem isRegular_nonnegative : (nonnegative : Interval Exact).IsRegular :=
  isRegular_number EReal.zero_ne_top top_ne_bot

/-- The ends of a regular interval are numbers. -/
theorem IsRegular.exists_ends (h : x.IsRegular) : ∃ a b : EReal, x = ⟨number a, number b⟩ := by
  rcases h with hempty | hproper
  · obtain ⟨a, b⟩ := x
    have hlt : b < a := of_decide_eq_true hempty
    cases a with
    | nan => cases b <;> exact hlt.elim
    | number a =>
      cases b with
      | nan => exact hlt.elim
      | number b => exact ⟨a, b, rfl⟩
  · obtain ⟨a, b, hends, -⟩ := hproper.exists_ends
    exact ⟨a, b, hends⟩

/-! ### Meets and hulls -/

namespace IsRegular

/-- Intervals that meet are not empty. -/
theorem isProper_of_inter (hx : x.IsRegular) (hy : y.IsRegular) (h : (x.inter y).isEmpty = false) :
    x.IsProper ∧ y.IsProper := by
  obtain ⟨a, b, rfl⟩ := hx.exists_ends
  obtain ⟨c, d, rfl⟩ := hy.exists_ends
  rw [inter_number] at h
  split_ifs at h with hlt
  · rw [isEmpty_empty] at h
    cases h
  · obtain ⟨hle, hle'⟩ := le_min_iff.mp (not_lt.mp hlt)
    have hab := le_of_max_le_left hle
    have hcd := le_of_max_le_right hle'
    exact ⟨hx.resolve_left (mt isEmpty_number.mp hab.not_gt), hy.resolve_left (mt isEmpty_number.mp hcd.not_gt)⟩

theorem inter (hx : x.IsRegular) (hy : y.IsRegular) : (x.inter y).IsRegular := by
  by_cases hnonempty : (x.inter y).isEmpty = true
  · exact Or.inl hnonempty
  · obtain ⟨hx, hy⟩ := hx.isProper_of_inter hy (Bool.eq_false_iff.mpr hnonempty)
    exact isRegular_inter hx hy

theorem hull (hx : x.IsRegular) (hy : y.IsRegular) : (x.hull y).IsRegular := by
  rw [Interval.hull]
  split_ifs with hempty hempty'
  · exact hy
  · exact hx
  · obtain ⟨a, b, rfl, -, ha, hb⟩ := (hx.resolve_left hempty).exists_ends
    obtain ⟨c, d, rfl, -⟩ := (hy.resolve_left hempty').exists_ends
    dsimp only
    rw [minNum_number, maxNum_number]
    exact isRegular_number ((min_le_left a c).trans_lt (lt_top_iff_ne_top.mpr ha)).ne
      ((bot_lt_iff_ne_bot.mpr hb).trans_le (le_max_left b d)).ne'

theorem hullAll {parts : List (Interval Exact)} (h : ∀ z ∈ parts, z.IsRegular) : (hullAll parts).IsRegular :=
  List.foldlRecOn parts Interval.hull isRegular_empty fun _ hacc z hz => hacc.hull (h z hz)

theorem hullAll_pair (hx : x.IsRegular) (hy : y.IsRegular) : (Interval.hullAll [x, y]).IsRegular :=
  hullAll (by simp [hx, hy])

/-! ### Arithmetic -/

theorem neg (hx : x.IsRegular) : (-x).IsRegular := neg_eq_hullOf hx ▸ isRegular_hullOf _

theorem mul (hx : x.IsRegular) (hy : y.IsRegular) : (x * y).IsRegular := mul_eq_hullOf hx hy ▸ isRegular_hullOf _

theorem recip (hx : x.IsRegular) : x.recip.IsRegular := recip_eq_hullOf hx ▸ isRegular_hullOf _

theorem exists_add (hx : x.IsRegular) (hy : y.IsRegular) : ∃ z, x.add y = .ok z ∧ z.IsRegular :=
  ⟨_, add_eq_hullOf hx hy, isRegular_hullOf _⟩

theorem exists_sub (hx : x.IsRegular) (hy : y.IsRegular) : ∃ z, x.sub y = .ok z ∧ z.IsRegular :=
  ⟨_, sub_eq_hullOf hx hy, isRegular_hullOf _⟩

theorem exists_scale (hx : x.IsRegular) (c : ℝ) : ∃ z, x.scale (real c) = .ok z ∧ z.IsRegular :=
  ⟨_, scale_eq_hullOf hx c, isRegular_hullOf _⟩

theorem exists_solveProduct {target factor : Interval Exact} (htarget : target.IsRegular) (hfactor : factor.IsRegular)
    (hx : x.IsRegular) : ∃ z, solveProduct target factor x = .ok z ∧ z.IsRegular := by
  by_cases hnone : factor.isEmpty = true ∨ x.isEmpty = true
  · exact ⟨_, solveProduct_of_isEmpty (Or.inr hnone), isRegular_empty⟩
  rw [not_or] at hnone
  obtain ⟨s, hz, -⟩ := Interval.exists_solveProduct htarget (hfactor.resolve_left hnone.1) (hx.resolve_left hnone.2)
  exact ⟨_, hz, isRegular_hullOf _⟩

/-! ### Monotone functions and magnitudes -/

theorem exp (hx : x.IsRegular) : x.exp.IsRegular := by
  rw [Interval.exp]
  split_ifs with hempty
  · exact isRegular_empty
  · obtain ⟨a, b, rfl, -, ha, -⟩ := (hx.resolve_left hempty).exists_ends
    dsimp only
    rw [exp_number, exp_number]
    exact isRegular_number (endExp_ne_top ha) (EReal.bot_lt_zero.trans_le (endExp_nonneg b)).ne'

theorem ln (hx : x.IsRegular) : x.ln.IsRegular := by
  rw [Interval.ln]
  split_ifs with hnone
  · exact isRegular_empty
  · rw [Bool.or_eq_true_iff, not_or] at hnone
    obtain ⟨a, b, hends, ha₀, hab, ha⟩ := exists_nonnegative
      (hx.isProper_of_inter isRegular_nonnegative (Bool.eq_false_iff.mpr hnone.1)).1 (Bool.eq_false_iff.mpr hnone.1)
    rw [hends] at hnone ⊢
    have hb : 0 < b := (ha₀.trans hab).lt_of_ne fun h => hnone.2 (number_beq_number.mpr h.symm)
    dsimp only
    rw [ln_number ha₀, ln_number (ha₀.trans hab)]
    exact isRegular_number (endLn_ne_top ha) (endLn_ne_bot hb)

theorem abs (hx : x.IsRegular) : x.abs.IsRegular := by
  rw [Interval.abs]
  split_ifs with hempty hinf hsup
  · exact isRegular_empty
  · exact hx
  · exact hx.neg
  · obtain ⟨a, b, rfl, -, -, hb⟩ := (hx.resolve_left hempty).exists_ends
    rw [neg_number, maxNum_number, zero_def]
    exact isRegular_number EReal.zero_ne_top ((bot_lt_iff_ne_bot.mpr hb).trans_le (le_max_right (-a) b)).ne'

end IsRegular

/-- Ends that are at no wrong infinity do not get there by their outward margins. -/
theorem isRegular_nudged (ha : a ≠ ⊤) (hb : b ≠ ⊥) : IsRegular ⟨nudgeDown (number a), nudgeUp (number b)⟩ := by
  obtain ⟨⟨c, hc, hdown⟩, -⟩ := exists_nudge a
  obtain ⟨-, d, hd, hup⟩ := exists_nudge b
  rw [hdown, hup]
  exact isRegular_number (hc.trans_lt (lt_top_iff_ne_top.mpr ha)).ne ((bot_lt_iff_ne_bot.mpr hb).trans_le hd).ne'

/-! ### The entropy term -/

/-- The entropy term has no value at a positive infinity, and none that is infinite at a real number. -/
theorem exists_entropyAt (ha : 0 ≤ a) : ∃ c, entropyAt (number a) = number c ∧ c ≠ ⊤ ∧ (a ≠ ⊤ → c ≠ ⊥) := by
  rw [entropyAt, zero_def, posInf_def, negInf_def]
  split_ifs with hzero hinfinite
  · exact ⟨0, rfl, EReal.zero_ne_top, fun _ => EReal.zero_ne_bot⟩
  · have hbot : a ≠ ⊥ := (EReal.bot_lt_zero.trans_le ha).ne'
    rw [Bool.or_eq_true_iff, number_beq_number, number_beq_number] at hinfinite
    exact ⟨⊥, rfl, bot_ne_top, fun h => absurd (hinfinite.resolve_right hbot) h⟩
  · have hpos : 0 < a := ha.lt_of_ne fun h => hzero (number_beq_number.mpr h.symm)
    have htop : a ≠ ⊤ := fun h => hinfinite (by rw [h, Bool.or_eq_true_iff, number_beq_number]; exact Or.inl rfl)
    obtain ⟨l, hl⟩ : ∃ l : ℝ, endLn a = l := ⟨_, (EReal.coe_toReal (endLn_ne_top htop) (endLn_ne_bot hpos)).symm⟩
    lift a to ℝ using ⟨htop, (EReal.bot_lt_zero.trans hpos).ne'⟩
    refine ⟨((-a * l : ℝ) : EReal), ?_, EReal.coe_ne_top _, fun _ => EReal.coe_ne_bot _⟩
    rw [ln_number ha, hl]
    exact (congrArg (· * real l) (real_neg a)).trans (real_mul (-a) l)

theorem IsRegular.entropy (hx : x.IsRegular) : x.entropy.IsRegular := by
  rw [Interval.entropy]
  by_cases hpart : (x.inter nonnegative).isEmpty = true
  · rw [if_pos hpart]
    exact isRegular_empty
  obtain ⟨a, b, hends, ha₀, hab, ha⟩ := exists_nonnegative
    (hx.isProper_of_inter isRegular_nonnegative (Bool.eq_false_iff.mpr hpart)).1 (Bool.eq_false_iff.mpr hpart)
  obtain ⟨c, hc, hctop, hcbot⟩ := exists_entropyAt ha₀
  obtain ⟨d, hd, -⟩ := exists_entropyAt (ha₀.trans hab)
  obtain ⟨e, he⟩ : ∃ e, (invE : Exact) = real e := ⟨_, rfl⟩
  rw [if_neg hpart, hends]
  dsimp only
  rw [hc, hd, minNum_number, maxNum_number, he]
  have hlow : min c d ≠ ⊤ := ((min_le_left c d).trans_lt (lt_top_iff_ne_top.mpr hctop)).ne
  split_ifs
  · exact isRegular_nudged hlow (EReal.coe_ne_bot e)
  · exact isRegular_nudged hlow ((bot_lt_iff_ne_bot.mpr (hcbot ha)).trans_le (le_max_left c d)).ne'

/-! ### Sine and cosine -/

theorem IsRegular.periodicRange (hx : x.IsRegular) {f : Exact → Exact} (hf : ∀ r, ∃ s, f (real r) = real s)
    (peak trough : Exact) : (x.periodicRange f peak trough).IsRegular := by
  rw [Interval.periodicRange]
  by_cases hempty : x.isEmpty = true
  · rw [if_pos hempty]
    exact isRegular_empty
  rw [if_neg hempty]
  by_cases hwide : (!x.isBounded || decide (tau ≤ x.sup - x.inf)) = true
  · rw [if_pos hwide, ← real_neg_one, ← real_one]
    exact isRegular_real _ _
  have hbounded : x.isBounded = true := by
    rw [Bool.or_eq_true_iff, not_or] at hwide
    simpa using hwide.1
  obtain ⟨p, q, rfl, -⟩ := IsCompact.exists_ends ⟨Bool.eq_false_iff.mpr hempty, hbounded⟩
  obtain ⟨u, hu⟩ := hf p
  obtain ⟨v, hv⟩ := hf q
  rw [if_neg hwide]
  dsimp only
  rw [hu, hv, minNum_real, maxNum_real, nudgeDown_real, nudgeUp_real, ← real_neg_one, ← real_one, maxNum_real,
    minNum_real]
  split_ifs <;> exact isRegular_real _ _

theorem exists_sin_real (r : ℝ) : ∃ s, Scalar.sin (real r) = real s := ⟨Real.sin r, by
  change lift (fun r => real (Real.sin r)) .nan .nan (number r) = _
  simp [lift]⟩

theorem exists_cos_real (r : ℝ) : ∃ s, Scalar.cos (real r) = real s := ⟨Real.cos r, by
  change lift (fun r => real (Real.cos r)) .nan .nan (number r) = _
  simp [lift]⟩

theorem IsRegular.sin (hx : x.IsRegular) : x.sin.IsRegular := hx.periodicRange exists_sin_real _ _

theorem IsRegular.cos (hx : x.IsRegular) : x.cos.IsRegular := hx.periodicRange exists_cos_real _ _

/-! ### Powers -/

/-- Whole exponents. -/
theorem IsRegular.exists_pow_of_some (hx : x.IsProper) {n : ℤ} (hn : Scalar.integral? (real p) = some n) :
    ∃ z, x.pow (real p) = .ok z ∧ z.IsRegular := by
  rw [Interval.pow, hx.nonempty, if_neg Bool.false_ne_true, hn]
  dsimp only
  have hpow := powNat_eq_hullOf hx n.natAbs
  split_ifs
  · rw [← real_one, point_real]
    exact ⟨_, rfl, isRegular_real 1 1⟩
  · rw [hpow]
    exact ⟨_, rfl, (isRegular_hullOf _).recip⟩
  · exact ⟨_, hpow, isRegular_hullOf _⟩

/-- The powers of the numbers between two that are not negative. If the greater one is zero, so are both, and a power
with a pole takes them to the pole only. -/
theorem isRegular_powers_iff (ha : 0 ≤ a) (hab : a ≤ b) (ha' : a ≠ ⊤) :
    IsRegular (if 0 < p then ⟨number (endPow p a), number (endPow p b)⟩
      else ⟨number (endPow p b), number (endPow p a)⟩) ↔ ¬ (p < 0 ∧ b = 0) := by
  have hbot (e : EReal) : endPow p e ≠ ⊥ := (EReal.bot_lt_zero.trans_le (endPow_nonneg p e)).ne'
  split_ifs with hp
  · have htop : endPow p a ≠ ⊤ :=
      endPow_eq_top_iff.not.mpr (not_or.mpr ⟨fun h => hp.not_gt h.2, fun h => ha' h.1⟩)
    exact iff_of_true (isRegular_number htop (hbot b)) fun h => hp.not_gt h.1
  by_cases hpole : b ≤ 0 ∧ p < 0
  · obtain rfl : b = 0 := le_antisymm hpole.1 (ha.trans hab)
    refine iff_of_false (fun h => ?_) (not_not_intro ⟨hpole.2, rfl⟩)
    rw [endPow_eq_top_iff.mpr (Or.inl hpole), endPow_eq_top_iff.mpr (Or.inl ⟨hab, hpole.2⟩)] at h
    exact h.elim (fun hempty => (isEmpty_number.mp hempty).false) fun hproper =>
      (number_lt_number.mp hproper.inf_lt).false
  · have htop : endPow p b ≠ ⊤ := endPow_eq_top_iff.not.mpr (not_or.mpr ⟨hpole, fun h => hp h.2⟩)
    exact iff_of_true (isRegular_number htop (hbot a)) fun h => hpole ⟨h.2.le, h.1⟩

/-- **Powers with a pole.** The range of a power is regular, unless the power has a pole at zero and zero is the
greatest number of the interval. -/
theorem exists_pow_isRegular_iff (hx : x.IsRegular) (p : ℝ) : ∃ z, x.pow (real p) = .ok z ∧
    (z.IsRegular ↔ ¬ (p < 0 ∧ Scalar.integral? (real p) = none ∧ x.isEmpty = false ∧ x.sup = real 0)) := by
  by_cases hempty : x.isEmpty = true
  · refine ⟨empty, by rw [Interval.pow, if_pos hempty], iff_of_true isRegular_empty fun h => ?_⟩
    rw [hempty] at h
    cases h.2.2.1
  have hx := hx.resolve_left hempty
  cases hn : Scalar.integral? (real p) with
  | some n =>
    obtain ⟨z, hz, hregular⟩ := IsRegular.exists_pow_of_some hx hn
    exact ⟨z, hz, iff_of_true hregular fun h => by cases h.2.1⟩
  | none =>
    by_cases hpart : (x.inter nonnegative).isEmpty = true
    · refine ⟨empty, by rw [pow_of_none hn hx.nonempty, if_pos hpart], iff_of_true isRegular_empty fun h => ?_⟩
      -- an interval that ends at zero has a part that is not negative
      obtain ⟨a, b, rfl, hab, -⟩ := hx.exists_ends
      have hb : b = (0 : ℝ) := number.inj h.2.2.2
      exact real_notMem_of_isEmpty hpart 0
        (mem_inter (real_mem_number.mpr ⟨hab.trans hb.le, hb.ge⟩) (real_mem_nonnegative.mpr le_rfl))
    · obtain ⟨a, b, hends, ha₀, hab, ha, heq⟩ := exists_pow_of_none hn hx (Bool.eq_false_iff.mpr hpart)
      have hsup : x.sup = number b :=
        (sup_inter_nonnegative hx (Bool.eq_false_iff.mpr hpart)).symm.trans (congrArg Interval.sup hends)
      refine ⟨_, heq, (isRegular_powers_iff ha₀ hab ha).trans (not_congr ?_)⟩
      rw [hsup, real_zero, zero_def, number.injEq]
      exact ⟨fun h => ⟨h.1, rfl, hx.nonempty, h.2⟩, fun h => ⟨h.1, h.2.2.2⟩⟩

/-! ### Inverse relations of monotone functions and magnitudes -/

/-- The logarithms of bounds that reach above zero. -/
noncomputable def logarithms (bounds : Interval Exact) : Interval Exact :=
  ⟨if bounds.inf ≤ 0 then negInf else nudgeDown (Scalar.ln bounds.inf), nudgeUp (Scalar.ln bounds.sup)⟩

/-- The exponentials of bounds. -/
noncomputable def exponentials (bounds : Interval Exact) : Interval Exact :=
  ⟨maxNum (nudgeDown (Scalar.exp bounds.inf)) 0, nudgeUp (Scalar.exp bounds.sup)⟩

theorem expInverse_eq (bounds x : Interval Exact) : expInverse bounds x =
    if bounds.isEmpty || decide (bounds.sup ≤ 0) then empty else bounds.logarithms.inter x := rfl

theorem lnInverse_eq (bounds x : Interval Exact) : lnInverse bounds x =
    if bounds.isEmpty then empty else bounds.exponentials.inter x := rfl

theorem isRegular_logarithms (hbounds : bounds.IsProper) (hpos : 0 < bounds.sup) : bounds.logarithms.IsRegular := by
  obtain ⟨a, b, rfl, -, ha, -⟩ := hbounds.exists_ends
  have hb : 0 < b := hpos
  obtain ⟨-, d, hd, hup⟩ := exists_nudge (endLn b)
  have hdbot : d ≠ ⊥ := ((bot_lt_iff_ne_bot.mpr (endLn_ne_bot hb)).trans_le hd).ne'
  rw [logarithms]
  dsimp only
  rw [ln_number hb.le, hup]
  split_ifs with hinf
  · exact isRegular_number bot_ne_top hdbot
  · obtain ⟨⟨c, hc, hdown⟩, -⟩ := exists_nudge (endLn a)
    rw [ln_number (not_le.mp hinf).le, hdown]
    exact isRegular_number (hc.trans_lt (lt_top_iff_ne_top.mpr (endLn_ne_top ha))).ne hdbot

theorem isRegular_exponentials (hbounds : bounds.IsProper) : bounds.exponentials.IsRegular := by
  obtain ⟨a, b, rfl, -, ha, -⟩ := hbounds.exists_ends
  obtain ⟨⟨c, hc, hdown⟩, -⟩ := exists_nudge (endExp a)
  obtain ⟨-, d, hd, hup⟩ := exists_nudge (endExp b)
  rw [exponentials, exp_number, exp_number, hdown, hup, zero_def, maxNum_number]
  have hctop : c < ⊤ := hc.trans_lt (lt_top_iff_ne_top.mpr (endExp_ne_top ha))
  exact isRegular_number (max_lt hctop EReal.zero_lt_top).ne
    ((EReal.bot_lt_zero.trans_le (endExp_nonneg b)).trans_le hd).ne'

namespace IsRegular

theorem expInverse (hbounds : bounds.IsRegular) (hx : x.IsRegular) : (expInverse bounds x).IsRegular := by
  rw [expInverse_eq]
  split_ifs with hnone
  · exact isRegular_empty
  · rw [Bool.or_eq_true_iff, not_or, decide_eq_true_iff] at hnone
    have hproper := hbounds.resolve_left hnone.1
    refine (isRegular_logarithms hproper ?_).inter hx
    obtain ⟨a, b, rfl, -⟩ := hproper.exists_ends
    exact number_lt_number.mpr (not_le.mp (mt number_le_number.mpr hnone.2))

theorem lnInverse (hbounds : bounds.IsRegular) (hx : x.IsRegular) : (lnInverse bounds x).IsRegular := by
  rw [lnInverse_eq]
  split_ifs with hempty
  · exact isRegular_empty
  · exact (isRegular_exponentials (hbounds.resolve_left hempty)).inter hx

theorem absInverse (hbounds : bounds.IsRegular) (hx : x.IsRegular) : (absInverse bounds x).IsRegular := by
  have hpart := hbounds.inter isRegular_nonnegative
  rw [Interval.absInverse]
  split_ifs
  · exact isRegular_empty
  · exact hullAll_pair (hpart.inter hx) (hpart.neg.inter hx)

end IsRegular

/-! ### The inverse relation of the entropy term -/

/-- A bracket stays between real numbers. -/
theorem exists_bisect_real (before : Exact → Bool) (steps : Nat) (p q : ℝ) :
    ∃ u v : ℝ, bisect before steps (real p) (real q) = (real u, real v) := by
  induction steps generalizing p q with
  | zero => exact ⟨p, q, rfl⟩
  | succ steps ih =>
    have hmid : (0.5 : Exact) * (real p + real q) = real (0.5 * (p + q)) := by
      rw [real_add]
      exact real_mul _ _
    rw [bisect, hmid]
    split_ifs
    · exact ⟨p, q, rfl⟩
    · exact ih _ _
    · exact ih _ _

/-- An end that is doubled stays a real number. -/
theorem exists_of_doubleWhileAbove? {f : Exact → Exact} {target hi : Exact} {steps : Nat} {p : ℝ}
    (h : doubleWhileAbove? f target steps (real p) = some hi) : ∃ q, hi = real q := by
  induction steps generalizing p with
  | zero => cases h
  | succ steps ih =>
    have hdouble : real p * (2.0 : Exact) = real (p * 2.0) := real_mul _ _
    rw [doubleWhileAbove?, hdouble] at h
    split_ifs at h
    · exact ih h
    · exact ⟨p, (Option.some.inj h).symm⟩

theorem exists_fallingBracket (steps : Nat) (f : Exact → Exact) (peak : ℝ) (target : Exact) : ∃ u : ℝ, ∃ b : EReal,
    fallingBracket steps f (real peak) target = (real u, number b) ∧ b ≠ ⊥ := by
  rw [fallingBracket, ← real_one]
  cases h : doubleWhileAbove? f target steps (real 1) with
  | none => exact ⟨peak, ⊤, rfl, top_ne_bot⟩
  | some hi =>
    obtain ⟨q, rfl⟩ := exists_of_doubleWhileAbove? h
    obtain ⟨u, v, huv⟩ := exists_bisect_real (fun x => target < f x) bisectionSteps peak q
    exact ⟨u, v, (if_pos (isFinite_real q)).trans huv, EReal.coe_ne_bot v⟩

theorem isRegular_risingPart (f : Exact → Exact) (peak : ℝ) (bounds : Interval Exact) :
    (risingPart f (real peak) bounds).IsRegular := by
  have hbracket (target : Exact) : ∃ u v : ℝ, risingBracket f (real peak) target = (real u, real v) := by
    rw [risingBracket, ← real_zero]
    exact exists_bisect_real _ _ 0 peak
  obtain ⟨u, v, huv⟩ := hbracket bounds.inf
  obtain ⟨w, t, hwt⟩ := hbracket bounds.sup
  rw [risingPart, huv, hwt, ← real_zero]
  split_ifs <;> exact isRegular_real _ _

theorem isRegular_fallingPart (steps : Nat) (f : Exact → Exact) (peak : ℝ) (bounds : Interval Exact) :
    (fallingPart steps f (real peak) bounds).IsRegular := by
  obtain ⟨u, b, hu, -⟩ := exists_fallingBracket steps f peak bounds.sup
  obtain ⟨v, d, hv, hd⟩ := exists_fallingBracket steps f peak bounds.inf
  rw [fallingPart, hu, hv, posInf_def]
  split_ifs
  · exact isRegular_number (EReal.coe_ne_top peak) top_ne_bot
  · exact isRegular_number (EReal.coe_ne_top peak) hd
  · exact isRegular_number (EReal.coe_ne_top u) top_ne_bot
  · exact isRegular_number (EReal.coe_ne_top u) hd

theorem IsRegular.entropyInverse (hx : x.IsRegular) (bounds : Interval Exact) :
    (entropyInverse bounds x).IsRegular := by
  obtain ⟨peak, hpeak⟩ : ∃ peak, (invE : Exact) = real peak := ⟨_, rfl⟩
  have hpart := hx.inter isRegular_nonnegative
  have hfalling := isRegular_fallingPart doublingSteps entropyAt peak bounds
  have hrising : (if bounds.sup < 0 then empty else risingPart entropyAt (real peak) bounds).IsRegular := by
    split_ifs
    · exact isRegular_empty
    · exact isRegular_risingPart entropyAt peak bounds
  rw [Interval.entropyInverse, hpeak, humpInverse]
  dsimp only
  by_cases hnone : (bounds.isEmpty || (x.inter nonnegative).isEmpty || decide (real peak < bounds.inf)) = true
  · rw [if_pos hnone]
    exact isRegular_empty
  · rw [if_neg hnone]
    exact hullAll_pair (hrising.inter hpart) (hfalling.inter hpart)

end Interval

end IntervalDag
