import IntervalDag.Proofs.Interval.Remote
import IntervalDag.Proofs.Operator.PowerAgreement
import IntervalDag.Proofs.Scalar.Logarithms

/-!
# Logarithms and fractional powers next to their pole

The logarithm and the powers with negative fractional exponents are defined above zero and have a pole there. Over an
interval they are taken from the smallest distance to the pole on, so the range holds the images of all numbers that are
at least as far away, and of all numbers of an interval above zero (`Handler.exists_range_of_endsAtPole`). What an inverse
relation leaves of an operand is relaxed up to that distance. It keeps every number whose image is in bounds, and unless
it is empty it reaches up to the distance (`Handler.exists_reverse_of_endsAtPole`). Nothing is asked of the logarithm but
that it is strictly increasing and onto.
-/

namespace IntervalDag

open Scalar Exact

/-! ### Intervals with any numbers for ends -/

namespace Interval

variable {x y bounds : Interval Exact} {p : ℝ}

theorem hasNumbers_nonnegative : (nonnegative : Interval Exact).HasNumbers := hasNumbers_number 0 ⊤

/-- The reciprocals of an infinity. -/
theorem exists_reciprocals_of_isRemote (h : y.IsRemote) :
    ∃ base, solveProduct ⟨1, 1⟩ y entire = .ok base ∧ base.HasNumbers := by
  have hzero : y.containsZero = false := Bool.eq_false_iff.mpr (mt containsZero_iff.mp (h.real_notMem 0))
  have hnonempty := h.isEmpty
  obtain ⟨e, he, rfl⟩ := h
  have he₀ : e ≠ 0 := by rcases he with rfl | rfl <;> simp
  have hone : (⟨number 1, number 1⟩ : Interval Exact).isEmpty = false :=
    Bool.eq_false_iff.mpr (mt isEmpty_number.mp (lt_irrefl 1))
  have hrecip : (⟨number e, number e⟩ : Interval Exact).recip = ⟨number (1 / e), number (1 / e)⟩ := by
    rw [recip_number hnonempty, if_neg (he₀ ·.1), if_neg (fun h => h.1.not_gt h.2), if_neg he₀, if_neg he₀]
  have hinverse : (⟨number (1 / e), number (1 / e)⟩ : Interval Exact).isEmpty = false :=
    Bool.eq_false_iff.mpr (mt isEmpty_number.mp (lt_irrefl _))
  have hquotient : ((⟨1, 1⟩ : Interval Exact) / ⟨number e, number e⟩).HasNumbers := by
    change (_ * recip _ : Interval Exact).HasNumbers
    rw [hrecip, one_def, mul_number hone hinverse]
    exact hasNumbers_number _ _
  refine ⟨_, ?_, hquotient.inter (hasNumbers_number ⊥ ⊤)⟩
  have hfactor : ((number e == 0) && (number e == (0 : Exact))) = false := by
    rw [Bool.and_self, Bool.eq_false_iff, zero_def, ne_eq, number_beq_number]
    exact he₀
  have hentire : (entire : Interval Exact).isEmpty = false := isEmpty_of_mem (real_mem_entire 0)
  rw [solveProduct, hnonempty, hentire, one_def, hone, hzero, Bool.and_false, hfactor]
  rfl

/-- Roots for exponents that are not taken for whole ones lose no number that is not negative, whatever the numbers at
the ends are. -/
theorem exists_rootsWithin_of_hasNumbers (hp : 0 < p) (hn : Scalar.integral? (real p) = none)
    (hbounds : bounds.HasNumbers) (hx : x.HasNumbers) :
    ∃ z, rootsWithin bounds (real p) x = .ok z ∧ z.HasNumbers ∧
      ∀ r, 0 ≤ r → real r ∈ x → real (r ^ p) ∈ bounds → real r ∈ z := by
  by_cases hnone : bounds.isEmpty = true ∨ x.isEmpty = true
  · refine ⟨empty, by rw [rootsWithin, if_pos (Bool.or_eq_true_iff.mpr hnone)], hasNumbers_empty, fun r _ hr hrp => ?_⟩
    rcases hnone with h | h
    · exact absurd hrp (real_notMem_of_isEmpty h _)
    · exact absurd hr (real_notMem_of_isEmpty h _)
  rw [rootsWithin, if_neg (mt Bool.or_eq_true_iff.mp hnone), hn]
  dsimp only
  have hpower {r : ℝ} (hr : 0 ≤ r) (hrp : real (r ^ p) ∈ bounds) : real (r ^ p) ∈ bounds.inter nonnegative :=
    mem_inter hrp (real_mem_nonnegative.mpr (Real.rpow_nonneg hr p))
  by_cases hpart : (bounds.inter nonnegative).isEmpty = true
  · exact ⟨empty, by rw [if_pos hpart]; rfl, hasNumbers_empty, fun r hr _ hrp =>
      absurd (hpower hr hrp) (real_notMem_of_isEmpty hpart _)⟩
  obtain ⟨a, b, hends⟩ := (hbounds.inter hasNumbers_nonnegative).exists_ends
  obtain ⟨c, d, hc, hd, hroots⟩ := exists_roots hp a b
  have hpositive : positiveRoots (bounds.inter nonnegative) (real p) = .ok ⟨number (max c 0), number d⟩ := by
    rw [hends, positiveRoots, hc, hd, zero_def, maxNum_number, ofBounds_number]
  refine ⟨_, by rw [if_neg hpart, hpositive]; rfl, (hasNumbers_number _ _).inter hx, fun r hr hrx hrp =>
    mem_inter ?_ hrx⟩
  have hroot := hroots _ (hends ▸ hpower hr hrp)
  rw [signedPow_rpow hp.ne' hr] at hroot
  obtain ⟨hlow, hhigh⟩ := real_mem_number.mp hroot
  exact real_mem_number.mpr ⟨max_le hlow (EReal.coe_nonneg.mpr hr), hhigh⟩

/-- **Inverse powers** with negative exponents that are not taken for whole ones lose no number above zero. -/
theorem exists_powInverse_of_hasNumbers (hp : p < 0) (hn : Scalar.integral? (real (-p)) = none)
    (hbounds : bounds.HasNumbers) (hx : x.HasNumbers) :
    ∃ z, powInverse bounds (real p) x = .ok z ∧ z.HasNumbers ∧
      ∀ r, 0 < r → real r ∈ x → real (r ^ p) ∈ bounds → real r ∈ z := by
  by_cases hnone : bounds.isEmpty = true ∨ x.isEmpty = true
  · refine ⟨empty, powInverse_of_isEmpty hnone _, hasNumbers_empty, fun r _ hr hrp => ?_⟩
    rcases hnone with h | h
    · exact absurd hrp (real_notMem_of_isEmpty h _)
    · exact absurd hr (real_notMem_of_isEmpty h _)
  have hnonempty := Bool.eq_false_iff.mpr fun h => hnone (Or.inr h)
  -- bounds at an infinity have reciprocals too, but hold no power
  obtain ⟨base, hbase, heq, hpowers⟩ : ∃ base : Interval Exact, base.HasNumbers ∧
      powInverse bounds (real p) x = rootsWithin base (real (-p)) x ∧
        ∀ r, 0 < r → real (r ^ p) ∈ bounds → real (r ^ (-p)) ∈ base := by
    rcases hbounds.cases with (hempty | hproper) | hremote
    · exact absurd (Or.inl hempty) hnone
    · obtain ⟨base, hregular, heq, hpowers⟩ := exists_reciprocals hp hproper hnonempty
      refine ⟨base, hregular.elim hasNumbers_of_isEmpty IsProper.hasNumbers, heq, fun r hr hrp => (hpowers r ?_ hrp).2⟩
      exact ⟨fun h => absurd h hr.not_gt, fun h => absurd h hr.ne'⟩
    · obtain ⟨base, hbase, hnumbers⟩ := exists_reciprocals_of_isRemote hremote
      refine ⟨base, hnumbers, ?_, fun r _ hrp => absurd hrp (hremote.real_notMem _)⟩
      rw [powInverse, if_neg (mt Bool.or_eq_true_iff.mp hnone), if_neg (mt real_beq_zero.mp hp.ne),
        if_pos (by rwa [← real_zero, real_lt_real]), hbase, Checked.ok_bind, real_neg]
  obtain ⟨z, hz, hnumbers, hroots⟩ := exists_rootsWithin_of_hasNumbers (neg_pos.mpr hp) hn hbase hx
  exact ⟨z, heq.trans hz, hnumbers, fun r hr hrx hrp => hroots r hr.le hrx (hpowers r hr hrp)⟩

/-- The part that is not negative, if there is one. -/
theorem HasNumbers.exists_nonnegative (hx : x.HasNumbers) (hpart : (x.inter nonnegative).isEmpty = false) :
    ∃ a b : EReal, x.inter nonnegative = ⟨number a, number b⟩ ∧ 0 ≤ a ∧ a ≤ b := by
  obtain ⟨a, b, rfl⟩ := hx.exists_ends
  rw [nonnegative, zero_def, posInf_def, inter_number] at hpart ⊢
  by_cases hmeet : min b ⊤ < max a 0
  · rw [if_pos hmeet, isEmpty_empty] at hpart
    cases hpart
  · exact ⟨_, _, if_neg hmeet, le_max_right a 0, not_lt.mp hmeet⟩

/-- Powers with exponents that are not taken for whole ones have a range, whatever the numbers at the ends are. -/
theorem exists_pow_of_hasNumbers (hn : Scalar.integral? (real p) = none) (hx : x.HasNumbers) :
    ∃ z, x.pow (real p) = .ok z := by
  by_cases hempty : x.isEmpty = true
  · exact ⟨empty, by rw [pow, if_pos hempty]⟩
  rw [pow_of_none hn (Bool.eq_false_iff.mpr hempty)]
  by_cases hpart : (x.inter nonnegative).isEmpty = true
  · exact ⟨empty, if_pos hpart⟩
  obtain ⟨a, b, hends, ha, hab⟩ := hx.exists_nonnegative (Bool.eq_false_iff.mpr hpart)
  rw [if_neg hpart, hends, pow_number ha, pow_number (ha.trans hab), ofBounds_number, ofBounds_number]
  split_ifs
  · exact ⟨_, rfl⟩
  · exact ⟨_, rfl⟩

end Interval

/-! ### Operands next to a pole -/

namespace Settings

variable {settings : Settings Exact} {x : Interval Exact} {r : ℝ}

theorem hasNumbers_raiseLower (hdistance : 0 ≤ settings.minZeroDistance) (hx : x.HasNumbers) (name : String) :
    (settings.raiseLower name x).value.HasNumbers := by
  obtain ⟨m, hm, -⟩ := exists_number_of_ge hdistance
  obtain ⟨a, b, rfl⟩ := hx.exists_ends
  rw [raiseLower]
  split_ifs
  · dsimp only
    rw [hm, minNum_number]
    exact Interval.hasNumbers_number _ _
  · exact hx

/-- Raising the lower end loses no number at the smallest distance, and nothing of an operand above zero. -/
theorem real_mem_raiseLower_of_pos (hr : real r ∈ x) (h : 0 < r ∧ settings.minZeroDistance ≤ real r ∨ 0 < x.inf)
    (name : String) : 0 < r ∧ real r ∈ (settings.raiseLower name x).value := by
  rcases h with ⟨hpos, hdistance⟩ | hpos
  · exact ⟨hpos, real_mem_raiseLower hdistance hr name⟩
  · obtain ⟨a, b, rfl, ha, -⟩ := Interval.real_mem_iff.mp hr
    have hpos : 0 < a := number_lt_number.mp hpos
    have hkept : settings.raiseLower name ⟨number a, number b⟩ = .plain ⟨number a, number b⟩ :=
      if_neg fun h => (number_le_number.mp h.2.1).not_gt hpos
    rw [hkept]
    exact ⟨EReal.coe_pos.mp (hpos.trans_le ha), hr⟩

/-- **Relaxed operands** reach up to the smallest distance unless they are empty, and nothing but the upper end is
moved. -/
theorem relaxUpper_cases (hdistance : 0 ≤ settings.minZeroDistance) (hx : x.HasNumbers) (name : String) :
    let y := (settings.relaxUpper name x).value
    (y.isEmpty = true ∨ settings.minZeroDistance ≤ y.sup) ∧
      (y = x ∨ x.isEmpty = false ∧ x.sup < settings.minZeroDistance ∧ y = ⟨x.inf, settings.minZeroDistance⟩) := by
  intro y
  obtain ⟨m, hm, -⟩ := exists_number_of_ge hdistance
  obtain ⟨a, b, rfl⟩ := hx.exists_ends
  by_cases hmoved : (⟨number a, number b⟩ : Interval Exact).isEmpty = false ∧ number b < settings.minZeroDistance
  · have hy : y = ⟨number a, settings.minZeroDistance⟩ := by
      change (settings.relaxUpper name _).value = _
      rw [relaxUpper, if_pos hmoved]
    refine ⟨Or.inr ?_, Or.inr ⟨hmoved.1, hmoved.2, hy⟩⟩
    rw [hy, hm]
    exact le_refl m
  · have hy : y = ⟨number a, number b⟩ := by
      change (settings.relaxUpper name _).value = _
      rw [relaxUpper, if_neg hmoved]
      rfl
    refine ⟨?_, Or.inl hy⟩
    rw [hy]
    by_cases hempty : (⟨number a, number b⟩ : Interval Exact).isEmpty = true
    · exact Or.inl hempty
    · refine Or.inr ?_
      rw [hm] at hmoved ⊢
      have hlt : ¬ b < m := fun hlt => hmoved ⟨Bool.eq_false_iff.mpr hempty, number_lt_number.mpr hlt⟩
      exact number_le_number.mpr (not_lt.mp hlt)

end Settings

/-! ### Logarithms -/

namespace Interval

variable {ln : Set.Ioi (0 : ℝ) ≃o ℝ} {x bounds : Interval Exact} {r : ℝ}

theorem ln_exactWith (x : Interval Exact) : Interval.ln (α := ExactWith ln) x =
    if ((x.inter nonnegative).isEmpty || (x.inter nonnegative).sup == 0) = true then empty
    else ⟨Scalar.ln (α := ExactWith ln) (x.inter nonnegative).inf,
      Scalar.ln (α := ExactWith ln) (x.inter nonnegative).sup⟩ := rfl

theorem lnInverse_exactWith (bounds x : Interval Exact) : lnInverse (α := ExactWith ln) bounds x =
    if bounds.isEmpty = true then empty
    else inter (α := Exact) ⟨maxNum (nudgeDown (Scalar.exp (α := ExactWith ln) bounds.inf : Exact)) 0,
      nudgeUp (Scalar.exp (α := ExactWith ln) bounds.sup : Exact)⟩ x := rfl

/-- The range of a logarithm holds the logarithms of the numbers above zero. -/
theorem real_mem_ln (h : 0 < r) (hr : real r ∈ x) :
    (real (ln ⟨r, h⟩) : Exact) ∈ (Interval.ln (α := ExactWith ln) x : Interval Exact) := by
  have hmem : real r ∈ x.inter nonnegative := mem_inter hr (real_mem_nonnegative.mpr h.le)
  obtain ⟨a, b, hends, ha, hab⟩ := (isProper_of_real_mem hr).hasNumbers.exists_nonnegative (isEmpty_of_mem hmem)
  rw [ln_exactWith, hends]
  rw [hends] at hmem
  obtain ⟨har, hrb⟩ := real_mem_number.mp hmem
  obtain ⟨c, hc, hlow⟩ := ExactWith.exists_ln ln ha
  obtain ⟨d, hd, hhigh⟩ := ExactWith.exists_ln ln (ha.trans hab)
  have hb : b ≠ 0 := ((EReal.coe_pos.mpr h).trans_le hrb).ne'
  rw [isEmpty_of_mem hmem, Bool.false_or, zero_def, if_neg (mt number_beq_number.mp hb), hc, hd]
  exact real_mem_number.mpr ⟨(hlow r h).1 har, (hhigh r h).2 hrb⟩

/-- The inverse relation of a logarithm loses no number whose logarithm is in the bounds. -/
theorem lnInverse_keeps (hbounds : bounds.HasNumbers) (hx : x.HasNumbers) :
    HasNumbers (lnInverse (α := ExactWith ln) bounds x : Interval Exact) ∧
      ∀ (r : ℝ) (h : 0 < r), real r ∈ x → real (ln ⟨r, h⟩) ∈ bounds →
        real r ∈ (lnInverse (α := ExactWith ln) bounds x : Interval Exact) := by
  rw [lnInverse_exactWith]
  by_cases hempty : bounds.isEmpty = true
  · rw [if_pos hempty]
    exact ⟨hasNumbers_empty, fun r h _ hr => absurd hr (real_notMem_of_isEmpty hempty _)⟩
  obtain ⟨a, b, rfl⟩ := hbounds.exists_ends
  obtain ⟨c, hc, hlow⟩ := ExactWith.exists_exp ln a
  obtain ⟨d, hd, hhigh⟩ := ExactWith.exists_exp ln b
  obtain ⟨⟨c', hc', hdown⟩, -⟩ := exists_nudge c
  obtain ⟨-, d', hd', hup⟩ := exists_nudge d
  rw [if_neg hempty, hc, hd, hdown, hup, zero_def, maxNum_number]
  refine ⟨(hasNumbers_number _ _).inter hx, fun r h hr hln => mem_inter ?_ hr⟩
  obtain ⟨halow, hbhigh⟩ := real_mem_number.mp hln
  exact real_mem_number.mpr ⟨max_le (hc'.trans ((hlow r h).1 halow)) (EReal.coe_nonneg.mpr h.le),
    ((hhigh r h).2 hbhigh).trans hd'⟩

end Interval

/-! ### Powers -/

theorem Interval.pow_eq_of_none {α : Type} [Scalar α] {p : α} (hn : Scalar.integral? p = none) (x : Interval α) :
    x.pow p = if x.isEmpty = true then .ok empty
      else if (p == 0) = true then point 1
      else
        let y := x.inter nonnegative
        if y.isEmpty = true then .ok empty
        else if 0 < p then ofBounds (Scalar.pow y.inf p) (Scalar.pow y.sup p)
        else ofBounds (Scalar.pow y.sup p) (Scalar.pow y.inf p) := by
  rw [pow, hn]

/-- Powers with exponents that are not taken for whole ones do not depend on the logarithm. -/
theorem Interval.pow_exactWith {ln : Set.Ioi (0 : ℝ) ≃o ℝ} {p : Exact} (hn : Scalar.integral? p = none)
    (x : Interval Exact) : Interval.pow (α := ExactWith ln) x p = Interval.pow x p := by
  have hwith : Scalar.integral? (α := ExactWith ln) p = none := hn
  exact (pow_eq_of_none (α := ExactWith ln) hwith x).trans (pow_eq_of_none hn x).symm

namespace Power

variable {α : Type} [Scalar α] {settings : Settings α} {p : α} {x y z bounds : Interval α}

theorem interval_of_endsAtPole (hpole : hasPole p = true) (hz : (settings.raiseLower "pow" x).value.pow p = .ok z)
    (vars : VarId → Interval α) :
    interval settings (.pow p) [x] vars = .ok ⟨z, (settings.raiseLower "pow" x).notice⟩ := by
  have heq : interval settings (.pow p) [x] vars = (do
      let y := if hasPole p then settings.raiseLower "pow" x else .plain x
      return ⟨← y.value.pow p, y.notice⟩) := rfl
  rw [if_pos hpole] at heq
  dsimp only at heq
  rw [heq, hz]
  rfl

theorem reverse_of_endsAtPole (hpole : hasPole p = true) (hz : Interval.powInverse bounds p x = .ok z) :
    reverse settings (.pow p) bounds [x] =
      .ok ⟨⟨Feasibility.ofOperands [(settings.relaxUpper "pow" z).value], [(settings.relaxUpper "pow" z).value]⟩,
        (settings.relaxUpper "pow" z).notice⟩ := by
  have heq : reverse settings (.pow p) bounds [x] = (do
      let y ← (do
        let y ← Interval.powInverse bounds p x
        return if hasPole p then settings.relaxUpper "pow" y else .plain y)
      return y.map fun y => ⟨Feasibility.ofOperands [y], [y]⟩) := rfl
  rw [heq, hz, Checked.ok_bind, if_pos hpole]
  rfl

end Power

/-! ### Handlers -/

/-- The kinds of functions with a pole at the border of their domain. -/
inductive Kind.EndsAtPole {ln : Set.Ioi (0 : ℝ) ≃o ℝ} : Kind (ExactWith ln) → Prop
  | log : EndsAtPole .log
  | pow {p : ℝ} (hneg : p < 0) (hfractional : ∀ n : ℤ, p ≠ n) : EndsAtPole (.pow (real p))

/-- The inverse relation of a function, before an operand is kept away from a pole. -/
def Kind.inverse {α : Type} [Scalar α] (bounds x : Interval α) : Kind α → Checked α (Interval α)
  | .log => .ok (Interval.lnInverse bounds x)
  | .pow p => Interval.powInverse bounds p x
  | _ => .ok x

namespace Handler

variable {ln : Set.Ioi (0 : ℝ) ≃o ℝ} [BitPattern (ExactWith ln)] {settings : Settings (ExactWith ln)}
variable {k : Kind (ExactWith ln)} {x bounds : Interval (ExactWith ln)} {p : ℝ} {point : Point (ExactWith ln)}

omit [BitPattern (ExactWith ln)] in
theorem integral?_of_fractional (hp : ∀ n : ℤ, p ≠ n) : Scalar.integral? (real p) = none :=
  integral?_eq_none fun n hn => absurd hn (hp n)

omit [BitPattern (ExactWith ln)] in
theorem hasPole_of_fractional (hneg : p < 0) (hp : ∀ n : ℤ, p ≠ n) : Power.hasPole (α := ExactWith ln) (real p) = true := by
  have hlt : real p < 0 := by rwa [← real_zero, real_lt_real]
  change (decide (real p < 0) && (Scalar.integral? (real p)).isNone) = true
  rw [integral?_of_fractional hp, decide_eq_true hlt]
  rfl

/-! ### Values -/

theorem eval_log (settings : Settings (ExactWith ln)) (point : Point (ExactWith ln)) (r : ℝ) :
    (Handler.log settings).eval .log [real r] point = .ok (if h : 0 < r then some (real (ln ⟨r, h⟩)) else none) := by
  change Except.ok (if (0 : Exact) < real r then some (Scalar.ln (α := ExactWith ln) (real r)) else none) = _
  by_cases h : 0 < r
  · rw [if_pos (real_pos.mpr h), dif_pos h, ExactWith.ln_real h]
  · rw [if_neg (mt real_pos.mp h), dif_neg h]

theorem eval_pow (hneg : p < 0) (hp : ∀ n : ℤ, p ≠ n) (settings : Settings (ExactWith ln))
    (point : Point (ExactWith ln)) (r : ℝ) (v : Exact) :
    (Handler.pow settings).eval (.pow (real p)) [real r] point = .ok (some v) ↔ 0 < r ∧ v = real (r ^ p) := by
  refine (@Power.eval_eq_some_iff p r v point).trans (and_congr_left fun _ => ⟨fun h => ?_, fun h => ?_⟩)
  · by_contra hr
    rcases (not_lt.mp hr).lt_or_eq with hlt | rfl
    · obtain ⟨n, hn⟩ := h.whole_of_neg hlt
      exact hp n hn
    · exact (h.nonneg_of_eq_zero rfl).not_gt hneg
  · exact ⟨fun hr => absurd hr h.not_gt, fun hr => absurd hr h.ne'⟩

/-! ### Ranges -/

/-- **Ranges next to a pole** hold the images of the numbers above zero at the smallest distance, and over an interval
above zero those of all numbers in it. -/
theorem exists_range_of_endsAtPole (hdistance : 0 ≤ settings.minZeroDistance) (hk : k.EndsAtPole) (hx : x.HasNumbers)
    (vars : VarId → Interval (ExactWith ln)) (point : Point (ExactWith ln)) :
    ∃ range, (Handler.default settings k.op).interval k [x] vars = .ok range ∧
      ∀ r : ℝ, real r ∈ x → (0 < r ∧ settings.minZeroDistance ≤ real r ∨ 0 < x.inf) →
        ∃ v, (Handler.default settings k.op).eval k [real r] point = .ok (some v) ∧ v ∈ range.value := by
  cases hk with
  | log =>
    refine ⟨_, rfl, fun r hr h => ?_⟩
    obtain ⟨hpos, hmem⟩ := Settings.real_mem_raiseLower_of_pos hr h "log"
    exact ⟨_, (eval_log settings point r).trans (congrArg Except.ok (dif_pos hpos)), Interval.real_mem_ln hpos hmem⟩
  | @pow p hneg hp =>
    have hnumbers := Settings.hasNumbers_raiseLower hdistance hx "pow"
    have hn : Scalar.integral? (real p) = none := integral?_of_fractional hp
    obtain ⟨z, hz⟩ := Interval.exists_pow_of_hasNumbers hn hnumbers
    refine ⟨⟨z, (settings.raiseLower "pow" x).notice⟩, ?_, fun r hr h => ?_⟩
    · have hpow : (settings.raiseLower "pow" x).value.pow (real p) = .ok z :=
        (Interval.pow_exactWith hn (settings.raiseLower "pow" x).value).trans hz
      exact Power.interval_of_endsAtPole (α := ExactWith ln) (hasPole_of_fractional hneg hp) hpow vars
    · obtain ⟨hpos, hmem⟩ := Settings.real_mem_raiseLower_of_pos hr h "pow"
      obtain ⟨z', hz', hpower⟩ := Interval.exists_pow_of_size (fun hneg => absurd hneg hpos.not_gt)
        ⟨fun h => absurd h hpos.not_gt, fun h => absurd h hpos.ne'⟩ hmem
      obtain rfl : z = z' := Except.ok.inj (hz.symm.trans hz')
      exact ⟨_, (eval_pow hneg hp settings point r _).mpr ⟨hpos, rfl⟩, hpower⟩

/-! ### Inverse relations -/

/-- **Inverse relations next to a pole** lose no number whose image is in bounds. -/
theorem exists_inverse_of_endsAtPole (hk : k.EndsAtPole) (hx : x.HasNumbers) (hbounds : bounds.HasNumbers) :
    ∃ z name, k.inverse bounds x = .ok z ∧ z.HasNumbers ∧
      (∀ settings : Settings (ExactWith ln), (Handler.default settings k.op).reverse k bounds [x] =
        .ok ⟨⟨Feasibility.ofOperands [(settings.relaxUpper name z).value], [(settings.relaxUpper name z).value]⟩,
          (settings.relaxUpper name z).notice⟩) ∧
      ∀ (settings : Settings (ExactWith ln)) (point : Point (ExactWith ln)) (r : ℝ) v, real r ∈ x →
        (Handler.default settings k.op).eval k [real r] point = .ok (some v) → v ∈ bounds → real r ∈ z := by
  cases hk with
  | log =>
    obtain ⟨hnumbers, hkeeps⟩ := Interval.lnInverse_keeps hbounds hx
    refine ⟨_, "log", rfl, hnumbers, fun settings => rfl, fun settings point r v hr hv hmem => ?_⟩
    rw [show (Handler.default settings Kind.log.op).eval = (Handler.log settings).eval from rfl, eval_log,
      Except.ok.injEq] at hv
    split_ifs at hv with hpos
    obtain rfl := Option.some.inj hv
    exact hkeeps r hpos hr hmem
  | @pow p hneg hp =>
    have hn : Scalar.integral? (real (-p)) = none :=
      integral?_of_fractional fun n hn => hp (-n) (by rw [Int.cast_neg, ← hn, neg_neg])
    obtain ⟨z, hz, hnumbers, hkeeps⟩ := Interval.exists_powInverse_of_hasNumbers hneg hn hbounds hx
    refine ⟨z, "pow", hz, hnumbers, fun settings => ?_, fun settings point r v hr hv hmem => ?_⟩
    · exact Power.reverse_of_endsAtPole (hasPole_of_fractional hneg hp) hz
    · obtain ⟨hpos, rfl⟩ := (eval_pow hneg hp settings point r v).mp hv
      exact hkeeps r hpos hr hmem

/-! ### Both directions -/

/-- **Next to a pole** nothing is lost. Ranges hold the images of the numbers above zero that are at the smallest distance
from the pole, and over operands above zero all images. Reverse propagation keeps each number whose image is in bounds
and finds bounds infeasible only if there is none. What it leaves is empty or reaches up to the smallest distance, and it
is what the inverse relation leaves but for an upper end that is raised to that distance. -/
theorem sound_next_to_pole (hdistance : 0 ≤ settings.minZeroDistance) (hk : k.EndsAtPole) (hx : x.HasNumbers)
    (hbounds : bounds.HasNumbers) (vars : VarId → Interval (ExactWith ln)) (point : Point (ExactWith ln)) :
    (∃ range, (Handler.default settings k.op).interval k [x] vars = .ok range ∧
      ∀ r : ℝ, real r ∈ x → (0 < r ∧ settings.minZeroDistance ≤ real r ∨ 0 < x.inf) →
        ∃ v, (Handler.default settings k.op).eval k [real r] point = .ok (some v) ∧ v ∈ range.value) ∧
    ∃ plain narrowed left, k.inverse bounds x = .ok plain ∧
      (Handler.default settings k.op).reverse k bounds [x] = .ok narrowed ∧ narrowed.value.operands = [left] ∧
      (∀ (r : ℝ) v, real r ∈ x → (Handler.default settings k.op).eval k [real r] point = .ok (some v) → v ∈ bounds →
        real r ∈ left) ∧
      (narrowed.value.verdict = .infeasible → ∀ (r : ℝ) v, real r ∈ x →
        (Handler.default settings k.op).eval k [real r] point = .ok (some v) → v ∉ bounds) ∧
      (left.isEmpty = true ∨ settings.minZeroDistance ≤ left.sup) ∧
      (left = plain ∨ plain.isEmpty = false ∧ plain.sup < settings.minZeroDistance ∧
        left = ⟨plain.inf, settings.minZeroDistance⟩) := by
  refine ⟨exists_range_of_endsAtPole hdistance hk hx vars point, ?_⟩
  obtain ⟨plain, name, hplain, hnumbers, hreverse, hkeeps⟩ := exists_inverse_of_endsAtPole hk hx hbounds
  obtain ⟨hreaches, hraised⟩ := Settings.relaxUpper_cases hdistance hnumbers name
  have hholds (r : ℝ) (v : ExactWith ln) (hr : real r ∈ x)
      (hv : (Handler.default settings k.op).eval k [real r] point = .ok (some v)) (hmem : v ∈ bounds) :
      real r ∈ (settings.relaxUpper name plain).value :=
    Settings.real_mem_relaxUpper settings (hkeeps settings point r v hr hv hmem) name
  refine ⟨plain, _, _, hplain, hreverse settings, rfl, hholds, fun hinfeasible r v hr hv hmem => ?_, hreaches, hraised⟩
  have hfeasible := Feasibility.ofOperands_singleton (Interval.isEmpty_of_mem (hholds r v hr hv hmem))
  cases hinfeasible.symm.trans hfeasible

/-- The operand reaches across the pole, and its range starts at the smallest distance. The inverse relation leaves
numbers below that distance only. -/
theorem sound_next_to_pole_of_straddling :
    let _ : BitPattern (ExactWith ExactWith.natural) := ⟨fun _ => 0, fun _ => 0⟩
    let settings : Settings (ExactWith ExactWith.natural) := ⟨real 1, real 0, 1, false⟩
    let k : Kind (ExactWith ExactWith.natural) := .pow (real (-1 / 2))
    let x : Interval (ExactWith ExactWith.natural) := ⟨real (-1), real 4⟩
    let bounds : Interval (ExactWith ExactWith.natural) := ⟨real 2, real 3⟩
    0 ≤ settings.minZeroDistance ∧ k.EndsAtPole ∧ x.HasNumbers ∧ bounds.HasNumbers ∧
      (∃ range, (Handler.default settings k.op).interval k [x] (fun _ => x) = .ok range ∧ real (1 / 2) ∈ range.value) ∧
      ∃ narrowed left, (Handler.default settings k.op).reverse k bounds [x] = .ok narrowed ∧
        narrowed.value.operands = [left] ∧ real (1 / 4) ∈ left ∧ settings.minZeroDistance ≤ left.sup := by
  intro _ settings k x bounds
  have hdistance : 0 ≤ settings.minZeroDistance := EReal.coe_nonneg.mpr zero_le_one
  have hfractional (n : ℤ) : (-1 / 2 : ℝ) ≠ n := by
    intro hn
    have htwice : 2 * n = -1 := by exact_mod_cast (by linarith : 2 * (n : ℝ) = -1)
    omega
  have hk : k.EndsAtPole := .pow (by norm_num) hfractional
  have hx : x.HasNumbers := Interval.hasNumbers_number _ _
  have hbounds : bounds.HasNumbers := Interval.hasNumbers_number _ _
  have hmem (r : ℝ) (hlow : -1 ≤ r) (hhigh : r ≤ 4) : real r ∈ x :=
    Interval.real_mem_number.mpr ⟨EReal.coe_le_coe_iff.mpr hlow, EReal.coe_le_coe_iff.mpr hhigh⟩
  have hvalue (r : ℝ) (hr : 0 < r) : (Handler.default settings k.op).eval k [real (r ^ (-2 : ℝ))] (fun _ => none) =
      .ok (some (real r)) := by
    refine (eval_pow (by norm_num) hfractional settings _ _ _).mpr ⟨Real.rpow_pos_of_pos hr _, ?_⟩
    rw [← Real.rpow_mul hr.le]
    norm_num
  obtain ⟨⟨range, hrange, himages⟩, plain, narrowed, left, -, hnarrowed, hleft, hkeeps, -, hreaches, -⟩ :=
    sound_next_to_pole hdistance hk hx hbounds (fun _ => x) fun _ => none
  have hfour : (1 / 2 : ℝ) ^ (-2 : ℝ) = 4 := by
    rw [Real.rpow_neg (by norm_num), Real.rpow_ofNat]
    norm_num
  have hquarter : (2 : ℝ) ^ (-2 : ℝ) = 1 / 4 := by
    rw [Real.rpow_neg (by norm_num), Real.rpow_ofNat]
    norm_num
  have hhalf := hvalue (1 / 2) (by norm_num)
  have htwo := hvalue 2 (by norm_num)
  rw [hfour] at hhalf
  rw [hquarter] at htwo
  have hkept : real (1 / 4) ∈ left := hkeeps (1 / 4) (real 2) (hmem _ (by norm_num) (by norm_num)) htwo
    (Interval.real_mem_number.mpr ⟨le_rfl, EReal.coe_le_coe_iff.mpr (by norm_num)⟩)
  refine ⟨hdistance, hk, hx, hbounds, ⟨range, hrange, ?_⟩, narrowed, left, hnarrowed, hleft, hkept, ?_⟩
  · obtain ⟨v, hv, hrangev⟩ := himages 4 (hmem _ (by norm_num) le_rfl)
      (Or.inl ⟨by norm_num, EReal.coe_le_coe_iff.mpr (by norm_num)⟩)
    obtain rfl : real (1 / 2) = v := Option.some.inj (Except.ok.inj (hhalf.symm.trans hv))
    exact hrangev
  · exact hreaches.resolve_left fun hempty => Interval.real_notMem_of_isEmpty hempty _ hkept

end Handler

end IntervalDag
