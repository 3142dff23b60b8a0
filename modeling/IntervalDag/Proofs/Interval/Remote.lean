import IntervalDag.Proofs.Interval.Containment
import IntervalDag.Proofs.Interval.Quotients

/-!
# Intervals at infinity

An interval of extended real numbers may hold an infinity and nothing else. Such an interval is not empty, but no real
number is in it (`Interval.HasNumbers.cases`). Bounded intervals do not reach it: its differences with them, multiples
and quotients by them stay at an infinity, and what is left of a bounded interval is empty (`Interval.IsRemote.inter`,
`Interval.IsRemote.solveProduct`).
-/

namespace IntervalDag

open Scalar Exact

namespace Interval

/-- The interval holds an infinity only. -/
def IsRemote (x : Interval Exact) : Prop := ∃ e : EReal, IsInfinite e ∧ x = ⟨number e, number e⟩

variable {x z target factor : Interval Exact} {e : EReal} {c : ℝ}

theorem isRemote_top : IsRemote ⟨number ⊤, number ⊤⟩ := ⟨⊤, Or.inl rfl, rfl⟩

theorem isRemote_bot : IsRemote ⟨number ⊥, number ⊥⟩ := ⟨⊥, Or.inr rfl, rfl⟩

theorem exists_number_of_isNaN {a : Exact} (h : isNaN a = false) : ∃ e, a = number e := by
  cases a with
  | nan => exact absurd (h.symm.trans isNaN_nan) Bool.false_ne_true
  | number e => exact ⟨e, rfl⟩

theorem hasNumbers_number (a b : EReal) : HasNumbers ⟨number a, number b⟩ := ⟨isNaN_number a, isNaN_number b⟩

theorem hasNumbers_empty : HasNumbers (empty : Interval Exact) := hasNumbers_number ⊤ ⊥

theorem hasNumbers_of_isEmpty (h : x.isEmpty = true) : x.HasNumbers := by
  obtain ⟨a, b⟩ := x
  have hlt : b < a := of_decide_eq_true h
  cases a with
  | nan => cases b <;> exact hlt.elim
  | number a =>
    cases b with
    | nan => exact hlt.elim
    | number b => exact hasNumbers_number a b

theorem IsProper.hasNumbers (h : x.IsProper) : x.HasNumbers := by
  obtain ⟨a, b, rfl, -⟩ := h.exists_ends
  exact hasNumbers_number a b

theorem HasNumbers.exists_ends (h : x.HasNumbers) : ∃ a b : EReal, x = ⟨number a, number b⟩ := by
  obtain ⟨a, ha⟩ := exists_number_of_isNaN h.1
  obtain ⟨b, hb⟩ := exists_number_of_isNaN h.2
  exact ⟨a, b, congrArg₂ Interval.mk ha hb⟩

theorem HasNumbers.inter (hx : x.HasNumbers) (hz : z.HasNumbers) : (x.inter z).HasNumbers := by
  obtain ⟨a, b, rfl⟩ := hx.exists_ends
  obtain ⟨c, d, rfl⟩ := hz.exists_ends
  rw [inter_number]
  split_ifs
  · exact hasNumbers_empty
  · exact hasNumbers_number _ _

theorem HasNumbers.mul (hx : x.HasNumbers) (hz : z.HasNumbers) : (x * z).HasNumbers := by
  by_cases hempty : x.isEmpty = true ∨ z.isEmpty = true
  · have hmul : x * z = empty := if_pos (Bool.or_eq_true_iff.mpr hempty)
    rw [hmul]
    exact hasNumbers_empty
  · obtain ⟨a, b, rfl⟩ := hx.exists_ends
    obtain ⟨c, d, rfl⟩ := hz.exists_ends
    rw [mul_number (Bool.eq_false_iff.mpr fun h => hempty (Or.inl h))
      (Bool.eq_false_iff.mpr fun h => hempty (Or.inr h))]
    exact hasNumbers_number _ _

/-- Intervals of numbers have multiples. -/
theorem HasNumbers.exists_scale (h : x.HasNumbers) (c : ℝ) : ∃ z, x.scale (real c) = .ok z := by
  by_cases hempty : x.isEmpty = true
  · exact ⟨empty, if_pos hempty⟩
  have hnonempty := Bool.eq_false_iff.mpr hempty
  obtain ⟨a, b, rfl⟩ := h.exists_ends
  rcases lt_trichotomy c 0 with hneg | rfl | hpos
  · exact ⟨_, scale_of_neg hnonempty hneg⟩
  · exact ⟨_, (if_neg hempty).trans ((if_pos (real_beq_zero.mpr rfl)).trans ofBounds_number)⟩
  · exact ⟨_, scale_of_pos hnonempty hpos⟩

/-- **Intervals of numbers** without a real number are empty or at an infinity. -/
theorem HasNumbers.cases (h : x.HasNumbers) : (x.isEmpty = true ∨ x.IsProper) ∨ x.IsRemote := by
  obtain ⟨a, b⟩ := x
  obtain ⟨a, rfl⟩ := exists_number_of_isNaN h.1
  obtain ⟨b, rfl⟩ := exists_number_of_isNaN h.2
  rcases lt_or_ge b a with hba | hab
  · exact Or.inl (Or.inl (isEmpty_number.mpr hba))
  rcases eq_or_ne a ⊤ with rfl | ha
  · obtain rfl := top_le_iff.mp hab
    exact Or.inr isRemote_top
  rcases eq_or_ne b ⊥ with rfl | hb
  · obtain rfl := le_bot_iff.mp hab
    exact Or.inr isRemote_bot
  obtain ⟨r, hr⟩ := exists_real_between hab ha hb
  exact Or.inl (Or.inr (isProper_of_real_mem (real_mem_number.mpr hr)))

namespace IsRemote

theorem hasNumbers (h : x.IsRemote) : x.HasNumbers := by
  obtain ⟨e, -, rfl⟩ := h
  exact hasNumbers_number e e

theorem isEmpty (h : x.IsRemote) : x.isEmpty = false := by
  obtain ⟨e, -, rfl⟩ := h
  exact Bool.eq_false_iff.mpr fun hempty => lt_irrefl e (isEmpty_number.mp hempty)

theorem real_notMem (h : x.IsRemote) (r : ℝ) : real r ∉ x := by
  obtain ⟨e, rfl | rfl, rfl⟩ := h
  · exact fun hr => (real_mem_number.mp hr).1.not_gt (EReal.coe_lt_top r)
  · exact fun hr => (real_mem_number.mp hr).2.not_gt (EReal.bot_lt_coe r)

/-- Bounded intervals do not reach an infinity. -/
theorem inter (h : z.IsRemote) (hx : x.IsCompact) : z.inter x = empty ∧ x.inter z = empty := by
  obtain ⟨p, q, rfl, -⟩ := hx.exists_ends
  obtain ⟨e, rfl | rfl, rfl⟩ := h
  · exact ⟨(inter_number ..).trans (if_pos (by simp)), (inter_number ..).trans (if_pos (by simp))⟩
  · exact ⟨(inter_number ..).trans (if_pos (by simp)), (inter_number ..).trans (if_pos (by simp))⟩

/-- Real numbers do not bring back what is at an infinity. -/
theorem number_sub_real (he : IsInfinite e) (r : ℝ) : number e - real r = number e := by
  change number e + number (-(r : EReal)) = _
  rcases he with rfl | rfl
  · exact (number_add (by simp [-EReal.coe_neg])).trans (congrArg number (EReal.top_add_coe (-r)))
  · exact (number_add (by simp [-EReal.coe_neg])).trans (congrArg number (EReal.bot_add _))

theorem sub (h : z.IsRemote) (hx : x.IsCompact) : ∃ y, z.sub x = .ok y ∧ y.IsRemote := by
  have hnonempty : (z.isEmpty || x.isEmpty) = false := by rw [h.isEmpty, hx.nonempty]; rfl
  obtain ⟨p, q, rfl, -⟩ := hx.exists_ends
  obtain ⟨e, he, rfl⟩ := h
  refine ⟨_, ?_, e, he, rfl⟩
  rw [Interval.sub, hnonempty, if_neg Bool.false_ne_true, number_sub_real he, number_sub_real he, ofBounds_number]

theorem mul_of_pos (he : IsInfinite e) (hc : 0 < c) : e * c = e := by
  rcases he with rfl | rfl
  · exact EReal.top_mul_coe_of_pos hc
  · exact EReal.bot_mul_coe_of_pos hc

theorem mul_of_neg (he : IsInfinite e) (hc : c < 0) : e * c = -e := by
  rcases he with rfl | rfl
  · exact EReal.top_mul_coe_of_neg hc
  · exact EReal.bot_mul_coe_of_neg hc

theorem isInfinite_neg (he : IsInfinite e) : IsInfinite (-e) := by
  rcases he with rfl | rfl
  · exact Or.inr EReal.neg_top
  · exact Or.inl EReal.neg_bot

theorem scale (h : z.IsRemote) (hc : c ≠ 0) : ∃ y, z.scale (real c) = .ok y ∧ y.IsRemote := by
  have hnonempty := h.isEmpty
  obtain ⟨e, he, rfl⟩ := h
  rcases hc.lt_or_gt with hneg | hpos
  · exact ⟨_, scale_of_neg hnonempty hneg, _, mul_of_neg he hneg ▸ isInfinite_neg he, rfl⟩
  · exact ⟨_, scale_of_pos hnonempty hpos, _, (mul_of_pos he hpos).symm ▸ he, rfl⟩

/-! ### Solving a product -/

theorem div (h : target.IsRemote) (hfactor : factor.IsCompact) (hzero : real 0 ∉ factor) :
    (target / factor).IsRemote := by
  obtain ⟨u, v, rfl, huv⟩ := hfactor.exists_ends
  have hnonempty := h.isEmpty
  obtain ⟨e, he, rfl⟩ := h
  obtain ⟨hsign, -⟩ := recip_real huv hzero
  -- the reciprocals have the same sign
  obtain ⟨e', he', hv, hu⟩ : ∃ e', IsInfinite e' ∧ e * ((1 / v : ℝ) : EReal) = e' ∧ e * ((1 / u : ℝ) : EReal) = e' := by
    rcases hsign with hpos | hneg
    · exact ⟨e, he, mul_of_pos he (one_div_pos.mpr (hpos.trans_le huv)), mul_of_pos he (one_div_pos.mpr hpos)⟩
    · exact ⟨-e, isInfinite_neg he, mul_of_neg he (one_div_neg.mpr hneg),
        mul_of_neg he (one_div_neg.mpr (huv.trans_lt hneg))⟩
  have hdiv := div_real hnonempty huv hzero
  rw [hu, hv, min_self, min_self, min_self, max_self, max_self, max_self] at hdiv
  exact ⟨e', he', hdiv⟩

theorem number_div_real (hc : c ≠ 0) : number e / real c = number (e / c) := by
  change Exact.div (number e) (number c) = _
  simp [Exact.div, hc]

theorem exists_rays {p q : Prop} [Decidable p] [Decidable q] {u v : ℝ} (hu : p → number e / real u = number ⊥)
    (hv : q → number e / real v = number ⊤) : ∃ rays, (do
        let left ← rayBelow (number e) (real u) (decide p)
        let right ← rayAbove (number e) (real v) (decide q)
        return left ++ right : Checked Exact (List (Interval Exact))) = .ok rays ∧ ∀ z ∈ rays, z.IsRemote := by
  refine ⟨_, by rw [rayBelow_eq hu, Checked.ok_bind, rayAbove_eq hv, Checked.ok_bind]; rfl, fun z hz => ?_⟩
  rcases List.mem_append.mp hz with hz | hz
  · obtain ⟨-, rfl⟩ : p ∧ z = _ := by simpa using hz
    exact isRemote_bot
  · obtain ⟨-, rfl⟩ : q ∧ z = _ := by simpa using hz
    exact isRemote_top

theorem exists_solutionRays (htarget : target.IsRemote) (hfactor : factor.IsCompact) :
    ∃ rays, solutionRays target factor = .ok rays ∧ ∀ z ∈ rays, z.IsRemote := by
  obtain ⟨u, v, rfl, -⟩ := hfactor.exists_ends
  obtain ⟨e, he, rfl⟩ := htarget
  have hneg {c : ℝ} (h : real c < 0) : c < 0 := EReal.coe_neg'.mp h
  have hpos {c : ℝ} (h : 0 < real c) : 0 < c := real_pos.mp h
  rcases id he with rfl | rfl
  · rw [solutionRays, if_pos (show (0 : Exact) < number ⊤ from EReal.zero_lt_top)]
    refine exists_rays (fun h => ?_) fun h => ?_
    · rw [number_div_real (hneg h).ne, EReal.top_div_of_neg_ne_bot (EReal.coe_neg'.mpr (hneg h)) (EReal.coe_ne_bot u)]
    · rw [number_div_real (hpos h).ne', EReal.top_div_of_pos_ne_top (EReal.coe_pos.mpr (hpos h)) (EReal.coe_ne_top v)]
  · rw [solutionRays, if_neg (show ¬ (0 : Exact) < number ⊥ from fun h => not_lt_bot (number_lt_number.mp h))]
    refine exists_rays (fun h => ?_) fun h => ?_
    · rw [number_div_real (hpos h).ne', EReal.bot_div_of_pos_ne_top (EReal.coe_pos.mpr (hpos h)) (EReal.coe_ne_top v)]
    · rw [number_div_real (hneg h).ne, EReal.bot_div_of_neg_ne_bot (EReal.coe_neg'.mpr (hneg h)) (EReal.coe_ne_bot u)]

/-- Rays at infinity leave nothing of a bounded interval. -/
theorem hullAll_inter {rays : List (Interval Exact)} (hrays : ∀ z ∈ rays, z.IsRemote) (hx : x.IsCompact) :
    hullAll (rays.map (·.inter x)) = empty := by
  rw [hullAll, List.map_congr_left fun z hz => ((hrays z hz).inter hx).1]
  clear hrays
  induction rays with
  | nil => rfl
  | cons z rays ih =>
    rw [List.map_cons, List.foldl_cons, hull, if_pos isEmpty_empty]
    exact ih

/-- **No member of a bounded interval** solves a product for a target at an infinity and a bounded factor. -/
theorem solveProduct (htarget : target.IsRemote) (hfactor : factor.IsCompact) (hx : x.IsCompact) :
    Interval.solveProduct target factor x = .ok empty := by
  have hnonempty : (target.isEmpty || factor.isEmpty || x.isEmpty) = false := by
    rw [htarget.isEmpty, hfactor.nonempty, hx.nonempty]
    rfl
  have hzero : target.containsZero = false :=
    Bool.eq_false_iff.mpr (mt containsZero_iff.mp (htarget.real_notMem 0))
  rw [Interval.solveProduct, hnonempty, if_neg Bool.false_ne_true, hzero, Bool.false_and, if_neg Bool.false_ne_true]
  split_ifs with hpoint hfree
  · rfl
  · have hfree : real 0 ∉ factor := by simpa [← containsZero_iff] using hfree
    rw [((htarget.div hfactor hfree).inter hx).1]
  · obtain ⟨rays, hrays, hremote⟩ := exists_solutionRays htarget hfactor
    rw [hrays, Checked.ok_bind, hullAll_inter hremote hx]
    rfl

end IsRemote

end Interval

end IntervalDag
