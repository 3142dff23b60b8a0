import IntervalDag.Proofs.Interval.Membership
import IntervalDag.Proofs.Interval.Narrowing
import IntervalDag.Proofs.Scalar.Linear

/-!
# Bounds that spare an interval

Over exact arithmetic, bounds spare an interval if meeting it with them does not improve an end by more than the
threshold. An interval that is spared goes on to be spared when it is narrowed (`Interval.Spares.of_narrowsTo`), as
margins respect the order of ends. With the threshold zero the bounds then hold all of the interval
(`Interval.Spares.inter_eq`).
-/

namespace IntervalDag

variable {α : Type} [Scalar α] [LinearScalar α]

open Scalar

namespace Interval

variable {x y z : Interval α} {eps : α}

omit [LinearScalar α] in
/-- No end of `y` cuts into `x` by more than the relative threshold `eps`, and none at all where `x` has no end. -/
structure Spares (y x : Interval α) (eps : α) : Prop where
  inf : y.inf ≤ x.inf ∨ negInf < x.inf ∧ y.inf ≤ x.inf + eps * maxNum (Scalar.abs x.inf) 1
  sup : x.sup ≤ y.sup ∨ x.sup < posInf ∧ x.sup - eps * maxNum (Scalar.abs x.sup) 1 ≤ y.sup

/-! ### Meets -/

theorem inf_le_sup (h : x.isEmpty = false) : x.inf ≤ x.sup :=
  LinearScalar.le_of_not_lt (of_decide_eq_false h)

theorem isEmpty_eq_false (h : x.inf ≤ x.sup) : x.isEmpty = false := decide_eq_false (not_lt_of_le h)

/-- A meet that is not empty is one of intervals that are not. -/
theorem isEmpty_left_of_inter (h : (x.inter y).isEmpty = false) : x.isEmpty = false := by
  have hle := inf_le_sup h
  rw [inter_eq_of_isEmpty_eq_false h] at hle
  exact isEmpty_eq_false (le_trans (le_maxNum_left _ _) (le_trans hle (minNum_le_left _ _)))

theorem inter_eq_left (hinf : y.inf ≤ x.inf) (hsup : x.sup ≤ y.sup) (h : x.isEmpty = false) : x.inter y = x := by
  rw [inter, maxNum_eq_left hinf, minNum_eq_left hsup, if_neg (Bool.eq_false_iff.mp h)]

theorem inter_eq_right (hinf : x.inf ≤ y.inf) (hsup : y.sup ≤ x.sup) (h : y.isEmpty = false) : x.inter y = y := by
  rw [inter, maxNum_eq_right hinf, minNum_eq_right hsup, if_neg (Bool.eq_false_iff.mp h)]

theorem NarrowsTo.inf_le (h : NarrowsTo x y) : x.inf ≤ y.inf := by
  rcases h.inf with heq | hlt | hnan
  · exact heq ▸ le_refl _
  · exact ThresholdScalar.le_of_lt hlt
  · rw [isNaN_eq_false] at hnan
    cases hnan

theorem NarrowsTo.sup_le (h : NarrowsTo x y) : y.sup ≤ x.sup := by
  rcases h.sup with heq | hlt | hnan
  · exact heq ▸ le_refl _
  · exact ThresholdScalar.le_of_lt hlt
  · rw [isNaN_eq_false] at hnan
    cases hnan

theorem NarrowsTo.inter_eq (h : NarrowsTo x y) (hne : y.isEmpty = false) : x.inter y = y :=
  inter_eq_right h.inf_le h.sup_le hne

/-- Bounds that hold all of an interval add nothing to it. -/
theorem NarrowsTo.inter_eq_left (h : NarrowsTo y x) (hne : x.isEmpty = false) : x.inter y = x :=
  Interval.inter_eq_left h.inf_le h.sup_le hne

theorem not_narrowsStrictlyTo_self (x : Interval α) : ¬ NarrowsStrictlyTo x x := fun h =>
  h.strict.elim (Scalar.lt_irrefl _) (Scalar.lt_irrefl _)

omit [LinearScalar α] in
theorem eq_of_point {v : α} (h : point v = .ok x) : x = ⟨v, v⟩ := by
  rw [point, ofBounds] at h
  split_ifs at h
  exact (Except.ok.inj h).symm

/-- A meet with one value alone is that value, if it is not empty. -/
theorem inter_point_eq {v : α} (h : ((⟨v, v⟩ : Interval α).inter y).isEmpty = false) :
    (⟨v, v⟩ : Interval α).inter y = ⟨v, v⟩ := by
  have hle := inf_le_sup h
  rw [inter_eq_of_isEmpty_eq_false h] at hle
  exact Interval.inter_eq_left (le_trans (le_maxNum_right _ _) (le_trans hle (minNum_le_left _ _)))
    (le_trans (le_trans (le_maxNum_left _ _) hle) (minNum_le_right _ _)) (isEmpty_eq_false (le_refl v))

/-! ### Thresholds -/

/-- The bounds that an interval was met with spare what is left of it. -/
theorem spares_inter (h : (x.inter y).isEmpty = false) (eps : α) : y.Spares (x.inter y) eps := by
  rw [inter_eq_of_isEmpty_eq_false h]
  exact ⟨Or.inl (le_maxNum_right _ _), Or.inl (minNum_le_right _ _)⟩

theorem raisesInf_eq_false_iff (heps : 0 ≤ eps) :
    raisesInf ⟨maxNum x.inf y.inf, minNum x.sup y.sup⟩ x eps = false ↔
      y.inf ≤ x.inf ∨ negInf < x.inf ∧ y.inf ≤ x.inf + eps * maxNum (Scalar.abs x.inf) 1 := by
  have hmargin : x.inf ≤ x.inf + eps * maxNum (Scalar.abs x.inf) 1 :=
    LinearScalar.le_of_not_lt fun hlt => Scalar.lt_irrefl _ (ThresholdScalar.lt_of_add_lt heps hlt)
  rw [raisesInf, Bool.and_eq_false_iff, Bool.or_eq_false_iff, decide_eq_false_iff_not, not_lt_iff, bne,
    Bool.not_eq_false', beq_iff, ← Bool.not_eq_true, beq_iff, ← ne_eq, ne_negInf_iff]
  dsimp only
  constructor
  · rintro (hinf | ⟨hinf, hle⟩)
    · exact Or.inl (le_trans (hinf ▸ le_maxNum_right _ _) (negInf_le _))
    · exact Or.inr ⟨hinf, le_trans (le_maxNum_right _ _) hle⟩
  · intro h
    by_cases hinf : negInf < x.inf
    · exact Or.inr ⟨hinf, maxNum_le hmargin (h.elim (fun hle => le_trans hle hmargin) And.right)⟩
    · -- nothing is known of the lower end, so the bounds have none either
      have hle := h.resolve_right fun h => hinf h.1
      rw [maxNum_eq_left hle]
      exact Or.inl (not_ne_iff.mp (ne_negInf_iff.not.mpr hinf))

theorem lowersSup_eq_false_iff (heps : 0 ≤ eps) :
    lowersSup ⟨maxNum x.inf y.inf, minNum x.sup y.sup⟩ x eps = false ↔
      x.sup ≤ y.sup ∨ x.sup < posInf ∧ x.sup - eps * maxNum (Scalar.abs x.sup) 1 ≤ y.sup := by
  have hmargin : x.sup - eps * maxNum (Scalar.abs x.sup) 1 ≤ x.sup :=
    LinearScalar.le_of_not_lt fun hlt => Scalar.lt_irrefl _ (ThresholdScalar.lt_of_lt_sub heps hlt)
  rw [lowersSup, Bool.and_eq_false_iff, Bool.or_eq_false_iff, decide_eq_false_iff_not, not_lt_iff, bne,
    Bool.not_eq_false', beq_iff, ← Bool.not_eq_true, beq_iff, ← ne_eq, ne_posInf_iff]
  dsimp only
  constructor
  · rintro (hsup | ⟨hsup, hle⟩)
    · exact Or.inl (le_trans (le_posInf _) (hsup ▸ minNum_le_right _ _))
    · exact Or.inr ⟨hsup, le_trans hle (minNum_le_right _ _)⟩
  · intro h
    by_cases hsup : x.sup < posInf
    · exact Or.inr ⟨hsup, le_minNum hmargin (h.elim (fun hle => le_trans hmargin hle) And.right)⟩
    · have hle := h.resolve_right fun h => hsup h.1
      rw [minNum_eq_left hle]
      exact Or.inl (not_ne_iff.mp (ne_posInf_iff.not.mpr hsup))

/-- **Sparing is not tightening.** -/
theorem spares_iff (heps : 0 ≤ eps) (h : (x.inter y).isEmpty = false) :
    y.Spares x eps ↔ (x.inter y).isTighter x eps = false := by
  rw [inter_eq_of_isEmpty_eq_false h, isTighter, Bool.or_eq_false_iff, raisesInf_eq_false_iff heps,
    lowersSup_eq_false_iff heps]
  exact ⟨fun h => ⟨h.inf, h.sup⟩, fun h => ⟨h.1, h.2⟩⟩

/-- **Narrowing keeps an interval spared.** -/
theorem Spares.of_narrowsTo (h : y.Spares x eps) (h₀ : 0 ≤ eps) (h₁ : eps ≤ 1) (hn : NarrowsTo x z) :
    y.Spares z eps where
  inf := by
    rcases h.inf with hle | ⟨hinf, hle⟩
    · exact Or.inl (le_trans hle hn.inf_le)
    by_cases hsup : z.inf < posInf
    · exact Or.inr ⟨lt_of_lt_of_le hinf hn.inf_le,
        le_trans hle (LinearScalar.add_margin_le h₀ h₁ hinf hn.inf_le hsup)⟩
    · exact Or.inl (le_trans (le_posInf _) (LinearScalar.le_of_not_lt hsup))
  sup := by
    rcases h.sup with hle | ⟨hsup, hle⟩
    · exact Or.inl (le_trans hn.sup_le hle)
    by_cases hinf : negInf < z.sup
    · exact Or.inr ⟨lt_of_le_of_lt hn.sup_le hsup,
        le_trans (LinearScalar.sub_margin_le h₀ h₁ hinf hn.sup_le hsup) hle⟩
    · exact Or.inl (le_trans (LinearScalar.le_of_not_lt hinf) (negInf_le _))

/-- With no threshold, bounds that spare an interval hold all of it. -/
theorem Spares.inter_eq (h : y.Spares x 0) (hne : x.isEmpty = false) : x.inter y = x := by
  refine Interval.inter_eq_left ?_ ?_ hne
  · refine h.inf.elim id fun ⟨hinf, hle⟩ => LinearScalar.le_of_not_lt fun hlt => ?_
    exact not_lt_of_le hle (LinearScalar.add_margin_lt hinf hlt)
  · refine h.sup.elim id fun ⟨hsup, hle⟩ => LinearScalar.le_of_not_lt fun hlt => ?_
    exact not_lt_of_le hle (LinearScalar.lt_sub_margin hsup hlt)

/-- What was narrowed strictly is tighter, if there is no threshold. -/
theorem NarrowsStrictlyTo.isTighter (h : NarrowsStrictlyTo x y) : y.isTighter x 0 = true := by
  simp only [Interval.isTighter, raisesInf, lowersSup, Bool.or_eq_true, Bool.and_eq_true, decide_eq_true_iff, bne,
    Bool.not_eq_true', ← Bool.not_eq_true, beq_iff]
  refine h.strict.imp (fun hlt => ⟨?_, ?_⟩) fun hlt => ⟨?_, ?_⟩
  · exact ne_negInf_iff.mpr (lt_of_le_of_lt (negInf_le _) hlt)
  · by_cases hinf : x.inf = negInf
    · exact Or.inl hinf
    · exact Or.inr (LinearScalar.add_margin_lt (ne_negInf_iff.mp hinf) hlt)
  · exact ne_posInf_iff.mpr (lt_of_lt_of_le hlt (le_posInf _))
  · by_cases hsup : x.sup = posInf
    · exact Or.inl hsup
    · exact Or.inr (LinearScalar.lt_sub_margin (ne_posInf_iff.mp hsup) hlt)

end Interval

/-- A table without a threshold takes over what is narrower strictly. -/
theorem BoundTable.tighten_of_narrowsStrictlyTo {t : BoundTable α} {v : VarId} {x : Interval α}
    (ht : t.minTightening = 0) (hx : x.isEmpty = false) (h : (t.bounds v).NarrowsStrictlyTo x) :
    (t.tighten v x).2 = .tightened := by
  rw [tighten, h.toNarrowsTo.inter_eq hx, ht, h.isTighter, if_neg (Bool.eq_false_iff.mp hx), if_pos rfl]

end IntervalDag
