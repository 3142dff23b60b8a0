import IntervalDag.Proofs.Interval.Membership
import IntervalDag.Proofs.Scalar.Thresholds

/-!
# Narrowing of bounds

An interval narrows another one if no end lies further out. Narrowing is transitive, as long as one keeps to ends
that are numbers; an end that is not a number may become any.

A bound table whose threshold is not negative takes a domain over only if it narrows the one before strictly
(`BoundTable.tighten_cases`), and what a table of domains lost it does not regain (`BoundTable.Narrowed.trans`).
-/

namespace IntervalDag

variable {α : Type} [Scalar α]

open Scalar

namespace Interval

/-- No end of `y` lies further out than that of `x`. -/
structure NarrowsTo (x y : Interval α) : Prop where
  inf : y.inf = x.inf ∨ x.inf < y.inf ∨ isNaN x.inf = true
  sup : y.sup = x.sup ∨ y.sup < x.sup ∨ isNaN x.sup = true

/-- An end of `y` lies further in than that of `x`, and none further out. -/
structure NarrowsStrictlyTo (x y : Interval α) : Prop extends NarrowsTo x y where
  strict : x.inf < y.inf ∨ y.sup < x.sup

variable {x y z : Interval α}

theorem NarrowsTo.refl (x : Interval α) : NarrowsTo x x := ⟨Or.inl rfl, Or.inl rfl⟩

variable [ThresholdScalar α]

theorem NarrowsTo.trans (h₁ : NarrowsTo x y) (h₂ : NarrowsTo y z) : NarrowsTo x z where
  inf := by
    rcases h₁.inf with heq | hlt | hnan
    · exact heq ▸ h₂.inf
    · rcases h₂.inf with heq | hlt' | hnan
      · exact Or.inr (Or.inl (heq ▸ hlt))
      · exact Or.inr (Or.inl (ThresholdScalar.lt_trans hlt hlt'))
      · rw [isNaN_right_of_lt hlt] at hnan
        cases hnan
    · exact Or.inr (Or.inr hnan)
  sup := by
    rcases h₁.sup with heq | hlt | hnan
    · exact heq ▸ h₂.sup
    · rcases h₂.sup with heq | hlt' | hnan
      · exact Or.inr (Or.inl (heq ▸ hlt))
      · exact Or.inr (Or.inl (ThresholdScalar.lt_trans hlt' hlt))
      · rw [isNaN_left_of_lt hlt] at hnan
        cases hnan
    · exact Or.inr (Or.inr hnan)

/-- What was lost stays lost. -/
theorem NarrowsStrictlyTo.trans (h₁ : NarrowsStrictlyTo x y) (h₂ : NarrowsTo y z) : NarrowsStrictlyTo x z where
  toNarrowsTo := h₁.toNarrowsTo.trans h₂
  strict := by
    rcases h₁.strict with hlt | hlt
    · rcases h₂.inf with heq | hlt' | hnan
      · exact Or.inl (heq ▸ hlt)
      · exact Or.inl (ThresholdScalar.lt_trans hlt hlt')
      · rw [isNaN_right_of_lt hlt] at hnan
        cases hnan
    · rcases h₂.sup with heq | hlt' | hnan
      · exact Or.inr (heq ▸ hlt)
      · exact Or.inr (ThresholdScalar.lt_trans hlt' hlt)
      · rw [isNaN_left_of_lt hlt] at hnan
        cases hnan

/-- A meet that is not empty has the inner ones of the ends. -/
theorem inter_eq_of_isEmpty_eq_false (h : (x.inter y).isEmpty = false) :
    x.inter y = ⟨maxNum x.inf y.inf, minNum x.sup y.sup⟩ := by
  rw [inter] at h ⊢
  split at h
  · rw [isEmpty, decide_eq_false_iff_not] at h
    exact absurd ThresholdScalar.negInf_lt_posInf h
  · rename_i hne
    rw [if_neg hne]

omit [ThresholdScalar α] in
theorem narrowsTo_inter (h : x.inter y = ⟨maxNum x.inf y.inf, minNum x.sup y.sup⟩) : NarrowsTo x (x.inter y) := by
  rw [h]
  constructor
  · change maxNum x.inf y.inf = x.inf ∨ x.inf < maxNum x.inf y.inf ∨ _
    rw [maxNum]
    split_ifs with hlt hnan
    · exact Or.inr (Or.inl hlt)
    · exact Or.inr (Or.inr hnan)
    · exact Or.inl rfl
  · change minNum x.sup y.sup = x.sup ∨ minNum x.sup y.sup < x.sup ∨ _
    rw [minNum]
    split_ifs with hlt hnan
    · exact Or.inr (Or.inl hlt)
    · exact Or.inr (Or.inr hnan)
    · exact Or.inl rfl

/-- **Improving by more than a threshold is improving.** -/
theorem narrowsStrictlyTo_inter {eps : α} (heps : 0 ≤ eps) (hempty : (x.inter y).isEmpty = false)
    (htight : (x.inter y).isTighter x eps = true) : NarrowsStrictlyTo x (x.inter y) where
  toNarrowsTo := narrowsTo_inter (inter_eq_of_isEmpty_eq_false hempty)
  strict := by
    have hnarrows := narrowsTo_inter (inter_eq_of_isEmpty_eq_false hempty)
    rw [isTighter, Bool.or_eq_true, raisesInf, lowersSup] at htight
    simp only [Bool.and_eq_true, Bool.or_eq_true, decide_eq_true_eq] at htight
    rcases htight with ⟨hfinite, hinf | hlt⟩ | ⟨hfinite, hsup | hlt⟩
    · -- an end at infinity can only have moved inward
      rcases hnarrows.inf with heq | hlt | hnan
      · rw [heq, bne, hinf] at hfinite
        cases hfinite
      · exact Or.inl hlt
      · rw [isNaN_of_beq hinf] at hnan
        cases hnan
    · exact Or.inl (ThresholdScalar.lt_of_add_lt heps hlt)
    · rcases hnarrows.sup with heq | hlt | hnan
      · rw [heq, bne, hsup] at hfinite
        cases hfinite
      · exact Or.inr hlt
      · rw [isNaN_of_beq hsup] at hnan
        cases hnan
    · exact Or.inr (ThresholdScalar.lt_of_lt_sub heps hlt)

end Interval

namespace BoundTable

/-- Some domain was narrowed strictly, and no end of a domain lies further out. -/
structure Narrowed (t t' : BoundTable α) : Prop where
  each : ∀ v, (t.bounds v).NarrowsTo (t'.bounds v)
  some : ∃ v, (t.bounds v).NarrowsStrictlyTo (t'.bounds v)

variable [ThresholdScalar α] {t t₁ t₂ : BoundTable α}

/-- A domain that was narrowed is not widened again. -/
theorem Narrowed.trans (h₁ : Narrowed t t₁) (h₂ : Narrowed t₁ t₂) : Narrowed t t₂ where
  each v := (h₁.each v).trans (h₂.each v)
  some := by
    obtain ⟨v, hv⟩ := h₁.some
    exact ⟨v, hv.trans (h₂.each v)⟩

/-- **Tightening a table** leaves it as it was, or sets a domain to a part of it that is not empty and lost a value. -/
theorem tighten_eq_set (hmin : 0 ≤ t.minTightening) (v : VarId) (x : Interval α) :
    (t.tighten v x).2 ≠ .tightened ∧ (t.tighten v x).1 = t ∨
      (t.tighten v x).2 = .tightened ∧ ∃ y, (t.tighten v x).1 = t.set v y ∧ y.isEmpty = false ∧
        (t.bounds v).NarrowsStrictlyTo y := by
  rw [tighten]
  split_ifs with hempty htight
  · exact Or.inl ⟨by simp, rfl⟩
  · have hempty := Bool.eq_false_iff.mpr hempty
    exact Or.inr ⟨rfl, _, rfl, hempty, Interval.narrowsStrictlyTo_inter hmin hempty htight⟩
  · exact Or.inl ⟨by simp, rfl⟩

omit [ThresholdScalar α] in
/-- Setting a domain to a part of it that lost a value narrows the table. -/
theorem narrowed_set {v : VarId} {y : Interval α} (h : (t.bounds v).NarrowsStrictlyTo y) : t.Narrowed (t.set v y) := by
  refine ⟨fun w => ?_, v, ?_⟩
  · rw [bounds_set]
    split_ifs with hw
    · exact hw ▸ h.toNarrowsTo
    · exact .refl _
  · rwa [bounds_set, if_pos rfl]

/-- **Tightening a table** leaves it as it was, or narrows a domain strictly. -/
theorem tighten_cases (hmin : 0 ≤ t.minTightening) (v : VarId) (x : Interval α) :
    (t.tighten v x).2 ≠ .tightened ∧ (t.tighten v x).1 = t ∨
      (t.tighten v x).2 = .tightened ∧ (t.tighten v x).1.minTightening = t.minTightening ∧
        t.Narrowed (t.tighten v x).1 := by
  refine (tighten_eq_set hmin v x).imp_right ?_
  rintro ⟨hchange, y, heq, -, hnarrows⟩
  rw [heq]
  exact ⟨hchange, rfl, narrowed_set hnarrows⟩

end BoundTable

/-! ### Values that are kept and lost -/

namespace Interval

variable [ComparableScalar α] {x y : Interval α} {a : α}

/-- The ends of an interval with values are numbers, in order. -/
theorem ends_of_mem (h : a ∈ x) : x.inf ≤ x.inf ∧ x.sup ≤ x.sup ∧ x.inf ≤ x.sup := by
  obtain ⟨hinf, hsup⟩ := mem_iff.mp h
  exact ⟨ThresholdScalar.self_le hinf, OrderedScalar.le_self hsup, ComparableScalar.le_trans hinf hsup⟩

/-- Narrowing an interval with values moves no end outward. -/
theorem NarrowsTo.ends_of_mem (h : NarrowsTo x y) (ha : a ∈ x) : x.inf ≤ y.inf ∧ y.sup ≤ x.sup := by
  obtain ⟨hinf, hsup, -⟩ := Interval.ends_of_mem ha
  constructor
  · rcases h.inf with heq | hlt | hnan
    · exact heq ▸ hinf
    · exact ThresholdScalar.le_of_lt hlt
    · rw [isNaN_of_self_le hinf] at hnan
      cases hnan
  · rcases h.sup with heq | hlt | hnan
    · exact heq ▸ hsup
    · exact ThresholdScalar.le_of_lt hlt
    · rw [isNaN_of_self_le hsup] at hnan
      cases hnan

/-- No values are gained. -/
theorem NarrowsTo.mem_of_mem (h : NarrowsTo x y) (hx : ∃ b, b ∈ x) (ha : a ∈ y) : a ∈ x := by
  obtain ⟨b, hb⟩ := hx
  obtain ⟨hinf, hsup⟩ := h.ends_of_mem hb
  obtain ⟨hinf', hsup'⟩ := mem_iff.mp ha
  exact mem_iff.mpr ⟨ComparableScalar.le_trans hinf hinf', ComparableScalar.le_trans hsup' hsup⟩

/-- An interval that is not empty has values, if it is part of one. -/
theorem NarrowsTo.exists_mem (h : NarrowsTo x y) (hx : ∃ b, b ∈ x) (hy : y.isEmpty = false) : ∃ b, b ∈ y := by
  obtain ⟨b, hb⟩ := hx
  obtain ⟨hinf, hsup⟩ := h.ends_of_mem hb
  have hyinf := OrderedScalar.le_self hinf
  have hysup := ThresholdScalar.self_le hsup
  exact ⟨y.inf, mem_iff.mpr ⟨hyinf, ComparableScalar.le_of_not_lt hyinf hysup (of_decide_eq_false hy)⟩⟩

/-- An end that was moved inward was lost. -/
theorem NarrowsStrictlyTo.exists_lost (h : NarrowsStrictlyTo x y) (hx : ∃ b, b ∈ x) : ∃ b, b ∈ x ∧ b ∉ y := by
  obtain ⟨b, hb⟩ := hx
  obtain ⟨hinf, hsup, hends⟩ := Interval.ends_of_mem hb
  rcases h.strict with hlt | hlt
  · refine ⟨x.inf, mem_iff.mpr ⟨hinf, hends⟩, fun hmem => ?_⟩
    exact OrderedScalar.not_lt (mem_iff.mp hmem).1 hinf hlt
  · refine ⟨x.sup, mem_iff.mpr ⟨hends, hsup⟩, fun hmem => ?_⟩
    exact OrderedScalar.not_lt hsup (mem_iff.mp hmem).2 hlt

end Interval

namespace BoundTable

variable [ThresholdScalar α] {t t₁ t₂ : BoundTable α}

/-- Each domain stayed as it was, or is a part that is not empty and lost a value. -/
def Shrunk (t t' : BoundTable α) : Prop :=
  ∀ v, t'.bounds v = t.bounds v ∨ (t'.bounds v).isEmpty = false ∧ (t.bounds v).NarrowsStrictlyTo (t'.bounds v)

omit [ThresholdScalar α] in
theorem Shrunk.refl (t : BoundTable α) : t.Shrunk t := fun _ => Or.inl rfl

theorem Shrunk.trans (h₁ : Shrunk t t₁) (h₂ : Shrunk t₁ t₂) : Shrunk t t₂ := by
  intro v
  rcases h₁ v with heq₁ | ⟨hempty₁, hstrict₁⟩
  · rw [← heq₁]
    exact h₂ v
  · rcases h₂ v with heq₂ | ⟨hempty₂, hstrict₂⟩
    · rw [heq₂]
      exact Or.inr ⟨hempty₁, hstrict₁⟩
    · exact Or.inr ⟨hempty₂, hstrict₁.trans hstrict₂.toNarrowsTo⟩

omit [ThresholdScalar α] in
theorem shrunk_set {v : VarId} {y : Interval α} (hempty : y.isEmpty = false) (h : (t.bounds v).NarrowsStrictlyTo y) :
    t.Shrunk (t.set v y) := by
  intro w
  rw [bounds_set]
  split_ifs with hw
  · exact Or.inr ⟨hempty, hw ▸ h⟩
  · exact Or.inl rfl

end BoundTable

end IntervalDag
