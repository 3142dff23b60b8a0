import IntervalDag.Proofs.Interval.Narrowing

/-!
# Intervals that lie in another one

An interval lies in another one if no end of it is further out. Ends need not be numbers for that: an end that is not
a number is further out than any that is. With this order the meet of two intervals is their greatest lower bound, as
far as it is not empty, and meeting an interval with one that it lies in does not improve it by any threshold
(`Interval.LiesIn.not_isTighter`).

Equality of ends is not enough here. The meet of two intervals may have a zero of the other sign than either of
them has, which lies at the same place all the same.
-/

namespace IntervalDag

open Scalar

variable {α : Type} [Scalar α]

/-! ### Greater and smaller ends -/

namespace Scalar

variable {a b c : α}

theorem maxNum_eq_or (a b : α) : maxNum a b = a ∨ maxNum a b = b := by
  unfold maxNum
  split_ifs
  · exact Or.inr rfl
  · exact Or.inr rfl
  · exact Or.inl rfl

theorem minNum_eq_or (a b : α) : minNum a b = a ∨ minNum a b = b := by
  unfold minNum
  split_ifs
  · exact Or.inr rfl
  · exact Or.inr rfl
  · exact Or.inl rfl

/-- A value stays if the other one is not greater. -/
theorem maxNum_of_not_lt (h : ¬ a < b) (ha : isNaN a = false) : maxNum a b = a := by
  rw [maxNum, if_neg h, if_neg (Bool.eq_false_iff.mp ha)]

theorem minNum_of_not_lt (h : ¬ b < a) (ha : isNaN a = false) : minNum a b = a := by
  rw [minNum, if_neg h, if_neg (Bool.eq_false_iff.mp ha)]

variable [ThresholdScalar α]

theorem self_le_of_isNaN (h : isNaN a = false) : a ≤ a := by
  rw [isNaN, Bool.not_eq_false'] at h
  exact ThresholdScalar.le_of_beq h

theorem not_lt_of_isNaN_left (h : isNaN a = true) : ¬ a < b := fun hlt => by
  rw [isNaN_left_of_lt hlt] at h
  cases h

theorem not_lt_of_isNaN_right (h : isNaN b = true) : ¬ a < b := fun hlt => by
  rw [isNaN_right_of_lt hlt] at h
  cases h

theorem not_lt_of_lt (h : a < b) : ¬ b < a := fun hlt => lt_irrefl a (ThresholdScalar.lt_trans h hlt)

theorem not_maxNum_lt_left (a b : α) : ¬ maxNum a b < a := by
  unfold maxNum
  split_ifs with hlt hnan
  · exact not_lt_of_lt hlt
  · exact not_lt_of_isNaN_right hnan
  · exact lt_irrefl a

theorem not_maxNum_lt_right (a b : α) : ¬ maxNum a b < b := by
  unfold maxNum
  split_ifs with hlt hnan
  · exact lt_irrefl b
  · exact lt_irrefl b
  · exact hlt

theorem not_lt_minNum_left (a b : α) : ¬ a < minNum a b := by
  unfold minNum
  split_ifs with hlt hnan
  · exact not_lt_of_lt hlt
  · exact not_lt_of_isNaN_left hnan
  · exact lt_irrefl a

theorem not_lt_minNum_right (a b : α) : ¬ b < minNum a b := by
  unfold minNum
  split_ifs with hlt hnan
  · exact lt_irrefl b
  · exact lt_irrefl b
  · exact hlt

/-- The greater of two values is a number if one of them is. -/
theorem isNaN_maxNum (a b : α) : isNaN (maxNum a b) = (isNaN a && isNaN b) := by
  unfold maxNum
  split_ifs with hlt hnan
  · rw [isNaN_left_of_lt hlt, isNaN_right_of_lt hlt, Bool.and_self]
  · rw [hnan, Bool.true_and]
  · rw [Bool.eq_false_iff.mpr hnan, Bool.false_and]

theorem isNaN_minNum (a b : α) : isNaN (minNum a b) = (isNaN a && isNaN b) := by
  unfold minNum
  split_ifs with hlt hnan
  · rw [isNaN_left_of_lt hlt, isNaN_right_of_lt hlt, Bool.and_self]
  · rw [hnan, Bool.true_and]
  · rw [Bool.eq_false_iff.mpr hnan, Bool.false_and]

/-- Not being below is transitive, as long as what is in between is a number. -/
theorem not_lt_trans {α : Type} [Scalar α] [ComparableScalar α] {a b c : α} (h₁ : ¬ a < b) (h₂ : ¬ b < c)
    (hb : isNaN b = false) : ¬ a < c := fun hlt => by
  have ha := self_le_of_isNaN (isNaN_left_of_lt hlt)
  have hc := self_le_of_isNaN (isNaN_right_of_lt hlt)
  have hb := self_le_of_isNaN hb
  exact OrderedScalar.not_lt (ComparableScalar.le_of_not_lt hc hb h₂) (ComparableScalar.le_of_not_lt hb ha h₁) hlt

end Scalar

namespace Interval

/-! ### The order -/

/-- No end of `x` lies further out than that of `y`. -/
structure LiesIn (x y : Interval α) : Prop where
  inf : ¬ x.inf < y.inf
  sup : ¬ y.sup < x.sup
  isNaN_inf : isNaN x.inf = true → isNaN y.inf = true
  isNaN_sup : isNaN x.sup = true → isNaN y.sup = true

variable {x y z : Interval α} {eps : α}

theorem isEmpty_eq_false_iff : x.isEmpty = false ↔ ¬ x.sup < x.inf := decide_eq_false_iff_not

variable [ThresholdScalar α]

theorem LiesIn.refl (x : Interval α) : x.LiesIn x := ⟨Scalar.lt_irrefl _, Scalar.lt_irrefl _, id, id⟩

/-- The inner ones of the ends lie in both intervals. -/
theorem inner_liesIn_left (x y : Interval α) : LiesIn ⟨maxNum x.inf y.inf, minNum x.sup y.sup⟩ x where
  inf := not_maxNum_lt_left _ _
  sup := not_lt_minNum_left _ _
  isNaN_inf h := (Bool.and_eq_true_iff.mp ((isNaN_maxNum _ _).symm.trans h)).1
  isNaN_sup h := (Bool.and_eq_true_iff.mp ((isNaN_minNum _ _).symm.trans h)).1

theorem inner_liesIn_right (x y : Interval α) : LiesIn ⟨maxNum x.inf y.inf, minNum x.sup y.sup⟩ y where
  inf := not_maxNum_lt_right _ _
  sup := not_lt_minNum_right _ _
  isNaN_inf h := (Bool.and_eq_true_iff.mp ((isNaN_maxNum _ _).symm.trans h)).2
  isNaN_sup h := (Bool.and_eq_true_iff.mp ((isNaN_minNum _ _).symm.trans h)).2

theorem inter_liesIn_left (h : (x.inter y).isEmpty = false) : (x.inter y).LiesIn x :=
  inter_eq_of_isEmpty_eq_false h ▸ inner_liesIn_left x y

theorem inter_liesIn_right (h : (x.inter y).isEmpty = false) : (x.inter y).LiesIn y :=
  inter_eq_of_isEmpty_eq_false h ▸ inner_liesIn_right x y

omit [ThresholdScalar α] in
/-- What lies in two intervals lies between the inner ones of their ends. -/
theorem LiesIn.inner (hx : z.LiesIn x) (hy : z.LiesIn y) : z.LiesIn ⟨maxNum x.inf y.inf, minNum x.sup y.sup⟩ where
  inf := by rcases maxNum_eq_or x.inf y.inf with heq | heq <;> rw [heq]; exacts [hx.inf, hy.inf]
  sup := by rcases minNum_eq_or x.sup y.sup with heq | heq <;> rw [heq]; exacts [hx.sup, hy.sup]
  isNaN_inf h := by
    rcases maxNum_eq_or x.inf y.inf with heq | heq <;> rw [heq]; exacts [hx.isNaN_inf h, hy.isNaN_inf h]
  isNaN_sup h := by
    rcases minNum_eq_or x.sup y.sup with heq | heq <;> rw [heq]; exacts [hx.isNaN_sup h, hy.isNaN_sup h]

/-- Each value of an interval being one of another, the first lies in the second unless it is empty. -/
theorem liesIn_of_isSubset (h : x.isSubset y = true) (hx : x.isEmpty = false) : x.LiesIn y := by
  rw [isSubset, hx, Bool.false_or, Bool.and_eq_true, decide_eq_true_iff, decide_eq_true_iff] at h
  have hinf := OrderedScalar.le_self h.1
  have hsup := ThresholdScalar.self_le h.2
  refine ⟨OrderedScalar.not_lt h.1 hinf, OrderedScalar.not_lt hsup h.2, fun hnan => ?_, fun hnan => ?_⟩
  · rw [isNaN_of_self_le hinf] at hnan
    cases hnan
  · rw [isNaN_of_self_le hsup] at hnan
    cases hnan

end Interval

namespace Interval

variable [ComparableScalar α] {x y z : Interval α} {eps : α}

theorem LiesIn.trans (h₁ : x.LiesIn y) (h₂ : y.LiesIn z) : x.LiesIn z where
  inf := fun hlt => by
    have hy : isNaN y.inf = false := Bool.eq_false_iff.mpr fun hnan => not_lt_of_isNaN_right (h₂.isNaN_inf hnan) hlt
    exact not_lt_trans h₁.inf h₂.inf hy hlt
  sup := fun hlt => by
    have hy : isNaN y.sup = false := Bool.eq_false_iff.mpr fun hnan => not_lt_of_isNaN_left (h₂.isNaN_sup hnan) hlt
    exact not_lt_trans h₂.sup h₁.sup hy hlt
  isNaN_inf := h₂.isNaN_inf ∘ h₁.isNaN_inf
  isNaN_sup := h₂.isNaN_sup ∘ h₁.isNaN_sup

/-- What an interval lies in is not empty if the interval is not. -/
theorem LiesIn.isEmpty_eq_false (h : x.LiesIn y) (hx : x.isEmpty = false) : y.isEmpty = false := by
  rw [isEmpty_eq_false_iff] at hx ⊢
  intro hlt
  have hinf : isNaN x.inf = false := Bool.eq_false_iff.mpr fun hnan => not_lt_of_isNaN_right (h.isNaN_inf hnan) hlt
  have hsup : isNaN x.sup = false := Bool.eq_false_iff.mpr fun hnan => not_lt_of_isNaN_left (h.isNaN_sup hnan) hlt
  exact not_lt_trans h.sup (not_lt_trans hx h.inf hinf) hsup hlt

/-- **Greatest lower bounds.** What lies in two intervals lies in their meet. -/
theorem LiesIn.inter (hx : z.LiesIn x) (hy : z.LiesIn y) (hz : z.isEmpty = false) :
    (x.inter y).isEmpty = false ∧ z.LiesIn (x.inter y) := by
  have hinner := hx.inner hy
  have hne := hinner.isEmpty_eq_false hz
  rw [Interval.inter, if_neg (Bool.eq_false_iff.mp hne)]
  exact ⟨hne, hinner⟩

/-- A meet that is not empty is one of intervals that are not. -/
theorem isEmpty_eq_false_of_inter (h : (x.inter y).isEmpty = false) : x.isEmpty = false ∧ y.isEmpty = false :=
  ⟨(inter_liesIn_left h).isEmpty_eq_false h, (inter_liesIn_right h).isEmpty_eq_false h⟩

/-- **Nothing is gained from an interval around.** The meet is not empty, and tighter by no threshold. -/
theorem LiesIn.not_isTighter (h : x.LiesIn y) (hx : x.isEmpty = false) (heps : 0 ≤ eps) :
    (x.inter y).isEmpty = false ∧ (x.inter y).isTighter x eps = false := by
  obtain ⟨hne, hlies⟩ := (LiesIn.refl x).inter h hx
  refine ⟨hne, ?_⟩
  have heq := inter_eq_of_isEmpty_eq_false hne
  rw [isTighter, Bool.or_eq_false_iff, raisesInf, lowersSup, Bool.and_eq_false_iff, Bool.or_eq_false_iff,
    Bool.and_eq_false_iff, Bool.or_eq_false_iff, decide_eq_false_iff_not, decide_eq_false_iff_not]
  constructor
  · rcases hinf : x.inf == negInf with _ | _
    · exact Or.inr ⟨rfl, fun hlt => hlies.inf (ThresholdScalar.lt_of_add_lt heps hlt)⟩
    · -- the end is at infinity already
      refine Or.inl ?_
      rw [heq, bne, maxNum_of_not_lt h.inf (isNaN_of_beq hinf), hinf]
      rfl
  · rcases hsup : x.sup == posInf with _ | _
    · exact Or.inr ⟨rfl, fun hlt => hlies.sup (ThresholdScalar.lt_of_lt_sub heps hlt)⟩
    · refine Or.inl ?_
      rw [heq, bne, minNum_of_not_lt h.sup (isNaN_of_beq hsup), hsup]
      rfl

/-! ### Values -/

/-- An interval both ends of which are numbers. -/
def HasNumbers (x : Interval α) : Prop := isNaN x.inf = false ∧ isNaN x.sup = false

instance (x : Interval α) : Decidable x.HasNumbers := inferInstanceAs (Decidable (_ ∧ _))

theorem LiesIn.mem (h : x.LiesIn y) (hy : y.HasNumbers) {v : α} (hv : v ∈ x) : v ∈ y := by
  obtain ⟨hinf, hsup⟩ := mem_iff.mp hv
  have hyinf := ComparableScalar.le_of_not_lt (self_le_of_isNaN hy.1) (ThresholdScalar.self_le hinf) h.inf
  have hysup := ComparableScalar.le_of_not_lt (OrderedScalar.le_self hsup) (self_le_of_isNaN hy.2) h.sup
  exact mem_iff.mpr ⟨ComparableScalar.le_trans hyinf hinf, ComparableScalar.le_trans hsup hysup⟩

/-- **Intervals that do not meet.** With numbers for ends, a meet is empty if no value lies in both intervals. -/
theorem isEmpty_inter_iff (hx : x.HasNumbers) (hy : y.HasNumbers) :
    (x.inter y).isEmpty = true ↔ ∀ v ∈ x, v ∉ y := by
  constructor
  · intro hempty v hvx hvy
    rw [isEmpty_of_mem (mem_inter hvx hvy)] at hempty
    cases hempty
  · intro h
    by_contra hne
    have hne := Bool.eq_false_iff.mpr hne
    -- the lower end of the meet is in both
    have hmem : (x.inter y).inf ∈ x.inter y := by
      have hlt := isEmpty_eq_false_iff.mp hne
      rw [inter_eq_of_isEmpty_eq_false hne] at hlt ⊢
      have hinf := self_le_of_isNaN ((isNaN_maxNum x.inf y.inf).trans (by rw [hx.1, Bool.false_and]))
      have hsup := self_le_of_isNaN ((isNaN_minNum x.sup y.sup).trans (by rw [hx.2, Bool.false_and]))
      exact mem_iff.mpr ⟨hinf, ComparableScalar.le_of_not_lt hinf hsup hlt⟩
    exact h _ ((inter_liesIn_left hne).mem hx hmem) ((inter_liesIn_right hne).mem hy hmem)

end Interval

end IntervalDag
