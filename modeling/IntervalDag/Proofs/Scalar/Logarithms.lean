import IntervalDag.Proofs.Scalar.Exact

/-!
# Exact arithmetic with any logarithm

`ExactWith ln` is exact arithmetic whose logarithm is a given strictly increasing map of the numbers above zero onto the
reals, and whose exponential function is its inverse. The natural logarithm is one of these maps (`ExactWith.natural`).
What the ends of an interval are taken to orders the real numbers as the ends do (`ExactWith.exists_ln`,
`ExactWith.exists_exp`), which is all that the theory of poles asks of logarithms.
-/

namespace IntervalDag

open Scalar Exact

namespace Exact

variable {f : ℝ → Exact} {bot top : Exact}

theorem lift_bot : lift f bot top (number ⊥) = bot := by rw [lift, if_pos rfl]

theorem lift_top : lift f bot top (number ⊤) = top := by rw [lift, if_neg top_ne_bot, if_pos rfl]

theorem lift_real (r : ℝ) : lift f bot top (real r) = f r := by
  rw [real, lift, if_neg (EReal.coe_ne_bot r), if_neg (EReal.coe_ne_top r), EReal.toReal_coe]

end Exact

/-- Exact arithmetic in which `ln` is the logarithm. -/
def ExactWith (_ : Set.Ioi (0 : ℝ) ≃o ℝ) : Type := Exact

namespace ExactWith

variable {ln : Set.Ioi (0 : ℝ) ≃o ℝ} {a : EReal} {r : ℝ}

open Classical in
noncomputable instance : Scalar (ExactWith ln) :=
  { (inferInstance : Scalar Exact) with
    exp := lift (fun r => real (ln.symm r)) (number 0) (number ⊤)
    ln := lift (fun r => if h : 0 < r then real (ln ⟨r, h⟩) else if r = 0 then number ⊥ else nan) nan (number ⊤) }

/-- The natural logarithm as a map of the numbers above zero onto the reals. -/
noncomputable abbrev natural : Set.Ioi (0 : ℝ) ≃o ℝ := Real.expOrderIso.symm

/-! ### Ends -/

theorem ln_real (h : 0 < r) : (Scalar.ln : ExactWith ln → ExactWith ln) (real r) = real (ln ⟨r, h⟩) :=
  (lift_real r).trans (dif_pos h)

theorem ln_zero : (Scalar.ln : ExactWith ln → ExactWith ln) (real 0) = number ⊥ :=
  (lift_real 0).trans ((dif_neg le_rfl.not_gt).trans (if_pos rfl))

/-- **Logarithms of ends** order the logarithms of real numbers as the ends order the numbers. -/
theorem exists_ln (ln : Set.Ioi (0 : ℝ) ≃o ℝ) (ha : 0 ≤ a) :
    ∃ c : EReal, (Scalar.ln : ExactWith ln → ExactWith ln) (number a) = number c ∧
      ∀ (r : ℝ) (h : 0 < r), (a ≤ r → c ≤ ln ⟨r, h⟩) ∧ (r ≤ a → ln ⟨r, h⟩ ≤ c) := by
  induction a with
  | bot => exact absurd ha EReal.bot_lt_zero.not_ge
  | coe v =>
    rcases (EReal.coe_nonneg.mp ha).eq_or_lt with rfl | hv
    · exact ⟨⊥, ln_zero, fun r h => ⟨fun _ => bot_le, fun hr => absurd (EReal.coe_le_coe_iff.mp hr) h.not_ge⟩⟩
    · exact ⟨ln ⟨v, hv⟩, ln_real hv, fun r h =>
        ⟨fun hr => EReal.coe_le_coe_iff.mpr (ln.monotone (EReal.coe_le_coe_iff.mp hr)),
          fun hr => EReal.coe_le_coe_iff.mpr (ln.monotone (EReal.coe_le_coe_iff.mp hr))⟩⟩
  | top => exact ⟨⊤, lift_top, fun r h => ⟨fun hr => absurd hr (EReal.coe_lt_top r).not_ge, fun _ => le_top⟩⟩

/-- **Exponentials of ends** order real numbers as the ends order their logarithms. -/
theorem exists_exp (ln : Set.Ioi (0 : ℝ) ≃o ℝ) (a : EReal) :
    ∃ c : EReal, (Scalar.exp : ExactWith ln → ExactWith ln) (number a) = number c ∧
      ∀ (r : ℝ) (h : 0 < r), (a ≤ ln ⟨r, h⟩ → c ≤ r) ∧ (ln ⟨r, h⟩ ≤ a → r ≤ c) := by
  induction a with
  | bot =>
    refine ⟨0, lift_bot, fun r h => ⟨fun _ => EReal.coe_nonneg.mpr h.le, fun hr => ?_⟩⟩
    exact absurd hr (EReal.bot_lt_coe _).not_ge
  | coe v =>
    refine ⟨(ln.symm v : ℝ), lift_real v, fun r h => ⟨fun hr => ?_, fun hr => ?_⟩⟩
    · exact EReal.coe_le_coe_iff.mpr (ln.symm_apply_le.mpr (EReal.coe_le_coe_iff.mp hr))
    · exact EReal.coe_le_coe_iff.mpr (ln.le_symm_apply.mpr (EReal.coe_le_coe_iff.mp hr))
  | top => exact ⟨⊤, lift_top, fun r h => ⟨fun hr => absurd hr (EReal.coe_lt_top _).not_ge, fun _ => le_top⟩⟩

end ExactWith

end IntervalDag
