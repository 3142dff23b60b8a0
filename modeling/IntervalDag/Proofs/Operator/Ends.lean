import IntervalDag.Operator.Table
import IntervalDag.Proofs.Checked

/-!
# Inverse relations come to an end

None of the handlers that operators have from the start is ever cut off while it narrows operands
(`Handler.ends_reverse_default`). They fault at most at ends that are not numbers, at kinds of other operators and
at operands that are missing.
-/

namespace IntervalDag

variable {α β γ : Type}

/-- A computation that is not cut off. It may fault otherwise. -/
def Checked.Ends (x : Checked α β) : Prop := x ≠ .error .diverged

namespace Checked.Ends

theorem pure (b : β) : (Pure.pure b : Checked α β).Ends := nofun

theorem bind {x : Checked α β} {f : β → Checked α γ} (hx : x.Ends) (hf : ∀ b, (f b).Ends) :
    (x >>= f).Ends := by
  cases x with
  | error e => exact fun h => hx (congrArg Except.error (Except.error.inj h))
  | ok b => exact hf b

theorem map {x : Checked α β} (hx : x.Ends) (f : β → γ) : (f <$> x).Ends := by
  rw [map_eq_pure_bind]
  exact hx.bind fun b => pure (f b)

theorem ite {p : Prop} [Decidable p] {x y : Checked α β} (hx : x.Ends) (hy : y.Ends) :
    (if p then x else y).Ends := by
  split
  · exact hx
  · exact hy

theorem get (xs : List β) (i : Nat) : (Checked.get xs i : Checked α β).Ends := by
  unfold Checked.get
  cases xs[i]? with
  | none => exact nofun
  | some b => exact pure b

theorem foldlM {f : γ → β → Checked α γ} (hf : ∀ c b, (f c b).Ends) (xs : List β) (start : γ) :
    (xs.foldlM f start).Ends := by
  induction xs generalizing start with
  | nil => exact pure start
  | cons b xs ih =>
    rw [List.foldlM_cons]
    exact (hf start b).bind ih

end Checked.Ends

variable [Scalar α]

open Checked

/-! ### Interval arithmetic -/

namespace Interval

theorem ends_ofBounds (inf sup : α) : (ofBounds inf sup).Ends := .ite nofun (.pure _)

theorem ends_add (x y : Interval α) : (x.add y).Ends := .ite (.pure _) (ends_ofBounds _ _)

theorem ends_sub (x y : Interval α) : (x.sub y).Ends := .ite (.pure _) (ends_ofBounds _ _)

theorem ends_scale (x : Interval α) (factor : α) : (x.scale factor).Ends :=
  .ite (.pure _) (.ite (ends_ofBounds _ _) (.ite (ends_ofBounds _ _) (ends_ofBounds _ _)))

theorem ends_rayBelow (num den : α) (present : Bool) : (rayBelow num den present).Ends :=
  .ite ((ends_ofBounds _ _).map _) (.pure _)

theorem ends_rayAbove (num den : α) (present : Bool) : (rayAbove num den present).Ends :=
  .ite ((ends_ofBounds _ _).map _) (.pure _)

theorem ends_solutionRays (bounds factor : Interval α) : (solutionRays bounds factor).Ends := by
  refine .ite ?_ ?_
  · exact (ends_rayBelow _ _ _).bind fun left => (ends_rayAbove _ _ _).bind fun right => .pure _
  · exact (ends_rayBelow _ _ _).bind fun left => (ends_rayAbove _ _ _).bind fun right => .pure _

theorem ends_solveProduct (bounds factor within : Interval α) : (solveProduct bounds factor within).Ends := by
  refine .ite (.pure _) (.ite (.pure _) (.ite (.pure _) (.ite (.pure _) ?_)))
  exact (ends_solutionRays _ _).bind fun rays => .pure _

theorem ends_rootsWithin (bounds : Interval α) (p : α) (within : Interval α) :
    (rootsWithin bounds p within).Ends := by
  refine .ite (.pure _) ?_
  cases Scalar.integral? p with
  | some n =>
    refine .ite ((ends_ofBounds _ _).bind fun x => .pure _) (.ite (.pure _) ?_)
    exact (ends_ofBounds _ _).bind fun positive => .pure _
  | none => exact .ite (.pure _) ((ends_ofBounds _ _).bind fun positive => .pure _)

theorem ends_powInverse (bounds : Interval α) (p : α) (within : Interval α) :
    (powInverse bounds p within).Ends := by
  refine .ite (.pure _) (.ite (.pure _) (.ite ?_ (ends_rootsWithin _ _ _)))
  exact (ends_solveProduct _ _ _).bind fun base => ends_rootsWithin _ _ _

end Interval

/-! ### Handlers -/

theorem Handler.ends_narrowFirst {narrow : Interval α → Checked α (Noted α (Interval α))}
    (hnarrow : ∀ x, (narrow x).Ends) (operands : List (Interval α)) : (narrowFirst narrow operands).Ends :=
  (Ends.get _ _).bind fun x => (hnarrow x).bind fun _ => .pure _

theorem Handler.ends_narrowInTurn {narrow : Nat → List (Interval α) → Checked α (Option (Interval α))}
    (hnarrow : ∀ i operands, (narrow i operands).Ends) (positions : List Nat) (operands : List (Interval α)) :
    (narrowInTurn narrow positions operands).Ends := by
  induction positions generalizing operands with
  | nil => exact .pure _
  | cons i positions ih =>
    refine (hnarrow i operands).bind fun x => ?_
    cases x with
    | none => exact ih operands
    | some x => exact .ite (.pure _) (ih _)

theorem WeightedSum.ends_reverse (k : Kind α) (bounds : Interval α) (operands : List (Interval α)) :
    (reverse k bounds operands).Ends := by
  have hparts : (parts k : Checked α _).Ends := by
    cases k with
    | sum coefs constant => exact .pure _
    | _ => exact nofun
  have hrange : ∀ start terms, (range start terms : Checked α (Interval α)).Ends := fun start terms =>
    Ends.foldlM (fun acc (c, x) => (Interval.ends_scale x c).bind fun y => Interval.ends_add acc y) terms start
  refine hparts.bind fun (coefs, constant) => .ite (.pure _) ?_
  refine (Interval.ends_ofBounds _ _).bind fun x => (Interval.ends_sub _ _).bind fun target => ?_
  refine (Handler.ends_narrowInTurn (fun i operands => ?_) _ _).bind fun narrowed => .pure _
  refine (Ends.get _ _).bind fun c => .ite (.pure _) ?_
  refine (Interval.ends_ofBounds _ _).bind fun zero => (hrange _ _).bind fun rest => ?_
  refine (Interval.ends_sub _ _).bind fun left => (Interval.ends_scale _ _).bind fun allowed => ?_
  exact (Ends.get _ _).bind fun x => .pure _

theorem Product.ends_reverse (k : Kind α) (bounds : Interval α) (operands : List (Interval α)) :
    (reverse k bounds operands).Ends := by
  have hcoef : (coef k : Checked α α).Ends := by
    cases k with
    | product c => exact .pure _
    | _ => exact nofun
  refine hcoef.bind fun c => .ite (.pure _) ((Interval.ends_scale _ _).bind fun target => ?_)
  refine (Handler.ends_narrowInTurn (fun i operands => ?_) _ _).bind fun narrowed => .pure _
  exact (Ends.get _ _).bind fun x => (Interval.ends_solveProduct _ _ _).bind fun y => .pure _

theorem Power.ends_reverse (settings : Settings α) (k : Kind α) (bounds : Interval α)
    (operands : List (Interval α)) : (reverse settings k bounds operands).Ends := by
  have hexponent : (exponent k : Checked α α).Ends := by
    cases k with
    | pow p => exact .pure _
    | _ => exact nofun
  refine hexponent.bind fun p => Handler.ends_narrowFirst (fun x => ?_) _
  exact (Interval.ends_powInverse _ _ _).bind fun y => .pure _

/-- **Inverse relations come to an end.** -/
theorem Handler.ends_reverse_default [BitPattern α] (settings : Settings α) (op : Op) (k : Kind α) (bounds : Interval α)
    (operands : List (Interval α)) : ((Handler.default settings op).reverse k bounds operands).Ends := by
  cases op with
  | var => exact .pure _
  | value => exact .pure _
  | sum => exact WeightedSum.ends_reverse k bounds operands
  | product => exact Product.ends_reverse k bounds operands
  | pow => exact Power.ends_reverse settings k bounds operands
  | _ => exact ends_narrowFirst (fun _ => .pure _) _

end IntervalDag
