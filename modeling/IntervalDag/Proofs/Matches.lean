import IntervalDag.Loop
import IntervalDag.Proofs.Checked

/-!
# Computations that come to the same

`Matches R x y` says that two checked computations meet the same fault or have results that the relation `R` relates.
It is proved along two programs of the same shape, with a rule for each part of a program. Loops match if their turns
do.
-/

namespace IntervalDag

variable {α β γ δ ε σ τ : Type}

/-- Two computations meet the same fault, or have results in a relation. -/
def Matches (R : β → γ → Prop) : Checked α β → Checked α γ → Prop
  | .ok b, .ok c => R b c
  | .error e, .error e' => e = e'
  | _, _ => False

theorem Matches.refl (x : Checked α β) : Matches Eq x x := by
  cases x with
  | error e => exact rfl
  | ok b => exact rfl

theorem Matches.imp {R S : β → γ → Prop} {x : Checked α β} {y : Checked α γ} (h : Matches R x y)
    (hRS : ∀ b c, R b c → S b c) : Matches S x y := by
  cases x with
  | error e =>
    cases y with
    | error e' => exact h
    | ok c => exact h
  | ok b =>
    cases y with
    | error e' => exact h
    | ok c => exact hRS b c h

theorem Matches.bind {R : β → γ → Prop} {S : δ → ε → Prop} {x : Checked α β} {y : Checked α γ}
    (h : Matches R x y) {f : β → Checked α δ} {k : γ → Checked α ε}
    (hf : ∀ b c, R b c → Matches S (f b) (k c)) : Matches S (x >>= f) (y >>= k) := by
  cases x with
  | error e =>
    cases y with
    | error e' => exact h
    | ok c => exact h.elim
  | ok b =>
    cases y with
    | error e' => exact h.elim
    | ok c => exact hf b c h

/-- Computations with the same results go on alike if they do for each result. -/
theorem Matches.bind_eq {S : δ → ε → Prop} {x y : Checked α β} (h : Matches Eq x y) {f : β → Checked α δ}
    {k : β → Checked α ε} (hf : ∀ b, Matches S (f b) (k b)) : Matches S (x >>= f) (y >>= k) := by
  refine h.bind fun b c hbc => ?_
  rw [← hbc]
  exact hf b

theorem Matches.map {R : β → γ → Prop} {S : δ → ε → Prop} {x : Checked α β} {y : Checked α γ}
    (h : Matches R x y) {f : β → δ} {k : γ → ε} (hf : ∀ b c, R b c → S (f b) (k c)) :
    Matches S (f <$> x) (k <$> y) := by
  rw [map_eq_pure_bind, map_eq_pure_bind]
  exact h.bind hf

/-- A computation whose results have an image under a function that is the result of another one. -/
theorem Matches.map_eq {f : β → γ} {x : Checked α β} {y : Checked α γ} (h : Matches (fun b c => f b = c) x y) :
    f <$> x = y := by
  cases x with
  | error e =>
    cases y with
    | error e' => exact congrArg Except.error h
    | ok c => exact h.elim
  | ok b =>
    cases y with
    | error e' => exact h.elim
    | ok c => exact congrArg Except.ok h

/-- Turns that lead to states or results in a relation. -/
def Turn.Matches (I : σ → τ → Prop) (R : β → γ → Prop) : Turn σ β → Turn τ γ → Prop
  | .next s, .next t => I s t
  | .done b, .done c => R b c
  | _, _ => False

variable {I : σ → τ → Prop} {R : β → γ → Prop} {step : σ → Checked α (Turn σ β)}
  {step' : τ → Checked α (Turn τ γ)}

theorem Matches.repeatUpTo (hstep : ∀ s t, I s t → Matches (Turn.Matches I R) (step s) (step' t)) (k : Nat)
    {s : σ} {t : τ} (h : I s t) :
    Matches (Turn.Matches I R) (Loop.repeatUpTo step k s) (Loop.repeatUpTo step' k t) := by
  induction k generalizing s t with
  | zero => exact hstep s t h
  | succ k ih =>
    rw [Loop.repeatUpTo, Loop.repeatUpTo]
    refine (ih h).bind fun turn turn' hturn => ?_
    cases turn with
    | next s' =>
      cases turn' with
      | next t' => exact ih hturn
      | done c => exact hturn.elim
    | done b =>
      cases turn' with
      | next t' => exact hturn.elim
      | done c => exact hturn

/-- Loops that take the same turns. -/
theorem Matches.run {exponent : σ → Checked α Nat} {exponent' : τ → Checked α Nat}
    (hexp : ∀ s t, I s t → Matches Eq (exponent s) (exponent' t))
    (hstep : ∀ s t, I s t → Matches (Turn.Matches I R) (step s) (step' t)) {s : σ} {t : τ} (h : I s t) :
    Matches R (Loop.run α exponent step s) (Loop.run α exponent' step' t) := by
  rw [Loop.run, Loop.run]
  refine (Matches.repeatUpTo hstep Loop.freeExponent h).bind fun turn turn' hturn => ?_
  cases turn with
  | done b =>
    cases turn' with
    | next t' => exact hturn.elim
    | done c => exact hturn
  | next s' =>
    cases turn' with
    | done c => exact hturn.elim
    | next t' =>
      refine (hexp s' t' hturn).bind_eq fun k => ?_
      refine (Matches.repeatUpTo hstep k hturn).bind fun turn turn' hturn => ?_
      cases turn with
      | next s'' =>
        cases turn' with
        | next t'' => exact rfl
        | done c => exact hturn.elim
      | done b =>
        cases turn' with
        | next t'' => exact hturn.elim
        | done c => exact hturn

end IntervalDag
