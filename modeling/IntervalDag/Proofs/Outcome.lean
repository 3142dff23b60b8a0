import Mathlib.Algebra.GroupWithZero.Nat
import Mathlib.Data.List.Forall2
import IntervalDag.Loop
import IntervalDag.Proofs.Checked

/-!
# Outcomes of programs

A program starts in a state and either ends with a result in a state or meets a fault. `Meets x t E Q` says
that the program `x`, run from the state `t`, has an outcome that is allowed: it faults as `E` allows or
ends as `Q` allows. Nothing is said of programs that do neither, as there are none.

The rules are equivalences, so that rewriting with them runs a program symbolically. Loops have no such
rule. A loop is proved about by a bound on its remaining turns that goes down with each of them
(`meets_run`).
-/

namespace IntervalDag

/-- A monad whose programs read and change a state of type `τ`. A program can be observed as a checked
computation from the state at its start to its result and the state at its end. -/
class Observed (α τ : outParam Type) (m : Type → Type) [Monad m] [MonadExceptOf (Fault α) m] where
  /-- What a program comes to, started in a state. -/
  observe : {β : Type} → m β → τ → Checked α (β × τ)
  observe_pure : ∀ {β : Type} (b : β) (t : τ), observe (pure b) t = .ok (b, t)
  observe_bind : ∀ {β γ : Type} (x : m β) (f : β → m γ) (t : τ),
    observe (x >>= f) t = observe x t >>= fun r => observe (f r.1) r.2
  observe_throw : ∀ {β : Type} (e : Fault α) (t : τ),
    observe (throwThe (Fault α) e : m β) t = .error e

/-- Checked computations have no state. -/
instance (α : Type) : Observed α Unit (Except (Fault α)) where
  observe x _ := (·, ()) <$> x
  observe_pure _ _ := rfl
  observe_bind x _ _ := by cases x <;> rfl
  observe_throw _ _ := rfl

/-- What a stateful program leaves behind when it faults is not observed. -/
instance (α τ : Type) : Observed α τ (EStateM (Fault α) τ) where
  observe x t :=
    match x.run t with
    | .ok b t' => .ok (b, t')
    | .error e _ => .error e
  observe_pure _ _ := rfl
  observe_bind x f t := by
    rw [EStateM.run_bind]
    cases x.run t <;> rfl
  observe_throw _ _ := rfl

section Rules

variable {α τ : Type} {m : Type → Type} [Monad m] [MonadExceptOf (Fault α) m] [Observed α τ m]
variable {β γ σ : Type} {E E' : Fault α → Prop} {t : τ}

/-- Started in the state `t`, the program `x` faults as `E` allows or ends as `Q` allows. -/
def Meets (x : m β) (t : τ) (E : Fault α → Prop) (Q : β → τ → Prop) : Prop :=
  match Observed.observe x t with
  | .ok r => Q r.1 r.2
  | .error e => E e

/-- No fault is allowed. -/
def NoFault (_ : Fault α) : Prop := False

theorem meets_pure {b : β} {Q : β → τ → Prop} :
    Meets (pure b : m β) t E Q ↔ Q b t := by
  rw [Meets, Observed.observe_pure]

theorem meets_throw {e : Fault α} {Q : β → τ → Prop} :
    Meets (throwThe (Fault α) e : m β) t E Q ↔ E e := by
  rw [Meets, Observed.observe_throw]

theorem meets_bind {x : m β} {f : β → m γ} {Q : γ → τ → Prop} :
    Meets (x >>= f) t E Q ↔ Meets x t E fun b t' => Meets (f b) t' E Q := by
  rw [Meets, Meets, Observed.observe_bind]
  rcases Observed.observe x t with e | r <;> rfl

/-- What is allowed may be widened. -/
theorem Meets.mono {x : m β} {Q Q' : β → τ → Prop} (h : Meets x t E Q) (hE : ∀ e, E e → E' e)
    (hQ : ∀ b t', Q b t' → Q' b t') : Meets x t E' Q' := by
  unfold Meets at h ⊢
  cases hx : Observed.observe x t with
  | error e =>
    rw [hx] at h
    exact hE e h
  | ok r =>
    rw [hx] at h
    exact hQ r.1 r.2 h

/-- What a program comes to is allowed. -/
theorem Meets.of_observe {x : m β} {Q : β → τ → Prop} (h : Meets x t E Q) {r : β × τ}
    (hr : Observed.observe x t = .ok r) : Q r.1 r.2 := by
  rw [Meets, hr] at h
  exact h

/-- The results that are allowed may be widened. -/
theorem Meets.imp {x : m β} {Q Q' : β → τ → Prop} (h : Meets x t E Q)
    (hQ : ∀ b t', Q b t' → Q' b t') : Meets x t E Q' := h.mono (fun _ he => he) hQ

/-- What two specifications allow is what both of them allow. -/
theorem Meets.and {x : m β} {Q Q' : β → τ → Prop} (h : Meets x t E Q) (h' : Meets x t E' Q') :
    Meets x t E fun b t' => Q b t' ∧ Q' b t' := by
  unfold Meets at h h' ⊢
  cases hx : Observed.observe x t with
  | error e =>
    rw [hx] at h
    exact h
  | ok r =>
    rw [hx] at h h'
    exact ⟨h, h'⟩

/-- A program is done with its first part. -/
theorem Meets.bind {x : m β} {f : β → m γ} {P : β → τ → Prop} {Q : γ → τ → Prop} (h : Meets x t E P)
    (hf : ∀ b t', P b t' → Meets (f b) t' E Q) : Meets (x >>= f) t E Q :=
  meets_bind.mpr (h.imp hf)

/-- A checked computation meets no fault exactly if it has a result. -/
theorem meets_noFault_iff {x : Checked α β} {Q : β → Prop} :
    Meets x () NoFault (fun b _ => Q b) ↔ ∃ b, x = .ok b ∧ Q b := by
  cases x with
  | error e =>
    constructor
    · intro h
      exact h.elim
    · rintro ⟨b, hb, -⟩
      cases hb
  | ok b =>
    constructor
    · intro h
      exact ⟨b, rfl, h⟩
    · rintro ⟨b', hb, h⟩
      cases hb
      exact h

/-- A checked computation comes to what another one does. -/
theorem Meets.map_eq {x : Checked α β} {y : Checked α γ} {f : β → γ}
    (h : Meets x () (fun e => y = .error e) fun b _ => y = .ok (f b)) : f <$> x = y := by
  cases x with
  | error e => exact Eq.symm h
  | ok b => exact Eq.symm h

/-- A list of checks is passed over one by one. -/
theorem meets_mapM_forall₂ {ι : Type} {f : ι → Checked α β} {R : ι → β → Prop} {xs : List ι}
    (h : ∀ x ∈ xs, Meets (f x) () E fun b _ => R x b) :
    Meets (xs.mapM f) () E fun bs _ => List.Forall₂ R xs bs := by
  induction xs with
  | nil => exact .nil
  | cons x xs ih =>
    rw [List.mapM_cons]
    refine (h x (List.mem_cons_self ..)).bind fun b _ hb => ?_
    exact (ih fun y hy => h y (List.mem_cons_of_mem _ hy)).bind fun bs _ hbs => .cons hb hbs

/-- A list of checks is passed over when each of them is known. -/
theorem meets_mapM {ι : Type} {f : ι → Checked α β} (value : ι → β) {xs : List ι}
    {Q : List β → Unit → Prop} (h : ∀ x ∈ xs, Meets (f x) () E fun b _ => b = value x)
    (hQ : Q (xs.map value) ()) : Meets (xs.mapM f) () E Q := by
  refine (meets_mapM_forall₂ h).imp fun bs _ hbs => ?_
  have heq : List.Forall₂ Eq (xs.map value) bs := List.forall₂_map_left_iff.mpr (hbs.imp fun _ _ => Eq.symm)
  rw [List.forall₂_eq_eq_eq] at heq
  exact heq ▸ hQ

/-! ### Loops -/

/-- What a loop may be left at after some turns: the invariant with a bound on the turns to come, or the
end. -/
def Turn.Allowed (I : σ → τ → Prop) (Q : β → τ → Prop) : Turn σ β → τ → Prop
  | .next s, t => I s t
  | .done b, t => Q b t

variable {I : Nat → σ → τ → Prop} {Q : β → τ → Prop} {step : σ → m (Turn σ β)}

/-- Turns by powers of two use up that much of the bound, where there is one. -/
theorem meets_repeatUpTo
    (hstep : ∀ k s t, I k s t →
      Meets (step s) t E (Turn.Allowed (fun s t => ∃ j, (j < k ∨ E .diverged) ∧ I j s t) Q))
    (e : Nat) {k : Nat} {s : σ} (h : I k s t) :
    Meets (Loop.repeatUpTo step e s) t E
      (Turn.Allowed (fun s t => ∃ j, (j + 2 ^ e ≤ k ∨ E .diverged) ∧ I j s t) Q) := by
  induction e generalizing k s t with
  | zero =>
    refine (hstep k s t h).imp fun turn t' hturn => ?_
    cases turn with
    | done b => exact hturn
    | next s' =>
      obtain ⟨j, hj, hI⟩ := hturn
      exact ⟨j, hj.imp_left fun hj => by rw [Nat.pow_zero]; omega, hI⟩
  | succ e ih =>
    rw [Loop.repeatUpTo]
    refine (ih h).bind fun turn t' hturn => ?_
    cases turn with
    | done b => exact meets_pure.mpr hturn
    | next s' =>
      obtain ⟨j, hj, hI⟩ := hturn
      refine (ih hI).imp fun turn t'' hturn => ?_
      cases turn with
      | done b => exact hturn
      | next s'' =>
        obtain ⟨i, hi, hI⟩ := hturn
        refine ⟨i, ?_, hI⟩
        rcases hj with hj | hj
        · exact hi.imp_left fun hi => by omega
        · exact Or.inr hj

/-- A loop keeps to what its turns allow. Unless it may be cut off, the invariant has to bound the turns
to come by a number that goes down with each of them and is covered by what the loop grants. -/
theorem meets_run_or_diverged {exponent : σ → m Nat}
    (hexp : ∀ k s t, I k s t →
      Meets (exponent s) t E fun x t' => t' = t ∧ (k < 2 ^ x ∨ E .diverged))
    (hstep : ∀ k s t, I k s t →
      Meets (step s) t E (Turn.Allowed (fun s t => ∃ j, (j < k ∨ E .diverged) ∧ I j s t) Q))
    {k : Nat} {s : σ} (h : I k s t) : Meets (Loop.run α exponent step s) t E Q := by
  rw [Loop.run]
  refine (meets_repeatUpTo hstep Loop.freeExponent h).bind fun turn t₁ hturn => ?_
  cases turn with
  | done b => exact meets_pure.mpr hturn
  | next s₁ =>
    obtain ⟨j, -, hI⟩ := hturn
    refine (hexp j s₁ t₁ hI).bind fun x t₁' hx => ?_
    obtain ⟨rfl, hx⟩ := hx
    refine (meets_repeatUpTo hstep x hI).bind fun turn t₂ hturn => ?_
    cases turn with
    | done b => exact meets_pure.mpr hturn
    | next s₂ =>
      obtain ⟨i, hi, -⟩ := hturn
      refine meets_throw.mpr ?_
      rcases hx with hx | hx
      · -- the turns granted are more than there were to come
        exact hi.resolve_left fun hi => by omega
      · exact hx

/-- **Loops that end.** If the invariant bounds the turns to come by a number that goes down with each
turn and is covered by what the loop grants, then the loop ends, and only as its last turn allows. -/
theorem meets_run {exponent : σ → m Nat}
    (hexp : ∀ k s t, I k s t → Meets (exponent s) t E fun x t' => t' = t ∧ k < 2 ^ x)
    (hstep : ∀ k s t, I k s t → Meets (step s) t E (Turn.Allowed (fun s t => ∃ j < k, I j s t) Q))
    {k : Nat} {s : σ} (h : I k s t) : Meets (Loop.run α exponent step s) t E Q := by
  refine meets_run_or_diverged (fun k s t hI => ?_) (fun k s t hI => ?_) h
  · exact (hexp k s t hI).imp fun x t' hx => ⟨hx.1, Or.inl hx.2⟩
  · refine (hstep k s t hI).imp fun turn t' hturn => ?_
    cases turn with
    | done b => exact hturn
    | next s' =>
      obtain ⟨j, hj, hI⟩ := hturn
      exact ⟨j, Or.inl hj, hI⟩

/-- **Loops that may be cut off.** If they end, then as their last turn allows. -/
theorem meets_run_of_diverged {I : σ → τ → Prop} (hE : E .diverged) {exponent : σ → m Nat}
    (hexp : ∀ s t, I s t → Meets (exponent s) t E fun _ t' => t' = t)
    (hstep : ∀ s t, I s t → Meets (step s) t E (Turn.Allowed I Q))
    {s : σ} (h : I s t) : Meets (Loop.run α exponent step s) t E Q := by
  refine meets_run_or_diverged (I := fun _ => I) (k := 0) (fun k s t hI => ?_) (fun k s t hI => ?_) h
  · exact (hexp s t hI).imp fun x t' hx => ⟨hx, Or.inr hE⟩
  · refine (hstep s t hI).imp fun turn t' hturn => ?_
    cases turn with
    | done b => exact hturn
    | next s' => exact ⟨0, Or.inr hE, hturn⟩

end Rules

end IntervalDag
