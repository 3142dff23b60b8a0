import IntervalDag.Fault

/-!
# Reasoning about checked computations

A `Checked` computation that has a result has had one at every step on the way. `bind_eq_ok` takes it
apart at its first step.
-/

namespace IntervalDag.Checked

variable {α β γ : Type}

/-- Inversion for `bind`. -/
theorem bind_eq_ok {x : Checked α β} {f : β → Checked α γ} {c : γ} :
    (x >>= f) = .ok c ↔ ∃ b, x = .ok b ∧ f b = .ok c := by
  cases x with
  | ok b => simp [bind, Except.bind]
  | error e => simp [bind, Except.bind]

/-- A step with a known result is passed over. -/
@[simp] theorem ok_bind (b : β) (f : β → Checked α γ) : ((.ok b : Checked α β) >>= f) = f b := rfl

/-- Inversion for `map`. -/
theorem map_eq_ok {x : Checked α β} {f : β → γ} {c : γ} :
    f <$> x = .ok c ↔ ∃ b, x = .ok b ∧ f b = c := by
  cases x with
  | ok b => simp [Functor.map, Except.map]
  | error e => simp [Functor.map, Except.map]

/-- What stands after a prefix of known length. -/
theorem get_append_cons {us : List β} {i : Nat} (h : us.length = i) (x : β) (vs : List β) :
    (get (us ++ x :: vs) i : Checked α β) = .ok x := by
  subst h
  simp [get]

/-- Each item of a list has a result of its own. -/
theorem length_of_mapM {ι : Type} {f : ι → Checked α β} {is : List ι} {bs : List β} (h : is.mapM f = .ok bs) :
    bs.length = is.length := by
  induction is generalizing bs with
  | nil =>
    cases h
    rfl
  | cons i is ih =>
    rw [List.mapM_cons] at h
    obtain ⟨b, -, h⟩ := bind_eq_ok.mp h
    obtain ⟨bs, hbs, h⟩ := bind_eq_ok.mp h
    cases h
    exact congrArg Nat.succ (ih hbs)

/-- A list of checks passes if all of them do. -/
theorem mapM_eq_ok {ι : Type} {f : ι → Checked α β} {value : ι → β} {xs : List ι}
    (h : ∀ x ∈ xs, f x = .ok (value x)) : xs.mapM f = .ok (xs.map value) := by
  induction xs with
  | nil => rfl
  | cons x xs ih =>
    rw [List.mapM_cons, h x List.mem_cons_self, ih fun y hy => h y (List.mem_cons_of_mem _ hy)]
    rfl

/-- A list of checks meets the fault of the first one that does not pass. -/
theorem mapM_eq_error {ι : Type} {f : ι → Checked α β} {xs : List ι} {i : Nat} {x : ι} (hx : xs[i]? = some x)
    (hbefore : ∀ j y, j < i → xs[j]? = some y → ∃ b, f y = .ok b) (he : f x = .error e) : xs.mapM f = .error e := by
  induction xs generalizing i with
  | nil => cases hx
  | cons y xs ih =>
    rw [List.mapM_cons]
    cases i with
    | zero =>
      obtain rfl := Option.some.inj hx
      rw [he]
      rfl
    | succ i =>
      obtain ⟨b, hb⟩ := hbefore 0 y (Nat.succ_pos i) rfl
      rw [hb, ih hx fun j z hj hz => hbefore (j + 1) z (Nat.succ_lt_succ hj) hz]
      rfl

/-- What can be read off the result of a computation that has one. -/
theorem exists_ok_of_toOption {x : Checked α β} {f : β → γ} {c : γ} (h : x.toOption.map f = some c) :
    ∃ b, x = .ok b ∧ f b = c := by
  cases x with
  | ok b => exact ⟨b, rfl, Option.some.inj h⟩
  | error e => cases h

end IntervalDag.Checked
