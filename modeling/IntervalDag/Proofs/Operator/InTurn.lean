import IntervalDag.Operator.Handler
import IntervalDag.Proofs.Checked
import IntervalDag.Proofs.Interval.Reals

/-!
# Operands that are narrowed in turn

Sums and products narrow their operands one after another, each against its siblings as they are by then. `InTurn`
describes such a pass by what was gone through and what is still to come.

A choice of real numbers for operands is a list. `Interval.Box` holds the choices from a list of intervals, and
`Interval.consistent` the values of one operand that its siblings leave it under a condition on choices. A step that
keeps the consistent values loses no choice that meets the condition (`Interval.mem_box_of_consistent`), and neither
does a pass of such steps (`Handler.InTurn.mem_box`). If each step leaves nothing but these, the pass leaves of every
operand what the choices that meet the condition have there (`Handler.inTurn_hulls`).
-/

namespace IntervalDag

open Scalar Exact

theorem forall_mem_append_cons {α : Type} {p : α → Prop} {as bs : List α} {a : α} :
    (∀ x ∈ as ++ a :: bs, p x) ↔ p a ∧ ∀ x ∈ as ++ bs, p x := by
  rw [List.forall_mem_append, List.forall_mem_cons, List.forall_mem_append, and_left_comm]

theorem eraseIdx_append_cons {α : Type} (as : List α) (a : α) (bs : List α) :
    (as ++ a :: bs).eraseIdx as.length = as ++ bs := by
  rw [List.eraseIdx_append_of_length_le (le_refl _), Nat.sub_self, List.eraseIdx_zero, List.tail_cons]

theorem Feasibility.ofBool_eq_feasible {b : Bool} : Feasibility.ofBool b = .feasible ↔ b = true := by
  cases b <;> simp [Feasibility.ofBool]

theorem Feasibility.ofBool_eq_infeasible {b : Bool} : Feasibility.ofBool b = .infeasible ↔ ¬ b = true := by
  cases b <;> simp [Feasibility.ofBool]

/-! ### Choices -/

namespace Interval

/-- The choices of a real number from each interval. -/
def Box (xs : List (Interval Exact)) : Set (List ℝ) := {rs | List.Forall₂ (fun r x => real r ∈ x) rs xs}

/-- The numbers in an interval that go together with some choice for its siblings. -/
def consistent (C : Set (List ℝ)) (us : List (Interval Exact)) (x : Interval Exact) (vs : List (Interval Exact)) :
    Set ℝ :=
  {r | real r ∈ x ∧ ∃ as ∈ Box us, ∃ bs ∈ Box vs, as ++ r :: bs ∈ C}

/-- What choices have at a position. -/
def valuesAt (P : Set (List ℝ)) (i : Nat) : Set ℝ := {r | ∃ rs ∈ P, rs[i]? = some r}

variable {C : Set (List ℝ)} {us vs : List (Interval Exact)} {x y : Interval Exact} {rs as bs : List ℝ} {r : ℝ}

theorem mem_box_append : rs ∈ Box (us ++ vs) ↔ ∃ as ∈ Box us, ∃ bs ∈ Box vs, rs = as ++ bs := by
  constructor
  · intro h
    exact ⟨_, List.forall₂_take_append rs us vs h, _, List.forall₂_drop_append rs us vs h,
      (List.take_append_drop us.length rs).symm⟩
  · rintro ⟨as, has, bs, hbs, rfl⟩
    exact List.rel_append has hbs

theorem mem_box_cons : rs ∈ Box (x :: vs) ↔ ∃ r, real r ∈ x ∧ ∃ bs ∈ Box vs, rs = r :: bs := by
  refine List.forall₂_cons_right_iff.trans ⟨?_, ?_⟩
  · rintro ⟨r, bs, hr, hbs, rfl⟩
    exact ⟨r, hr, bs, hbs, rfl⟩
  · rintro ⟨r, hr, bs, hbs, rfl⟩
    exact ⟨r, bs, hr, hbs, rfl⟩

@[simp] theorem box_nil : Box [] = {[]} := Set.ext fun _ => List.forall₂_nil_right_iff

theorem box_cons (x : Interval Exact) (xs : List (Interval Exact)) :
    Box (x :: xs) = Set.image2 List.cons x.reals (Box xs) := by
  ext rs
  rw [mem_box_cons, Set.mem_image2]
  constructor
  · rintro ⟨r, hr, bs, hbs, rfl⟩
    exact ⟨r, hr, bs, hbs, rfl⟩
  · rintro ⟨r, hr, bs, hbs, rfl⟩
    exact ⟨r, hr, bs, hbs, rfl⟩

theorem length_of_mem_box (h : rs ∈ Box vs) : rs.length = vs.length := List.Forall₂.length_eq h

/-- **Proper intervals** are those that there is a choice from. -/
theorem box_nonempty_iff : (Box vs).Nonempty ↔ ∀ x ∈ vs, x.IsProper := by
  induction vs with
  | nil => exact ⟨fun _ => nofun, fun _ => ⟨[], .nil⟩⟩
  | cons x vs ih =>
    rw [List.forall_mem_cons, ← ih, isProper_iff]
    constructor
    · rintro ⟨rs, hrs⟩
      obtain ⟨r, hr, bs, hbs, -⟩ := mem_box_cons.mp hrs
      exact ⟨⟨r, hr⟩, bs, hbs⟩
    · rintro ⟨⟨r, hr⟩, bs, hbs⟩
      exact ⟨r :: bs, .cons hr hbs⟩

/-- The consistent values are what the choices that meet the condition have there. -/
theorem valuesAt_box_inter : valuesAt (Box (us ++ x :: vs) ∩ C) us.length = consistent C us x vs := by
  ext r
  constructor
  · rintro ⟨rs, ⟨hrs, hC⟩, hget⟩
    obtain ⟨as, has, cs, hcs, rfl⟩ := mem_box_append.mp hrs
    obtain ⟨q, hq, bs, hbs, rfl⟩ := mem_box_cons.mp hcs
    obtain rfl : q = r := by simpa [← length_of_mem_box has] using hget
    exact ⟨hq, as, has, bs, hbs, hC⟩
  · rintro ⟨hr, as, has, bs, hbs, hC⟩
    refine ⟨_, ⟨mem_box_append.mpr ⟨as, has, r :: bs, .cons hr hbs, rfl⟩, hC⟩, ?_⟩
    simp [← length_of_mem_box has]

theorem consistent_subset : consistent C us x vs ⊆ x.reals := fun _ h => h.1

/-- **Nothing is lost.** An operand that keeps its consistent values keeps the choices that meet the condition. -/
theorem mem_box_of_consistent (hkeeps : consistent C us x vs ⊆ y.reals) (hrs : rs ∈ Box (us ++ x :: vs)) (hC : rs ∈ C) :
    rs ∈ Box (us ++ y :: vs) := by
  obtain ⟨as, has, cs, hcs, rfl⟩ := mem_box_append.mp hrs
  obtain ⟨r, hr, bs, hbs, rfl⟩ := mem_box_cons.mp hcs
  exact mem_box_append.mpr ⟨as, has, r :: bs, .cons (hkeeps ⟨hr, as, has, bs, hbs, hC⟩) hbs, rfl⟩

theorem box_mono (hsub : y.reals ⊆ x.reals) : Box (us ++ y :: vs) ⊆ Box (us ++ x :: vs) := by
  intro rs hrs
  obtain ⟨as, has, cs, hcs, rfl⟩ := mem_box_append.mp hrs
  obtain ⟨r, hr, bs, hbs, rfl⟩ := mem_box_cons.mp hcs
  exact mem_box_append.mpr ⟨as, has, r :: bs, .cons (hsub hr) hbs, rfl⟩

/-- A choice has a value from each interval. -/
theorem exists_real_mem_of_mem_box (hrs : rs ∈ Box (us ++ x :: vs)) : ∃ r, real r ∈ x := by
  obtain ⟨as, has, cs, hcs, rfl⟩ := mem_box_append.mp hrs
  obtain ⟨r, hr, -⟩ := mem_box_cons.mp hcs
  exact ⟨r, hr⟩

end Interval

namespace Handler

open IntervalDag.Interval (Box consistent hullOf valuesAt)

/-! ### Passes -/

section

variable {α : Type} [Scalar α]

/-- Operands that are narrowed in turn, of which those in `us` were gone through and those in `vs` are to come, end as
`n` says. -/
inductive InTurn (narrow : Nat → List (Interval α) → Checked α (Option (Interval α))) :
    List (Interval α) → List (Interval α) → Narrowed α → Prop where
  /-- All were gone through. -/
  | done (us : List (Interval α)) : InTurn narrow us [] ⟨.feasible, us⟩
  /-- The next operand is left alone. -/
  | kept {us vs : List (Interval α)} {x : Interval α} {n : Narrowed α}
    (step : narrow us.length (us ++ x :: vs) = .ok none) (rest : InTurn narrow (us ++ [x]) vs n) :
    InTurn narrow us (x :: vs) n
  /-- The next operand is narrowed. -/
  | narrowed {us vs : List (Interval α)} {x y : Interval α} {n : Narrowed α}
    (step : narrow us.length (us ++ x :: vs) = .ok (some y)) (nonempty : y.isEmpty = false)
    (rest : InTurn narrow (us ++ [y]) vs n) : InTurn narrow us (x :: vs) n
  /-- The next operand becomes empty, which ends the pass. -/
  | emptied {us vs : List (Interval α)} {x y : Interval α} (step : narrow us.length (us ++ x :: vs) = .ok (some y))
    (empty : y.isEmpty = true) : InTurn narrow us (x :: vs) ⟨.infeasible, us ++ y :: vs⟩

variable {narrow : Nat → List (Interval α) → Checked α (Option (Interval α))} {us vs : List (Interval α)}
  {n : Narrowed α}

theorem narrowInTurn_of_inTurn (h : InTurn narrow us vs n) :
    narrowInTurn narrow (List.range' us.length vs.length) (us ++ vs) = .ok n := by
  induction h with
  | done us => simp [narrowInTurn]
  | kept step rest ih =>
    rw [List.length_cons, List.range'_succ, narrowInTurn, step, Checked.ok_bind]
    simpa using ih
  | narrowed step nonempty rest ih =>
    rw [List.length_cons, List.range'_succ, narrowInTurn, step, Checked.ok_bind]
    simpa [nonempty] using ih
  | emptied step empty =>
    rw [List.length_cons, List.range'_succ, narrowInTurn, step, Checked.ok_bind]
    simp [empty]
    rfl

/-- **Passes.** -/
theorem narrowInTurn_eq_ok_iff :
    narrowInTurn narrow (List.range' us.length vs.length) (us ++ vs) = .ok n ↔ InTurn narrow us vs n := by
  refine ⟨fun h => ?_, narrowInTurn_of_inTurn⟩
  induction vs generalizing us with
  | nil =>
    simp only [List.length_nil, List.range'_zero, List.append_nil, narrowInTurn, Except.ok.injEq] at h
    exact h ▸ .done us
  | cons x vs ih =>
    rw [List.length_cons, List.range'_succ, narrowInTurn] at h
    obtain ⟨o, hstep, h⟩ := Checked.bind_eq_ok.mp h
    cases o with
    | none => exact .kept hstep (ih (by simpa using h))
    | some y =>
      cases hy : y.isEmpty with
      | false => exact .narrowed hstep hy (ih (by simpa [hy] using h))
      | true =>
        have h : (pure ⟨.infeasible, us ++ y :: vs⟩ : Checked α (Narrowed α)) = .ok n := by simpa [hy] using h
        cases h
        exact .emptied hstep hy

/-- A pass whose steps all have a result has one. -/
theorem exists_inTurn {Q : Interval α → Prop} {k : Nat}
    (hstep : ∀ us x vs, us.length + vs.length + 1 = k → (∀ y ∈ us ++ x :: vs, Q y) →
      ∃ o, narrow us.length (us ++ x :: vs) = .ok o ∧ ∀ y, o = some y → y.isEmpty = false → Q y)
    (hk : us.length + vs.length = k) (hQ : ∀ y ∈ us ++ vs, Q y) : ∃ n, InTurn narrow us vs n := by
  induction vs generalizing us with
  | nil => exact ⟨_, .done us⟩
  | cons x vs ih =>
    rw [List.length_cons] at hk
    obtain ⟨o, ho, hkeeps⟩ := hstep us x vs hk hQ
    cases o with
    | none =>
      obtain ⟨n, hn⟩ := @ih (us ++ [x]) (by simp; omega) (by simpa using hQ)
      exact ⟨n, .kept ho hn⟩
    | some y =>
      cases hy : y.isEmpty with
      | true => exact ⟨_, .emptied ho hy⟩
      | false =>
        have hQy := hkeeps y rfl hy
        obtain ⟨n, hn⟩ := @ih (us ++ [y]) (by simp; omega) <| by
          rw [List.append_assoc, List.singleton_append]
          exact forall_mem_append_cons.mpr ⟨hQy, (forall_mem_append_cons.mp hQ).2⟩
        exact ⟨n, .narrowed ho hy hn⟩

/-- What each step keeps of the operands is left of them by a pass. -/
theorem InTurn.forall_operands {Q : Interval α → Prop} {k : Nat} (h : InTurn narrow us vs n)
    (hstep : ∀ us x vs y, us.length + vs.length + 1 = k → (∀ z ∈ us ++ x :: vs, Q z) →
      narrow us.length (us ++ x :: vs) = .ok (some y) → Q y)
    (hk : us.length + vs.length = k) (hQ : ∀ z ∈ us ++ vs, Q z) : ∀ z ∈ n.operands, Q z := by
  induction h with
  | done us => simpa using hQ
  | kept step rest ih => exact ih (by simp at hk ⊢; omega) (by simpa using hQ)
  | @narrowed us vs x y n step nonempty rest ih =>
    refine ih (by simp at hk ⊢; omega) ?_
    rw [List.append_assoc, List.singleton_append]
    exact forall_mem_append_cons.mpr ⟨hstep us x vs y hk hQ step, (forall_mem_append_cons.mp hQ).2⟩
  | @emptied us vs x y step empty =>
    exact forall_mem_append_cons.mpr ⟨hstep us x vs y hk hQ step, (forall_mem_append_cons.mp hQ).2⟩

/-- A pass over all operands whose steps have a result and keep `Q` has one and keeps it. -/
theorem exists_inTurn_forall {Q : Interval α → Prop} {xs : List (Interval α)}
    (hstep : ∀ us x vs, us.length + vs.length + 1 = xs.length → (∀ y ∈ us ++ x :: vs, Q y) →
      ∃ o, narrow us.length (us ++ x :: vs) = .ok o ∧ ∀ y, o = some y → Q y)
    (hQ : ∀ x ∈ xs, Q x) : ∃ n, InTurn narrow [] xs n ∧ ∀ y ∈ n.operands, Q y := by
  have hk : ([] : List (Interval α)).length + xs.length = xs.length := Nat.zero_add _
  obtain ⟨n, hn⟩ := exists_inTurn (fun us x vs hk hQ => by
    obtain ⟨o, ho, hkeeps⟩ := hstep us x vs hk hQ
    exact ⟨o, ho, fun y hy _ => hkeeps y hy⟩) hk hQ
  refine ⟨n, hn, hn.forall_operands (fun us x vs y hk hQ hy => ?_) hk hQ⟩
  obtain ⟨o, ho, hkeeps⟩ := hstep us x vs hk hQ
  exact hkeeps y (Except.ok.inj (ho.symm.trans hy))

/-- **What a step did.** As long as no operand became empty, each was narrowed against its siblings as they were. -/
theorem InTurn.exists_step (h : InTurn narrow us vs n) : ∃ ys, n.operands = us ++ ys ∧ ys.length = vs.length ∧
    ∀ i x, vs[i]? = some x → (∀ y ∈ ys.take i, y.isEmpty = false) →
      ∃ o, narrow (us.length + i) (us ++ ys.take i ++ x :: vs.drop (i + 1)) = .ok o ∧ ys[i]? = some (o.getD x) := by
  induction h with
  | done us => exact ⟨[], by simp, rfl, nofun⟩
  | @kept us vs x n step rest ih =>
    obtain ⟨ys, hys, hlen, hsteps⟩ := ih
    refine ⟨x :: ys, by simpa using hys, by simp [hlen], fun i z hz hne => ?_⟩
    cases i with
    | zero =>
      obtain rfl : x = z := by simpa using hz
      exact ⟨none, by simpa using step, rfl⟩
    | succ i =>
      obtain ⟨o, ho, hget⟩ := hsteps i z (by simpa using hz) fun y hy => hne y (by simp [hy])
      exact ⟨o, by simpa [Nat.add_assoc, Nat.add_comm 1 i] using ho, by simpa using hget⟩
  | @narrowed us vs x y n step nonempty rest ih =>
    obtain ⟨ys, hys, hlen, hsteps⟩ := ih
    refine ⟨y :: ys, by simpa using hys, by simp [hlen], fun i z hz hne => ?_⟩
    cases i with
    | zero =>
      obtain rfl : x = z := by simpa using hz
      exact ⟨some y, by simpa using step, rfl⟩
    | succ i =>
      obtain ⟨o, ho, hget⟩ := hsteps i z (by simpa using hz) fun y hy => hne y (by simp [hy])
      exact ⟨o, by simpa [Nat.add_assoc, Nat.add_comm 1 i] using ho, by simpa using hget⟩
  | @emptied us vs x y step empty =>
    refine ⟨y :: vs, rfl, rfl, fun i z hz hne => ?_⟩
    cases i with
    | zero =>
      obtain rfl : x = z := by simpa using hz
      exact ⟨some y, by simpa using step, rfl⟩
    | succ i => exact absurd empty (Bool.eq_false_iff.mp (hne y (by simp)))

/-- The step at a position of a pass over all operands. -/
theorem InTurn.exists_step_at {xs : List (Interval α)} {x : Interval α} {i : Nat} (h : InTurn narrow [] xs n)
    (hget : xs[i]? = some x) (hne : ∀ y ∈ n.operands.take i, y.isEmpty = false) :
    ∃ o, narrow (n.operands.take i).length (n.operands.take i ++ x :: xs.drop (i + 1)) = .ok o ∧
      n.operands[i]? = some (o.getD x) := by
  obtain ⟨ys, hys, hlen, hsteps⟩ := h.exists_step
  rw [List.nil_append] at hys
  subst hys
  have hi : i < xs.length := (List.getElem?_eq_some_iff.mp hget).1
  obtain ⟨o, ho, hy⟩ := hsteps i x hget hne
  rw [List.length_nil, Nat.zero_add, List.nil_append] at ho
  rw [List.length_take_of_le (hlen ▸ hi.le)]
  exact ⟨o, ho, hy⟩

/-- What relates each operand to what a step makes of it relates the operands to what a pass makes of them. -/
theorem InTurn.forall₂ {R : Interval α → Interval α → Prop} (h : InTurn narrow us vs n) (hrefl : ∀ x ∈ vs, R x x)
    (hstep : ∀ us x vs' y, x ∈ vs → narrow us.length (us ++ x :: vs') = .ok (some y) → R y x) :
    ∃ ys, n.operands = us ++ ys ∧ List.Forall₂ R ys vs := by
  induction h with
  | done us => exact ⟨[], by simp, .nil⟩
  | @kept us vs x n step rest ih =>
    obtain ⟨ys, hys, hrel⟩ := ih (fun z hz => hrefl z (List.mem_cons_of_mem x hz))
      fun us z vs' y hz => hstep us z vs' y (List.mem_cons_of_mem x hz)
    exact ⟨x :: ys, by simpa using hys, .cons (hrefl x List.mem_cons_self) hrel⟩
  | @narrowed us vs x y n step nonempty rest ih =>
    obtain ⟨ys, hys, hrel⟩ := ih (fun z hz => hrefl z (List.mem_cons_of_mem x hz))
      fun us z vs' y hz => hstep us z vs' y (List.mem_cons_of_mem x hz)
    exact ⟨y :: ys, by simpa using hys, .cons (hstep us x vs y List.mem_cons_self step) hrel⟩
  | @emptied us vs x y step empty =>
    exact ⟨y :: vs, rfl, .cons (hstep us x vs y List.mem_cons_self step)
      (List.forall₂_same.mpr fun z hz => hrefl z (List.mem_cons_of_mem x hz))⟩

end

/-! ### Passes over real numbers -/

variable {narrow : Nat → List (Interval Exact) → Checked Exact (Option (Interval Exact))}
  {us vs : List (Interval Exact)} {n : Narrowed Exact} {C : Set (List ℝ)}

/-- **Passes lose nothing.** -/
theorem InTurn.mem_box (h : InTurn narrow us vs n)
    (hstep : ∀ us x vs y, narrow us.length (us ++ x :: vs) = .ok (some y) → consistent C us x vs ⊆ y.reals)
    {rs : List ℝ} (hrs : rs ∈ Box (us ++ vs)) (hC : rs ∈ C) : n.verdict = .feasible ∧ rs ∈ Box n.operands := by
  induction h with
  | done us => exact ⟨rfl, by simpa using hrs⟩
  | kept step rest ih => exact ih (by simpa using hrs)
  | @narrowed us vs x y n step nonempty rest ih =>
    exact ih (by simpa using Interval.mem_box_of_consistent (hstep us x vs y step) hrs hC)
  | @emptied us vs x y step empty =>
    obtain ⟨r, hr⟩ := Interval.exists_real_mem_of_mem_box (Interval.mem_box_of_consistent (hstep us x vs y step) hrs hC)
    rw [Interval.isEmpty_of_mem hr] at empty
    cases empty

/-- **Passes that leave nothing else.** Where each step leaves of an operand just the values that are consistent with
its siblings as they are by then, a pass leaves what the choices have there that meet the condition. -/
theorem inTurn_hulls {k : Nat}
    (hstep : ∀ us x vs, us.length + vs.length + 1 = k → (Box (us ++ x :: vs) ∩ C).Nonempty →
      ∃ o, narrow us.length (us ++ x :: vs) = .ok o ∧ o.getD x = Interval.hullOf (consistent C us x vs) ∧
        (o.getD x).reals = consistent C us x vs)
    (hk : us.length + vs.length = k) (hsome : (Box (us ++ vs) ∩ C).Nonempty) :
    InTurn narrow us vs
        ⟨.feasible, us ++ (List.range' us.length vs.length).map fun i => hullOf (valuesAt (Box (us ++ vs) ∩ C) i)⟩ ∧
      ∀ i ∈ List.range' us.length vs.length,
        (hullOf (valuesAt (Box (us ++ vs) ∩ C) i)).reals = valuesAt (Box (us ++ vs) ∩ C) i := by
  induction vs generalizing us with
  | nil => exact ⟨by simpa using InTurn.done us, by simp⟩
  | cons x vs ih =>
    rw [List.length_cons] at hk
    obtain ⟨o, ho, hhull, hreals⟩ := hstep us x vs hk hsome
    -- the choices that meet the condition are the same after the step
    have hbox : Box (us ++ [o.getD x] ++ vs) ∩ C = Box (us ++ x :: vs) ∩ C := by
      rw [List.append_assoc, List.singleton_append]
      exact Set.Subset.antisymm (fun rs h => ⟨Interval.box_mono (hreals ▸ Interval.consistent_subset) h.1, h.2⟩)
        fun rs h => ⟨Interval.mem_box_of_consistent hreals.symm.subset h.1 h.2, h.2⟩
    obtain ⟨hrest, hexact⟩ := @ih (us ++ [o.getD x]) (by simp; omega) (hbox ▸ hsome)
    rw [hbox, List.length_append, List.length_singleton] at hrest hexact
    rw [List.append_assoc, List.singleton_append] at hrest
    rw [List.length_cons, List.range'_succ, List.map_cons, List.forall_mem_cons, Interval.valuesAt_box_inter, ← hhull]
    refine ⟨?_, hreals, hexact⟩
    cases o with
    | none => exact .kept ho hrest
    | some y =>
      obtain ⟨rs, hrs, -⟩ := hbox ▸ hsome
      obtain ⟨r, hr⟩ := Interval.exists_real_mem_of_mem_box (by simpa using hrs)
      exact .narrowed ho (Interval.isEmpty_of_mem hr) hrest

end Handler

end IntervalDag
