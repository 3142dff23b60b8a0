import IntervalDag.Proofs.Interval.Isotonicity
import IntervalDag.Proofs.Operator.Regularity

/-!
# Ranges over parts of operands

Handlers other than those of waves and of the entropy term are isotone: over parts of their operands, their ranges are
parts of the ranges over the whole operands (`Handler.isSubset_of_parts`). Logarithms and powers with a pole first raise
the lower end of an operand that reaches from zero or below into the positive numbers. A part that starts above zero is
not raised, so it may stick out below, and so may one that ends below the distance to which the whole is raised.
`Settings.ClearsPole` says that neither happens.
-/

namespace IntervalDag

open Scalar Exact

variable {settings : Settings Exact} {x y z w : Interval Exact} {xs ys : List (Interval Exact)} {a b t : EReal}

/-! ### Raised operands -/

namespace Settings

/-- If the lower end of `y` is raised, then to no more than each positive end of `x`. -/
def ClearsPole (s : Settings Exact) (x y : Interval Exact) : Prop :=
  y.inf ≤ 0 → 0 < y.sup → ∀ e, e = x.inf ∨ e = x.sup → 0 < e → minNum s.minZeroDistance y.sup ≤ e

/-- A lower end is raised to the smallest distance, as long as this is not above the upper end. -/
theorem exists_raiseLower (s : Settings Exact) : ∃ t : EReal,
    (∀ b, minNum s.minZeroDistance (number b) = number (min t b)) ∧ ∀ (name : String) (a b : EReal), a ≤ b →
      (s.raiseLower name ⟨number a, number b⟩).value =
        if a ≤ 0 ∧ 0 < b then ⟨number (min t b), number b⟩ else ⟨number a, number b⟩ := by
  obtain ⟨t, ht⟩ : ∃ t : EReal, ∀ b, minNum s.minZeroDistance (number b) = number (min t b) := by
    cases s.minZeroDistance with
    | nan => exact ⟨⊤, fun b => by rw [top_inf_eq, minNum, isNaN_nan, if_pos rfl, ite_self]⟩
    | number t => exact ⟨t, fun b => minNum_number⟩
  refine ⟨t, ht, fun name a b hab => ?_⟩
  simp only [raiseLower, Bool.eq_false_iff.mpr (mt Interval.isEmpty_number.mp hab.not_gt), zero_def, number_le_number,
    number_lt_number, true_and, ht]
  split_ifs <;> rfl

/-- **Raised operands.** Unless the whole operand is raised and the part has no positive number, parts stay parts. -/
theorem isPart_raiseLower (h : x.IsPart y) (hclear : settings.ClearsPole x y)
    (hpos : y.inf ≤ 0 → 0 < y.sup → 0 < x.sup) (name : String) :
    (settings.raiseLower name x).value.IsPart (settings.raiseLower name y).value := by
  obtain ⟨t, ht, hraise⟩ := settings.exists_raiseLower
  obtain ⟨a, b, c, d, rfl, rfl, hca, hab, hbd⟩ := h.exists_ends
  rw [hraise name a b hab, hraise name c d (hca.trans (hab.trans hbd))]
  by_cases hy : c ≤ 0 ∧ 0 < d
  · have hb : 0 < b := hpos hy.1 hy.2
    have hclear {e : EReal} (he : number e = number a ∨ number e = number b) (he₀ : 0 < e) : min t d ≤ e := by
      have hle := hclear hy.1 hy.2 (number e) he he₀
      dsimp only at hle
      rwa [ht] at hle
    rw [if_pos hy]
    split_ifs with hx
    · exact Interval.isPart_number (le_min (min_le_left t d) (hclear (Or.inr rfl) hb)) (min_le_right t b) hbd
    · exact Interval.isPart_number (hclear (Or.inl rfl) (not_le.mp fun ha => hx ⟨ha, hb⟩)) hab hbd
  · rw [if_neg hy, if_neg fun hx => hy ⟨hca.trans hx.1, hx.2.trans_le hbd⟩]
    exact h

/-- An operand without positive numbers is not raised. -/
theorem raiseLower_of_nonpos (s : Settings Exact) (hx : ¬ 0 < x.sup) (name : String) :
    (s.raiseLower name x).value = x := by
  rw [raiseLower, if_neg fun h => hx h.2.2]
  rfl

/-- Logarithms over raised operands. A part without positive numbers has none. -/
theorem isSubset_ln_raiseLower (h : x.IsPart y) (hclear : settings.ClearsPole x y) (name : String) :
    (settings.raiseLower name x).value.ln.isSubset (settings.raiseLower name y).value.ln = true := by
  by_cases hpos : 0 < x.sup
  · exact (isPart_raiseLower h hclear (fun _ _ => hpos) name).ln
  · rw [raiseLower_of_nonpos settings hpos]
    obtain ⟨a, b, -, -, rfl, -⟩ := h.exists_ends
    rw [Interval.ln_of_nonpos a (not_lt.mp (mt number_lt_number.mpr hpos))]
    exact Interval.isSubset_empty _

/-- Logarithms are isotone over raised operands only if the part clears the pole. -/
theorem clearsPole_of_isSubset_ln (h : x.IsPart y) {name : String}
    (hsub : (settings.raiseLower name x).value.ln.isSubset (settings.raiseLower name y).value.ln = true) :
    settings.ClearsPole x y := by
  obtain ⟨t, ht, hraise⟩ := settings.exists_raiseLower
  obtain ⟨a, b, c, d, rfl, rfl, hca, hab, hbd⟩ := h.exists_ends
  intro hc hd e he he₀
  have hc : c ≤ 0 := hc
  have hd : 0 < d := number_lt_number.mp hd
  rw [hraise name c d (hca.trans (hab.trans hbd)), if_pos ⟨hc, hd⟩, Interval.ln_of_pos (min_le_right t d) hd,
    hraise name a b hab] at hsub
  -- logarithms are ordered as the numbers are, so the lower end to which the whole is raised is no higher
  have hle {u v : EReal} (hu : 0 < u) (huv : u ≤ v)
      (hsub : (Interval.ln ⟨number u, number v⟩).isSubset ⟨number (endLn (min t d)), number (endLn d)⟩ = true) :
      min t d ≤ u := by
    rw [Interval.ln_of_pos huv (hu.trans_le huv)] at hsub
    have hpart := Interval.isPart_number le_rfl (endLn_mono huv) le_rfl
    have hlow : endLn (min t d) ≤ endLn u := ((Interval.isSubset_iff hpart.nonempty).mp hsub).1
    exact not_lt.mp fun hlt => (endLn_lt_endLn hu.le hlt).not_ge hlow
  suffices hends : (0 < a → min t d ≤ a) ∧ (0 < b → min t d ≤ b) by
    dsimp only
    rw [ht]
    rcases he with rfl | rfl
    · exact hends.1 he₀
    · exact hends.2 he₀
  by_cases ha : a ≤ 0
  · refine ⟨fun hpos => absurd ha hpos.not_ge, fun hb => ?_⟩
    rw [if_pos ⟨ha, hb⟩] at hsub
    rcases le_total t b with htb | hbt
    · exact (min_le_left t d).trans htb
    · rw [min_eq_right hbt] at hsub
      exact hle hb le_rfl hsub
  · rw [if_neg fun h => ha h.1] at hsub
    have hmin := hle (not_le.mp ha) hab hsub
    exact ⟨fun _ => hmin, fun _ => hmin.trans hab⟩

/-- Powers with a pole over raised operands. A part that ends at zero, below a whole that is raised, is left out. -/
theorem isSubset_pow_raiseLower (h : x.IsPart y) (hclear : settings.ClearsPole x y)
    (hzero : y.inf ≤ 0 → 0 < y.sup → x.sup ≠ 0) (name : String) {p : Exact} (hp : Scalar.integral? p = none)
    (hz : (settings.raiseLower name x).value.pow p = .ok z) (hw : (settings.raiseLower name y).value.pow p = .ok w) :
    z.isSubset w = true := by
  obtain ⟨a, b, -, -, hx, -⟩ := h.exists_ends
  rcases lt_or_ge b 0 with hb | hb
  · have hpos : ¬ 0 < x.sup := by
      rw [hx]
      exact mt number_lt_number.mp hb.not_gt
    have hpart : (x.inter Interval.nonnegative).isEmpty = true := by
      rw [hx, Interval.inter_nonnegative, if_pos (hb.trans_le (le_max_right a 0)), Interval.isEmpty_empty]
    rw [raiseLower_of_nonpos settings hpos, Interval.pow_of_none hp h.nonempty, if_pos hpart] at hz
    cases hz
    exact Interval.isSubset_empty _
  · refine (isPart_raiseLower h hclear (fun hinf hsup => ?_) name).pow hz hw
    have hne := hzero hinf hsup
    rw [hx] at hne ⊢
    exact number_lt_number.mpr (hb.lt_of_ne fun hb => hne (congrArg number hb.symm))

end Settings

/-- The part of the only operand of a logarithm or of a power with a pole keeps away from the pole as the whole does. -/
def Kind.StaysClear (settings : Settings Exact) (kind : Kind Exact) (xs ys : List (Interval Exact)) : Prop :=
  kind = .log ∨ kind.HasPole → ∀ x y, xs.head? = some x → ys.head? = some y →
    settings.ClearsPole x y ∧ (kind.HasPole → y.inf ≤ 0 → 0 < y.sup → x.sup ≠ 0)

/-! ### Sums and products -/

theorem WeightedSum.isPart_range (h : List.Forall₂ Interval.IsPart xs ys) {coefs : List Exact}
    {u v : Interval Exact} (hstart : u.IsPart v) (hz : range u (coefs.zip xs) = .ok z)
    (hw : range v (coefs.zip ys) = .ok w) : z.IsPart w := by
  induction h generalizing coefs u v with
  | nil =>
    rw [List.zip_nil_right] at hz hw
    cases hz
    cases hw
    exact hstart
  | cons hxy _ ih =>
    cases coefs with
    | nil =>
      cases hz
      cases hw
      exact hstart
    | cons c coefs =>
      rw [List.zip_cons_cons, range, List.foldlM_cons] at hz hw
      obtain ⟨u', hu', hz⟩ := Checked.bind_eq_ok.mp hz
      obtain ⟨v', hv', hw⟩ := Checked.bind_eq_ok.mp hw
      obtain ⟨x', hx', hu'⟩ := Checked.bind_eq_ok.mp hu'
      obtain ⟨y', hy', hv'⟩ := Checked.bind_eq_ok.mp hv'
      exact ih (hstart.add (hxy.scale hx' hy') hu' hv') hz hw

theorem Product.isPart_range (h : List.Forall₂ Interval.IsPart xs ys) : (range xs).IsPart (range ys) := by
  have hone : (⟨1, 1⟩ : Interval Exact).IsPart ⟨1, 1⟩ := Interval.isPart_number le_rfl le_rfl le_rfl
  exact List.rel_foldl (fun _ _ hacc _ _ hxy => hacc.mul hxy) hone h

/-! ### All operators -/

namespace Handler

variable [BitPattern Exact] {kind : Kind Exact} {vars vars' : VarId → Interval Exact}
  {n m : Noted Exact (Interval Exact)}

/-- Only variables look at domains. -/
theorem interval_default_congr (settings : Settings Exact) (hkind : ∀ v, kind ≠ .var v) (xs : List (Interval Exact))
    (vars vars' : VarId → Interval Exact) :
    (default settings kind.op).interval kind xs vars = (default settings kind.op).interval kind xs vars' := by
  cases kind with
  | var v => exact absurd rfl (hkind v)
  | _ => rfl

/-- Sums over parts of operands. -/
theorem isSubset_sum (hparts : List.Forall₂ Interval.IsPart xs ys) {coefs : List Exact} {constant : Exact}
    (hn : (default settings .sum).interval (.sum coefs constant) xs vars = .ok n)
    (hm : (default settings .sum).interval (.sum coefs constant) ys vars' = .ok m) :
    n.value.isSubset m.value = true := by
  obtain ⟨_, hcs, hn⟩ := Checked.bind_eq_ok.mp hn
  obtain ⟨_, hcs', hm⟩ := Checked.bind_eq_ok.mp hm
  cases hcs
  cases hcs'
  obtain ⟨start, hstart, hn⟩ := Checked.bind_eq_ok.mp hn
  obtain ⟨start', hstart', hm⟩ := Checked.bind_eq_ok.mp hm
  cases hstart.symm.trans hstart'
  obtain ⟨z, hz, hn⟩ := Checked.bind_eq_ok.mp hn
  obtain ⟨w, hw, hm⟩ := Checked.bind_eq_ok.mp hm
  cases hn
  cases hm
  exact (WeightedSum.isPart_range hparts (Interval.IsPart.point hstart) hz hw).subset

/-- Products over parts of operands. -/
theorem isSubset_product (hparts : List.Forall₂ Interval.IsPart xs ys) {coef : Exact}
    (hn : (default settings .product).interval (.product coef) xs vars = .ok n)
    (hm : (default settings .product).interval (.product coef) ys vars' = .ok m) :
    n.value.isSubset m.value = true := by
  obtain ⟨_, hc, hn⟩ := Checked.bind_eq_ok.mp hn
  obtain ⟨_, hc', hm⟩ := Checked.bind_eq_ok.mp hm
  cases hc
  cases hc'
  obtain ⟨z, hz, hn⟩ := Checked.bind_eq_ok.mp hn
  obtain ⟨w, hw, hm⟩ := Checked.bind_eq_ok.mp hm
  cases hn
  cases hm
  exact ((Product.isPart_range hparts).scale hz hw).subset

/-- Powers over a part of the first operand, which is all they read. If there is a pole, the part keeps away from it. -/
theorem isSubset_pow (hpart : x.IsPart y) {p : Exact} (hclear : (Kind.pow p).StaysClear settings (x :: xs) (y :: ys))
    (hn : (default settings .pow).interval (.pow p) (x :: xs) vars = .ok n)
    (hm : (default settings .pow).interval (.pow p) (y :: ys) vars' = .ok m) : n.value.isSubset m.value = true := by
  change Power.interval settings (.pow p) [_] vars = _ at hn
  change Power.interval settings (.pow p) [_] vars' = _ at hm
  rw [Power.interval_eq] at hn hm
  obtain ⟨z, hz, rfl⟩ := Checked.map_eq_ok.mp hn
  obtain ⟨w, hw, rfl⟩ := Checked.map_eq_ok.mp hm
  rw [Power.base] at hz hw
  by_cases hp : Power.hasPole p = true
  · rw [if_pos hp] at hz hw
    have hpole : (Kind.pow p).HasPole := ⟨p, rfl, hp⟩
    obtain ⟨hclear, hzero⟩ := hclear (Or.inr hpole) _ _ rfl rfl
    have hn := Option.isNone_iff_eq_none.mp (Bool.and_eq_true_iff.mp hp).2
    exact Settings.isSubset_pow_raiseLower hpart hclear (hzero hpole) "pow" hn hz hw
  · rw [if_neg hp] at hz hw
    exact hpart.pow hz hw

/-- **Ranges over parts of operands** are parts of the ranges over the operands. -/
theorem isSubset_of_parts (hkind : kind.op ∉ [.sin, .cos, .entropy])
    (hvars : ∀ v, kind = .var v → (vars v).isSubset (vars' v) = true) (hparts : List.Forall₂ Interval.IsPart xs ys)
    (hclear : kind.StaysClear settings xs ys) (hn : (default settings kind.op).interval kind xs vars = .ok n)
    (hm : (default settings kind.op).interval kind ys vars' = .ok m) : n.value.isSubset m.value = true := by
  cases kind with
  | var v =>
    cases hn
    cases hm
    exact hvars v rfl
  | value c =>
    cases hn.symm.trans hm
    obtain ⟨v, -, hn⟩ := Checked.bind_eq_ok.mp hn
    obtain ⟨x, hx, hn⟩ := Checked.bind_eq_ok.mp hn
    cases hn
    exact (Interval.IsPart.point hx).subset
  | sum _ _ => exact isSubset_sum hparts hn hm
  | product _ => exact isSubset_product hparts hn hm
  | pow p =>
    cases hparts with
    | nil => cases hn
    | cons hxy _ => exact isSubset_pow hxy hclear hn hm
  | exp =>
    cases hparts with
    | nil => cases hn
    | cons hxy _ =>
      cases hn
      cases hm
      exact hxy.exp.subset
  | log =>
    cases hparts with
    | nil => cases hn
    | cons hxy _ =>
      cases hn
      cases hm
      exact Settings.isSubset_ln_raiseLower hxy (hclear (Or.inl rfl) _ _ rfl rfl).1 "log"
  | abs =>
    cases hparts with
    | nil => cases hn
    | cons hxy _ =>
      cases hn
      cases hm
      exact hxy.abs.subset
  | sin | cos | entropy => exact absurd (by decide) hkind

end Handler

end IntervalDag
