import IntervalDag.Proofs.Graph.Requests
import IntervalDag.Proofs.Interval.Sines
import IntervalDag.Proofs.Operator.LinearNarrowing
import IntervalDag.Proofs.Operator.PowerAgreement
import IntervalDag.Proofs.Operator.ProductNarrowing

/-!
# Handlers that keep intervals regular

Over regular operands, the ranges of the default handlers are regular and their inverse relations leave regular
operands, for all data that are real numbers. The only exception is a power with a pole, over an interval of which zero
is the greatest number (`Handler.exists_interval_default`).
-/

namespace IntervalDag

open Scalar Exact

/-! ### Data -/

namespace Kind

/-- All numbers that belong to a kind are real. -/
def HasRealData : Kind Exact → Prop
  | .value v => v.IsReal
  | .sum coefs constant => (∀ c ∈ coefs, c.IsReal) ∧ constant.IsReal
  | .product coef => coef.IsReal
  | .pow exponent => exponent.IsReal
  | .var _ | .exp | .log | .sin | .cos | .abs | .entropy => True

/-- A power with a pole. -/
def HasPole (kind : Kind Exact) : Prop := ∃ p, kind = .pow p ∧ Power.hasPole p = true

/-- The kind is a power with a pole, and zero is the greatest number of its operand. -/
def AtPole (kind : Kind Exact) (xs : List (Interval Exact)) : Prop :=
  kind.HasPole ∧ ∃ x, xs = [x] ∧ x.isEmpty = false ∧ x.sup = 0

/-- The intervals that the inverse relation of a function clips to its operand. -/
noncomputable def clipped (kind : Kind Exact) (bounds : Interval Exact) : List (Interval Exact) :=
  match kind with
  | .exp => if bounds.isEmpty || decide (bounds.sup ≤ 0) then [] else [bounds.logarithms]
  | .log => if bounds.isEmpty then [] else [bounds.exponentials]
  | .entropy => [Interval.risingPart Interval.entropyAt Interval.invE bounds,
      Interval.fallingPart Interval.doublingSteps Interval.entropyAt Interval.invE bounds]
  | _ => []

end Kind

variable {x target bounds : Interval Exact} {xs us vs : List (Interval Exact)} {n : Narrowed Exact}

/-! ### Sums -/

namespace WeightedSum

variable {coefs : List ℝ} {k : ℝ} {start : Interval Exact}

theorem exists_range_of_isRegular (hstart : start.IsRegular) (hxs : ∀ x ∈ xs, x.IsRegular) (coefs : List ℝ) :
    ∃ z, range start ((coefs.map real).zip xs) = .ok z ∧ z.IsRegular :=
  exists_range_of (fun hx => hx.exists_scale) (fun hx hy => hx.exists_add hy) hstart hxs coefs

theorem exists_interval (hxs : ∀ x ∈ xs, x.IsRegular) (coefs : List ℝ) (k : ℝ) (vars : VarId → Interval Exact) :
    ∃ z, interval (.sum (coefs.map real) (real k)) xs vars = .ok (.plain z) ∧ z.IsRegular := by
  obtain ⟨z, hz, hregular⟩ := exists_range_of_isRegular (Interval.isRegular_real k k) hxs coefs
  refine ⟨z, ?_, hregular⟩
  simp only [interval, parts, Interval.point_real, Checked.ok_bind, hz]
  rfl

/-- A step leaves its operand alone or makes it regular. -/
theorem exists_narrow_of_isRegular (hlen : us.length + vs.length + 1 = coefs.length) (htarget : target.IsRegular)
    (hxs : ∀ y ∈ us ++ x :: vs, y.IsRegular) :
    ∃ o, narrow (coefs.map real) target us.length (us ++ x :: vs) = .ok o ∧ ∀ y, o = some y → y.IsRegular := by
  obtain ⟨hx, hsiblings⟩ := forall_mem_append_cons.mp hxs
  obtain ⟨cs, c, ds, rfl, hcs, -⟩ := exists_eq_append_cons hlen
  rcases eq_or_ne c 0 with rfl | hc
  · exact ⟨none, narrow_zero hcs ds target x vs, nofun⟩
  obtain ⟨rest, hrest, hregular⟩ := exists_range_of_isRegular (Interval.isRegular_real 0 0) hsiblings (cs ++ ds)
  obtain ⟨difference, hdifference, hregular⟩ := htarget.exists_sub hregular
  obtain ⟨allowed, hallowed, hregular⟩ := hregular.exists_scale (1 / c)
  refine ⟨some (x.inter allowed), ?_, fun y hy => ?_⟩
  · rw [narrow_append_cons hc hcs, hrest, Checked.ok_bind, hdifference, Checked.ok_bind, hallowed, Checked.ok_bind]
    rfl
  · cases hy
    exact hx.inter hregular

theorem exists_reverse_of_isRegular (hlen : coefs.length = xs.length) (hxs : ∀ x ∈ xs, x.IsRegular) (k : ℝ)
    (hbounds : bounds.IsRegular) : ∃ n, reverse (.sum (coefs.map real) (real k)) bounds xs = .ok (.plain n) ∧
      ∀ y ∈ n.operands, y.IsRegular := by
  cases xs with
  | nil => exact ⟨_, reverse_nil _ _ _, nofun⟩
  | cons x xs =>
    obtain ⟨target, htarget, hregular⟩ := hbounds.exists_sub (Interval.isRegular_real k k)
    obtain ⟨n, hn, hoperands⟩ := Handler.exists_inTurn_forall
      (fun us x vs hk hall => exists_narrow_of_isRegular (hk.trans hlen.symm) hregular hall) hxs
    exact ⟨n, reverse_cons htarget hn, hoperands⟩

end WeightedSum

/-! ### Products -/

namespace Product

theorem isRegular_range (hxs : ∀ x ∈ xs, x.IsRegular) : (range xs).IsRegular := by
  have hone : (⟨1, 1⟩ : Interval Exact) = ⟨real 1, real 1⟩ := by rw [real_one]
  rw [range, hone]
  exact List.foldlRecOn xs (· * ·) (Interval.isRegular_real 1 1) fun _ hacc x hx => hacc.mul (hxs x hx)

theorem exists_interval (hxs : ∀ x ∈ xs, x.IsRegular) (c : ℝ) (vars : VarId → Interval Exact) :
    ∃ z, interval (.product (real c)) xs vars = .ok (.plain z) ∧ z.IsRegular := by
  obtain ⟨z, hz, hregular⟩ := (isRegular_range hxs).exists_scale c
  refine ⟨z, ?_, hregular⟩
  simp only [interval, coef, Checked.ok_bind, hz]
  rfl

theorem exists_reverse_of_isRegular (hxs : ∀ x ∈ xs, x.IsRegular) (c : ℝ) (hbounds : bounds.IsRegular) :
    ∃ n, reverse (.product (real c)) bounds xs = .ok (.plain n) ∧ ∀ y ∈ n.operands, y.IsRegular := by
  by_cases hconstant : c = 0 ∨ xs = []
  · exact ⟨_, reverse_of_constant hconstant bounds, hxs⟩
  obtain ⟨hc, hne⟩ := not_or.mp hconstant
  obtain ⟨target, htarget, hregular⟩ := hbounds.exists_scale (1 / c)
  have hstep : ∀ us x vs, us.length + vs.length + 1 = xs.length → (∀ y ∈ us ++ x :: vs, y.IsRegular) →
      ∃ o, narrow target us.length (us ++ x :: vs) = .ok o ∧ ∀ y, o = some y → y.IsRegular := by
    intro us x vs _ hxs
    obtain ⟨hx, hsiblings⟩ := forall_mem_append_cons.mp hxs
    obtain ⟨z, hz, hregular⟩ := hregular.exists_solveProduct (isRegular_range hsiblings) hx
    refine ⟨some z, by rw [narrow_append_cons, hz]; rfl, fun y hy => ?_⟩
    cases hy
    exact hregular
  obtain ⟨n, hn, hoperands⟩ := Handler.exists_inTurn_forall hstep hxs
  exact ⟨n, (reverse_eq_ok_iff hc hne).mpr ⟨target, htarget, hn⟩, hoperands⟩

end Product

/-! ### Powers -/

namespace Power

variable {settings : Settings Exact} {p : ℝ}

/-- The base is regular, and reaches as far up as the operand. -/
theorem isRegular_base (hdistance : settings.minZeroDistance < posInf) (hx : x.IsRegular) (p : Exact) :
    (base settings p x).value.IsRegular ∧ (base settings p x).value.isEmpty = x.isEmpty ∧
      (base settings p x).value.sup = x.sup := by
  rw [base]
  split_ifs
  · exact settings.isRegular_raiseLower hdistance hx "pow"
  · exact ⟨hx, rfl, rfl⟩

theorem hasPole_real_iff : hasPole (real p) = true ↔ p < 0 ∧ Scalar.integral? (real p) = none := by
  rw [hasPole, Bool.and_eq_true_iff, decide_eq_true_iff, ← real_zero, real_lt_real, Option.isNone_iff_eq_none]

/-- The range of a power is regular away from the pole. -/
theorem exists_interval (hdistance : settings.minZeroDistance < posInf) (hx : x.IsRegular) (p : ℝ)
    (vars : VarId → Interval Exact) : ∃ n, interval settings (.pow (real p)) [x] vars = .ok n ∧
      (n.value.IsRegular ↔ ¬ (Kind.pow (real p)).AtPole [x]) := by
  obtain ⟨hbase, hempty, hsup⟩ := isRegular_base hdistance hx (real p)
  obtain ⟨z, hz, hregular⟩ := Interval.exists_pow_isRegular_iff hbase p
  refine ⟨⟨z, (base settings (real p) x).notice⟩, by rw [interval_eq, hz]; rfl, hregular.trans (not_congr ?_)⟩
  rw [hempty, hsup, real_zero, ← and_assoc, ← hasPole_real_iff]
  constructor
  · rintro ⟨hpole, hnonempty, hzero⟩
    exact ⟨⟨_, rfl, hpole⟩, x, rfl, hnonempty, hzero⟩
  · rintro ⟨⟨q, hq, hpole⟩, y, hy, hnonempty, hzero⟩
    cases hq
    cases hy
    exact ⟨hpole, hnonempty, hzero⟩

theorem exists_reverse_of_isRegular (settings : Settings Exact) (hx : x.IsRegular) (p : ℝ)
    (hbounds : bounds.IsRegular) :
    ∃ n, reverse settings (.pow (real p)) bounds [x] = .ok n ∧ ∀ y ∈ n.value.operands, y.IsRegular := by
  obtain ⟨z, hz, hregular, -⟩ := Interval.exists_powInverse_of_size hbounds hx p
  obtain ⟨y, hy, -, hkept⟩ := exists_reverse hz settings
  exact ⟨_, hy, List.forall_mem_singleton.mpr (hkept hregular)⟩

end Power

/-! ### All operators -/

namespace Handler

variable {kind : Kind Exact}

/-- A handler keeps intervals regular for nodes of a kind with a number of operands. -/
structure KeepsRegular (h : Handler Exact) (kind : Kind Exact) (count : Nat) : Prop where
  interval : ∀ {vars xs}, (∀ v, (vars v).IsRegular) → xs.length = count → (∀ x ∈ xs, x.IsRegular) →
    ∃ n, h.interval kind xs vars = .ok n ∧ n.value.IsRegular
  reverse : ∀ {bounds xs}, bounds.IsRegular → xs.length = count → (∀ x ∈ xs, x.IsRegular) →
    ∃ n, h.reverse kind bounds xs = .ok n ∧ ∀ y ∈ n.value.operands, y.IsRegular

/-- The only operand of a function is narrowed to a regular interval. -/
theorem exists_narrowFirst {narrow : Interval Exact → Checked Exact (Noted Exact (Interval Exact))}
    {y : Noted Exact (Interval Exact)} (h : narrow x = .ok y) (hy : y.value.IsRegular) :
    ∃ n, narrowFirst narrow [x] = .ok n ∧ ∀ z ∈ n.value.operands, z.IsRegular :=
  ⟨_, narrowFirst_cons h [], List.forall_mem_singleton.mpr hy⟩

/-- The operand of a function. -/
theorem exists_operand (hkind : kind.arity = some 1) (htakes : kind.Takes xs.length) (hxs : ∀ x ∈ xs, x.IsRegular) :
    ∃ x, xs = [x] ∧ x.IsRegular := by
  obtain ⟨x, rfl⟩ := List.length_eq_one_iff.mp ((Kind.takes_iff_of_arity hkind).mp htakes).symm
  exact ⟨x, rfl, hxs x (List.mem_singleton_self x)⟩

theorem not_atPole (h : ∀ p, kind ≠ .pow p) (xs : List (Interval Exact)) : ¬ kind.AtPole xs :=
  fun ⟨⟨p, hp, _⟩, _⟩ => h p hp

theorem isRegular_of_mem_clipped (kind : Kind Exact) (hbounds : bounds.IsRegular) :
    ∀ z ∈ kind.clipped bounds, z.IsRegular := by
  cases kind with
  | exp =>
    rw [Kind.clipped]
    split_ifs with hnone
    · exact nofun
    rw [Bool.or_eq_true_iff, not_or, decide_eq_true_iff] at hnone
    have hproper := hbounds.resolve_left hnone.1
    refine List.forall_mem_singleton.mpr (Interval.isRegular_logarithms hproper ?_)
    obtain ⟨a, b, rfl, -⟩ := hproper.exists_ends
    exact number_lt_number.mpr (not_le.mp (mt number_le_number.mpr hnone.2))
  | log =>
    rw [Kind.clipped]
    split_ifs with hempty
    · exact nofun
    · exact List.forall_mem_singleton.mpr (Interval.isRegular_exponentials (hbounds.resolve_left hempty))
  | entropy =>
    obtain ⟨peak, hpeak⟩ : ∃ peak, (Interval.invE : Exact) = real peak := ⟨_, rfl⟩
    rw [Kind.clipped, hpeak]
    exact List.forall_mem_cons.mpr ⟨Interval.isRegular_risingPart Interval.entropyAt peak bounds,
      List.forall_mem_singleton.mpr (Interval.isRegular_fallingPart Interval.doublingSteps Interval.entropyAt peak
        bounds)⟩
  | _ => exact nofun

variable [BitPattern Exact] {settings : Settings Exact}

/-- **Ranges are regular away from poles.** -/
theorem exists_interval_default (hdistance : settings.minZeroDistance < posInf) (hreal : kind.HasRealData)
    (htakes : kind.Takes xs.length) (hxs : ∀ x ∈ xs, x.IsRegular) {vars : VarId → Interval Exact}
    (hvars : ∀ v, (vars v).IsRegular) : ∃ n, (default settings kind.op).interval kind xs vars = .ok n ∧
      (n.value.IsRegular ↔ ¬ kind.AtPole xs) := by
  -- a kind that is no power is away from poles
  have hplain (h : ∀ p, kind ≠ .pow p) {n : Noted Exact (Interval Exact)}
      (hn : (default settings kind.op).interval kind xs vars = .ok n) (hregular : n.value.IsRegular) :
      ∃ n, (default settings kind.op).interval kind xs vars = .ok n ∧ (n.value.IsRegular ↔ ¬ kind.AtPole xs) :=
    ⟨n, hn, iff_of_true hregular (not_atPole h xs)⟩
  cases kind with
  | var v => exact hplain nofun rfl (hvars v)
  | value c =>
    obtain ⟨r, rfl⟩ := hreal
    refine hplain (n := .plain ⟨real r, real r⟩) nofun ?_ (Interval.isRegular_real r r)
    change (do return Noted.plain (← Interval.point (real r))) = _
    rw [Interval.point_real, Checked.ok_bind]
    rfl
  | sum coefs constant =>
    obtain ⟨cs, rfl⟩ := exists_map_real hreal.1
    obtain ⟨k, rfl⟩ := hreal.2
    obtain ⟨z, hz, hregular⟩ := WeightedSum.exists_interval hxs cs k vars
    exact hplain nofun hz hregular
  | product coef =>
    obtain ⟨c, rfl⟩ := hreal
    obtain ⟨z, hz, hregular⟩ := Product.exists_interval hxs c vars
    exact hplain nofun hz hregular
  | pow p =>
    obtain ⟨p, rfl⟩ := hreal
    obtain ⟨x, rfl, hx⟩ := exists_operand rfl htakes hxs
    exact Power.exists_interval hdistance hx p vars
  | exp =>
    obtain ⟨x, rfl, hx⟩ := exists_operand rfl htakes hxs
    exact hplain nofun rfl hx.exp
  | log =>
    obtain ⟨x, rfl, hx⟩ := exists_operand rfl htakes hxs
    exact hplain nofun rfl (settings.isRegular_raiseLower hdistance hx "log").1.ln
  | sin =>
    obtain ⟨x, rfl, hx⟩ := exists_operand rfl htakes hxs
    exact hplain nofun rfl hx.sin
  | cos =>
    obtain ⟨x, rfl, hx⟩ := exists_operand rfl htakes hxs
    exact hplain nofun rfl hx.cos
  | abs =>
    obtain ⟨x, rfl, hx⟩ := exists_operand rfl htakes hxs
    exact hplain nofun rfl hx.abs
  | entropy =>
    obtain ⟨x, rfl, hx⟩ := exists_operand rfl htakes hxs
    exact hplain nofun rfl hx.entropy

/-- **Inverse relations leave regular operands.** -/
theorem exists_reverse_default (settings : Settings Exact) (hreal : kind.HasRealData) (htakes : kind.Takes xs.length)
    (hxs : ∀ x ∈ xs, x.IsRegular) (hbounds : bounds.IsRegular) :
    ∃ n, (default settings kind.op).reverse kind bounds xs = .ok n ∧ ∀ y ∈ n.value.operands, y.IsRegular := by
  cases kind with
  | var v => exact ⟨_, rfl, hxs⟩
  | value c => exact ⟨_, rfl, hxs⟩
  | sum coefs constant =>
    obtain ⟨cs, rfl⟩ := exists_map_real hreal.1
    obtain ⟨k, rfl⟩ := hreal.2
    obtain ⟨n, hn, hoperands⟩ := WeightedSum.exists_reverse_of_isRegular
      ((List.length_map real).symm.trans (Kind.takes_sum_iff.mp htakes)) hxs k hbounds
    exact ⟨.plain n, hn, hoperands⟩
  | product coef =>
    obtain ⟨c, rfl⟩ := hreal
    obtain ⟨n, hn, hoperands⟩ := Product.exists_reverse_of_isRegular hxs c hbounds
    exact ⟨.plain n, hn, hoperands⟩
  | pow p =>
    obtain ⟨p, rfl⟩ := hreal
    obtain ⟨x, rfl, hx⟩ := exists_operand rfl htakes hxs
    exact Power.exists_reverse_of_isRegular settings hx p hbounds
  | exp =>
    obtain ⟨x, rfl, hx⟩ := exists_operand rfl htakes hxs
    exact exists_narrowFirst rfl (hbounds.expInverse hx)
  | log =>
    obtain ⟨x, rfl, hx⟩ := exists_operand rfl htakes hxs
    exact exists_narrowFirst rfl (settings.isRegular_relaxUpper (hbounds.lnInverse hx) "log")
  | sin =>
    obtain ⟨x, rfl, hx⟩ := exists_operand rfl htakes hxs
    exact exists_narrowFirst rfl (hx.sinInverse bounds)
  | cos =>
    obtain ⟨x, rfl, hx⟩ := exists_operand rfl htakes hxs
    exact exists_narrowFirst rfl (hx.cosInverse bounds)
  | abs =>
    obtain ⟨x, rfl, hx⟩ := exists_operand rfl htakes hxs
    exact exists_narrowFirst rfl (hbounds.absInverse hx)
  | entropy =>
    obtain ⟨x, rfl, hx⟩ := exists_operand rfl htakes hxs
    exact exists_narrowFirst rfl (hx.entropyInverse bounds)

/-- The default handlers keep intervals regular, except for powers with a pole. -/
theorem keepsRegular_default (hdistance : settings.minZeroDistance < posInf) (hreal : kind.HasRealData)
    (hpole : ¬ kind.HasPole) {count : Nat} (htakes : kind.Takes count) :
    (default settings kind.op).KeepsRegular kind count where
  interval hvars hlen hxs := by
    obtain ⟨n, hn, hregular⟩ := exists_interval_default hdistance hreal (hlen ▸ htakes) hxs hvars
    exact ⟨n, hn, hregular.mpr fun h => hpole h.1⟩
  reverse hbounds hlen hxs := exists_reverse_default settings hreal (hlen ▸ htakes) hxs hbounds

end Handler

end IntervalDag
