import IntervalDag.Proofs.Interval.Remote
import IntervalDag.Proofs.Operator.LinearNarrowing
import IntervalDag.Proofs.Operator.ProductNarrowing

/-!
# Infeasible sums and products

A pass over bounded operands whose steps leave the hull of what is consistent finds no feasible choice exactly if there
is none: the first step that narrows anything decides (`Handler.exists_inTurn_iff`). A sum only narrows operands with
coefficients other than zero. If all its coefficients are zero, and it has operands, then its constant is not looked at,
so that it is found feasible whatever the bounds are (`WeightedSum.reverse_of_zeros`). All other sums and all products
are found infeasible if and only if no choice from bounded operands has its value in bounds
(`Handler.infeasible_iff_misses`).
-/

namespace IntervalDag

open Scalar Exact
open IntervalDag.Interval (Box consistent hullOf)

namespace Interval

variable {C : Set (List ℝ)} {us vs : List (Interval Exact)} {x : Interval Exact}

/-- There are consistent values for an operand if there are choices that meet the condition. -/
theorem consistent_nonempty_iff : (consistent C us x vs).Nonempty ↔ (Box (us ++ x :: vs) ∩ C).Nonempty := by
  rw [← valuesAt_box_inter]
  constructor
  · rintro ⟨r, rs, hrs, -⟩
    exact ⟨rs, hrs⟩
  · rintro ⟨rs, hrs⟩
    have hlen : us.length < rs.length := by simp [length_of_mem_box hrs.1]
    exact ⟨rs[us.length], rs, hrs, List.getElem?_eq_getElem hlen⟩

theorem consistent_eq_empty (h : ∀ rs, rs ∉ C) : consistent C us x vs = ∅ :=
  Set.eq_empty_iff_forall_notMem.mpr fun _ ⟨_, _, _, _, _, hC⟩ => h _ hC

end Interval

namespace Handler

/-! ### Passes over bounded operands -/

section

variable {narrow : Nat → List (Interval Exact) → Checked Exact (Option (Interval Exact))} {C : Set (List ℝ)} {k : Nat}
  {us vs : List (Interval Exact)}

/-- **Passes decide.** A pass over bounded operands that narrows any of them finds out whether there is a choice that
meets the condition. -/
theorem exists_deciding_inTurn
    (hstep : ∀ us x vs, us.length + vs.length + 1 = k → (∀ y ∈ us ++ x :: vs, y.IsCompact) →
      narrow us.length (us ++ x :: vs) = .ok none ∨
        narrow us.length (us ++ x :: vs) = .ok (some (hullOf (consistent C us x vs))))
    (hk : us.length + vs.length = k) (hcompact : ∀ y ∈ us ++ vs, y.IsCompact) :
    ∃ n, InTurn narrow us vs n ∧ ((Box (us ++ vs) ∩ C).Nonempty → n.verdict = .feasible) ∧
      ((∃ as x bs, vs = as ++ x :: bs ∧ narrow (us ++ as).length (us ++ as ++ x :: bs) ≠ .ok none) →
        n.verdict = .feasible → (Box (us ++ vs) ∩ C).Nonempty) := by
  induction vs generalizing us with
  | nil => exact ⟨_, .done us, fun _ => rfl, fun ⟨as, x, bs, h, _⟩ => by simp at h⟩
  | cons x vs ih =>
    rw [List.length_cons] at hk
    rcases hstep us x vs hk hcompact with hkept | hnarrowed
    · obtain ⟨n, hn, hfeasible, hsome⟩ := @ih (us ++ [x]) (by simp; omega) (by simpa using hcompact)
      rw [List.append_assoc, List.singleton_append] at hfeasible hsome
      refine ⟨n, .kept hkept hn, hfeasible, fun ⟨as, y, bs, heq, hacts⟩ => hsome ?_⟩
      -- it is not this operand that would be narrowed
      cases as with
      | nil =>
        cases heq
        rw [List.append_nil] at hacts
        exact absurd hkept hacts
      | cons z as =>
        cases heq
        exact ⟨as, y, bs, rfl, by simpa using hacts⟩
    · rcases (consistent C us x vs).eq_empty_or_nonempty with hnone | hsome
      · have hnobox : ¬ (Box (us ++ x :: vs) ∩ C).Nonempty := by
          rw [← Interval.consistent_nonempty_iff, hnone]
          exact Set.not_nonempty_empty
        rw [hnone, Interval.hullOf_empty] at hnarrowed
        exact ⟨_, .emptied hnarrowed Interval.isEmpty_empty, fun h => absurd h hnobox, fun _ h => nomatch h⟩
      · have hnonempty := Interval.isEmpty_hullOf.mpr hsome
        obtain ⟨hx, hsiblings⟩ := forall_mem_append_cons.mp hcompact
        have hy := hx.of_isSubset (Interval.hullOf_isSubset hx.isProper Interval.consistent_subset) hnonempty
        obtain ⟨n, hn, hfeasible, -⟩ := @ih (us ++ [hullOf (consistent C us x vs)]) (by simp; omega) <| by
          rw [List.append_assoc, List.singleton_append]
          exact forall_mem_append_cons.mpr ⟨hy, hsiblings⟩
        rw [List.append_assoc, List.singleton_append] at hfeasible
        refine ⟨n, .narrowed hnarrowed hnonempty hn, fun ⟨rs, hrs, hC⟩ => hfeasible ?_, fun _ _ =>
          Interval.consistent_nonempty_iff.mp hsome⟩
        exact ⟨rs, Interval.mem_box_of_consistent (fun r hr => Interval.real_mem_hullOf hr) hrs hC, hC⟩

/-- A pass over all operands that narrows any of them finds infeasible what no choice meets, and nothing else. -/
theorem exists_inTurn_iff {xs : List (Interval Exact)}
    (hstep : ∀ us x vs, us.length + vs.length + 1 = xs.length → (∀ y ∈ us ++ x :: vs, y.IsCompact) →
      narrow us.length (us ++ x :: vs) = .ok none ∨
        narrow us.length (us ++ x :: vs) = .ok (some (hullOf (consistent C us x vs))))
    (hcompact : ∀ x ∈ xs, x.IsCompact)
    (hacts : ∃ us x vs, xs = us ++ x :: vs ∧ narrow us.length (us ++ x :: vs) ≠ .ok none) :
    ∃ n, InTurn narrow [] xs n ∧ (n.verdict = .infeasible ↔ ∀ rs ∈ Box xs, rs ∉ C) := by
  obtain ⟨n, hn, hfeasible, hsome⟩ := @exists_deciding_inTurn narrow C xs.length [] xs hstep (Nat.zero_add _) hcompact
  refine ⟨n, hn, fun hinfeasible rs hrs hC => ?_, fun hnone => ?_⟩
  · cases hinfeasible.symm.trans (hfeasible ⟨rs, hrs, hC⟩)
  · cases hverdict : n.verdict with
    | infeasible => rfl
    | feasible =>
      obtain ⟨rs, hrs, hC⟩ := hsome hacts hverdict
      exact absurd hC (hnone rs hrs)

end

end Handler

/-! ### Sums -/

namespace WeightedSum

variable {c k : ℝ} {coefs cs ds : List ℝ} {x start target bounds : Interval Exact} {xs us vs : List (Interval Exact)}

theorem exists_range_of_isCompact (hstart : start.IsCompact) (hxs : ∀ x ∈ xs, x.IsCompact) (coefs : List ℝ) :
    ∃ z, range start ((coefs.map real).zip xs) = .ok z ∧ z.IsCompact :=
  exists_range_of (fun hx => hx.scale) (fun hx hy => hx.add hy) hstart hxs coefs

/-- The bounds that are left for the weighted sum without the constant, whatever the bounds are. -/
theorem exists_target_of_hasNumbers (hbounds : bounds.HasNumbers) (k : ℝ) :
    ∃ target, bounds.sub ⟨real k, real k⟩ = .ok target ∧ target.HasNumbers ∧
      ∀ t, real t ∈ target ↔ real (k + t) ∈ bounds := by
  rcases hbounds.cases with (hempty | hproper) | hremote
  · refine ⟨.empty, Interval.sub_of_isEmpty hempty _, Interval.hasNumbers_empty, fun t => ?_⟩
    exact iff_of_false (Interval.real_notMem_of_isEmpty Interval.isEmpty_empty t)
      (Interval.real_notMem_of_isEmpty hempty _)
  · obtain ⟨target, htarget, hproper, hreals⟩ := exists_target hproper k
    exact ⟨target, htarget, hproper.hasNumbers, hreals⟩
  · obtain ⟨target, htarget, hremote'⟩ := hremote.sub (Interval.isCompact_real (le_refl k))
    exact ⟨target, htarget, hremote'.hasNumbers, fun t =>
      iff_of_false (hremote'.real_notMem t) (hremote.real_notMem _)⟩

/-- A step of a sum of bounded operands leaves the hull of what is consistent, whatever the target is. -/
theorem narrow_eq_hullOf (hc : c ≠ 0) (hcs : cs.length = us.length) (hds : ds.length = vs.length)
    (hxs : ∀ y ∈ us ++ x :: vs, y.IsCompact) (htarget : target.HasNumbers) :
    narrow ((cs ++ c :: ds).map real) target us.length (us ++ x :: vs) =
      .ok (some (hullOf (consistent {rs | real (realTotal (cs ++ c :: ds) rs) ∈ target} us x vs))) := by
  obtain ⟨hx, hsiblings⟩ := forall_mem_append_cons.mp hxs
  obtain ⟨rest, hrest, hcompact⟩ :=
    exists_range_of_isCompact (Interval.isCompact_real (le_refl 0)) hsiblings (cs ++ ds)
  have hnone (h : ∀ r, real r ∉ target) :
      consistent {rs | real (realTotal (cs ++ c :: ds) rs) ∈ target} us x vs = ∅ :=
    Interval.consistent_eq_empty fun rs => h _
  rcases htarget.cases with (hempty | hproper) | hremote
  · rw [narrow_append_cons hc hcs, hrest, Checked.ok_bind, Interval.sub_of_isEmpty hempty, Checked.ok_bind,
      Interval.scale_of_isEmpty Interval.isEmpty_empty, Checked.ok_bind, Interval.inter_empty hx.isProper,
      hnone (Interval.real_notMem_of_isEmpty hempty), Interval.hullOf_empty]
    rfl
  · obtain ⟨y, hy, hhull, -⟩ := exists_narrow hc hcs hds (fun y hy => (hxs y hy).isProper) hproper
    rw [hy, hhull]
  · obtain ⟨difference, hdifference, hremote'⟩ := hremote.sub hcompact
    obtain ⟨allowed, hallowed, hremote'⟩ := hremote'.scale (one_div_ne_zero hc)
    rw [narrow_append_cons hc hcs, hrest, Checked.ok_bind, hdifference, Checked.ok_bind, hallowed, Checked.ok_bind,
      (hremote'.inter hx).2, hnone hremote.real_notMem, Interval.hullOf_empty]
    rfl

/-- A sum whose coefficients are all zero leaves its operands alone and finds them feasible. -/
theorem reverse_of_zeros (hbounds : bounds.HasNumbers) (k : ℝ) (hlen : coefs.length = xs.length) (hne : xs ≠ [])
    (hzeros : ∀ c ∈ coefs, c = 0) :
    reverse (.sum (coefs.map real) (real k)) bounds xs = .ok (.plain ⟨.feasible, xs⟩) := by
  obtain ⟨target, htarget, -⟩ := exists_target_of_hasNumbers hbounds k
  have hturn : ∀ (vs us : List (Interval Exact)), us.length + vs.length = coefs.length →
      Handler.InTurn (narrow (coefs.map real) target) us vs ⟨.feasible, us ++ vs⟩ := by
    intro vs
    induction vs with
    | nil => exact fun us _ => by simpa using Handler.InTurn.done us
    | cons x vs ih =>
      intro us hk
      rw [List.length_cons] at hk
      obtain ⟨cs, c, ds, rfl, hcs, -⟩ := exists_eq_append_cons hk
      obtain rfl := hzeros c (by simp)
      exact .kept (narrow_zero hcs ds target x vs) (by simpa using ih (us ++ [x]) (by simp at hk ⊢; omega))
  obtain ⟨x, xs, rfl⟩ := List.exists_cons_of_ne_nil hne
  exact reverse_cons htarget (hturn (x :: xs) [] (by simpa using hlen.symm))

/-- All other sums are infeasible if and only if no choice has a value in bounds. -/
theorem exists_reverse_iff (hbounds : bounds.HasNumbers) (hxs : ∀ x ∈ xs, x.IsCompact) (k : ℝ)
    (hlen : coefs.length = xs.length) (hvaries : xs = [] ∨ ∃ c ∈ coefs, c ≠ 0) :
    ∃ n, reverse (.sum (coefs.map real) (real k)) bounds xs = .ok (.plain n) ∧
      (n.verdict = .infeasible ↔ ∀ rs ∈ Box xs, real (k + realTotal coefs rs) ∉ bounds) := by
  cases xs with
  | nil =>
    obtain rfl := List.length_eq_zero_iff.mp hlen
    refine ⟨_, reverse_nil _ _ _, Feasibility.ofBool_eq_infeasible.trans ?_⟩
    simp only [Interval.box_nil, Set.mem_singleton_iff, forall_eq, realTotal, List.zip_nil_left, List.map_nil,
      List.sum_nil, add_zero]
    rfl
  | cons x xs =>
    obtain ⟨target, htarget, hnumbers, hreals⟩ := exists_target_of_hasNumbers hbounds k
    have hstep : ∀ us y vs, us.length + vs.length + 1 = (x :: xs).length → (∀ z ∈ us ++ y :: vs, z.IsCompact) →
        narrow (coefs.map real) target us.length (us ++ y :: vs) = .ok none ∨
          narrow (coefs.map real) target us.length (us ++ y :: vs) =
            .ok (some (hullOf (consistent {rs | real (realTotal coefs rs) ∈ target} us y vs))) := by
      intro us y vs hk hcompact
      obtain ⟨cs, c, ds, rfl, hcs, hds⟩ := exists_eq_append_cons (hk.trans hlen.symm)
      rcases eq_or_ne c 0 with rfl | hc
      · exact Or.inl (narrow_zero hcs ds target y vs)
      · exact Or.inr (narrow_eq_hullOf hc hcs hds hcompact hnumbers)
    have hacts : ∃ us y vs, x :: xs = us ++ y :: vs ∧
        narrow (coefs.map real) target us.length (us ++ y :: vs) ≠ .ok none := by
      obtain ⟨c, hc, hne⟩ := hvaries.resolve_left (List.cons_ne_nil x xs)
      obtain ⟨cs, ds, rfl⟩ := List.append_of_mem hc
      obtain ⟨us, y, vs, heq, hus, hvs⟩ := exists_eq_append_cons (l := x :: xs) (i := cs.length) (j := ds.length)
        (by rw [← hlen, List.length_append, List.length_cons, Nat.add_assoc])
      refine ⟨us, y, vs, heq, ?_⟩
      rw [narrow_eq_hullOf hne hus.symm hvs.symm (heq ▸ hxs) hnumbers, ne_eq, Except.ok.injEq]
      exact Option.some_ne_none _
    obtain ⟨n, hn, hiff⟩ := Handler.exists_inTurn_iff hstep hxs hacts
    exact ⟨n, reverse_cons htarget hn, hiff.trans (forall₂_congr fun rs _ => not_congr (hreals _))⟩

end WeightedSum

/-! ### Products -/

namespace Product

variable {c : ℝ} {x target bounds : Interval Exact} {xs us vs : List (Interval Exact)}

/-- The bounds that are left for the product without its coefficient, whatever the bounds are. -/
theorem exists_target_of_hasNumbers (hc : c ≠ 0) (hbounds : bounds.HasNumbers) :
    ∃ target, bounds.scale (real (1 / c)) = .ok target ∧ target.HasNumbers ∧
      ∀ t, real t ∈ target ↔ real (c * t) ∈ bounds := by
  rcases hbounds.cases with hcalm | hremote
  · obtain ⟨target, htarget, hcalm, hreals⟩ := exists_target hc hcalm
    exact ⟨target, htarget, hcalm.elim Interval.hasNumbers_of_isEmpty Interval.IsProper.hasNumbers, hreals⟩
  · obtain ⟨target, htarget, hremote'⟩ := hremote.scale (one_div_ne_zero hc)
    exact ⟨target, htarget, hremote'.hasNumbers, fun t =>
      iff_of_false (hremote'.real_notMem t) (hremote.real_notMem _)⟩

/-- A step of a product of bounded operands leaves the hull of what is consistent, whatever the target is. -/
theorem narrow_eq_hullOf (hxs : ∀ y ∈ us ++ x :: vs, y.IsCompact) (htarget : target.HasNumbers) :
    narrow target us.length (us ++ x :: vs) =
      .ok (some (hullOf (consistent {rs | real rs.prod ∈ target} us x vs))) := by
  obtain ⟨hx, hsiblings⟩ := forall_mem_append_cons.mp hxs
  rcases htarget.cases with hcalm | hremote
  · obtain ⟨s, hs, -, hexact⟩ := exists_narrow hcalm fun y hy => (hxs y hy).isProper
    rw [hs, hexact hsiblings]
  · have hnone : consistent {rs | real rs.prod ∈ target} us x vs = ∅ :=
      Interval.consistent_eq_empty fun rs => hremote.real_notMem rs.prod
    rw [narrow_append_cons, hremote.solveProduct (reals_range hsiblings).1 hx, hnone, Interval.hullOf_empty]
    rfl

/-- Products are infeasible if and only if no choice has a value in bounds. -/
theorem exists_reverse_iff (hbounds : bounds.HasNumbers) (hxs : ∀ x ∈ xs, x.IsCompact) (c : ℝ) :
    ∃ n, reverse (.product (real c)) bounds xs = .ok (.plain n) ∧
      (n.verdict = .infeasible ↔ ∀ rs ∈ Box xs, real (c * rs.prod) ∉ bounds) := by
  by_cases hconstant : c = 0 ∨ xs = []
  · refine ⟨_, reverse_of_constant hconstant bounds, Feasibility.ofBool_eq_infeasible.trans ?_⟩
    constructor
    · intro hmiss rs hrs
      rwa [mul_prod_of_constant hconstant hrs]
    · intro hmiss
      obtain ⟨rs, hrs⟩ := Interval.box_nonempty_iff.mpr fun x hx => (hxs x hx).isProper
      have h := hmiss rs hrs
      rwa [mul_prod_of_constant hconstant hrs] at h
  obtain ⟨hc, hne⟩ := not_or.mp hconstant
  obtain ⟨target, htarget, hnumbers, hreals⟩ := exists_target_of_hasNumbers hc hbounds
  have hacts : ∃ us x vs, xs = us ++ x :: vs ∧ narrow target us.length (us ++ x :: vs) ≠ .ok none := by
    obtain ⟨x, xs, rfl⟩ := List.exists_cons_of_ne_nil hne
    refine ⟨[], x, xs, rfl, ?_⟩
    rw [narrow_eq_hullOf hxs hnumbers, ne_eq, Except.ok.injEq]
    exact Option.some_ne_none _
  obtain ⟨n, hn, hiff⟩ := Handler.exists_inTurn_iff
    (fun us x vs _ hcompact => Or.inr (narrow_eq_hullOf hcompact hnumbers)) hxs hacts
  exact ⟨n, (reverse_eq_ok_iff hc hne).mpr ⟨target, htarget, hn⟩,
    hiff.trans (forall₂_congr fun rs _ => not_congr (hreals _))⟩

end Product

/-! ### Verdicts -/

namespace Handler

/-- No choice from the intervals of the operands gives a node a value in bounds. -/
def Misses (eval : Kind Exact → List Exact → Point Exact → Checked Exact (Option Exact)) (k : Kind Exact)
    (bounds : Interval Exact) (xs : List (Interval Exact)) : Prop :=
  ∀ rs ∈ Box xs, ∀ point v, eval k (rs.map real) point = .ok (some v) → v ∉ bounds

variable {bounds : Interval Exact} {xs : List (Interval Exact)}

theorem misses_sum {coefs : List ℝ} {k : ℝ} : Misses WeightedSum.eval (.sum (coefs.map real) (real k)) bounds xs ↔
    ∀ rs ∈ Box xs, real (k + WeightedSum.realTotal coefs rs) ∉ bounds := by
  refine forall₂_congr fun rs _ => ⟨fun h => h (fun _ => none) _ (WeightedSum.eval_real coefs rs k _), ?_⟩
  intro h point v hv
  cases (WeightedSum.eval_real coefs rs k point).symm.trans hv
  exact h

theorem misses_product {c : ℝ} : Misses Product.eval (.product (real c)) bounds xs ↔
    ∀ rs ∈ Box xs, real (c * rs.prod) ∉ bounds := by
  refine forall₂_congr fun rs _ => ⟨fun h => h (fun _ => none) _ (Product.eval_real rs c _), ?_⟩
  intro h point v hv
  cases (Product.eval_real rs c point).symm.trans hv
  exact h

/-- **Sums and products find out infeasibility.** Over bounded operands, the reverse propagation of a product is
infeasible if and only if no choice has its value in bounds. So is that of a sum that has no operands, or a coefficient
other than zero. The bounds may be any two numbers, in either order and infinite. -/
theorem infeasible_iff_misses (hbounds : bounds.HasNumbers) (hxs : ∀ x ∈ xs, x.IsCompact) :
    (∀ (coefs : List ℝ) (k : ℝ), coefs.length = xs.length → (xs = [] ∨ ∃ c ∈ coefs, c ≠ 0) →
      ∃ n, WeightedSum.reverse (.sum (coefs.map real) (real k)) bounds xs = .ok (.plain n) ∧
        (n.verdict = .infeasible ↔ Misses WeightedSum.eval (.sum (coefs.map real) (real k)) bounds xs)) ∧
    ∀ c : ℝ, ∃ n, Product.reverse (.product (real c)) bounds xs = .ok (.plain n) ∧
      (n.verdict = .infeasible ↔ Misses Product.eval (.product (real c)) bounds xs) := by
  constructor
  · intro coefs k hlen hvaries
    obtain ⟨n, hn, hiff⟩ := WeightedSum.exists_reverse_iff hbounds hxs k hlen hvaries
    exact ⟨n, hn, hiff.trans misses_sum.symm⟩
  · intro c
    obtain ⟨n, hn, hiff⟩ := Product.exists_reverse_iff hbounds hxs c
    exact ⟨n, hn, hiff.trans misses_product.symm⟩

/-- A sum and a product that do not get as far as twenty. -/
theorem infeasible_iff_misses_of_small :
    let bounds : Interval Exact := ⟨real 20, real 30⟩
    let xs : List (Interval Exact) := [⟨real 1, real 2⟩, ⟨real (-3), real 4⟩]
    bounds.HasNumbers ∧ (∀ x ∈ xs, x.IsCompact) ∧
      (∃ ys, WeightedSum.reverse (.sum ([1, 0].map real) (real 0)) bounds xs = .ok (.plain ⟨.infeasible, ys⟩)) ∧
      ∃ ys, Product.reverse (.product (real 2)) bounds xs = .ok (.plain ⟨.infeasible, ys⟩) := by
  intro bounds xs
  have hbounds : bounds.HasNumbers := Interval.hasNumbers_number _ _
  have hxs : ∀ x ∈ xs, x.IsCompact := List.forall_mem_cons.mpr ⟨Interval.isCompact_real (by norm_num),
    List.forall_mem_singleton.mpr (Interval.isCompact_real (by norm_num))⟩
  have hchoice : ∀ rs ∈ Box xs, ∃ p q : ℝ, rs = [p, q] ∧ (1 ≤ p ∧ p ≤ 2) ∧ -3 ≤ q ∧ q ≤ 4 := by
    intro rs hrs
    obtain ⟨p, hp, _, hrest, rfl⟩ := Interval.mem_box_cons.mp hrs
    obtain ⟨q, hq, _, hnil, rfl⟩ := Interval.mem_box_cons.mp hrest
    cases hnil
    exact ⟨p, q, rfl, Interval.real_mem_real.mp hp, Interval.real_mem_real.mp hq⟩
  obtain ⟨hsum, hproduct⟩ := infeasible_iff_misses hbounds hxs
  obtain ⟨⟨_, ys⟩, hsum, hverdict⟩ := hsum [1, 0] 0 rfl (Or.inr ⟨1, by simp⟩)
  obtain ⟨⟨_, zs⟩, hproduct, hverdict'⟩ := hproduct 2
  obtain rfl := hverdict.mpr <| misses_sum.mpr fun rs hrs hmem => by
    obtain ⟨p, q, rfl, hp, -⟩ := hchoice rs hrs
    have hvalue : 0 + WeightedSum.realTotal [1, 0] [p, q] = p := by simp [WeightedSum.realTotal]
    rw [hvalue] at hmem
    linarith [(Interval.real_mem_real.mp hmem).1]
  obtain rfl := hverdict'.mpr <| misses_product.mpr fun rs hrs hmem => by
    obtain ⟨p, q, rfl, hp, hq⟩ := hchoice rs hrs
    rw [List.prod_cons, List.prod_singleton] at hmem
    nlinarith [(Interval.real_mem_real.mp hmem).1]
  exact ⟨hbounds, hxs, ⟨ys, hsum⟩, zs, hproduct⟩

/-- With a coefficient of zero the constant is not looked at. -/
theorem not_forall_infeasible : ¬ ∀ (coefs : List ℝ) (k : ℝ) (bounds : Interval Exact) (xs : List (Interval Exact)),
    coefs.length = xs.length → bounds.HasNumbers → (∀ x ∈ xs, x.IsCompact) →
      Misses WeightedSum.eval (.sum (coefs.map real) (real k)) bounds xs →
      ∃ ys, WeightedSum.reverse (.sum (coefs.map real) (real k)) bounds xs = .ok (.plain ⟨.infeasible, ys⟩) := by
  intro h
  have hbounds : Interval.HasNumbers (⟨real 1, real 2⟩ : Interval Exact) := Interval.hasNumbers_number _ _
  have hxs : ∀ x ∈ [(⟨real 0, real 1⟩ : Interval Exact)], x.IsCompact :=
    List.forall_mem_singleton.mpr (Interval.isCompact_real (by norm_num))
  have hmisses : Misses WeightedSum.eval (.sum ([0].map real) (real 0)) ⟨real 1, real 2⟩ [⟨real 0, real 1⟩] :=
    misses_sum.mpr fun rs hrs hmem => by
      obtain ⟨r, -, _, hnil, rfl⟩ := Interval.mem_box_cons.mp hrs
      cases hnil
      have hle := (Interval.real_mem_real.mp hmem).1
      norm_num [WeightedSum.realTotal] at hle
  obtain ⟨ys, hys⟩ := h [0] 0 _ _ rfl hbounds hxs hmisses
  cases (WeightedSum.reverse_of_zeros hbounds 0 rfl (List.cons_ne_nil _ _) (by simp)).symm.trans hys

end Handler

end IntervalDag
