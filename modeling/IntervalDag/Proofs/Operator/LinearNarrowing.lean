import IntervalDag.Operator.Sum
import IntervalDag.Proofs.Operator.Algebraic
import IntervalDag.Proofs.Operator.InTurn

/-!
# Narrowing the operands of a sum

Over exact arithmetic a step of the reverse propagation of a sum leaves of an operand just the values that are
consistent with its siblings (`WeightedSum.exists_narrow`). Hence one pass leaves of each operand what the solutions
have there, in whatever order the terms come and however often it is made (`WeightedSum.reverse_eq_projections`).
-/

namespace IntervalDag

open Scalar Exact
open IntervalDag.Interval (Box consistent hullOf valuesAt)
open scoped Pointwise

namespace WeightedSum

variable {c k r : ℝ} {coefs cs ds rs as bs : List ℝ} {x start target bounds : Interval Exact}
  {xs us vs : List (Interval Exact)}

theorem realTotal_append (h : cs.length = as.length) (ds bs : List ℝ) :
    realTotal (cs ++ ds) (as ++ bs) = realTotal cs as + realTotal ds bs := by
  rw [realTotal, List.zip_append h, List.map_append, List.sum_append]
  rfl

/-- The weighted sum with the term at a position set apart. -/
theorem realTotal_append_cons (h : cs.length = as.length) (c r : ℝ) (ds bs : List ℝ) :
    realTotal (cs ++ c :: ds) (as ++ r :: bs) = c * r + realTotal (cs ++ ds) (as ++ bs) := by
  rw [realTotal_append h, realTotal_append h, realTotal_cons]
  ring

/-- What multiples and sums of intervals keep is kept by the range of a sum. -/
theorem exists_range_of {Q : Interval Exact → Prop}
    (hscale : ∀ {x : Interval Exact}, Q x → ∀ c : ℝ, ∃ z, x.scale (real c) = .ok z ∧ Q z)
    (hadd : ∀ {x y : Interval Exact}, Q x → Q y → ∃ z, x.add y = .ok z ∧ Q z) (hstart : Q start)
    (hxs : ∀ x ∈ xs, Q x) (coefs : List ℝ) : ∃ z, range start ((coefs.map real).zip xs) = .ok z ∧ Q z := by
  induction coefs generalizing xs start with
  | nil => exact ⟨start, rfl, hstart⟩
  | cons c coefs ih =>
    cases xs with
    | nil => exact ⟨start, rfl, hstart⟩
    | cons x xs =>
      obtain ⟨hx, hxs⟩ := List.forall_mem_cons.mp hxs
      obtain ⟨scaled, hscaled, hkept⟩ := hscale hx c
      obtain ⟨sum, hsum, hkept⟩ := hadd hstart hkept
      obtain ⟨z, hz, hkept⟩ := ih hkept hxs
      refine ⟨z, ?_, hkept⟩
      simp only [range, List.map_cons, List.zip_cons_cons, List.foldlM_cons, hscaled, hsum, Checked.ok_bind]
      exact hz

/-- **The range of a sum** is just what the choices make. -/
theorem exists_range (hstart : start.IsProper) (hxs : ∀ x ∈ xs, x.IsProper) (hlen : coefs.length = xs.length) :
    ∃ z, range start ((coefs.map real).zip xs) = .ok z ∧ z.IsProper ∧
      z.reals = start.reals + realTotal coefs '' Box xs := by
  induction coefs generalizing xs start with
  | nil =>
    obtain rfl := List.length_eq_zero_iff.mp hlen.symm
    have hbox : realTotal [] '' Box [] = {0} := by
      rw [Interval.box_nil, Set.image_singleton]
      rfl
    exact ⟨start, rfl, hstart, by rw [hbox, Set.add_singleton, Set.image_congr fun _ _ => add_zero _, Set.image_id']⟩
  | cons c coefs ih =>
    cases xs with
    | nil => cases hlen
    | cons x xs =>
      obtain ⟨hx, hxs⟩ := List.forall_mem_cons.mp hxs
      obtain ⟨scaled, hscaled, hproper, hmultiples⟩ := Interval.exists_scale hx c
      obtain ⟨sum, hsum, hproper, hsums⟩ := Interval.exists_add hstart hproper
      obtain ⟨z, hz, hproper, hreals⟩ := ih hproper hxs (Nat.succ.inj hlen)
      refine ⟨z, ?_, hproper, ?_⟩
      · simp only [range, List.map_cons, List.zip_cons_cons, List.foldlM_cons, hscaled, hsum, Checked.ok_bind]
        exact hz
      · have hbox : realTotal (c :: coefs) '' Box (x :: xs) = (· * c) '' x.reals + realTotal coefs '' Box xs := by
          rw [Interval.box_cons, Set.image_image2, ← Set.image2_add, Set.image2_image_left, Set.image2_image_right]
          exact Set.image2_congr fun r _ rs _ => by rw [realTotal_cons, mul_comm]
        rw [hreals, hsums, hmultiples, hbox, add_assoc]

/-- The terms other than the one at a position. -/
theorem eraseIdx_zip (hcs : cs.length = us.length) (c : ℝ) (ds : List ℝ) (x : Interval Exact)
    (vs : List (Interval Exact)) : (((cs ++ c :: ds).map real).zip (us ++ x :: vs)).eraseIdx us.length =
      ((cs ++ ds).map real).zip (us ++ vs) := by
  have hlen : (cs.map real).length = us.length := by rw [List.length_map, hcs]
  have hzip : ((cs.map real).zip us).length = us.length := by rw [List.length_zip, hlen, Nat.min_self]
  rw [List.map_append, List.map_append, List.map_cons, List.zip_append hlen, List.zip_append hlen, List.zip_cons_cons,
    List.eraseIdx_append_of_length_le hzip.le, hzip, Nat.sub_self, List.eraseIdx_zero, List.tail_cons]

/-- The step of an operand that has a coefficient other than zero. -/
theorem narrow_append_cons (hc : c ≠ 0) (hcs : cs.length = us.length) (ds : List ℝ) (target x : Interval Exact)
    (vs : List (Interval Exact)) : narrow ((cs ++ c :: ds).map real) target us.length (us ++ x :: vs) = (do
      let rest ← range ⟨real 0, real 0⟩ (((cs ++ ds).map real).zip (us ++ vs))
      let allowed ← (← target.sub rest).scale (real (1 / c))
      return some (x.inter allowed)) := by
  have hpoint : Interval.point (0 : Exact) = .ok ⟨real 0, real 0⟩ := by rw [← real_zero, Interval.point_real]
  have hget : Checked.get ((cs ++ c :: ds).map real) us.length = (.ok (real c) : Checked Exact Exact) := by
    rw [List.map_append, List.map_cons]
    exact Checked.get_append_cons (by simp [hcs]) _ _
  rw [narrow, hget, Checked.ok_bind, if_neg (mt real_beq_zero.mp hc), hpoint, Checked.ok_bind, eraseIdx_zip hcs,
    one_div_real hc, Checked.get_append_cons rfl]
  rfl

/-- The values that go with some choice for the siblings are multiples of what is left of the target. -/
theorem consistent_eq_inter (hc : c ≠ 0) (hcs : cs.length = us.length) (ds : List ℝ) (target x : Interval Exact)
    (vs : List (Interval Exact)) : consistent {rs | real (realTotal (cs ++ c :: ds) rs) ∈ target} us x vs =
      x.reals ∩ (· * (1 / c)) '' (target.reals - realTotal (cs ++ ds) '' Box (us ++ vs)) := by
  ext r
  constructor
  · rintro ⟨hr, as, has, bs, hbs, hC⟩
    have hC : real (realTotal (cs ++ c :: ds) (as ++ r :: bs)) ∈ target := hC
    rw [realTotal_append_cons (hcs.trans (Interval.length_of_mem_box has).symm)] at hC
    refine ⟨hr, _, ⟨_, hC, _, ⟨as ++ bs, Interval.mem_box_append.mpr ⟨as, has, bs, hbs, rfl⟩, rfl⟩, rfl⟩, ?_⟩
    field_simp
    ring
  · rintro ⟨hr, _, ⟨t, ht, _, ⟨ss, hss, rfl⟩, rfl⟩, rfl⟩
    obtain ⟨as, has, bs, hbs, rfl⟩ := Interval.mem_box_append.mp hss
    have hvalue : c * ((t - realTotal (cs ++ ds) (as ++ bs)) * (1 / c)) + realTotal (cs ++ ds) (as ++ bs) = t := by
      field_simp
      ring
    refine ⟨hr, as, has, bs, hbs, ?_⟩
    change real (realTotal _ _) ∈ target
    rw [realTotal_append_cons (hcs.trans (Interval.length_of_mem_box has).symm), hvalue]
    exact ht

/-- **A step of a sum** leaves what is consistent. -/
theorem exists_narrow (hc : c ≠ 0) (hcs : cs.length = us.length) (hds : ds.length = vs.length)
    (hxs : ∀ y ∈ us ++ x :: vs, y.IsProper) (htarget : target.IsProper) :
    ∃ y, narrow ((cs ++ c :: ds).map real) target us.length (us ++ x :: vs) = .ok (some y) ∧
      y = hullOf (consistent {rs | real (realTotal (cs ++ c :: ds) rs) ∈ target} us x vs) ∧
      y.reals = consistent {rs | real (realTotal (cs ++ c :: ds) rs) ∈ target} us x vs := by
  obtain ⟨hx, hsiblings⟩ := forall_mem_append_cons.mp hxs
  obtain ⟨rest, hrest, hproper, hrests⟩ :=
    exists_range (Interval.isProper_point 0) hsiblings (show (cs ++ ds).length = _ by simp [hcs, hds])
  obtain ⟨difference, hdifference, hproper, hdifferences⟩ := Interval.exists_sub htarget hproper
  obtain ⟨allowed, hallowed, hproper, hmultiples⟩ := Interval.exists_scale hproper (1 / c)
  have hmeet : x.reals ∩ allowed.reals =
      consistent {rs | real (realTotal (cs ++ c :: ds) rs) ∈ target} us x vs := by
    rw [hmultiples, hdifferences, hrests, Interval.reals_point, Set.singleton_zero, zero_add,
      consistent_eq_inter hc hcs]
  refine ⟨x.inter allowed, ?_, ?_, ?_⟩
  · rw [narrow_append_cons hc hcs, hrest, Checked.ok_bind, hdifference, Checked.ok_bind, hallowed, Checked.ok_bind]
    rfl
  · rw [Interval.inter_eq_hullOf hx hproper, hmeet]
  · rw [Interval.reals_inter hx hproper, hmeet]

/-- A coefficient of zero leaves its operand alone. -/
theorem narrow_zero (hcs : cs.length = us.length) (ds : List ℝ) (target x : Interval Exact)
    (vs : List (Interval Exact)) : narrow ((cs ++ 0 :: ds).map real) target us.length (us ++ x :: vs) = .ok none := by
  rw [narrow, List.map_append, List.map_cons, Checked.get_append_cons (by simp [hcs]), Checked.ok_bind,
    if_pos (real_beq_zero.mpr rfl)]
  rfl

/-- With a coefficient of zero, all values are consistent or none. -/
theorem consistent_zero (hcs : cs.length = us.length)
    (hsome : (Box (us ++ x :: vs) ∩ {rs | real (realTotal (cs ++ 0 :: ds) rs) ∈ target}).Nonempty) :
    consistent {rs | real (realTotal (cs ++ 0 :: ds) rs) ∈ target} us x vs = x.reals := by
  refine Set.Subset.antisymm Interval.consistent_subset fun r hr => ?_
  obtain ⟨rs, hrs, hC⟩ := hsome
  obtain ⟨as, has, cs', hcs', rfl⟩ := Interval.mem_box_append.mp hrs
  obtain ⟨q, -, bs, hbs, rfl⟩ := Interval.mem_box_cons.mp hcs'
  refine ⟨hr, as, has, bs, hbs, ?_⟩
  have hlen := hcs.trans (Interval.length_of_mem_box has).symm
  change real (realTotal _ _) ∈ target at hC ⊢
  rwa [realTotal_append_cons hlen, zero_mul] at hC ⊢

/-- The entry at a position set apart. -/
theorem exists_eq_append_cons {α : Type} {l : List α} {i j : Nat} (h : i + j + 1 = l.length) :
    ∃ as a bs, l = as ++ a :: bs ∧ as.length = i ∧ bs.length = j := by
  refine ⟨l.take i, l[i], l.drop (i + 1), ?_, ?_, ?_⟩
  · rw [← List.drop_eq_getElem_cons, List.take_append_drop]
  · rw [List.length_take]
    omega
  · rw [List.length_drop]
    omega

/-- The bounds that are left for the weighted sum without the constant. -/
theorem exists_target (hbounds : bounds.IsProper) (k : ℝ) :
    ∃ target, bounds.sub ⟨real k, real k⟩ = .ok target ∧ target.IsProper ∧
      ∀ t, real t ∈ target ↔ real (k + t) ∈ bounds := by
  obtain ⟨target, htarget, hproper, hreals⟩ := Interval.exists_sub hbounds (Interval.isProper_point k)
  refine ⟨target, htarget, hproper, fun t => ?_⟩
  rw [← Interval.mem_reals, hreals, Interval.reals_point, Set.sub_singleton]
  constructor
  · rintro ⟨b, hb, rfl⟩
    rwa [add_sub_cancel]
  · intro h
    exact ⟨k + t, h, add_sub_cancel_left k t⟩

theorem reverse_nil (coefs : List Exact) (k : Exact) (bounds : Interval Exact) :
    reverse (.sum coefs k) bounds [] = .ok (.plain ⟨.ofBool (bounds.contains k), []⟩) := rfl

theorem reverse_cons (htarget : bounds.sub ⟨real k, real k⟩ = .ok target) {n : Narrowed Exact}
    (h : Handler.InTurn (narrow (coefs.map real) target) [] (x :: xs) n) :
    reverse (.sum (coefs.map real) (real k)) bounds (x :: xs) = .ok (.plain n) := by
  have hturn := Handler.narrowInTurn_of_inTurn h
  rw [List.length_nil, List.nil_append, ← List.range_eq_range'] at hturn
  rw [reverse, parts, Checked.ok_bind]
  change (Interval.point (real k) >>= fun constant => bounds.sub constant >>= fun target => _) = _
  rw [Interval.point_real, Checked.ok_bind, htarget, Checked.ok_bind, hturn]
  rfl

/-- A step leaves what is consistent, whatever the coefficient, as long as there is a choice that meets the target. -/
theorem exists_step (hlen : us.length + vs.length + 1 = coefs.length) (htarget : target.IsProper)
    (hsome : (Box (us ++ x :: vs) ∩ {rs | real (realTotal coefs rs) ∈ target}).Nonempty) :
    ∃ o, narrow (coefs.map real) target us.length (us ++ x :: vs) = .ok o ∧
      o.getD x = hullOf (consistent {rs | real (realTotal coefs rs) ∈ target} us x vs) ∧
      (o.getD x).reals = consistent {rs | real (realTotal coefs rs) ∈ target} us x vs := by
  have hproper := Interval.box_nonempty_iff.mp (hsome.mono Set.inter_subset_left)
  obtain ⟨cs, c, ds, rfl, hcs, hds⟩ := exists_eq_append_cons hlen
  rcases eq_or_ne c 0 with rfl | hc
  · have hall := consistent_zero hcs hsome
    rw [hall, Interval.hullOf_reals (forall_mem_append_cons.mp hproper).1]
    exact ⟨none, narrow_zero hcs ds target x vs, rfl, rfl⟩
  · obtain ⟨y, hy, hhull, hreals⟩ := exists_narrow hc hcs hds hproper htarget
    exact ⟨some y, hy, hhull, hreals⟩

/-- **One pass over a sum.** -/
theorem reverse_eq_hulls (hlen : coefs.length = xs.length) {P : Set (List ℝ)}
    (hP : P = Box xs ∩ {rs | real (k + realTotal coefs rs) ∈ bounds}) (hsome : P.Nonempty) :
    reverse (.sum (coefs.map real) (real k)) bounds xs =
        .ok (.plain ⟨.feasible, (List.range xs.length).map fun i => hullOf (valuesAt P i)⟩) ∧
      ∀ i < xs.length, (hullOf (valuesAt P i)).reals = valuesAt P i := by
  subst hP
  obtain ⟨rs, hrs, hvalue⟩ := id hsome
  cases xs with
  | nil =>
    obtain rfl : coefs = [] := List.length_eq_zero_iff.mp hlen
    have hmem : real k ∈ bounds := by simpa [realTotal] using hvalue
    rw [reverse_nil, Feasibility.ofBool_eq_feasible.mpr hmem]
    exact ⟨rfl, fun i hi => absurd hi (Nat.not_lt_zero i)⟩
  | cons x xs =>
    obtain ⟨target, htarget, hproper, hreals⟩ := exists_target (Interval.isProper_of_real_mem hvalue) k
    have hC : {rs | real (k + realTotal coefs rs) ∈ bounds} = {rs | real (realTotal coefs rs) ∈ target} :=
      Set.ext fun rs => (hreals _).symm
    rw [hC] at hsome ⊢
    obtain ⟨hturn, hexact⟩ := @Handler.inTurn_hulls (narrow (coefs.map real) target) [] (x :: xs) _ _
      (fun us x vs hk hsome => exists_step hk hproper hsome) (by simpa using hlen.symm) hsome
    exact ⟨by simpa [List.range_eq_range'] using reverse_cons htarget hturn,
      fun i hi => hexact i (by simpa [← List.range_eq_range'] using hi)⟩

/-! ### Solutions -/

variable {n : ℕ}

/-- The values of operands in their intervals for which a sum lies in bounds. -/
def Solutions (coefs : Fin n → ℝ) (k : ℝ) (bounds : Interval Exact) (xs : Fin n → Interval Exact) : Set (Fin n → ℝ) :=
  {r | (∀ i, real (r i) ∈ xs i) ∧ real (k + ∑ i, coefs i * r i) ∈ bounds}

theorem realTotal_ofFn (coefs r : Fin n → ℝ) : realTotal (.ofFn coefs) (.ofFn r) = ∑ i, coefs i * r i := by
  induction n with
  | zero => rfl
  | succ n ih => rw [List.ofFn_succ, List.ofFn_succ, realTotal_cons, ih, Fin.sum_univ_succ]

theorem ofFn_mem_box {r : Fin n → ℝ} {xs : Fin n → Interval Exact} :
    List.ofFn r ∈ Box (.ofFn xs) ↔ ∀ i, real (r i) ∈ xs i := by
  induction n with
  | zero => simp
  | succ n ih =>
    rw [List.ofFn_succ, List.ofFn_succ, Fin.forall_fin_succ, ← ih]
    exact List.forall₂_cons

variable {coefs : Fin n → ℝ} {xs ys : Fin n → Interval Exact}

theorem box_inter_eq_image : Box (.ofFn xs) ∩ {rs | real (k + realTotal (.ofFn coefs) rs) ∈ bounds} =
    List.ofFn '' Solutions coefs k bounds xs := by
  ext rs
  constructor
  · rintro ⟨hrs, hC⟩
    obtain ⟨r, rfl⟩ : ∃ r : Fin n → ℝ, List.ofFn r = rs := by
      have hlen : rs.length = n := by simpa using Interval.length_of_mem_box hrs
      subst hlen
      exact ⟨rs.get, List.ofFn_get rs⟩
    rw [Set.mem_ofPred_eq, realTotal_ofFn] at hC
    exact ⟨r, ⟨ofFn_mem_box.mp hrs, hC⟩, rfl⟩
  · rintro ⟨r, ⟨hr, hC⟩, rfl⟩
    exact ⟨ofFn_mem_box.mpr hr, by rwa [Set.mem_ofPred_eq, realTotal_ofFn]⟩

theorem valuesAt_ofFn (P : Set (Fin n → ℝ)) (i : Fin n) : valuesAt (List.ofFn '' P) i = (fun r => r i) '' P := by
  ext t
  simp [valuesAt]

theorem reverse_ofFn (hsome : (Solutions coefs k bounds xs).Nonempty) :
    reverse (.sum (.ofFn fun i => real (coefs i)) (real k)) bounds (.ofFn xs) =
        .ok (.plain ⟨.feasible, .ofFn fun i => hullOf ((fun r => r i) '' Solutions coefs k bounds xs)⟩) ∧
      ∀ i, (hullOf ((fun r => r i) '' Solutions coefs k bounds xs)).reals =
        (fun r => r i) '' Solutions coefs k bounds xs := by
  obtain ⟨hreverse, hexact⟩ := reverse_eq_hulls (by simp) box_inter_eq_image.symm (hsome.image _)
  rw [List.map_ofFn, List.length_ofFn] at hreverse
  simp only [← valuesAt_ofFn]
  refine ⟨?_, fun i => hexact i (by simp)⟩
  have hrange : (List.range n).map (fun i => hullOf (valuesAt (List.ofFn '' Solutions coefs k bounds xs) i)) =
      List.ofFn fun i : Fin n => hullOf (valuesAt (List.ofFn '' Solutions coefs k bounds xs) i) :=
    List.ext_getElem (by simp) (by simp)
  rw [← hrange]
  exact hreverse

/-- A term with coefficient zero does not restrict its operand. -/
theorem image_solutions_of_zero (hsome : (Solutions coefs k bounds xs).Nonempty) {i : Fin n} (hi : coefs i = 0) :
    (fun r => r i) '' Solutions coefs k bounds xs = (xs i).reals := by
  ext t
  constructor
  · rintro ⟨r, hr, rfl⟩
    exact hr.1 i
  · intro ht
    obtain ⟨r, hr, hvalue⟩ := hsome
    refine ⟨Function.update r i t, ⟨fun j => ?_, ?_⟩, Function.update_self i t r⟩
    · rcases eq_or_ne j i with rfl | hj
      · rwa [Function.update_self]
      · rw [Function.update_of_ne hj]
        exact hr j
    · have hsum : ∑ j, coefs j * Function.update r i t j = ∑ j, coefs j * r j := by
        refine Finset.sum_congr rfl fun j _ => ?_
        rcases eq_or_ne j i with rfl | hj
        · rw [hi, zero_mul, zero_mul]
        · rw [Function.update_of_ne hj]
      rwa [hsum]

/-- Solutions of a sum whose terms are in another order. -/
theorem mem_solutions_comp (σ : Equiv.Perm (Fin n)) (r : Fin n → ℝ) :
    r ∘ σ ∈ Solutions (coefs ∘ σ) k bounds (xs ∘ σ) ↔ r ∈ Solutions coefs k bounds xs := by
  refine and_congr ⟨fun h i => by simpa using h (σ.symm i), fun h i => h (σ i)⟩ ?_
  have hsum : ∑ i, (coefs ∘ σ) i * (r ∘ σ) i = ∑ i, coefs i * r i :=
    Equiv.sum_comp σ fun i => coefs i * r i
  rw [hsum]

/-- In another order of the terms, solutions have the same values. -/
theorem image_solutions_comp (σ : Equiv.Perm (Fin n)) (i : Fin n) :
    (fun r => r i) '' Solutions (coefs ∘ σ) k bounds (xs ∘ σ) = (fun r => r (σ i)) '' Solutions coefs k bounds xs := by
  ext t
  constructor
  · rintro ⟨r, hr, rfl⟩
    have hr' : (r ∘ σ.symm) ∘ σ ∈ Solutions (coefs ∘ σ) k bounds (xs ∘ σ) := by
      rwa [Function.comp_assoc, Equiv.symm_comp_self]
    exact ⟨r ∘ σ.symm, (mem_solutions_comp σ _).mp hr', by simp⟩
  · rintro ⟨r, hr, rfl⟩
    exact ⟨r ∘ σ, (mem_solutions_comp σ r).mpr hr, rfl⟩

/-- Narrowing operands to what the solutions have there changes no solution. -/
theorem solutions_eq (hys : ∀ i, (ys i).reals = (fun r => r i) '' Solutions coefs k bounds xs) :
    Solutions coefs k bounds ys = Solutions coefs k bounds xs := by
  ext r
  refine and_congr_left fun hvalue => ⟨fun hr i => ?_, fun hr i => ?_⟩
  · obtain ⟨s, hs, hsi⟩ := (hys i).subset (hr i)
    exact hsi ▸ hs.1 i
  · exact (hys i).superset ⟨r, ⟨hr, hvalue⟩, rfl⟩

/-- **One pass over a sum is optimal.** If there are values in the intervals of the operands for which a sum lies in
bounds, then its reverse propagation finds it feasible and leaves of each interval just what these values are. Operands
with coefficient zero stay as they are, and so does every operand in a second pass. In whatever order the terms come,
each operand is left with the same. -/
theorem reverse_eq_projections (hsome : (Solutions coefs k bounds xs).Nonempty) :
    ∃ ys : Fin n → Interval Exact,
      reverse (.sum (.ofFn fun i => real (coefs i)) (real k)) bounds (.ofFn xs) =
        .ok (.plain ⟨.feasible, .ofFn ys⟩) ∧
      (∀ i, (ys i).IsProper ∧ (ys i).reals = (fun r => r i) '' Solutions coefs k bounds xs) ∧
      (∀ i, coefs i = 0 → ys i = xs i) ∧
      (∀ σ : Equiv.Perm (Fin n),
        reverse (.sum (.ofFn fun i => real (coefs (σ i))) (real k)) bounds (.ofFn fun i => xs (σ i)) =
          .ok (.plain ⟨.feasible, .ofFn fun i => ys (σ i)⟩)) ∧
      reverse (.sum (.ofFn fun i => real (coefs i)) (real k)) bounds (.ofFn ys) =
        .ok (.plain ⟨.feasible, .ofFn ys⟩) := by
  obtain ⟨hreverse, hexact⟩ := reverse_ofFn hsome
  refine ⟨_, hreverse, fun i => ⟨Interval.isProper_hullOf.mpr (hsome.image _), hexact i⟩, fun i hi => ?_, fun σ => ?_,
    ?_⟩
  · obtain ⟨r, hr, -⟩ := id hsome
    rw [image_solutions_of_zero hsome hi, Interval.hullOf_reals (Interval.isProper_of_real_mem (hr i))]
  · have hsome' : (Solutions (coefs ∘ σ) k bounds (xs ∘ σ)).Nonempty := by
      obtain ⟨r, hr⟩ := hsome
      exact ⟨r ∘ σ, (mem_solutions_comp σ r).mpr hr⟩
    obtain ⟨hpermuted, -⟩ := reverse_ofFn hsome'
    simp only [image_solutions_comp] at hpermuted
    exact hpermuted
  · have hsame := solutions_eq hexact
    obtain ⟨hagain, -⟩ := reverse_ofFn (hsame.symm ▸ hsome)
    rw [hsame] at hagain
    exact hagain

/-- Two operands of which the first is not less than the second. -/
theorem reverse_eq_projections_of_difference :
    let xs : Fin 2 → Interval Exact := ![⟨real 0, real 10⟩, ⟨real 2, posInf⟩]
    (Solutions ![1, -1] 0 Interval.nonnegative xs).Nonempty ∧
      ∃ ys : Fin 2 → Interval Exact,
        reverse (.sum [real 1, real (-1)] (real 0)) Interval.nonnegative [⟨real 0, real 10⟩, ⟨real 2, posInf⟩] =
          .ok (.plain ⟨.feasible, [ys 0, ys 1]⟩) ∧
        (∀ t, real t ∈ ys 0 ↔ 2 ≤ t ∧ t ≤ 10) ∧ ∀ t, real t ∈ ys 1 ↔ 2 ≤ t ∧ t ≤ 10 := by
  intro xs
  have hmem (r : Fin 2 → ℝ) : r ∈ Solutions ![1, -1] 0 Interval.nonnegative xs ↔
      (0 ≤ r 0 ∧ r 0 ≤ 10) ∧ 2 ≤ r 1 ∧ r 1 ≤ r 0 := by
    simp [Solutions, xs, Fin.forall_fin_two, Interval.nonnegative, ← real_zero, and_assoc]
  have hsome : (Solutions ![1, -1] 0 Interval.nonnegative xs).Nonempty := ⟨![5, 3], (hmem _).mpr (by norm_num)⟩
  obtain ⟨ys, hreverse, hys, -⟩ := reverse_eq_projections hsome
  refine ⟨hsome, ys, by simpa [xs] using hreverse, fun t => ?_, fun t => ?_⟩
  · rw [← Interval.mem_reals, (hys 0).2]
    constructor
    · rintro ⟨r, hr, rfl⟩
      obtain ⟨⟨-, h10⟩, h2, hle⟩ := (hmem r).mp hr
      exact ⟨h2.trans hle, h10⟩
    · rintro ⟨h2, h10⟩
      exact ⟨![t, 2], (hmem _).mpr ⟨⟨show 0 ≤ t by linarith, h10⟩, le_refl _, h2⟩, rfl⟩
  · rw [← Interval.mem_reals, (hys 1).2]
    constructor
    · rintro ⟨r, hr, rfl⟩
      obtain ⟨⟨-, h10⟩, h2, hle⟩ := (hmem r).mp hr
      exact ⟨h2, hle.trans h10⟩
    · rintro ⟨h2, h10⟩
      exact ⟨![10, t], (hmem _).mpr ⟨⟨show (0 : ℝ) ≤ 10 by norm_num, le_refl _⟩, h2, h10⟩, rfl⟩

end WeightedSum

end IntervalDag
