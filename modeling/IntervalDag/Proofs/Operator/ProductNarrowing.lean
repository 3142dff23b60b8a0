import IntervalDag.Operator.Product
import IntervalDag.Proofs.Interval.Quotients
import IntervalDag.Proofs.Operator.Algebraic
import IntervalDag.Proofs.Operator.InTurn

/-!
# Narrowing the operands of a product

Over exact arithmetic a step of the reverse propagation of a product keeps the values of an operand that are consistent
with its siblings, and leaves the hull of them where the siblings are bounded (`Product.exists_narrow`). A pass
therefore loses no solution (`Product.reverse_keeps`).
-/

namespace IntervalDag

open Scalar Exact
open IntervalDag.Interval (Box consistent hullOf quotients)
open scoped Pointwise

namespace Product

variable {c : ℝ} {x target bounds : Interval Exact} {xs us vs : List (Interval Exact)}

/-! ### Ranges -/

theorem mem_range_of_mem_box {rs : List ℝ} (h : rs ∈ Box xs) : real rs.prod ∈ range xs :=
  real_mem_range (List.forall₂_map_left_iff.mpr h)

/-- **The range of a product** of bounded intervals is just what the choices make. -/
theorem reals_range (hxs : ∀ x ∈ xs, x.IsCompact) : (range xs).IsCompact ∧ (range xs).reals = List.prod '' Box xs := by
  have hfoldl : ∀ (xs : List (Interval Exact)) (acc : Interval Exact), (∀ x ∈ xs, x.IsCompact) → acc.IsCompact →
      (xs.foldl (· * ·) acc).IsCompact ∧ (xs.foldl (· * ·) acc).reals = acc.reals * List.prod '' Box xs := by
    intro xs
    induction xs with
    | nil => intro acc _ hacc; exact ⟨hacc, by simp⟩
    | cons x xs ih =>
      intro acc hxs hacc
      obtain ⟨hx, hxs⟩ := List.forall_mem_cons.mp hxs
      obtain ⟨hcompact, hreals⟩ := Interval.reals_mul hacc hx
      obtain ⟨hcompact, hreals'⟩ := ih _ hxs hcompact
      refine ⟨hcompact, ?_⟩
      have hbox : List.prod '' Box (x :: xs) = x.reals * List.prod '' Box xs := by
        rw [Interval.box_cons, Set.image_image2, ← Set.image2_mul, Set.image2_image_right]
        exact Set.image2_congr fun r _ rs _ => List.prod_cons
      rw [List.foldl_cons, hreals', hreals, hbox, mul_assoc]
  have hone : (⟨1, 1⟩ : Interval Exact) = ⟨real 1, real 1⟩ := by rw [real_one]
  obtain ⟨hcompact, hreals⟩ := hfoldl xs ⟨real 1, real 1⟩ hxs (Interval.isCompact_real (le_refl 1))
  rw [range, hone]
  refine ⟨hcompact, ?_⟩
  rw [hreals, Interval.reals_point, Set.singleton_one, one_mul]

/-! ### Steps -/

theorem prod_append_cons (as : List ℝ) (r : ℝ) (bs : List ℝ) : (as ++ r :: bs).prod = r * (as ++ bs).prod := by
  rw [List.prod_append, List.prod_cons, List.prod_append]
  ring

theorem narrow_append_cons (target x : Interval Exact) (us vs : List (Interval Exact)) :
    narrow target us.length (us ++ x :: vs) = some <$> Interval.solveProduct target (range (us ++ vs)) x := by
  rw [narrow, Checked.get_append_cons rfl, Checked.ok_bind, eraseIdx_append_cons]
  rfl

/-- What a choice for the siblings allows is among the quotients by their range. -/
theorem consistent_subset_quotients :
    consistent {rs | real rs.prod ∈ target} us x vs ⊆ quotients target (range (us ++ vs)) := by
  rintro r ⟨-, as, has, bs, hbs, hC⟩
  refine ⟨(as ++ bs).prod, mem_range_of_mem_box (Interval.mem_box_append.mpr ⟨as, has, bs, hbs, rfl⟩), ?_⟩
  rwa [← prod_append_cons]

/-- **A step of a product** keeps what is consistent, and leaves the hull of it where the siblings are bounded. -/
theorem exists_narrow (htarget : target.isEmpty = true ∨ target.IsProper) (hxs : ∀ y ∈ us ++ x :: vs, y.IsProper) :
    ∃ s, narrow target us.length (us ++ x :: vs) = .ok (some (hullOf s)) ∧
      consistent {rs | real rs.prod ∈ target} us x vs ⊆ s ∧
      ((∀ y ∈ us ++ vs, y.IsCompact) → s = consistent {rs | real rs.prod ∈ target} us x vs) := by
  obtain ⟨hx, hsiblings⟩ := forall_mem_append_cons.mp hxs
  obtain ⟨rs, hrs⟩ := Interval.box_nonempty_iff.mpr hsiblings
  have hfactor := Interval.isProper_of_real_mem (mem_range_of_mem_box hrs)
  obtain ⟨s, hs, hsub, hexact⟩ := Interval.exists_solveProduct htarget hfactor hx
  refine ⟨s ∩ x.reals, by rw [narrow_append_cons, hs]; rfl, fun r hr => ⟨hsub (consistent_subset_quotients hr), hr.1⟩,
    fun hcompact => ?_⟩
  obtain ⟨hrange, hreals⟩ := reals_range hcompact
  refine Set.Subset.antisymm ?_ fun r hr => ⟨hsub (consistent_subset_quotients hr), hr.1⟩
  rintro r ⟨hr, hx⟩
  obtain ⟨d, hd, hrd⟩ := hexact hrange hr
  obtain ⟨ss, hss, rfl⟩ := hreals.subset hd
  obtain ⟨as, has, bs, hbs, rfl⟩ := Interval.mem_box_append.mp hss
  exact ⟨hx, as, has, bs, hbs, by rwa [Set.mem_ofPred_eq, prod_append_cons]⟩

/-! ### Passes -/

theorem mul_prod_of_constant (h : c = 0 ∨ xs = []) {rs : List ℝ} (hrs : rs ∈ Box xs) : c * rs.prod = c := by
  rcases h with rfl | rfl
  · exact zero_mul _
  · obtain rfl : rs = [] := by simpa using hrs
    rw [List.prod_nil, mul_one]

/-- A product that does not depend on its operands is only checked. -/
theorem reverse_of_constant (h : c = 0 ∨ xs = []) (bounds : Interval Exact) :
    reverse (.product (real c)) bounds xs = .ok (.plain ⟨.ofBool (bounds.contains (real c)), xs⟩) := by
  have hconstant : (real c == 0 || xs.isEmpty) = true := by
    rcases h with rfl | rfl
    · rw [real_beq_zero.mpr rfl, Bool.true_or]
    · exact Bool.or_true _
  have hcontains : (bounds.contains (real c) || (real c == 0 && bounds.containsZero)) = bounds.contains (real c) := by
    rcases eq_or_ne c 0 with rfl | hc
    · rw [real_beq_zero.mpr rfl, Bool.true_and, Interval.containsZero, ← real_zero, Bool.or_self]
    · rw [Bool.eq_false_iff.mpr (mt real_beq_zero.mp hc), Bool.false_and, Bool.or_false]
  rw [reverse, coef, Checked.ok_bind, if_pos hconstant, hcontains]
  rfl

/-- Any other product narrows its operands in turn. -/
theorem reverse_eq_ok_iff (hc : c ≠ 0) (hne : xs ≠ []) {n : Narrowed Exact} :
    reverse (.product (real c)) bounds xs = .ok (.plain n) ↔
      ∃ target, bounds.scale (real (1 / c)) = .ok target ∧ Handler.InTurn (narrow target) [] xs n := by
  have hvaries : ¬ (real c == 0 || xs.isEmpty) = true := by
    rw [Bool.or_eq_true, real_beq_zero, List.isEmpty_iff]
    exact not_or.mpr ⟨hc, hne⟩
  rw [reverse, coef, Checked.ok_bind, if_neg hvaries, one_div_real hc, Checked.bind_eq_ok]
  refine exists_congr fun target => and_congr_right fun _ => ?_
  rw [← Handler.narrowInTurn_eq_ok_iff, List.length_nil, List.nil_append, ← List.range_eq_range', Checked.bind_eq_ok]
  constructor
  · rintro ⟨m, hm, hplain⟩
    cases hplain
    exact hm
  · exact fun h => ⟨n, h, rfl⟩

/-- The bounds that are left for the product without its coefficient. -/
theorem exists_target (hc : c ≠ 0) (hbounds : bounds.isEmpty = true ∨ bounds.IsProper) :
    ∃ target, bounds.scale (real (1 / c)) = .ok target ∧ (target.isEmpty = true ∨ target.IsProper) ∧
      ∀ t, real t ∈ target ↔ real (c * t) ∈ bounds := by
  rcases hbounds with hempty | hproper
  · exact ⟨.empty, Interval.scale_of_isEmpty hempty _, Or.inl Interval.isEmpty_empty, fun t =>
      iff_of_false (Interval.real_notMem_of_isEmpty Interval.isEmpty_empty t)
        (Interval.real_notMem_of_isEmpty hempty _)⟩
  · obtain ⟨target, htarget, hproper, hreals⟩ := Interval.exists_scale hproper (1 / c)
    refine ⟨target, htarget, Or.inr hproper, fun t => ?_⟩
    rw [← Interval.mem_reals, hreals]
    constructor
    · rintro ⟨b, hb, rfl⟩
      have hb' : c * (b * (1 / c)) = b := by field_simp
      exact hb'.symm ▸ hb
    · intro h
      exact ⟨c * t, h, by field_simp⟩

/-- No solution is lost. -/
theorem mem_box_of_reverse {n : Narrowed Exact} (h : reverse (.product (real c)) bounds xs = .ok (.plain n))
    {rs : List ℝ} (hrs : rs ∈ Box xs) (hvalue : real (c * rs.prod) ∈ bounds) :
    n.verdict = .feasible ∧ rs ∈ Box n.operands := by
  have hbounds := Interval.isProper_of_real_mem hvalue
  by_cases hconstant : c = 0 ∨ xs = []
  · cases (reverse_of_constant hconstant bounds).symm.trans h
    rw [mul_prod_of_constant hconstant hrs] at hvalue
    exact ⟨Feasibility.ofBool_eq_feasible.mpr hvalue, hrs⟩
  obtain ⟨hc, hne⟩ := not_or.mp hconstant
  obtain ⟨target, htarget, hturn⟩ := (reverse_eq_ok_iff hc hne).mp h
  obtain ⟨target', htarget', hproper, hreals⟩ := exists_target hc (Or.inr hbounds)
  cases htarget.symm.trans htarget'
  refine hturn.mem_box (C := {rs | real rs.prod ∈ target}) (fun us x vs y hstep r hr => ?_) hrs ((hreals _).mpr hvalue)
  -- a consistent value comes from a choice, so that all operands are proper
  obtain ⟨hx, as, has, bs, hbs, -⟩ := id hr
  have hall := Interval.box_nonempty_iff.mp ⟨as ++ r :: bs, Interval.mem_box_append.mpr ⟨as, has, _, .cons hx hbs, rfl⟩⟩
  obtain ⟨s, hs, hsub, -⟩ := exists_narrow hproper hall
  cases hstep.symm.trans hs
  exact Interval.real_mem_hullOf (hsub hr)

section Reverse

variable (hxs : ∀ x ∈ xs, x.IsProper)

include hxs

/-- With no end of the bounds at the wrong infinity, there is a result. -/
theorem exists_reverse (c : ℝ) (hbounds : bounds.isEmpty = true ∨ bounds.IsProper) :
    ∃ n, reverse (.product (real c)) bounds xs = .ok (.plain n) := by
  by_cases hconstant : c = 0 ∨ xs = []
  · exact ⟨_, reverse_of_constant hconstant bounds⟩
  obtain ⟨hc, hne⟩ := not_or.mp hconstant
  obtain ⟨target, htarget, hproper, -⟩ := exists_target hc hbounds
  have hstep : ∀ us x vs, us.length + vs.length + 1 = xs.length → (∀ y ∈ us ++ x :: vs, y.IsProper) →
      ∃ o, narrow target us.length (us ++ x :: vs) = .ok o ∧ ∀ y, o = some y → y.isEmpty = false → y.IsProper := by
    intro us x vs _ hxs
    obtain ⟨s, hs, -⟩ := exists_narrow hproper hxs
    refine ⟨_, hs, fun y hy hnonempty => ?_⟩
    cases hy
    exact Interval.isProper_hullOf.mpr (Interval.isEmpty_hullOf.mp hnonempty)
  obtain ⟨n, hn⟩ := @Handler.exists_inTurn _ _ (narrow target) [] xs _ _ hstep (Nat.zero_add _) hxs
  exact ⟨n, (reverse_eq_ok_iff hc hne).mpr ⟨target, htarget, hn⟩⟩

variable {n : Narrowed Exact} (h : reverse (.product (real c)) bounds xs = .ok (.plain n))

include h

/-- Every operand is left with a part of its interval. -/
theorem isSubset_of_reverse : List.Forall₂ (fun y x => y.isSubset x = true) n.operands xs := by
  have hrefl : ∀ x ∈ xs, x.isSubset x = true := fun x hx => Interval.isSubset_refl (hxs x hx)
  by_cases hconstant : c = 0 ∨ xs = []
  · cases (reverse_of_constant hconstant bounds).symm.trans h
    exact List.forall₂_same.mpr hrefl
  obtain ⟨hc, hne⟩ := not_or.mp hconstant
  obtain ⟨target, -, hturn⟩ := (reverse_eq_ok_iff hc hne).mp h
  obtain ⟨ys, hys, hrel⟩ := hturn.forall₂ (R := fun y x => y.isSubset x = true) hrefl fun us x vs y hx hstep => by
    rw [narrow_append_cons] at hstep
    obtain ⟨z, hz, hzy⟩ := Checked.map_eq_ok.mp hstep
    cases hzy
    exact Interval.isSubset_of_solveProduct (hxs x hx) hz
  rwa [hys]

/-- An operand with bounded siblings is left with the hull of what is consistent with them. -/
theorem hull_of_reverse (hbounds : bounds.isEmpty = true ∨ bounds.IsProper) (hruns : c ≠ 0 ∨ n.verdict = .feasible)
    {i : Nat} (hget : xs[i]? = some x) (hcompact : ∀ s ∈ n.operands.take i ++ xs.drop (i + 1), s.IsCompact) :
    n.operands[i]? = some (hullOf
      (consistent {rs | real (c * rs.prod) ∈ bounds} (n.operands.take i) x (xs.drop (i + 1)))) := by
  have hx := hxs x (List.mem_of_getElem? hget)
  by_cases hconstant : c = 0 ∨ xs = []
  · cases (reverse_of_constant hconstant bounds).symm.trans h
    obtain rfl : c = 0 := hconstant.resolve_right fun hnil => by
      rw [hnil] at hget
      cases hget
    have hzero : real 0 ∈ bounds := Feasibility.ofBool_eq_feasible.mp (hruns.resolve_left (not_not.mpr rfl))
    have hall : consistent {rs | real (0 * rs.prod) ∈ bounds} (xs.take i) x (xs.drop (i + 1)) = x.reals := by
      obtain ⟨ss, hss⟩ := Interval.box_nonempty_iff.mpr fun s hs => (hcompact s hs).isProper
      obtain ⟨as, has, bs, hbs, -⟩ := Interval.mem_box_append.mp hss
      exact Set.Subset.antisymm Interval.consistent_subset fun r hr => ⟨hr, as, has, bs, hbs, by
        rwa [Set.mem_ofPred_eq, zero_mul]⟩
    rw [hget, hall, Interval.hullOf_reals hx]
  obtain ⟨hc, hne⟩ := not_or.mp hconstant
  obtain ⟨target, htarget, hturn⟩ := (reverse_eq_ok_iff hc hne).mp h
  obtain ⟨target', htarget', hproper, hreals⟩ := exists_target hc hbounds
  cases htarget.symm.trans htarget'
  have hset : {rs | real (c * rs.prod) ∈ bounds} = {rs : List ℝ | real rs.prod ∈ target} :=
    Set.ext fun rs => (hreals _).symm
  obtain ⟨o, ho, hy⟩ := hturn.exists_step_at hget fun y hy => (hcompact y (List.mem_append_left _ hy)).nonempty
  have hall : ∀ y ∈ n.operands.take i ++ x :: xs.drop (i + 1), y.IsProper :=
    forall_mem_append_cons.mpr ⟨hx, fun y hy => (hcompact y hy).isProper⟩
  obtain ⟨s, hs, -, hexact⟩ := exists_narrow hproper hall
  cases ho.symm.trans hs
  rw [hy, hset, ← hexact hcompact]
  rfl

end Reverse

/-- **Reverse propagation of a product loses no solution.** A choice from the intervals of the operands for which the
product lies in bounds is found feasible and stays in what the operands are left with. These are parts of the intervals
they had. An operand whose siblings are bounded when its turn comes is left with the hull of the values that some choice
for the siblings allows. With a coefficient of zero no operand has a turn, and if zero lies in bounds, then what the
operands have is that hull. -/
theorem reverse_keeps (c : ℝ) (bounds : Interval Exact) (hxs : ∀ x ∈ xs, x.IsProper) :
    (∀ rs ∈ Box xs, real (c * rs.prod) ∈ bounds →
      ∃ ys, reverse (.product (real c)) bounds xs = .ok (.plain ⟨.feasible, ys⟩) ∧ rs ∈ Box ys) ∧
    (∀ n, reverse (.product (real c)) bounds xs = .ok (.plain n) →
      List.Forall₂ (fun y x => y.isSubset x = true) n.operands xs) ∧
    (bounds.isEmpty = true ∨ bounds.IsProper → ∃ n, reverse (.product (real c)) bounds xs = .ok (.plain n) ∧
      (c ≠ 0 ∨ n.verdict = .feasible → ∀ i x, xs[i]? = some x →
        (∀ s ∈ n.operands.take i ++ xs.drop (i + 1), s.IsCompact) →
        n.operands[i]? = some (hullOf
          (consistent {rs | real (c * rs.prod) ∈ bounds} (n.operands.take i) x (xs.drop (i + 1)))))) := by
  refine ⟨fun rs hrs hvalue => ?_, fun n hn => isSubset_of_reverse hxs hn, fun hbounds => ?_⟩
  · obtain ⟨⟨verdict, ys⟩, hn⟩ := exists_reverse hxs c (Or.inr (Interval.isProper_of_real_mem hvalue))
    obtain ⟨rfl, hmem⟩ := mem_box_of_reverse hn hrs hvalue
    exact ⟨ys, hn, hmem⟩
  · obtain ⟨n, hn⟩ := exists_reverse hxs c hbounds
    exact ⟨n, hn, fun hruns i x => hull_of_reverse hxs hn hbounds hruns⟩

/-- A factor about which nothing is known, beside one that is not zero. -/
theorem reverse_keeps_of_quotient :
    let xs : List (Interval Exact) := [⟨negInf, posInf⟩, ⟨real 1, real 2⟩]
    (∀ x ∈ xs, x.IsProper) ∧ ∃ ys, reverse (.product (real (-1))) ⟨real 2, real 4⟩ xs = .ok (.plain ⟨.feasible, ys⟩) ∧
      [-2, 1] ∈ Box ys ∧ ys[0]? = some ⟨real (-4), real (-1)⟩ := by
  intro xs
  have hmem : [-2, 1] ∈ Box xs := .cons (Interval.real_mem_number.mpr ⟨bot_le, le_top⟩)
    (.cons (Interval.real_mem_real.mpr (by norm_num)) .nil)
  have hxs : ∀ x ∈ xs, x.IsProper := Interval.box_nonempty_iff.mp ⟨_, hmem⟩
  obtain ⟨hkeeps, -, hhull⟩ := reverse_keeps (-1) ⟨real 2, real 4⟩ hxs
  obtain ⟨ys, hys, hmem⟩ := hkeeps [-2, 1] hmem (Interval.real_mem_real.mpr (by norm_num))
  obtain ⟨n, hn, hhull⟩ := hhull (Or.inr (Interval.isCompact_real (by norm_num)).isProper)
  cases hys.symm.trans hn
  refine ⟨hxs, ys, hys, hmem, ?_⟩
  have hquotients : consistent {rs | real (-1 * rs.prod) ∈ (⟨real 2, real 4⟩ : Interval Exact)} [] ⟨negInf, posInf⟩
      [⟨real 1, real 2⟩] = Interval.reals ⟨real (-4), real (-1)⟩ := by
    have hsiblings (d : ℝ) (h1 : 1 ≤ d) (h2 : d ≤ 2) : [d] ∈ Box [⟨real 1, real 2⟩] :=
      .cons (Interval.real_mem_real.mpr ⟨h1, h2⟩) .nil
    ext t
    constructor
    · rintro ⟨-, as, has, bs, hbs, hC⟩
      obtain rfl : as = [] := by simpa using has
      obtain ⟨d, hd, _, hnil, rfl⟩ := Interval.mem_box_cons.mp hbs
      cases hnil
      obtain ⟨h1, h2⟩ := Interval.real_mem_real.mp hd
      obtain ⟨hlow, hhigh⟩ := Interval.real_mem_real.mp hC
      rw [List.nil_append, List.prod_cons, List.prod_singleton] at hlow hhigh
      exact Interval.real_mem_real.mpr ⟨by nlinarith, by nlinarith⟩
    · intro ht
      obtain ⟨hlow, hhigh⟩ := Interval.real_mem_real.mp ht
      refine ⟨Interval.real_mem_number.mpr ⟨bot_le, le_top⟩, [], .nil, ?_⟩
      rcases le_or_gt t (-2) with h | h
      · exact ⟨[1], hsiblings 1 (by norm_num) (by norm_num), Interval.real_mem_real.mpr
          (by rw [List.nil_append, List.prod_cons, List.prod_singleton]; constructor <;> linarith)⟩
      · exact ⟨[2], hsiblings 2 (by norm_num) (by norm_num), Interval.real_mem_real.mpr
          (by rw [List.nil_append, List.prod_cons, List.prod_singleton]; constructor <;> linarith)⟩
  have hcompact : ∀ s ∈ ys.take 0 ++ xs.drop 1, s.IsCompact :=
    List.forall_mem_singleton.mpr (Interval.isCompact_real (by norm_num))
  rw [hhull (Or.inr rfl) 0 ⟨negInf, posInf⟩ rfl hcompact]
  exact congrArg some ((congrArg hullOf hquotients).trans
    (Interval.hullOf_reals (Interval.isCompact_real (by norm_num)).isProper))

end Product

end IntervalDag
