import Mathlib.Topology.Order.IntermediateValue
import IntervalDag.Proofs.Interval.Tightness
import IntervalDag.Proofs.Interval.Waves

/-!
# Solving for the operand of a sine

To narrow the operand of a sine or a cosine, the first and the last place of an interval are looked for at which the
value is in bounds. The sine is continuous, so from a value out of bounds on it gets to one of their ends first
(`IsSine.exists_crossing`), and it takes a value at the places that are whole periods away from two roots
(`IsSine.eq_level_iff`). Of four such roots the nearest place is the first hit (`IsSine.exists_firstSineHit`), and the
last hit is the first one of the mirrored problem. What lies between the two is left (`Interval.exists_leaves`), so
intervals that are regular stay so. `Interval.periodicInverse_keeps`: whatever the function is, as long as it has the
symmetries of the sine (`IsSine`), no solution is lost, and the ends of what is left of a bounded interval are near
solutions.
-/

namespace IntervalDag

open Scalar Exact

/-! ### Functions like the sine -/

/-- A continuous function with the symmetries of the sine: it is odd, mirrors itself at half of a number, and rises from
`-1` to `1` up to there. The other function is its inverse on that stretch. It follows that the function repeats after
twice the number (`IsSine.periodic`). -/
structure IsSine (F arc : ℝ → ℝ) (half : ℝ) : Prop where
  continuous : Continuous F
  odd : Function.Odd F
  mirrored : ∀ r, F (half - r) = F r
  rises : StrictMonoOn F (Set.Icc (-(half / 2)) (half / 2))
  mapsTo : Set.MapsTo F (Set.Icc (-(half / 2)) (half / 2)) (Set.Icc (-1) 1)
  arc_mapsTo : Set.MapsTo arc (Set.Icc (-1) 1) (Set.Icc (-(half / 2)) (half / 2))
  rightInv : Set.RightInvOn arc F (Set.Icc (-1) 1)

/-- **The sine** is such a function. -/
theorem isSine_sin : IsSine Real.sin Real.arcsin Real.pi where
  continuous := Real.continuous_sin
  odd := Real.sin_neg
  mirrored := Real.sin_pi_sub
  rises := Real.strictMonoOn_sin
  mapsTo r _ := Real.sin_mem_Icc r
  arc_mapsTo v _ := Real.arcsin_mem_Icc v
  rightInv _ hv := Real.sin_arcsin hv.1 hv.2

namespace IsSine

variable {F arc : ℝ → ℝ} {half p q r u v : ℝ}

theorem half_pos (h : IsSine F arc half) : 0 < half := by
  by_contra hle
  have hone : (1 : ℝ) ∈ Set.Icc (-1) 1 := by norm_num
  have hneg : (-1 : ℝ) ∈ Set.Icc (-1) 1 := by norm_num
  obtain ⟨hlow, hhigh⟩ := h.arc_mapsTo hone
  obtain ⟨hlow', hhigh'⟩ := h.arc_mapsTo hneg
  -- otherwise there is at most one place on the stretch, and two values
  have heq : arc 1 = arc (-1) := by linarith
  have hvalue := h.rightInv hone
  rw [heq, h.rightInv hneg] at hvalue
  norm_num at hvalue

theorem period_pos (h : IsSine F arc half) : 0 < 2 * half := mul_pos two_pos h.half_pos

theorem periodic (h : IsSine F arc half) : Function.Periodic F (2 * half) := fun r => by
  have hhalf (s : ℝ) : F (s + half) = -F s := by
    rw [← h.mirrored, ← h.odd]
    exact congrArg F (by ring)
  rw [two_mul, ← add_assoc, hhalf, hhalf, neg_neg]

/-- Every place is a whole number of periods away from one on the rising stretch, or from the mirror image of one. -/
theorem exists_base (h : IsSine F arc half) (r : ℝ) :
    ∃ s ∈ Set.Icc (-(half / 2)) (half / 2), ∃ root ∈ [s, half - s], ∃ k : ℤ, r = root + k * (2 * half) := by
  obtain ⟨k, hle, hlt⟩ := IsWave.exists_trough_le h.period_pos (-(half / 2)) r
  rcases le_total (r - k * (2 * half)) (half / 2) with hrise | hfall
  · exact ⟨r - k * (2 * half), ⟨by linarith, hrise⟩, _, List.mem_cons_self, k, by ring⟩
  · exact ⟨half - (r - k * (2 * half)), ⟨by linarith, by linarith⟩, _, List.mem_cons_of_mem _ List.mem_cons_self, k,
      by ring⟩

/-- At the places that belong together the values are the same. -/
theorem apply_eq_of_mem (h : IsSine F arc half) {s root : ℝ} (hroot : root ∈ [s, half - s]) (k : ℤ) :
    F (root + k * (2 * half)) = F s := by
  rw [(h.periodic.int_mul k) root]
  rcases List.mem_pair.mp hroot with rfl | rfl
  · rfl
  · exact h.mirrored s

theorem mem_Icc (h : IsSine F arc half) (r : ℝ) : F r ∈ Set.Icc (-1) 1 := by
  obtain ⟨s, hs, root, hroot, k, rfl⟩ := h.exists_base r
  rw [h.apply_eq_of_mem hroot]
  exact h.mapsTo hs

/-- **A value is taken** at the places that lie whole periods away from its root or from the mirror image of that. -/
theorem eq_level_iff (h : IsSine F arc half) (hv : v ∈ Set.Icc (-1) 1) :
    F r = v ↔ ∃ root ∈ [arc v, half - arc v], ∃ k : ℤ, r = root + k * (2 * half) := by
  constructor
  · intro hvalue
    obtain ⟨s, hs, root, hroot, k, hr⟩ := h.exists_base r
    have hFs : F s = F (arc v) := by rw [h.rightInv hv, ← hvalue, hr, h.apply_eq_of_mem hroot]
    rw [h.rises.injOn hs (h.arc_mapsTo hv) hFs] at hroot
    exact ⟨root, hroot, k, hr⟩
  · rintro ⟨root, hroot, k, rfl⟩
    rw [h.apply_eq_of_mem hroot, h.rightInv hv]

/-- **From a value out of bounds** the function gets to an end of them before it has one in bounds. -/
theorem exists_crossing (h : IsSine F arc half) (hp : F p ∉ Set.Icc u v) (hpr : p ≤ r) (hr : F r ∈ Set.Icc u v) :
    ∃ s, p ≤ s ∧ s ≤ r ∧ (F s = u ∨ F s = v) := by
  rcases lt_or_ge (F p) u with hlow | hge
  · obtain ⟨s, ⟨hps, hsr⟩, hs⟩ := intermediate_value_Icc hpr h.continuous.continuousOn ⟨hlow.le, hr.1⟩
    exact ⟨s, hps, hsr, Or.inl hs⟩
  · have hhigh : v ≤ F p := le_of_not_ge fun hle => hp ⟨hge, hle⟩
    obtain ⟨s, ⟨hps, hsr⟩, hs⟩ := intermediate_value_Icc' hpr h.continuous.continuousOn ⟨hr.2, hhigh⟩
    exact ⟨s, hps, hsr, Or.inr hs⟩

end IsSine

/-! ### Any such function -/

/-- Exact arithmetic whose sine is a given function, with its inverse and half of its period. The cosine is a quarter of
the period ahead. -/
def ExactSine (_ _ : ℝ → ℝ) (_ : ℝ) : Type := Exact

namespace ExactSine

variable {F arc : ℝ → ℝ} {half v : ℝ}

noncomputable instance : Scalar (ExactSine F arc half) :=
  { (inferInstance : Scalar Exact) with
    pi := real half
    sin := lift (fun r => real (F r)) nan nan
    cos := fun (a : Exact) => lift (fun r => real (F r)) nan nan (a + 0.5 * real half)
    asin := lift (fun r => if |r| ≤ 1 then real (arc r) else nan) nan nan }

theorem tau_eq (F arc : ℝ → ℝ) (half : ℝ) : (tau : ExactSine F arc half) = (real (2 * half) : Exact) :=
  (real_add _ _).trans (congrArg real (two_mul half).symm)

theorem sin_real (F arc : ℝ → ℝ) (half r : ℝ) : Scalar.sin (α := ExactSine F arc half) (real r) = real (F r) :=
  lift_real r

theorem roots_real (F : ℝ → ℝ) (hv : v ∈ Set.Icc (-1) 1) : [arc v, half - arc v].map real =
    let root : Exact := Scalar.asin (α := ExactSine F arc half) (real v)
    [root, real half - root] := by
  have hasin : Scalar.asin (α := ExactSine F arc half) (real v) = (real (arc v) : Exact) :=
    (lift_real v).trans (if_pos (abs_le.mpr hv))
  rw [hasin]
  exact congrArg (fun root => [real (arc v), root]) (real_sub half (arc v)).symm

end ExactSine

namespace Interval

variable {F arc : ℝ → ℝ} {half period u v : ℝ}

/-- The nearer of the best place so far and the next one that is whole periods away from a root. -/
noncomputable def nearer (period start best root : Exact) : Exact :=
  let next := root + Scalar.ceil ((start - root) / period) * period
  if start ≤ next ∧ next < best then next else best

/-- The places from a start on that are whole periods away from one of some roots. -/
def places (period start : ℝ) (roots : List ℝ) : Set ℝ :=
  {r | start ≤ r ∧ ∃ root ∈ roots, ∃ k : ℤ, r = root + k * period}

/-- **One root is tried.** The first place from a start on that is whole periods away from it may be nearer. -/
theorem exists_nearer (hperiod : 0 < period) (start root : ℝ) (best : EReal) :
    ∃ place : ℝ, nearer (real period) (real start) (number best) (real root) = number (min best place) ∧
      IsLeast {r | start ≤ r ∧ ∃ k : ℤ, r = root + k * period} place := by
  have hleast := isLeast_next hperiod root start
  refine ⟨_, ?_, hleast⟩
  rw [nearer, next_real hperiod]
  generalize root + ⌈(start - root) / period⌉ * period = place at hleast ⊢
  have hstart : real start ≤ real place := EReal.coe_le_coe_iff.mpr hleast.1.1
  rcases lt_or_ge (place : EReal) best with hlt | hge
  · rw [if_pos ⟨hstart, hlt⟩, min_eq_right hlt.le]
    rfl
  · rw [if_neg fun hnear => hge.not_gt hnear.2, min_eq_left hge]

/-- **All roots are tried**, which ends with the nearest place that belongs to one of them or with what the search
starts from. -/
theorem exists_foldl_nearer (hperiod : 0 < period) (start : ℝ) (roots : List ℝ) (best : EReal) :
    ∃ e : EReal, (roots.map real).foldl (nearer (real period) (real start)) (number best) = number e ∧
      e ≤ best ∧ (∀ r ∈ places period start roots, e ≤ r) ∧ (e = best ∨ ∃ r ∈ places period start roots, e = r) := by
  -- by induction on the roots, for any best place so far, since each root may change that
  induction roots generalizing best with
  | nil => exact ⟨best, rfl, le_rfl, fun r ⟨_, root, hroot, _⟩ => absurd hroot List.not_mem_nil, Or.inl rfl⟩
  | cons root roots ih =>
    obtain ⟨place, hstep, ⟨hstart, hplace⟩, hleast⟩ := exists_nearer hperiod start root best
    obtain ⟨e, he, hle, hbelow, hfrom⟩ := ih (min best place)
    refine ⟨e, ?_, hle.trans (min_le_left _ _), ?_, ?_⟩
    · rw [List.map_cons, List.foldl_cons, hstep, he]
    · rintro r ⟨hr, other, hother, hk⟩
      rcases List.mem_cons.mp hother with rfl | hother
      · exact (hle.trans (min_le_right _ _)).trans (EReal.coe_le_coe_iff.mpr (hleast ⟨hr, hk⟩))
      · exact hbelow r ⟨hr, other, hother, hk⟩
    · rcases hfrom with rfl | ⟨r, ⟨hr, other, hother, hk⟩, he⟩
      · rcases min_choice best place with hmin | hmin
        · exact Or.inl hmin
        · exact Or.inr ⟨place, ⟨hstart, root, List.mem_cons_self, hplace⟩, hmin⟩
      · exact Or.inr ⟨r, ⟨hr, other, List.mem_cons_of_mem _ hother, hk⟩, he⟩

/-- The nearest place is searched for from the roots of two levels. -/
theorem firstSineHit_exactSine (hu : u ∈ Set.Icc (-1) 1) (hv : v ∈ Set.Icc (-1) 1) (start : ℝ) :
    firstSineHit (α := ExactSine F arc half) (real start) (⟨real u, real v⟩ : Interval Exact) =
      if (⟨real u, real v⟩ : Interval Exact).contains (real (F start)) then real start
      else (([u, v].flatMap fun level => [arc level, half - arc level]).map real).foldl
        (nearer (real (2 * half)) (real start)) (number ⊤) := by
  rw [List.flatMap_cons, List.flatMap_singleton, List.map_append, ExactSine.roots_real F hu, ExactSine.roots_real F hv,
    ← ExactSine.sin_real F arc half, ← ExactSine.tau_eq F arc half]
  rfl

theorem periodicInverse_exactSine (bounds within : Interval Exact) (shift : Exact) :
    periodicInverse (α := ExactSine F arc half) bounds within shift =
      let levels := bounds.inter ⟨-1, 1⟩
      if levels.isEmpty || within.isEmpty then empty
      else if (levels.inf ≤ -1 ∧ 1 ≤ levels.sup) ∨ within.isBounded = false then within
      else
        let first : Exact := firstSineHit (α := ExactSine F arc half) (within.inf + shift) levels
        let last : Exact := firstSineHit (α := ExactSine F arc half) (-(within.sup + shift)) (-levels)
        if within.sup + shift < first then empty
        else ⟨maxNum (nudgeDown (first - shift)) within.inf, minNum (nudgeUp (-last - shift)) within.sup⟩ := rfl

end Interval

/-! ### First and last hits -/

namespace IsSine

open IntervalDag.Interval

variable {F arc : ℝ → ℝ} {half u v : ℝ}

/-- Every value is taken from every start on. -/
theorem exists_place (h : IsSine F arc half) (hv : v ∈ Set.Icc (-1) 1) (start : ℝ) : ∃ r, start ≤ r ∧ F r = v := by
  obtain ⟨hstart, hplace⟩ := (isLeast_next h.period_pos (arc v) start).1
  exact ⟨_, hstart, (h.eq_level_iff hv).mpr ⟨_, List.mem_cons_self, hplace⟩⟩

/-- The places at which an end of bounds is the value. -/
theorem places_eq (h : IsSine F arc half) (hu : u ∈ Set.Icc (-1) 1) (hv : v ∈ Set.Icc (-1) 1) (start : ℝ) :
    places (2 * half) start ([u, v].flatMap fun level => [arc level, half - arc level]) =
      {r | start ≤ r ∧ (F r = u ∨ F r = v)} := by
  ext r
  refine and_congr_right fun _ => ?_
  rw [h.eq_level_iff hu, h.eq_level_iff hv]
  simp only [List.flatMap_cons, List.flatMap_nil, List.append_nil, List.mem_append, or_and_right, exists_or]

/-- **The first hit** is the least place from a start on at which the value is in bounds. -/
theorem exists_firstSineHit (h : IsSine F arc half) (hu : -1 ≤ u) (huv : u ≤ v) (hv : v ≤ 1) (start : ℝ) :
    ∃ first : ℝ, firstSineHit (α := ExactSine F arc half) (real start) (⟨real u, real v⟩ : Interval Exact) =
        (real first : Exact) ∧
      IsLeast {r | start ≤ r ∧ F r ∈ Set.Icc u v} first := by
  have hlower : u ∈ Set.Icc (-1) 1 := ⟨hu, huv.trans hv⟩
  have hupper : v ∈ Set.Icc (-1) 1 := ⟨hu.trans huv, hv⟩
  rw [firstSineHit_exactSine hlower hupper]
  split_ifs with hhit
  · exact ⟨start, rfl, ⟨le_rfl, real_mem_real.mp hhit⟩, fun r hr => hr.1⟩
  have hout : F start ∉ Set.Icc u v := mt real_mem_real.mpr hhit
  obtain ⟨e, he, -, hbelow, hfrom⟩ :=
    exists_foldl_nearer h.period_pos start ([u, v].flatMap fun level => [arc level, half - arc level]) ⊤
  rw [h.places_eq hlower hupper] at hbelow hfrom
  rcases hfrom with rfl | ⟨first, ⟨hstart, hvalue⟩, rfl⟩
  · obtain ⟨r, hr, hvalue⟩ := h.exists_place hlower start
    exact absurd (hbelow r ⟨hr, Or.inl hvalue⟩) (EReal.coe_lt_top r).not_ge
  · refine ⟨first, he, ⟨hstart, ?_⟩, fun r ⟨hr, hbounds⟩ => ?_⟩
    · rcases hvalue with hvalue | hvalue
      · exact ⟨hvalue.ge, hvalue.trans_le huv⟩
      · exact ⟨huv.trans_eq hvalue.symm, hvalue.le⟩
    · obtain ⟨s, hs, hsr, hvalue⟩ := h.exists_crossing hout hr hbounds
      exact (EReal.coe_le_coe_iff.mp (hbelow s ⟨hs, hvalue⟩)).trans hsr

/-- **The last hit** up to a stop mirrors the first one of the negated bounds. -/
theorem exists_lastSineHit (h : IsSine F arc half) (hu : -1 ≤ u) (huv : u ≤ v) (hv : v ≤ 1) (stop : ℝ) :
    ∃ last : ℝ, firstSineHit (α := ExactSine F arc half) (real (-stop)) (⟨real (-v), real (-u)⟩ : Interval Exact) =
        (real (-last) : Exact) ∧
      IsGreatest {r | r ≤ stop ∧ F r ∈ Set.Icc u v} last := by
  obtain ⟨first, hfirst, ⟨hstart, hvalue⟩, hleast⟩ :=
    h.exists_firstSineHit (neg_le_neg hv) (neg_le_neg huv) (neg_le.mp hu) (-stop)
  refine ⟨-first, by rw [hfirst, neg_neg], ⟨neg_le.mp hstart, ?_⟩, fun r ⟨hr, hbounds⟩ => ?_⟩
  · rw [h.odd]
    exact ⟨le_neg.mp hvalue.2, neg_le.mp hvalue.1⟩
  · refine le_neg.mp (hleast ⟨neg_le_neg hr, ?_⟩)
    rw [h.odd]
    exact ⟨neg_le_neg hbounds.2, neg_le_neg hbounds.1⟩

end IsSine

namespace Interval

variable {F arc : ℝ → ℝ} {half p q r u v first last shift : ℝ} {bounds within : Interval Exact}

/-- The places of an interval from which a function, a shift ahead, has its value in bounds. -/
def hits (F : ℝ → ℝ) (shift : ℝ) (bounds within : Interval Exact) : Set ℝ :=
  {r | real r ∈ within ∧ real (F (r + shift)) ∈ bounds}

theorem hits_real : hits F shift ⟨real u, real v⟩ ⟨real p, real q⟩ =
    {r | (p ≤ r ∧ r ≤ q) ∧ F (r + shift) ∈ Set.Icc u v} :=
  Set.ext fun _ => and_congr real_mem_real real_mem_real

theorem isLeast_hits (hfirst : IsLeast {r | p + shift ≤ r ∧ F r ∈ Set.Icc u v} first) (hle : first ≤ q + shift) :
    IsLeast (hits F shift ⟨real u, real v⟩ ⟨real p, real q⟩) (first - shift) := by
  obtain ⟨⟨hstart, hvalue⟩, hleast⟩ := hfirst
  rw [hits_real]
  refine ⟨⟨⟨by linarith, by linarith⟩, by rwa [sub_add_cancel]⟩, fun r ⟨⟨hpr, _⟩, hbounds⟩ => ?_⟩
  exact sub_le_iff_le_add.mpr (hleast ⟨by linarith, hbounds⟩)

theorem isGreatest_hits (hlast : IsGreatest {r | r ≤ q + shift ∧ F r ∈ Set.Icc u v} last) (hle : p + shift ≤ last) :
    IsGreatest (hits F shift ⟨real u, real v⟩ ⟨real p, real q⟩) (last - shift) := by
  obtain ⟨⟨hstop, hvalue⟩, hgreatest⟩ := hlast
  rw [hits_real]
  refine ⟨⟨⟨by linarith, by linarith⟩, by rwa [sub_add_cancel]⟩, fun r ⟨⟨_, hrq⟩, hbounds⟩ => ?_⟩
  exact le_sub_iff_add_le.mpr (hgreatest ⟨by linarith, hbounds⟩)

/-- **The search from both ends** of a bounded interval comes to its first and last hit, if it has any. -/
theorem exists_first_last (h : IsSine F arc half) (hu : -1 ≤ u) (huv : u ≤ v) (hv : v ≤ 1) (p q shift : ℝ) :
    ∃ first last : ℝ,
      firstSineHit (α := ExactSine F arc half) (real (p + shift)) (⟨real u, real v⟩ : Interval Exact) =
        (real first : Exact) ∧
      firstSineHit (α := ExactSine F arc half) (real (-(q + shift))) (⟨real (-v), real (-u)⟩ : Interval Exact) =
        (real (-last) : Exact) ∧
      (q + shift < first → hits F shift ⟨real u, real v⟩ ⟨real p, real q⟩ = ∅) ∧
      (first ≤ q + shift → IsLeast (hits F shift ⟨real u, real v⟩ ⟨real p, real q⟩) (first - shift) ∧
        IsGreatest (hits F shift ⟨real u, real v⟩ ⟨real p, real q⟩) (last - shift)) := by
  obtain ⟨first, hfirst, hleast⟩ := h.exists_firstSineHit hu huv hv (p + shift)
  obtain ⟨last, hlast, hgreatest⟩ := h.exists_lastSineHit hu huv hv (q + shift)
  refine ⟨first, last, hfirst, hlast, fun hlt => Set.eq_empty_of_forall_notMem fun r hr => ?_, fun hle => ?_⟩
  · rw [hits_real] at hr
    have hge := hleast.2 ⟨add_le_add_left hr.1.1 shift, hr.2⟩
    linarith [hr.1.2]
  · -- the first hit is not beyond the upper end, so it is not beyond the last one
    have hge : p + shift ≤ last := hleast.1.1.trans (hgreatest.2 ⟨hle, hleast.1.2⟩)
    exact ⟨isLeast_hits hleast hle, isGreatest_hits hgreatest hge⟩

/-- All values are in bounds that reach from `-1` to `1`. -/
theorem reals_subset_hits (h : IsSine F arc half) (hu : u ≤ -1) (hv : 1 ≤ v) (within : Interval Exact) (shift : ℝ) :
    within.reals ⊆ hits F shift ⟨real u, real v⟩ within := fun _ hr =>
  ⟨hr, real_mem_real.mpr ⟨hu.trans (h.mem_Icc _).1, (h.mem_Icc _).2.trans hv⟩⟩

/-- Bounds that are a part of `[-1, 1]` have real ends. -/
theorem exists_levels (hnonempty : bounds.isEmpty = false) (h : bounds.isSubset ⟨-1, 1⟩ = true) :
    ∃ u v : ℝ, bounds = ⟨real u, real v⟩ ∧ -1 ≤ u ∧ u ≤ v ∧ v ≤ 1 := by
  rw [← real_neg_one, ← real_one] at h
  have hunit : IsCompact ⟨real (-1), real 1⟩ := isCompact_real (by norm_num)
  obtain ⟨u, v, rfl, huv⟩ := (hunit.of_isSubset h hnonempty).exists_ends
  obtain ⟨hinf, hsup⟩ := (isSubset_iff hnonempty).mp h
  exact ⟨u, v, rfl, EReal.coe_le_coe_iff.mp hinf, huv, EReal.coe_le_coe_iff.mp hsup⟩

theorem inter_unit_isSubset (bounds : Interval Exact) : (bounds.inter ⟨-1, 1⟩).isSubset ⟨-1, 1⟩ = true := by
  rw [← real_neg_one, ← real_one]
  exact inter_isSubset_number bounds le_rfl le_rfl

/-- What has its value in bounds has it in the part of them in `[-1, 1]`. -/
theorem hits_subset (h : IsSine F arc half) (bounds within : Interval Exact) (shift : ℝ) :
    hits F shift bounds within ⊆ hits F shift (bounds.inter ⟨-1, 1⟩) within := by
  refine fun r ⟨hwithin, hbounds⟩ => ⟨hwithin, mem_inter hbounds ?_⟩
  rw [← real_neg_one, ← real_one]
  exact real_mem_real.mpr (h.mem_Icc _)

/-- Hits of that part are hits of the bounds, if the ends of these are numbers. -/
theorem subset_hits (hbounds : bounds.HasNumbers) (within : Interval Exact) (shift : ℝ) :
    hits F shift (bounds.inter ⟨-1, 1⟩) within ⊆ hits F shift bounds within := by
  refine fun r ⟨hwithin, hmem⟩ => ⟨hwithin, ?_⟩
  obtain ⟨a, b, rfl⟩ := hbounds.exists_ends
  rw [← real_neg_one, ← real_one, real, real, inter_number] at hmem
  split_ifs at hmem
  · exact absurd hmem (real_notMem_of_isEmpty isEmpty_empty _)
  · obtain ⟨hlow, hhigh⟩ := real_mem_number.mp hmem
    exact real_mem_number.mpr ⟨(le_max_left _ _).trans hlow, hhigh.trans (min_le_left _ _)⟩

/-! ### What is left -/

/-- A number of an interval that is within the margin by which ends are widened of a hit. -/
def NearHit (F : ℝ → ℝ) (shift : ℝ) (bounds within : Interval Exact) (w : ℝ) : Prop :=
  real w ∈ within ∧ ∃ y ∈ hits F shift bounds within, |w - y| ≤ 1e-12 * max 1 |y|

theorem NearHit.mono {bounds' : Interval Exact} {w : ℝ} (h : NearHit F shift bounds within w)
    (hsubset : hits F shift bounds within ⊆ hits F shift bounds' within) : NearHit F shift bounds' within w := by
  obtain ⟨hwithin, y, hy, hnear⟩ := h
  exact ⟨hwithin, y, hsubset hy, hnear⟩

theorem nearHit_self (h : r ∈ hits F shift bounds within) : NearHit F shift bounds within r := by
  refine ⟨h.1, r, h, ?_⟩
  rw [sub_self, abs_zero]
  positivity

/-- A hit that is moved down by the margin, but not out of the interval, is near itself. -/
theorem nearHit_max (h : r ∈ hits F shift bounds ⟨real p, real q⟩) :
    NearHit F shift bounds ⟨real p, real q⟩ (max (r - 1e-12 * max |r| 1) p) := by
  obtain ⟨hpr, hrq⟩ := real_mem_real.mp h.1
  have hmargin : 0 ≤ 1e-12 * max |r| 1 := by positivity
  have hle := max_le (sub_le_self r hmargin) hpr
  refine ⟨real_mem_real.mpr ⟨le_max_right _ _, hle.trans hrq⟩, r, h, ?_⟩
  rw [abs_sub_comm, abs_of_nonneg (sub_nonneg.mpr hle), max_comm 1]
  exact sub_le_comm.mp (le_max_left _ p)

theorem nearHit_min (h : r ∈ hits F shift bounds ⟨real p, real q⟩) :
    NearHit F shift bounds ⟨real p, real q⟩ (min (r + 1e-12 * max |r| 1) q) := by
  obtain ⟨hpr, hrq⟩ := real_mem_real.mp h.1
  have hmargin : 0 ≤ 1e-12 * max |r| 1 := by positivity
  have hge := le_min (le_add_of_nonneg_right hmargin) hrq
  refine ⟨real_mem_real.mpr ⟨hpr.trans hge, min_le_right _ _⟩, r, h, ?_⟩
  rw [abs_of_nonneg (sub_nonneg.mpr hge), max_comm 1]
  exact sub_le_iff_le_add'.mpr (min_le_left _ q)

/-- What may be left of an interval: all of it, which holds nothing else than hits if it is bounded, or nothing if there
is no hit, or what lies from the first hit to the last one, widened outward. -/
inductive Leaves (F : ℝ → ℝ) (shift : ℝ) (bounds within : Interval Exact) : Interval Exact → Prop
  | all (h : within.IsCompact → within.reals ⊆ hits F shift bounds within) : Leaves F shift bounds within within
  | nothing (h : hits F shift bounds within = ∅) : Leaves F shift bounds within empty
  | between {p q first last : ℝ} (hends : within = ⟨real p, real q⟩) (hfirst : IsLeast (hits F shift bounds within) first)
    (hlast : IsGreatest (hits F shift bounds within) last) : Leaves F shift bounds within
      ⟨real (max (first - 1e-12 * max |first| 1) p), real (min (last + 1e-12 * max |last| 1) q)⟩

namespace Leaves

variable {z : Interval Exact}

/-- **No hit is lost.** -/
theorem real_mem (h : Leaves F shift bounds within z) (hr : r ∈ hits F shift bounds within) : real r ∈ z := by
  have hmargin (e : ℝ) : 0 ≤ 1e-12 * max |e| 1 := by positivity
  cases h with
  | all => exact hr.1
  | nothing h => exact absurd hr (h ▸ Set.notMem_empty r)
  | between hends hfirst hlast =>
    obtain ⟨hpr, hrq⟩ := real_mem_real.mp (hends ▸ hr.1)
    exact real_mem_real.mpr ⟨max_le ((sub_le_self _ (hmargin _)).trans (hfirst.2 hr)) hpr,
      le_min ((hlast.2 hr).trans (le_add_of_nonneg_right (hmargin _))) hrq⟩

/-- **Nothing is added.** -/
theorem isSubset (h : Leaves F shift bounds within z) (hnumbers : within.HasNumbers) : z.isSubset within = true := by
  cases h with
  | all =>
    obtain ⟨a, b, rfl⟩ := hnumbers.exists_ends
    exact isSubset_number le_rfl le_rfl
  | nothing => exact isSubset_empty within
  | between hends =>
    rw [hends]
    exact isSubset_number (EReal.coe_le_coe_iff.mpr (le_max_right _ _)) (EReal.coe_le_coe_iff.mpr (min_le_right _ _))

/-- **Ends are near hits**, if the interval is bounded. -/
theorem endsIn (h : Leaves F shift bounds within z) (hx : within.IsCompact) :
    z.EndsIn {w | NearHit F shift bounds within w} := by
  cases h with
  | all h =>
    have hhits := h hx
    obtain ⟨p, q, rfl, hpq⟩ := hx.exists_ends
    exact Or.inr ⟨p, nearHit_self (hhits (real_mem_real.mpr ⟨le_rfl, hpq⟩)), q,
      nearHit_self (hhits (real_mem_real.mpr ⟨hpq, le_rfl⟩)), rfl⟩
  | nothing => exact Or.inl isEmpty_empty
  | between hends hfirst hlast =>
    subst hends
    exact Or.inr ⟨_, nearHit_max hfirst.1, _, nearHit_min hlast.1, rfl⟩

theorem isRegular (h : Leaves F shift bounds within z) (hx : within.IsRegular) : z.IsRegular := by
  cases h with
  | all => exact hx
  | nothing => exact isRegular_empty
  | between => exact isRegular_real _ _

end Leaves

/-- **The inverse relation** leaves what there is from the first to the last hit of the part of the bounds in `[-1, 1]`,
if it looks for them. -/
theorem exists_leaves (h : IsSine F arc half) (bounds within : Interval Exact) (shift : ℝ) :
    ∃ z : Interval Exact, periodicInverse (α := ExactSine F arc half) bounds within (real shift) = z ∧
      Leaves F shift (bounds.inter ⟨-1, 1⟩) within z := by
  refine ⟨_, rfl, ?_⟩
  rw [periodicInverse_exactSine]
  dsimp only
  by_cases hnone : ((bounds.inter ⟨-1, 1⟩).isEmpty || within.isEmpty) = true
  · rw [if_pos hnone]
    refine .nothing (Set.eq_empty_of_forall_notMem fun r ⟨hwithin, hbounds⟩ => ?_)
    rcases Bool.or_eq_true_iff.mp hnone with hempty | hempty
    · exact real_notMem_of_isEmpty hempty _ hbounds
    · exact real_notMem_of_isEmpty hempty _ hwithin
  rw [if_neg hnone]
  rw [Bool.or_eq_true_iff, not_or] at hnone
  obtain ⟨u, v, hends, hu, huv, hv⟩ := exists_levels (Bool.eq_false_iff.mpr hnone.1) (inter_unit_isSubset bounds)
  rw [hends] at hnone ⊢
  rw [← real_neg_one, ← real_one]
  by_cases hwhole : (real u ≤ real (-1) ∧ real 1 ≤ real v) ∨ within.isBounded = false
  · rw [if_pos hwhole]
    refine .all fun hx => ?_
    obtain ⟨hlow, hhigh⟩ := hwhole.resolve_right (ne_true_of_eq_false · hx.bounded)
    exact reals_subset_hits h (EReal.coe_le_coe_iff.mp hlow) (EReal.coe_le_coe_iff.mp hhigh) within shift
  rw [if_neg hwhole]
  obtain ⟨p, q, rfl, -⟩ := IsCompact.exists_ends
    ⟨Bool.eq_false_iff.mpr hnone.2, eq_true_of_ne_false (not_or.mp hwhole).2⟩
  have hneg : -(⟨real u, real v⟩ : Interval Exact) = ⟨real (-v), real (-u)⟩ := if_neg hnone.1
  obtain ⟨first, last, hfirst, hlast, hbefore, hafter⟩ := exists_first_last h hu huv hv p q shift
  rw [hneg, real_add, real_add, real_neg, hfirst, hlast, real_neg, neg_neg, real_sub, real_sub, nudgeDown_real,
    nudgeUp_real, maxNum_real, minNum_real]
  by_cases hbeyond : real (q + shift) < real first
  · rw [if_pos hbeyond]
    exact .nothing (hbefore (real_lt_real.mp hbeyond))
  · rw [if_neg hbeyond]
    obtain ⟨hleast, hgreatest⟩ := hafter (not_lt.mp (mt real_lt_real.mpr hbeyond))
    exact .between rfl hleast hgreatest

/-! ### Sine and cosine -/

theorem leaves_periodicInverse (bounds within : Interval Exact) (shift : ℝ) :
    Leaves Real.sin shift (bounds.inter ⟨-1, 1⟩) within (periodicInverse bounds within (real shift)) := by
  have hsame (shift : Exact) : periodicInverse (α := ExactSine Real.sin Real.arcsin Real.pi) bounds within shift =
      periodicInverse bounds within shift := rfl
  obtain ⟨z, hz, hleaves⟩ := exists_leaves isSine_sin bounds within shift
  rwa [← hz, hsame] at hleaves

theorem leaves_sinInverse (bounds within : Interval Exact) :
    Leaves Real.sin 0 (bounds.inter ⟨-1, 1⟩) within (sinInverse bounds within) := by
  rw [sinInverse, ← real_zero]
  exact leaves_periodicInverse bounds within 0

/-- The cosine is the sine a quarter of a period ahead. -/
theorem leaves_cosInverse (bounds within : Interval Exact) :
    Leaves Real.sin (Real.pi / 2) (bounds.inter ⟨-1, 1⟩) within (cosInverse bounds within) := by
  have hquarter : (halfPi : Exact) = real (Real.pi / 2) :=
    (real_mul _ _).trans (congrArg real (by norm_num; ring))
  rw [cosInverse, hquarter]
  exact leaves_periodicInverse bounds within _

theorem IsRegular.sinInverse (hx : within.IsRegular) (bounds : Interval Exact) :
    (sinInverse bounds within).IsRegular :=
  (leaves_sinInverse bounds within).isRegular hx

theorem IsRegular.cosInverse (hx : within.IsRegular) (bounds : Interval Exact) :
    (cosInverse bounds within).IsRegular :=
  (leaves_cosInverse bounds within).isRegular hx

/-! ### No solution is lost -/

/-- **Inverting a sine.** In exact arithmetic, take any function with the symmetries of the sine, its inverse and half of
its period for the sine, the arcsine and `π`. From every start on, the first hit of bounds that are not empty and in
`[-1, 1]` is the least number at which the function has its value in them. For all bounds, every number of the interval
to be narrowed from which the function has its value in bounds, a shift ahead, is kept. What is kept is a part of that
interval, and it is empty only if there is no such number. If the interval is bounded, then both ends of what is kept
are within the margin of such numbers, unless it is empty. -/
theorem periodicInverse_keeps {F arc : ℝ → ℝ} {half : ℝ} (h : IsSine F arc half) :
    (∀ (start : ℝ) (b : Interval Exact), b.isEmpty = false → b.isSubset ⟨-1, 1⟩ = true →
      ∃ first : ℝ, firstSineHit (α := ExactSine F arc half) (real start) b = (real first : Exact) ∧
        IsLeast {r | start ≤ r ∧ real (F r) ∈ b} first) ∧
    ∀ (bounds within : Interval Exact) (shift : ℝ), ∃ z : Interval Exact,
      periodicInverse (α := ExactSine F arc half) bounds within (real shift) = z ∧
      (∀ r, real r ∈ within → real (F (r + shift)) ∈ bounds → real r ∈ z) ∧
      (within.HasNumbers → z.isSubset within = true) ∧
      (z.isEmpty = true → ∀ r, real r ∈ within → real (F (r + shift)) ∉ bounds) ∧
      (bounds.HasNumbers → within.IsCompact → z.EndsIn {w | NearHit F shift bounds within w}) := by
  refine ⟨fun start b hnonempty hunit => ?_, fun bounds within shift => ?_⟩
  · obtain ⟨u, v, rfl, hu, huv, hv⟩ := exists_levels hnonempty hunit
    simp only [real_mem_real]
    exact h.exists_firstSineHit hu huv hv start
  · obtain ⟨z, hz, hleaves⟩ := exists_leaves h bounds within shift
    have hkeeps (r : ℝ) (hwithin : real r ∈ within) (hbounds : real (F (r + shift)) ∈ bounds) : real r ∈ z :=
      hleaves.real_mem (hits_subset h bounds within shift ⟨hwithin, hbounds⟩)
    refine ⟨z, hz, hkeeps, hleaves.isSubset, fun hempty r hwithin hbounds =>
      real_notMem_of_isEmpty hempty r (hkeeps r hwithin hbounds), fun hnumbers hx => ?_⟩
    exact (hleaves.endsIn hx).mono fun w hnear => hnear.mono (subset_hits hnumbers within shift)

/-- From zero on, the sine first reaches a half at a sixth of half its period, which is left of the first half-period. -/
theorem periodicInverse_keeps_of_sine :
    IsSine Real.sin Real.arcsin Real.pi ∧
    firstSineHit (α := ExactSine Real.sin Real.arcsin Real.pi) (real 0) (⟨real (1 / 2), real 1⟩ : Interval Exact) =
      (real (Real.pi / 6) : Exact) ∧
    ∃ z : Interval Exact, periodicInverse (α := ExactSine Real.sin Real.arcsin Real.pi)
        (⟨real (1 / 2), real 1⟩ : Interval Exact) (⟨real 0, real Real.pi⟩ : Interval Exact) (real 0) = z ∧
      real (Real.pi / 6) ∈ z ∧ z.isSubset ⟨real 0, real Real.pi⟩ = true ∧
      z.EndsIn {w | NearHit Real.sin 0 ⟨real (1 / 2), real 1⟩ ⟨real 0, real Real.pi⟩ w} := by
  have hpi := Real.pi_pos
  obtain ⟨hfirst, hkeeps⟩ := periodicInverse_keeps isSine_sin
  have hhalf : real (Real.sin (Real.pi / 6)) ∈ (⟨real (1 / 2), real 1⟩ : Interval Exact) := by
    rw [Real.sin_pi_div_six, real_mem_real]
    norm_num
  refine ⟨isSine_sin, ?_, ?_⟩
  · obtain ⟨first, heq, hleast⟩ := hfirst 0 ⟨real (1 / 2), real 1⟩ (isEmpty_of_mem hhalf) (by
      rw [← real_neg_one, ← real_one]
      exact isSubset_number (EReal.coe_le_coe_iff.mpr (by norm_num)) le_rfl)
    have hsixth : IsLeast {r | 0 ≤ r ∧ real (Real.sin r) ∈ (⟨real (1 / 2), real 1⟩ : Interval Exact)} (Real.pi / 6) := by
      refine ⟨⟨by linarith, hhalf⟩, fun r ⟨hr, hbounds⟩ => le_of_not_gt fun hlt => ?_⟩
      have hsin := Real.sin_lt_sin_of_lt_of_le_pi_div_two (by linarith) (by linarith) hlt
      rw [Real.sin_pi_div_six] at hsin
      exact hsin.not_ge (real_mem_real.mp hbounds).1
    rw [heq, hleast.unique hsixth]
  · obtain ⟨z, hz, hmem, hsubset, -, hnear⟩ := hkeeps ⟨real (1 / 2), real 1⟩ ⟨real 0, real Real.pi⟩ 0
    refine ⟨z, hz, hmem _ (real_mem_real.mpr ⟨by linarith, by linarith⟩) ?_, hsubset (hasNumbers_number _ _),
      hnear (hasNumbers_number _ _) (isCompact_real hpi.le)⟩
    rwa [add_zero]

end Interval

end IntervalDag
