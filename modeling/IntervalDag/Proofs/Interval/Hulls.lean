import Mathlib.Topology.Instances.EReal.Lemmas
import IntervalDag.Proofs.Interval.Quotients

/-!
# Hulls

The hull of a set of real numbers is the smallest interval around it (`Interval.IsHull`). An operation on intervals is
optimal if it answers with the hull of what it makes of members. Sums, differences, products, multiples and quotients
of intervals are optimal, whatever ends they have (`Interval.arithmetic_optimal`), and so are the solutions of a
product with a bounded factor (`Interval.solveProduct_hull`).

Whether an interval is the hull of a set shows at its ends: the set has to come near to them (`Interval.eq_hullOf`).
An operation takes limits of its operands to limits of its results wherever it is continuous. Two places are left over.
A product is not continuous at zero and an infinity, but multiples of the first set by a single number of the other
one come near to zero there. Reciprocals are not continuous at zero, near to which they become arbitrarily large.
-/

namespace IntervalDag

open Scalar Exact
open scoped Pointwise

namespace Exact

/-- Reciprocals are continuous away from zero, the infinities included. -/
theorem continuousAt_inv {a : EReal} (h : a ≠ 0) : ContinuousAt (fun e : EReal => e⁻¹) a := by
  induction a with
  | bot =>
    rw [continuousAt_iff_punctured_nhds, EReal.nhdsWithin_bot, Filter.tendsto_map'_iff]
    exact (continuous_coe_real_ereal.tendsto 0).comp tendsto_inv_atBot_zero
  | coe r =>
    rw [ContinuousAt, EReal.nhds_coe, Filter.tendsto_map'_iff]
    exact (continuous_coe_real_ereal.tendsto _).comp (tendsto_inv₀ (EReal.coe_ne_zero.mp h))
  | top =>
    rw [continuousAt_iff_punctured_nhds, EReal.nhdsWithin_top, Filter.tendsto_map'_iff]
    exact (continuous_coe_real_ereal.tendsto 0).comp tendsto_inv_atTop_zero

end Exact

namespace Interval

variable {x y z target factor : Interval Exact} {a b : EReal} {q c : ℝ} {s t : Set ℝ}

/-! ### Regular intervals -/

/-- The interval is empty, or no end of it is at the wrong infinity. -/
def IsRegular {α : Type} [Scalar α] (x : Interval α) : Prop := x.isEmpty = true ∨ x.IsProper

/-- Ends that are at no wrong infinity will do in either order. -/
theorem isRegular_number (ha : a ≠ ⊤) (hb : b ≠ ⊥) : IsRegular ⟨number a, number b⟩ := by
  rcases lt_or_ge b a with h | h
  · exact Or.inl (isEmpty_number.mpr h)
  · obtain ⟨r, hr⟩ := exists_real_between h ha hb
    exact Or.inr (isProper_of_real_mem (real_mem_number.mpr hr))

theorem reals_of_isEmpty (h : x.isEmpty = true) : x.reals = ∅ :=
  Set.eq_empty_of_forall_notMem (real_notMem_of_isEmpty h)

/-! ### The smallest interval -/

/-- The interval is the smallest one around the numbers of a set. -/
structure IsHull (z : Interval Exact) (s : Set ℝ) : Prop where
  /-- The numbers lie in it. -/
  holds : s ⊆ z.reals
  /-- It is a part of every interval in which they lie. -/
  least : ∀ w : Interval Exact, s ⊆ w.reals → z.isSubset w = true
  /-- It is empty if there are none, and only then. -/
  isEmpty_iff : z.isEmpty = true ↔ s = ∅

theorem isHull_hullOf (s : Set ℝ) : (hullOf s).IsHull s where
  holds _ := real_mem_hullOf
  least w hw := by
    rcases s.eq_empty_or_nonempty with rfl | ⟨r, hr⟩
    · rw [hullOf_empty]
      exact isSubset_empty w
    · exact hullOf_isSubset (isProper_of_real_mem (hw hr)) hw
  isEmpty_iff := by
    rw [← Set.not_nonempty_iff_eq_empty, ← isEmpty_hullOf, Bool.not_eq_false]

theorem isRegular_hullOf (s : Set ℝ) : (hullOf s).IsRegular := by
  rcases s.eq_empty_or_nonempty with rfl | hs
  · exact Or.inl (hullOf_empty ▸ isEmpty_empty)
  · exact Or.inr (isProper_hullOf.mpr hs)

/-! ### Limits of sets of real numbers -/

/-- The extended real numbers that numbers of a set come arbitrarily near to. -/
def limits (s : Set ℝ) : Set EReal := closure (Real.toEReal '' s)

theorem coe_mem_limits (h : q ∈ s) : (q : EReal) ∈ limits s := subset_closure (Set.mem_image_of_mem _ h)

theorem iInf_mem_limits (hs : s.Nonempty) : ⨅ r ∈ s, (r : EReal) ∈ limits s := by
  rw [← sInf_image]
  exact (isGLB_sInf _).mem_closure (hs.image _)

theorem iSup_mem_limits (hs : s.Nonempty) : ⨆ r ∈ s, (r : EReal) ∈ limits s := by
  rw [← sSup_image]
  exact (isLUB_sSup _).mem_closure (hs.image _)

/-- A continuous function takes limits of a set to limits of the set that it takes the numbers to. -/
theorem map_mem_limits {f : EReal → EReal} (hf : ContinuousAt f a) (ha : a ∈ limits s)
    (h : ∀ r ∈ s, ∃ q ∈ t, (q : EReal) = f r) : f a ∈ limits t := by
  refine closure_mono ?_ (mem_closure_image hf ha)
  rintro _ ⟨_, ⟨r, hr, rfl⟩, rfl⟩
  exact h r hr

theorem neg_mem_limits (h : a ∈ limits s) : -a ∈ limits (-s) :=
  map_mem_limits continuous_neg.continuousAt h fun r hr => ⟨-r, Set.neg_mem_neg.mpr hr, EReal.coe_neg r⟩

theorem top_mem_limits (h : ∀ e : ℝ, ∃ r ∈ s, e < r) : ⊤ ∈ limits s := by
  refine mem_closure_iff_nhds.mpr fun u hu => ?_
  obtain ⟨e, he⟩ := EReal.mem_nhds_top_iff.mp hu
  obtain ⟨r, hr, her⟩ := h e
  exact ⟨r, he (EReal.coe_lt_coe_iff.mpr her), Set.mem_image_of_mem _ hr⟩

theorem exists_lt_of_mem_limits (ha : a ∈ limits s) (h : a < b) : ∃ r ∈ s, (r : EReal) < b := by
  obtain ⟨_, hlt, r, hr, rfl⟩ := mem_closure_iff.mp ha (Set.Iio b) isOpen_Iio h
  exact ⟨r, hr, hlt⟩

theorem exists_gt_of_mem_limits (ha : a ∈ limits s) (h : b < a) : ∃ r ∈ s, b < (r : EReal) := by
  obtain ⟨_, hlt, r, hr, rfl⟩ := mem_closure_iff.mp ha (Set.Ioi b) isOpen_Ioi h
  exact ⟨r, hr, hlt⟩

/-- **Hulls by their ends.** An interval around a set is the smallest one if the set comes near to its ends. -/
theorem eq_hullOf (hs : s ⊆ reals ⟨number a, number b⟩) (ha : a ∈ limits s) (hb : b ∈ limits s) :
    (⟨number a, number b⟩ : Interval Exact) = hullOf s := by
  have hlow : limits s ⊆ Set.Ici (⨅ r ∈ s, (r : EReal)) :=
    closure_minimal (Set.image_subset_iff.mpr fun r hr => iInf₂_le (f := fun (r : ℝ) (_ : r ∈ s) => (r : EReal)) r hr)
      isClosed_Ici
  have hhigh : limits s ⊆ Set.Iic (⨆ r ∈ s, (r : EReal)) :=
    closure_minimal (Set.image_subset_iff.mpr fun r hr => le_iSup₂ (f := fun (r : ℝ) (_ : r ∈ s) => (r : EReal)) r hr)
      isClosed_Iic
  have hinf : ⨅ r ∈ s, (r : EReal) = a := le_antisymm (hlow ha) (le_iInf₂ fun r hr => (real_mem_number.mp (hs hr)).1)
  have hsup : ⨆ r ∈ s, (r : EReal) = b := le_antisymm (iSup₂_le fun r hr => (real_mem_number.mp (hs hr)).2) (hhigh hb)
  rw [hullOf, hinf, hsup]

theorem ends_mem_limits (h : IsProper ⟨number a, number b⟩) :
    a ∈ limits (reals ⟨number a, number b⟩) ∧ b ∈ limits (reals ⟨number a, number b⟩) := by
  have hsome := isProper_iff.mp h
  have hinf : _ = a := number.inj (congrArg Interval.inf (hullOf_reals h))
  have hsup : _ = b := number.inj (congrArg Interval.sup (hullOf_reals h))
  constructor
  · have hmem := iInf_mem_limits hsome
    rwa [hinf] at hmem
  · have hmem := iSup_mem_limits hsome
    rwa [hsup] at hmem

/-! ### Products -/

theorem zero_mem_limits_mul (hs : 0 ∈ limits s) (ht : t.Nonempty) : 0 ∈ limits (s * t) := by
  obtain ⟨q, hq⟩ := ht
  have hcont : ContinuousAt (fun e : EReal => e * q) 0 :=
    EReal.Tendsto.mul_const Filter.tendsto_id (by simp) (by simp)
  have h := map_mem_limits (t := s * t) hcont hs fun r hr => ⟨r * q, Set.mul_mem_mul hr hq, EReal.coe_mul r q⟩
  rwa [zero_mul] at h

/-- Products of limits are limits of products, also those of zero and an infinity. -/
theorem mul_mem_limits (hs : s.Nonempty) (ht : t.Nonempty) (ha : a ∈ limits s) (hb : b ∈ limits t) :
    a * b ∈ limits (s * t) := by
  by_cases ha₀ : a = 0
  · rw [ha₀, zero_mul]
    exact zero_mem_limits_mul (ha₀ ▸ ha) ht
  by_cases hb₀ : b = 0
  · rw [hb₀, mul_zero, mul_comm]
    exact zero_mem_limits_mul (hb₀ ▸ hb) hs
  have hpair : (a, b) ∈ closure ((Real.toEReal '' s) ×ˢ (Real.toEReal '' t)) := by
    rw [closure_prod_eq]
    exact ⟨ha, hb⟩
  have hcont : ContinuousAt (fun p : EReal × EReal => p.1 * p.2) (a, b) :=
    EReal.continuousAt_mul (Or.inl ha₀) (Or.inl ha₀) (Or.inr hb₀) (Or.inr hb₀)
  refine closure_mono ?_ (mem_closure_image (f := fun p : EReal × EReal => p.1 * p.2) hcont hpair)
  rintro _ ⟨⟨_, _⟩, ⟨⟨r, hr, rfl⟩, q, hq, rfl⟩, rfl⟩
  exact ⟨r * q, Set.mul_mem_mul hr hq, EReal.coe_mul r q⟩

theorem mul_of_isEmpty (h : x.isEmpty = true ∨ y.isEmpty = true) : x * y = empty :=
  if_pos (Bool.or_eq_true_iff.mpr h)

/-- **Products of hulls.** -/
theorem hullOf_mul (s t : Set ℝ) : hullOf (s * t) = hullOf s * hullOf t := by
  rcases s.eq_empty_or_nonempty with rfl | hs
  · rw [Set.empty_mul, hullOf_empty, mul_of_isEmpty (Or.inl isEmpty_empty)]
  rcases t.eq_empty_or_nonempty with rfl | ht
  · rw [Set.mul_empty, hullOf_empty, mul_of_isEmpty (Or.inr isEmpty_empty)]
  have hcorner {a b : EReal} (ha : a ∈ limits s) (hb : b ∈ limits t) : a * b ∈ limits (s * t) :=
    mul_mem_limits hs ht ha hb
  have hinf := iInf_mem_limits hs
  have hsup := iSup_mem_limits hs
  have hinf' := iInf_mem_limits ht
  have hsup' := iSup_mem_limits ht
  have hends : hullOf s * hullOf t = _ := mul_number (isEmpty_hullOf.mpr hs) (isEmpty_hullOf.mpr ht)
  have hmem : s * t ⊆ (hullOf s * hullOf t).reals := by
    rintro _ ⟨r, hr, q, hq, rfl⟩
    exact real_mem_mul (real_mem_hullOf hr) (real_mem_hullOf hq)
  rw [hends] at hmem ⊢
  refine (eq_hullOf hmem ?_ ?_).symm
  · exact min_rec' (· ∈ limits (s * t)) (hcorner hinf hinf') (min_rec' (· ∈ limits (s * t)) (hcorner hinf hsup')
      (min_rec' (· ∈ limits (s * t)) (hcorner hsup hinf') (hcorner hsup hsup')))
  · exact max_rec' (· ∈ limits (s * t)) (hcorner hinf hinf') (max_rec' (· ∈ limits (s * t)) (hcorner hinf hsup')
      (max_rec' (· ∈ limits (s * t)) (hcorner hsup hinf') (hcorner hsup hsup')))

/-! ### Reciprocals and quotients -/

theorem inv_mem_limits (ha : a ∈ limits s) (ha₀ : a ≠ 0) : 1 / a ∈ limits (s \ {0})⁻¹ := by
  have hne : a ∈ limits (s \ {0}) := by
    refine closure_mono ?_ (isOpen_compl_singleton.inter_closure ⟨ha₀, ha⟩)
    rintro _ ⟨hr₀, r, hr, rfl⟩
    exact ⟨r, ⟨hr, fun h => hr₀ (EReal.coe_eq_zero.mpr h)⟩, rfl⟩
  rw [one_div]
  exact map_mem_limits (continuousAt_inv ha₀) hne fun r hr => ⟨r⁻¹, Set.inv_mem_inv.mpr hr, EReal.coe_inv r⟩

/-- A set without gaps that comes near to zero, or to both sides of it, has arbitrarily large reciprocals. -/
theorem top_mem_limits_inv (hs : s.OrdConnected) (ha : a ∈ limits s) (ha₀ : a ≤ 0) (hb : b ∈ limits s) (hb₀ : 0 < b) :
    ⊤ ∈ limits (s \ {0})⁻¹ := by
  obtain ⟨q, hq, hpos⟩ := exists_gt_of_mem_limits hb hb₀
  refine top_mem_limits fun e => ?_
  have hε : 0 < min q (|e| + 1)⁻¹ := lt_min (EReal.coe_pos.mp hpos) (by positivity)
  obtain ⟨p, hp, hlt⟩ := exists_lt_of_mem_limits ha (ha₀.trans_lt (EReal.coe_pos.mpr hε))
  have hmem : min q (|e| + 1)⁻¹ ∈ s := hs.out hp hq ⟨(EReal.coe_lt_coe_iff.mp hlt).le, min_le_left _ _⟩
  refine ⟨(min q (|e| + 1)⁻¹)⁻¹, Set.inv_mem_inv.mpr ⟨hmem, hε.ne'⟩, ?_⟩
  calc e < |e| + 1 := (le_abs_self e).trans_lt (lt_add_one _)
    _ ≤ (min q (|e| + 1)⁻¹)⁻¹ := (le_inv_comm₀ (by positivity) hε).mpr (min_le_right _ _)

theorem bot_mem_limits_inv (hs : s.OrdConnected) (ha : a ∈ limits s) (ha₀ : a < 0) (hb : b ∈ limits s) (hb₀ : 0 ≤ b) :
    ⊥ ∈ limits (s \ {0})⁻¹ := by
  have hset : -(-s \ {0})⁻¹ = (s \ {0})⁻¹ := by
    ext r
    simp [inv_neg]
  have htop := top_mem_limits_inv (hs.preimage_anti monotone_id.neg) (neg_mem_limits hb) (by simpa using hb₀)
    (neg_mem_limits ha) (EReal.neg_pos.mpr ha₀)
  rw [← hset, ← EReal.neg_top]
  exact neg_mem_limits htop

theorem recip_of_isEmpty (h : x.isEmpty = true) : x.recip = empty := by
  rw [recip, h, Bool.true_or, if_pos rfl]

/-- **Reciprocals of a hull** of a set without gaps. -/
theorem recip_hullOf (hs : s.OrdConnected) : (hullOf s).recip = hullOf (s \ {0})⁻¹ := by
  rcases s.eq_empty_or_nonempty with rfl | hsome
  · rw [hullOf_empty, recip_of_isEmpty isEmpty_empty, Set.empty_sdiff, Set.inv_empty, hullOf_empty]
  have hmem : (s \ {0})⁻¹ ⊆ (hullOf s).recip.reals := fun r hr => by
    have h := real_mem_recip (real_mem_hullOf hr.1) hr.2
    rwa [inv_inv] at h
  have hinf := iInf_mem_limits hsome
  have hsup := iSup_mem_limits hsome
  have hle : ⨅ r ∈ s, (r : EReal) ≤ ⨆ r ∈ s, (r : EReal) :=
    not_lt.mp fun hlt => Bool.false_ne_true ((isEmpty_hullOf.mpr hsome).symm.trans (isEmpty_number.mpr hlt))
  have hrecip := recip_number (isEmpty_hullOf.mpr hsome)
  rw [hullOf] at hmem ⊢
  rw [hrecip] at hmem ⊢
  split_ifs at hmem ⊢ with hzero hacross hinf₀ hsup₀
  · rw [Set.subset_empty_iff.mp (hmem.trans reals_empty.subset), hullOf_empty]
  · exact eq_hullOf hmem (bot_mem_limits_inv hs hinf hacross.1 hsup hacross.2.le)
      (top_mem_limits_inv hs hinf hacross.1.le hsup hacross.2)
  · have hpos : 0 < ⨆ r ∈ s, (r : EReal) := lt_of_le_of_ne (hinf₀ ▸ hle) fun h => hzero ⟨hinf₀, h.symm⟩
    exact eq_hullOf hmem (inv_mem_limits hsup hpos.ne') (top_mem_limits_inv hs hinf hinf₀.le hsup hpos)
  · have hneg : ⨅ r ∈ s, (r : EReal) < 0 := lt_of_le_of_ne (hsup₀ ▸ hle) hinf₀
    exact eq_hullOf hmem (bot_mem_limits_inv hs hinf hneg hsup hsup₀.ge) (inv_mem_limits hinf hinf₀)
  · exact eq_hullOf hmem (inv_mem_limits hsup hsup₀) (inv_mem_limits hinf hinf₀)

/-! ### Arithmetic -/

theorem add_eq_hullOf (hx : x.IsRegular) (hy : y.IsRegular) : x.add y = .ok (hullOf (x.reals + y.reals)) := by
  rcases hx with hx | hx
  · rw [add, hx, Bool.true_or, if_pos rfl, reals_of_isEmpty hx, Set.empty_add, hullOf_empty]
  rcases hy with hy | hy
  · rw [add, hy, Bool.or_true, if_pos rfl, reals_of_isEmpty hy, Set.add_empty, hullOf_empty]
  obtain ⟨z, hz, hproper, hreals⟩ := exists_add hx hy
  rw [hz, ← hreals, hullOf_reals hproper]

theorem sub_eq_hullOf (hx : x.IsRegular) (hy : y.IsRegular) : x.sub y = .ok (hullOf (x.reals - y.reals)) := by
  rcases hx with hx | hx
  · rw [sub_of_isEmpty hx, reals_of_isEmpty hx, Set.empty_sub, hullOf_empty]
  rcases hy with hy | hy
  · rw [sub, hy, Bool.or_true, if_pos rfl, reals_of_isEmpty hy, Set.sub_empty, hullOf_empty]
  obtain ⟨z, hz, hproper, hreals⟩ := exists_sub hx hy
  rw [hz, ← hreals, hullOf_reals hproper]

theorem neg_eq_hullOf (hx : x.IsRegular) : -x = hullOf (-x.reals) := by
  rcases hx with hx | hx
  · rw [reals_of_isEmpty hx, Set.neg_empty, hullOf_empty]
    exact if_pos hx
  · rw [← reals_neg hx, hullOf_reals hx.neg]

theorem scale_eq_hullOf (hx : x.IsRegular) (c : ℝ) : x.scale (real c) = .ok (hullOf ((c * ·) '' x.reals)) := by
  rcases hx with hx | hx
  · rw [scale_of_isEmpty hx, reals_of_isEmpty hx, Set.image_empty, hullOf_empty]
  obtain ⟨z, hz, hproper, hreals⟩ := exists_scale hx c
  simp only [mul_comm c]
  rw [hz, ← hreals, hullOf_reals hproper]

theorem mul_eq_hullOf (hx : x.IsRegular) (hy : y.IsRegular) : x * y = hullOf (x.reals * y.reals) := by
  rcases hx with hx | hx
  · rw [mul_of_isEmpty (Or.inl hx), reals_of_isEmpty hx, Set.empty_mul, hullOf_empty]
  rcases hy with hy | hy
  · rw [mul_of_isEmpty (Or.inr hy), reals_of_isEmpty hy, Set.mul_empty, hullOf_empty]
  rw [hullOf_mul, hullOf_reals hx, hullOf_reals hy]

theorem recip_eq_hullOf (hx : x.IsRegular) : x.recip = hullOf (x.reals \ {0})⁻¹ := by
  rcases hx with hx | hx
  · rw [recip_of_isEmpty hx, reals_of_isEmpty hx, Set.empty_sdiff, Set.inv_empty, hullOf_empty]
  · have h : (hullOf x.reals).recip = hullOf (x.reals \ {0})⁻¹ := recip_hullOf (ordConnected_real x)
    rwa [hullOf_reals hx] at h

/-- A quotient is a product with the reciprocals, which may lie on both sides of zero. -/
theorem div_eq_hullOf (hx : x.IsRegular) (hy : y.IsRegular) : x / y = hullOf (x.reals / (y.reals \ {0})) := by
  change x * y.recip = _
  rcases hx with hx | hx
  · rw [mul_of_isEmpty (Or.inl hx), reals_of_isEmpty hx, Set.empty_div, hullOf_empty]
  · rw [recip_eq_hullOf hy, div_eq_mul_inv, hullOf_mul, hullOf_reals hx]

/-- **Interval arithmetic is optimal.** Each operation answers with the hull of what it makes of members, where members
that are zero have no reciprocals. -/
theorem arithmetic_optimal (hx : x.IsRegular) (hy : y.IsRegular) (c : ℝ) :
    (∃ z, x.add y = .ok z ∧ z.IsHull (x.reals + y.reals)) ∧
    (∃ z, x.sub y = .ok z ∧ z.IsHull (x.reals - y.reals)) ∧
    (-x).IsHull (-x.reals) ∧
    (∃ z, x.scale (real c) = .ok z ∧ z.IsHull ((c * ·) '' x.reals)) ∧
    (x * y).IsHull (x.reals * y.reals) ∧
    x.recip.IsHull (x.reals \ {0})⁻¹ ∧
    (x / y).IsHull (x.reals / (y.reals \ {0})) := by
  refine ⟨⟨_, add_eq_hullOf hx hy, isHull_hullOf _⟩, ⟨_, sub_eq_hullOf hx hy, isHull_hullOf _⟩, ?_,
    ⟨_, scale_eq_hullOf hx c, isHull_hullOf _⟩, ?_, ?_, ?_⟩
  · rw [neg_eq_hullOf hx]
    exact isHull_hullOf _
  · rw [mul_eq_hullOf hx hy]
    exact isHull_hullOf _
  · rw [recip_eq_hullOf hx]
    exact isHull_hullOf _
  · rw [div_eq_hullOf hx hy]
    exact isHull_hullOf _

/-- An unbounded dividend and a divisor that touches zero. -/
theorem arithmetic_optimal_of_quotient :
    let x : Interval Exact := ⟨real 1, posInf⟩
    let y : Interval Exact := ⟨real (-2), real 0⟩
    x.IsRegular ∧ y.IsRegular ∧ (x / y).IsHull (Set.Iic (-1 / 2)) := by
  intro x y
  have hx : x.IsRegular := isRegular_number (EReal.coe_ne_top 1) top_ne_bot
  have hy : y.IsRegular := isRegular_number (EReal.coe_ne_top (-2)) (EReal.coe_ne_bot 0)
  obtain ⟨-, -, -, -, -, -, hdiv⟩ := arithmetic_optimal hx hy 0
  have hset : x.reals / (y.reals \ {0}) = Set.Iic (-1 / 2) := by
    ext t
    constructor
    · rintro ⟨r, hr, s, ⟨hs, hs₀⟩, rfl⟩
      have hr := real_mem_ray.mp hr
      obtain ⟨hlow, hhigh⟩ := real_mem_real.mp hs
      have hneg : s < 0 := lt_of_le_of_ne hhigh hs₀
      rw [Set.mem_Iic, div_le_iff_of_neg hneg]
      linarith
    · intro ht
      have hneg : t < 0 := lt_of_le_of_lt ht (by norm_num)
      have hle : -2 ≤ t⁻¹ := by
        rw [le_inv_of_neg (by norm_num) hneg]
        linarith [Set.mem_Iic.mp ht]
      exact ⟨1, real_mem_ray.mpr (le_refl 1), t⁻¹, ⟨real_mem_real.mpr ⟨hle, (inv_lt_zero.mpr hneg).le⟩,
        (inv_lt_zero.mpr hneg).ne⟩, by simp⟩
  exact ⟨hx, hy, hset ▸ hdiv⟩

/-! ### Solutions of a product -/

theorem solveProduct_of_isEmpty (h : target.isEmpty = true ∨ factor.isEmpty = true ∨ x.isEmpty = true) :
    solveProduct target factor x = .ok empty := by
  rw [solveProduct, if_pos (by simpa [or_assoc] using h)]

theorem quotients_of_isEmpty (h : factor.isEmpty = true) : quotients target factor = ∅ :=
  Set.eq_empty_of_forall_notMem fun _ ⟨d, hd, _⟩ => real_notMem_of_isEmpty h d hd

/-- **Solving a product** loses no member that some number in the factor takes into the target. If the factor is bounded
it leaves the hull of these members. -/
theorem solveProduct_hull (htarget : target.IsRegular) (hfactor : factor.IsRegular) (hx : x.IsRegular) :
    ∃ z, solveProduct target factor x = .ok z ∧ x.reals ∩ quotients target factor ⊆ z.reals ∧ z.isSubset x = true ∧
      (factor.isBounded = true → z.IsHull (x.reals ∩ quotients target factor)) := by
  by_cases hnone : factor.isEmpty = true ∨ x.isEmpty = true
  · have hset : x.reals ∩ quotients target factor = ∅ := by
      rcases hnone with h | h
      · rw [quotients_of_isEmpty h, Set.inter_empty]
      · rw [reals_of_isEmpty h, Set.empty_inter]
    have hhull : (empty : Interval Exact).IsHull (x.reals ∩ quotients target factor) := by
      rw [hset, ← hullOf_empty]
      exact isHull_hullOf ∅
    exact ⟨_, solveProduct_of_isEmpty (Or.inr hnone), hhull.holds, isSubset_empty x, fun _ => hhull⟩
  rw [not_or] at hnone
  have hfactor := hfactor.resolve_left hnone.1
  have hx := hx.resolve_left hnone.2
  obtain ⟨s, hz, hsub, hexact⟩ := exists_solveProduct htarget hfactor hx
  refine ⟨_, hz, fun r hr => real_mem_hullOf ⟨hsub hr.2, hr.1⟩, hullOf_isSubset hx Set.inter_subset_right,
    fun hbounded => ?_⟩
  rw [← (hexact ⟨hfactor.nonempty, hbounded⟩).antisymm hsub, Set.inter_comm]
  exact isHull_hullOf _

/-- A factor on both sides of zero, of which one ray of quotients is cut off. -/
theorem solveProduct_hull_of_straddling :
    let target : Interval Exact := ⟨real 1, real 8⟩
    let factor : Interval Exact := ⟨real (-3), real 3⟩
    let x : Interval Exact := ⟨real 0, real 2⟩
    target.IsRegular ∧ factor.IsRegular ∧ x.IsRegular ∧ factor.isBounded = true ∧
      ∃ z, solveProduct target factor x = .ok z ∧ z.IsHull (Set.Icc (1 / 3) 2) := by
  intro target factor x
  have htarget : target.IsRegular := Or.inr (isCompact_real (by norm_num)).isProper
  have hfactor : factor.IsCompact := isCompact_real (by norm_num)
  have hx : x.IsRegular := Or.inr (isCompact_real (by norm_num)).isProper
  obtain ⟨z, hz, -, -, hhull⟩ := solveProduct_hull htarget (Or.inr hfactor.isProper) hx
  have hset : x.reals ∩ quotients target factor = Set.Icc (1 / 3) 2 := by
    ext r
    constructor
    · rintro ⟨hr, d, hd, hrd⟩
      obtain ⟨hr₀, hr₂⟩ := real_mem_real.mp hr
      obtain ⟨-, hd₃⟩ := real_mem_real.mp hd
      obtain ⟨hlow, -⟩ := real_mem_real.mp hrd
      exact ⟨by nlinarith, hr₂⟩
    · rintro ⟨hlow, hhigh⟩
      refine ⟨real_mem_real.mpr ⟨by linarith, hhigh⟩, 3, real_mem_real.mpr (by norm_num), real_mem_real.mpr ?_⟩
      constructor <;> linarith
  exact ⟨htarget, Or.inr hfactor.isProper, hx, hfactor.bounded, z, hz, hset ▸ hhull hfactor.bounded⟩

end Interval

end IntervalDag
