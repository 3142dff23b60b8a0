import IntervalDag.Proofs.Interval.Roots

/-!
# Tight inverse powers

The inverse relation of a power with a whole exponent leaves an interval with both ends near roots: each end is a member
of the interval that was narrowed, and no further from a number whose power is in the bounds than ends are widened.
Roots of ends order the numbers as their powers do (`Interval.exists_signedRoot`), so what lies between widened roots is
near a root (`Interval.exists_near`), and ends of a meet lie in both intervals (`Interval.endsIn_inter`).

An exponent below zero takes the hull of the reciprocals of the bounds before anything is clipped. If the bounds reach
across zero, this hull holds every number, and the interval is left as it was, whatever its ends are near
(`Interval.powInverse_tight`).
-/

namespace IntervalDag

open Scalar Exact

namespace Exact

variable {p v : ℝ}

theorem signedPow_of_neg (hv : v < 0) : signedPow p v = -(-v) ^ p := by
  rw [signedPow, if_pos hv, abs_of_neg hv]

theorem nonneg_of_signedPow (h : 0 ≤ signedPow p v) : 0 ≤ v := by
  by_contra hv
  rw [signedPow_of_neg (not_le.mp hv)] at h
  exact (Real.rpow_pos_of_pos (neg_pos.mpr (not_le.mp hv)) p).not_ge (neg_nonneg.mp h)

/-- A power with an odd exponent keeps the sign. -/
theorem rpow_eq_signedPow {n : ℤ} (hn : Odd n) (v : ℝ) : v ^ (n : ℝ) = signedPow n v := by
  rcases le_or_gt 0 v with hv | hv
  · rw [signedPow_of_nonneg hv]
  · rw [signedPow_of_neg hv, Real.rpow_intCast, Real.rpow_intCast, hn.neg_zpow, neg_neg]

theorem hasPower_of_pos {n : ℤ} (hn : 0 < n) (r : ℝ) : HasPower r n where
  whole_of_neg _ := ⟨n, rfl⟩
  nonneg_of_eq_zero _ := Int.cast_nonneg hn.le

end Exact

namespace Interval

variable {x y z target bounds : Interval Exact} {p w : ℝ} {n : ℤ} {s t : Set ℝ}

/-! ### Ends in a set -/

/-- An interval that is empty or has two members of a set for ends. -/
def EndsIn (s : Set ℝ) (z : Interval Exact) : Prop := z.isEmpty = true ∨ ∃ u ∈ s, ∃ v ∈ s, z = ⟨real u, real v⟩

theorem EndsIn.mono (h : z.EndsIn s) (hst : s ⊆ t) : z.EndsIn t := by
  rcases h with hempty | ⟨u, hu, v, hv, rfl⟩
  · exact Or.inl hempty
  · exact Or.inr ⟨u, hst hu, v, hst hv, rfl⟩

/-- Ends of a meet with a bounded interval are in both intervals. -/
theorem endsIn_inter (hy : y.IsProper) (hx : x.IsCompact) (hs : ∀ r, real r ∈ y → real r ∈ x → r ∈ s) :
    (y.inter x).EndsIn s := by
  by_cases hempty : (y.inter x).isEmpty = true
  · exact Or.inl hempty
  have hcompact := hx.of_isSubset (inter_isSubset y hx.isProper) (Bool.eq_false_iff.mpr hempty)
  obtain ⟨u, v, heq, huv⟩ := hcompact.exists_ends
  have hmem {r : ℝ} (hr : u ≤ r ∧ r ≤ v) : r ∈ s := by
    have h : r ∈ (y.inter x).reals := heq ▸ real_mem_real.mpr hr
    rw [reals_inter hy hx.isProper] at h
    exact hs r h.1 h.2
  exact Or.inr ⟨u, hmem ⟨le_rfl, huv⟩, v, hmem ⟨huv, le_rfl⟩, heq⟩

theorem EndsIn.hull (hy : y.EndsIn s) (hz : z.EndsIn s) : (y.hull z).EndsIn s := by
  rw [Interval.hull]
  split_ifs with hempty hempty'
  · exact hz
  · exact hy
  · obtain ⟨u, hu, v, hv, rfl⟩ := hy.resolve_left hempty
    obtain ⟨u', hu', v', hv', rfl⟩ := hz.resolve_left hempty'
    refine Or.inr ⟨min u u', min_rec' (· ∈ s) hu hu', max v v', max_rec' (· ∈ s) hv hv', ?_⟩
    simp only [real, minNum_number, maxNum_number, EReal.coe_strictMono.monotone.map_min,
      EReal.coe_strictMono.monotone.map_max]

/-! ### Near roots -/

/-- A number whose power is in the bounds. -/
def IsRoot (bounds : Interval Exact) (p y : ℝ) : Prop := HasPower y p ∧ real (y ^ p) ∈ bounds

/-- Within the margin by which ends are widened of a number whose power is in the bounds. -/
def NearRoot (bounds : Interval Exact) (p w : ℝ) : Prop := ∃ y, IsRoot bounds p y ∧ |w - y| ≤ 1e-12 * max 1 |y|

theorem NearRoot.imp {q : ℝ} (h : NearRoot target q w) (himp : ∀ y, IsRoot target q y → IsRoot bounds p y) :
    NearRoot bounds p w := by
  obtain ⟨y, hy, hnear⟩ := h
  exact ⟨y, himp y hy, hnear⟩

/-- A number between widened ends is near one between the ends. -/
theorem exists_near {c d : EReal} {e : ℝ} (hce : c ≤ e) (hed : e ≤ d) {lo hi : EReal}
    (hlo : nudgeDown (number c) = number lo) (hhi : nudgeUp (number d) = number hi) (hlow : lo ≤ w) (hhigh : w ≤ hi) :
    ∃ v : ℝ, c ≤ v ∧ v ≤ d ∧ |w - v| ≤ 1e-12 * max 1 |v| := by
  rcases lt_or_ge (w : EReal) c with hc | hc
  · lift c to ℝ using ⟨(hce.trans_lt (EReal.coe_lt_top e)).ne, ((EReal.bot_lt_coe w).trans hc).ne'⟩
    obtain rfl := number.inj (hlo.symm.trans (nudgeDown_real c))
    refine ⟨c, le_rfl, hce.trans hed, ?_⟩
    rw [max_comm, abs_sub_comm, abs_of_pos (sub_pos.mpr (EReal.coe_lt_coe_iff.mp hc))]
    exact sub_le_comm.mp (EReal.coe_le_coe_iff.mp hlow)
  rcases lt_or_ge d (w : EReal) with hd | hd
  · lift d to ℝ using ⟨(hd.trans (EReal.coe_lt_top w)).ne, ((EReal.bot_lt_coe e).trans_le hed).ne'⟩
    obtain rfl := number.inj (hhi.symm.trans (nudgeUp_real d))
    refine ⟨d, hce.trans hed, le_rfl, ?_⟩
    rw [max_comm, abs_of_pos (sub_pos.mpr (EReal.coe_lt_coe_iff.mp hd))]
    exact sub_le_iff_le_add'.mpr (EReal.coe_le_coe_iff.mp hhigh)
  · exact ⟨w, hc, hd, by rw [sub_self, abs_zero]; positivity⟩

/-- Between the widened roots of two ends lie numbers near roots of what is between the ends, and no others. -/
theorem exists_near_signedRoot (hp : 0 < p) (htarget : target.IsProper) : ∃ c d : EReal,
    nudgeDown (signedRoot (real p) target.inf) = number c ∧ nudgeUp (signedRoot (real p) target.sup) = number d ∧
      IsProper ⟨number c, number d⟩ ∧ ∀ w : ℝ, c ≤ w → w ≤ d →
        ∃ v, real (signedPow p v) ∈ target ∧ |w - v| ≤ 1e-12 * max 1 |v| := by
  obtain ⟨t, ht⟩ := isProper_iff.mp htarget
  obtain ⟨a, b, rfl, -⟩ := htarget.exists_ends
  obtain ⟨lo, hlo, hlow, -⟩ := exists_signedRoot hp a
  obtain ⟨hi, hhi, -, hhigh⟩ := exists_signedRoot hp b
  obtain ⟨⟨c, hc, hdown⟩, -⟩ := exists_nudge lo
  obtain ⟨-, d, hd, hup⟩ := exists_nudge hi
  obtain ⟨hat, htb⟩ := real_mem_number.mp ht
  have hlot : lo ≤ (signedPow (1 / p) t : ℝ) := (hlow _).mpr (by rwa [signedPow_signedPow_inv hp])
  have hthi : (signedPow (1 / p) t : ℝ) ≤ hi := (hhigh _).mpr (by rwa [signedPow_signedPow_inv hp])
  refine ⟨c, d, hlo ▸ hdown, hhi ▸ hup, isProper_of_real_mem (real_mem_number.mpr ⟨hc.trans hlot, hthi.trans hd⟩),
    fun w hcw hwd => ?_⟩
  obtain ⟨v, hlov, hvhi, hnear⟩ := exists_near hlot hthi hdown hup hcw hwd
  exact ⟨v, real_mem_number.mpr ⟨(hlow v).mp hlov, (hhigh v).mp hvhi⟩, hnear⟩

/-! ### Exponents above zero -/

section RootsWithin

variable (hn : 0 < n) (htarget : target.IsProper) (hx : x.IsCompact)

include hn htarget hx

theorem exists_oddRootsWithin_near (hodd : Odd n) :
    ∃ z, oddRootsWithin target (real n) x = .ok z ∧ z.EndsIn {w | real w ∈ x ∧ NearRoot target n w} := by
  obtain ⟨c, d, hc, hd, hproper, hnear⟩ := exists_near_signedRoot (Int.cast_pos.mpr hn) htarget
  refine ⟨inter ⟨number c, number d⟩ x, ?_, endsIn_inter hproper hx fun w hw hwx => ⟨hwx, ?_⟩⟩
  · rw [oddRootsWithin, hc, hd, ofBounds_number]
    rfl
  · obtain ⟨hcw, hwd⟩ := real_mem_number.mp hw
    obtain ⟨v, hv, hwv⟩ := hnear w hcw hwd
    exact ⟨v, ⟨hasPower_of_pos hn v, rpow_eq_signedPow hodd v ▸ hv⟩, hwv⟩

omit hx in
/-- The roots of the part of the bounds that is not negative lie near roots that are not negative. -/
theorem exists_positiveRoots_near (hpart : (target.inter nonnegative).isEmpty = false) :
    ∃ y, positiveRoots (target.inter nonnegative) (real n) = .ok y ∧ y.IsProper ∧ ∀ w, real w ∈ y →
      ∃ v, 0 ≤ v ∧ real (v ^ (n : ℝ)) ∈ target ∧ |w - v| ≤ 1e-12 * max 1 |v| := by
  have hp : (0 : ℝ) < n := Int.cast_pos.mpr hn
  have hnonneg : (nonnegative : Interval Exact).IsProper := isProper_of_real_mem (real_mem_nonnegative.mpr le_rfl)
  have hreals := reals_inter htarget hnonneg
  have hregular := inter_eq_hullOf htarget hnonneg ▸ isRegular_hullOf (target.reals ∩ reals nonnegative)
  obtain ⟨y, hy, hproper, -⟩ := exists_positiveRoots hp htarget hpart
  obtain ⟨c, d, hc, hd, -, hnear⟩ :=
    exists_near_signedRoot hp (hregular.resolve_left (Bool.eq_false_iff.mp hpart))
  refine ⟨y, hy, hproper, fun w hw => ?_⟩
  obtain rfl : ⟨number (max c 0), number d⟩ = y := by
    rw [positiveRoots, hc, hd, zero_def, maxNum_number, ofBounds_number] at hy
    exact Except.ok.inj hy
  obtain ⟨hcw, hwd⟩ := real_mem_number.mp hw
  obtain ⟨v, hv, hwv⟩ := hnear w ((le_max_left c 0).trans hcw) hwd
  have hmem : signedPow n v ∈ target.reals ∩ reals nonnegative := hreals ▸ hv
  have hv₀ : 0 ≤ v := nonneg_of_signedPow (real_mem_nonnegative.mp hmem.2)
  exact ⟨v, hv₀, signedPow_of_nonneg hv₀ ▸ hmem.1, hwv⟩

/-- Each of the two branches of an even power has ends near roots, and so has the hull of both. -/
theorem exists_evenRootsWithin_near (hwhole : Scalar.integral? (real n) = some n) (heven : Even n) :
    ∃ z, rootsWithin target (real n) x = .ok z ∧ z.EndsIn {w | real w ∈ x ∧ NearRoot target n w} := by
  have hodd : ¬ n % 2 ≠ 0 := not_not.mpr (Int.even_iff.mp heven)
  rw [rootsWithin, if_neg (by simp [htarget.nonempty, hx.nonempty]), hwhole]
  dsimp only
  rw [if_neg hodd]
  by_cases hpart : (target.inter nonnegative).isEmpty = true
  · exact ⟨empty, by rw [if_pos hpart]; rfl, Or.inl isEmpty_empty⟩
  obtain ⟨y, hy, hproper, hnear⟩ := exists_positiveRoots_near hn htarget (Bool.eq_false_iff.mpr hpart)
  refine ⟨_, by rw [if_neg hpart, hy]; rfl, EndsIn.hull (EndsIn.hull (Or.inl isEmpty_empty) ?_) ?_⟩
  · refine endsIn_inter hproper hx fun w hw hwx => ⟨hwx, ?_⟩
    obtain ⟨v, -, hv, hwv⟩ := hnear w hw
    exact ⟨v, ⟨hasPower_of_pos hn v, hv⟩, hwv⟩
  · refine endsIn_inter hproper.neg hx fun w hw hwx => ⟨hwx, ?_⟩
    have hneg : w ∈ -y.reals := reals_neg hproper ▸ hw
    obtain ⟨v, -, hv, hwv⟩ := hnear (-w) hneg
    refine ⟨-v, ⟨hasPower_of_pos hn _, ?_⟩, ?_⟩
    · rwa [Real.rpow_intCast, heven.neg_zpow, ← Real.rpow_intCast]
    · rwa [sub_neg_eq_add, abs_neg, ← abs_neg, neg_add']

/-- **Exponents above zero.** -/
theorem exists_rootsWithin_near (hwhole : Scalar.integral? (real n) = some n) :
    ∃ z, rootsWithin target (real n) x = .ok z ∧ z.EndsIn {w | real w ∈ x ∧ NearRoot target n w} := by
  rcases Int.even_or_odd n with heven | hodd
  · exact exists_evenRootsWithin_near hn htarget hx hwhole heven
  · rw [rootsWithin, if_neg (by simp [htarget.nonempty, hx.nonempty]), hwhole]
    dsimp only
    rw [if_pos (by rw [Int.odd_iff.mp hodd]; exact one_ne_zero)]
    exact exists_oddRootsWithin_near hn htarget hx hodd

end RootsWithin

/-! ### Exponents below zero -/

/-- The bounds reach across zero. -/
def IsAcross (bounds : Interval Exact) : Prop := bounds.inf < 0 ∧ 0 < bounds.sup

theorem isAcross_real {u v : ℝ} : IsAcross ⟨real u, real v⟩ ↔ u < 0 ∧ 0 < v :=
  and_congr (by rw [← real_zero, real_lt_real]) real_pos

theorem quotients_one (bounds : Interval Exact) : quotients ⟨real 1, real 1⟩ bounds = (bounds.reals \ {0})⁻¹ := by
  ext r
  simp only [quotients, real_mem_real, Set.mem_ofPred_eq, Set.mem_inv, Set.mem_sdiff, mem_reals, Set.mem_singleton_iff]
  constructor
  · rintro ⟨d, hd, hle, hge⟩
    have hone : r * d = 1 := le_antisymm hge hle
    rw [inv_eq_of_mul_eq_one_right hone]
    exact ⟨hd, right_ne_zero_of_mul_eq_one hone⟩
  · rintro ⟨hmem, hne⟩
    have hone : r * r⁻¹ = 1 := mul_inv_cancel₀ (inv_eq_zero.not.mp hne)
    exact ⟨r⁻¹, hmem, hone.ge, hone.le⟩

/-- An exponent below zero takes roots of the reciprocals of the bounds. -/
theorem powInverse_of_neg (hn : n < 0) (hbounds : bounds.IsCompact) (hx : x.IsProper) :
    powInverse bounds (real n) x = rootsWithin bounds.recip (real ((-n : ℤ) : ℝ)) x := by
  have hentire : (entire : Interval Exact).IsProper := isProper_of_real_mem (real_mem_entire 0)
  have hall : (entire : Interval Exact).reals = Set.univ := Set.eq_univ_of_forall real_mem_entire
  obtain ⟨s, hs, hsub, hsup⟩ := exists_solveProduct (Or.inr (isProper_point 1)) hbounds.isProper hentire
  rw [Set.Subset.antisymm (hsup hbounds) hsub, hall, Set.inter_univ, quotients_one,
    ← recip_eq_hullOf (Or.inr hbounds.isProper), real_one] at hs
  rw [powInverse, if_neg (by simp [hbounds.nonempty, hx.nonempty]), if_neg (mt real_int_beq_zero.mp hn.ne),
    if_pos (real_int_neg.mpr hn), hs, Checked.ok_bind, real_neg, Int.cast_neg]

/-- Reciprocals of bounds that are not across zero have their reciprocals in the bounds. -/
theorem inv_mem_of_mem_recip (hbounds : bounds.IsCompact) (hside : ¬ bounds.IsAcross) {e : ℝ}
    (he : real e ∈ bounds.recip) : e ≠ 0 ∧ real e⁻¹ ∈ bounds := by
  have hnonempty := hbounds.nonempty
  obtain ⟨u, v, rfl, huv⟩ := hbounds.exists_ends
  rw [isAcross_real] at hside
  rw [real_mem_real]
  rw [real, real, recip_number hnonempty] at he
  simp only [EReal.coe_eq_zero, EReal.coe_neg', EReal.coe_pos, if_neg hside, ← EReal.coe_one, ← EReal.coe_div] at he
  split_ifs at he with hzero hinf hsup
  · exact absurd he (real_notMem_of_isEmpty isEmpty_empty e)
  · subst hinf
    have hv : 0 < v := lt_of_le_of_ne huv fun h => hzero ⟨rfl, h.symm⟩
    have hve : 1 / v ≤ e := EReal.coe_le_coe_iff.mp (real_mem_number.mp he).1
    have he₀ : 0 < e := (one_div_pos.mpr hv).trans_le hve
    exact ⟨he₀.ne', inv_nonneg.mpr he₀.le, (inv_le_comm₀ he₀ hv).mpr (one_div v ▸ hve)⟩
  · subst hsup
    have hu : u < 0 := lt_of_le_of_ne huv hinf
    have heu : e ≤ 1 / u := EReal.coe_le_coe_iff.mp (real_mem_number.mp he).2
    have he₀ : e < 0 := heu.trans_lt (one_div_neg.mpr hu)
    exact ⟨he₀.ne, (le_inv_of_neg hu he₀).mpr (one_div u ▸ heu), inv_nonpos.mpr he₀.le⟩
  · obtain ⟨hve, heu⟩ : 1 / v ≤ e ∧ e ≤ 1 / u := real_mem_real.mp he
    rw [one_div] at hve heu
    rcases lt_or_gt_of_ne hinf with hu | hu
    · have hv : v < 0 := lt_of_le_of_ne (not_lt.mp fun hv => hside ⟨hu, hv⟩) hsup
      have he₀ : e < 0 := heu.trans_lt (inv_lt_zero.mpr hu)
      exact ⟨he₀.ne, (le_inv_of_neg hu he₀).mpr heu, (inv_le_of_neg he₀ hv).mpr hve⟩
    · have hv : 0 < v := hu.trans_le huv
      have he₀ : 0 < e := (inv_pos.mpr hv).trans_le hve
      exact ⟨he₀.ne', (le_inv_comm₀ hu he₀).mpr heu, (inv_le_comm₀ he₀ hv).mpr hve⟩

/-- Bounds across zero have reciprocals of every size. -/
theorem recip_of_isAcross (hbounds : bounds.IsCompact) (hacross : bounds.IsAcross) : bounds.recip = entire := by
  have hpoint : ¬ (bounds.isEmpty || (bounds.inf == 0 && bounds.sup == 0)) = true := by
    obtain ⟨u, v, rfl, -⟩ := hbounds.exists_ends
    simp [hbounds.nonempty, real_beq_zero, (isAcross_real.mp hacross).1.ne]
  rw [recip, if_neg hpoint, if_pos (show bounds.inf < 0 ∧ 0 < bounds.sup from hacross)]

/-- Roots of a reciprocal are roots for the opposite exponent. -/
theorem isRoot_of_recip (hbounds : bounds.IsCompact) (hside : ¬ bounds.IsAcross) (hn : n < 0) {y : ℝ}
    (hy : IsRoot bounds.recip ((-n : ℤ) : ℝ) y) : IsRoot bounds n y := by
  obtain ⟨hne, hmem⟩ := inv_mem_of_mem_recip hbounds hside hy.2
  rw [Real.rpow_intCast] at hne hmem
  have hy₀ : y ≠ 0 := by
    rintro rfl
    exact hne (zero_zpow _ (neg_pos.mpr hn).ne')
  rw [zpow_neg, inv_inv, ← Real.rpow_intCast] at hmem
  exact ⟨⟨fun _ => ⟨n, rfl⟩, fun h => absurd h hy₀⟩, hmem⟩

/-! ### All whole exponents -/

section PowInverse

variable (hbounds : bounds.IsCompact) (hx : x.IsCompact)

include hbounds hx

/-- Where the reciprocals of the bounds have no gap between them, ends are near roots. -/
theorem exists_powInverse_near (hn : n ≠ 0) (hlt : |n| < 2 ^ 31 - 1) (hside : ¬ (n < 0 ∧ bounds.IsAcross)) :
    ∃ z, powInverse bounds (real n) x = .ok z ∧ z.EndsIn {w | real w ∈ x ∧ NearRoot bounds n w} := by
  rcases lt_or_gt_of_ne hn with hneg | hpos
  · rw [powInverse_of_neg hneg hbounds hx.isProper]
    rcases recip_eq_hullOf (Or.inr hbounds.isProper) ▸ isRegular_hullOf (bounds.reals \ {0})⁻¹ with hempty | hproper
    · exact ⟨empty, by rw [rootsWithin, hempty, Bool.true_or, if_pos rfl], Or.inl isEmpty_empty⟩
    obtain ⟨z, hz, hnear⟩ :=
      exists_rootsWithin_near (neg_pos.mpr hneg) hproper hx (integral?_real (by rwa [abs_neg]))
    exact ⟨z, hz, hnear.mono fun w hw =>
      ⟨hw.1, hw.2.imp fun y => isRoot_of_recip hbounds (fun h => hside ⟨hneg, h⟩) hneg⟩⟩
  · rw [powInverse_of_pos (Int.cast_pos.mpr hpos) hbounds.isProper hx.isProper]
    exact exists_rootsWithin_near hpos hbounds.isProper hx (integral?_real hlt)

/-- Roots of all numbers leave an interval as it is. -/
theorem powInverse_of_isAcross (hneg : n < 0) (hlt : |n| < 2 ^ 31 - 1) (hacross : bounds.IsAcross) :
    powInverse bounds (real n) x = .ok x := by
  have hpos : 0 < -n := neg_pos.mpr hneg
  have hentire : (entire : Interval Exact).IsProper := isProper_of_real_mem (real_mem_entire 0)
  rw [powInverse_of_neg hneg hbounds hx.isProper, recip_of_isAcross hbounds hacross]
  obtain ⟨z, hz, -, hroots⟩ := exists_rootsWithin_of_whole (Int.cast_pos.mpr hpos) hentire hx.isProper
    (integral?_real (n := -n) (by rwa [abs_neg]))
  have hmem {r : ℝ} (hr : real r ∈ x) : real r ∈ z :=
    hroots.holds r hr (hasPower_of_pos hpos r) (real_mem_entire _)
  obtain ⟨u, v, rfl, huv⟩ := hx.exists_ends
  have hu := hmem (real_mem_real.mpr ⟨le_refl u, huv⟩)
  have hv := hmem (real_mem_real.mpr ⟨huv, le_refl v⟩)
  obtain ⟨a, b, rfl, hau, -⟩ := real_mem_iff.mp hu
  obtain ⟨-, hvb⟩ := real_mem_number.mp hv
  obtain ⟨hua, hbv⟩ := (isSubset_iff (isEmpty_of_mem hu)).mp hroots.isSubset
  rw [hz, le_antisymm hau (number_le_number.mp hua), le_antisymm (number_le_number.mp hbv) hvb]
  rfl

/-- **Inverse powers are tight**, unless the exponent is below zero and the bounds are across zero: both ends of what is
left are members of the interval and no further than the margin from numbers whose powers are in the bounds. In the case
that is left out nothing is narrowed, since the reciprocals of the bounds have a gap that their hull closes before it is
clipped. -/
theorem powInverse_tight (hn : n ≠ 0) (hlt : |n| < 2 ^ 31 - 1) : ∃ z, powInverse bounds (real n) x = .ok z ∧
    (¬ (n < 0 ∧ bounds.IsAcross) → z.EndsIn {w | real w ∈ x ∧ NearRoot bounds n w}) ∧
      (n < 0 ∧ bounds.IsAcross → z = x) := by
  by_cases hside : n < 0 ∧ bounds.IsAcross
  · exact ⟨x, powInverse_of_isAcross hbounds hx hside.1 hlt hside.2, fun h => absurd hside h, fun _ => rfl⟩
  · obtain ⟨z, hz, hnear⟩ := exists_powInverse_near hbounds hx hn hlt hside
    exact ⟨z, hz, fun _ => hnear, fun h => absurd h hside⟩

end PowInverse

/-- Bounds that touch zero leave two branches of an inverse square. -/
theorem powInverse_tight_of_touching :
    let bounds : Interval Exact := ⟨real 0, real 4⟩
    let x : Interval Exact := ⟨real (-3), real 3⟩
    bounds.IsCompact ∧ x.IsCompact ∧ ¬ bounds.IsAcross ∧
      ∃ z, powInverse bounds (real ((-2 : ℤ) : ℝ)) x = .ok z ∧
        z.EndsIn {w | real w ∈ x ∧ NearRoot bounds ((-2 : ℤ) : ℝ) w} := by
  intro bounds x
  have hbounds : bounds.IsCompact := isCompact_real (by norm_num)
  have hx : x.IsCompact := isCompact_real (by norm_num)
  have hside : ¬ bounds.IsAcross := fun h => (isAcross_real.mp h).1.false
  obtain ⟨z, hz, hnear, -⟩ := powInverse_tight hbounds hx (n := -2) (by decide) (by decide)
  exact ⟨hbounds, hx, hside, z, hz, hnear fun h => hside h.2⟩

/-- No reciprocal of a number between `-1/2` and `1/2` is anywhere near the numbers between `-1` and `1`, yet all of
them are left. -/
theorem not_forall_powInverse_tight :
    ¬ ∀ (n : ℤ) (bounds x : Interval Exact), n ≠ 0 → |n| < 2 ^ 31 - 1 → bounds.IsCompact → x.IsCompact →
      ∀ z, powInverse bounds (real n) x = .ok z → z.EndsIn {w | real w ∈ x ∧ NearRoot bounds n w} := by
  intro h
  have hbounds : IsCompact ⟨real (-1), real 1⟩ := isCompact_real (by norm_num)
  have hx : IsCompact ⟨real (-1 / 2), real (1 / 2)⟩ := isCompact_real (by norm_num)
  have hacross : IsAcross ⟨real (-1), real 1⟩ := isAcross_real.mpr ⟨by norm_num, one_pos⟩
  have hkept := powInverse_of_isAcross hbounds hx (n := -1) (by decide) (by decide) hacross
  rcases h (-1) _ _ (by decide) (by decide) hbounds hx _ hkept with hempty | ⟨u, hu, v, -, -⟩
  · rw [hx.nonempty] at hempty
    cases hempty
  obtain ⟨hux, y, ⟨hpower, hroot⟩, hnear⟩ := hu
  have hu : |u| ≤ 1 / 2 := abs_le.mpr ⟨by linarith [(real_mem_real.mp hux).1], (real_mem_real.mp hux).2⟩
  have hy₀ : 0 < |y| := abs_pos.mpr fun hy => absurd (hpower.nonneg_of_eq_zero hy) (by norm_num)
  have hy : 1 ≤ |y| := by
    rw [Real.rpow_intCast, zpow_neg_one] at hroot
    have hinv : |y|⁻¹ ≤ 1 := by rw [← abs_inv]; exact abs_le.mpr (real_mem_real.mp hroot)
    exact (inv_le_one₀ hy₀).mp hinv
  rw [max_eq_right hy] at hnear
  linarith [abs_sub_abs_le_abs_sub y u, abs_sub_comm y u]

end Interval

end IntervalDag
