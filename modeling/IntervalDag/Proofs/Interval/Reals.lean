import Mathlib.Algebra.Group.Pointwise.Set.Basic
import IntervalDag.Proofs.Interval.Exact

/-!
# Intervals as sets of real numbers

Over the exact carrier an interval that is not empty, and that has no end at the wrong infinity, is determined by the
real numbers in it: it is the smallest interval that holds them (`Interval.hullOf_reals`). On such intervals, which are
the proper ones, sums, differences and multiples are exactly the sets of what the operations make of members
(`Interval.exists_add`, `Interval.exists_sub`, `Interval.exists_scale`). Meets and hulls of intervals are the smallest
intervals around meets and unions of the sets (`Interval.inter_eq_hullOf`, `Interval.hullOf_union`), as they are for
the canonical empty interval around no number.
-/

namespace IntervalDag

open Scalar Exact
open scoped Pointwise

namespace Interval

/-- The interval is not empty, and no end of it is at the wrong infinity. -/
structure IsProper {α : Type} [Scalar α] (x : Interval α) : Prop where
  nonempty : x.isEmpty = false
  inf_lt : x.inf < posInf
  lt_sup : negInf < x.sup

/-- The real numbers in an interval. -/
def reals (x : Interval Exact) : Set ℝ := {r | real r ∈ x}

/-- The smallest interval that holds the real numbers of a set. -/
noncomputable def hullOf (s : Set ℝ) : Interval Exact := ⟨number (⨅ r ∈ s, (r : EReal)), number (⨆ r ∈ s, (r : EReal))⟩

variable {x y : Interval Exact} {a b : EReal} {r c : ℝ} {s t : Set ℝ}

@[simp] theorem mem_reals : r ∈ x.reals ↔ real r ∈ x := Iff.rfl

@[simp] theorem real_mem_number : real r ∈ (⟨number a, number b⟩ : Interval Exact) ↔ a ≤ r ∧ (r : EReal) ≤ b := mem_iff

@[simp] theorem real_mem_real {p q : ℝ} : real r ∈ (⟨real p, real q⟩ : Interval Exact) ↔ p ≤ r ∧ r ≤ q :=
  real_mem_number.trans (and_congr EReal.coe_le_coe_iff EReal.coe_le_coe_iff)

@[simp] theorem real_mem_ray {p : ℝ} : real r ∈ (⟨real p, posInf⟩ : Interval Exact) ↔ p ≤ r :=
  real_mem_number.trans ((and_iff_left le_top).trans EReal.coe_le_coe_iff)

@[simp] theorem isEmpty_number : (⟨number a, number b⟩ : Interval Exact).isEmpty = true ↔ b < a := by
  rw [isEmpty, decide_eq_true_iff, number_lt_number]

/-! ### Proper intervals -/

/-- There is a real number between ends that are in order and at no wrong infinity. -/
theorem exists_real_between (h : a ≤ b) (ha : a ≠ ⊤) (hb : b ≠ ⊥) : ∃ r : ℝ, a ≤ r ∧ (r : EReal) ≤ b := by
  induction a with
  | top => exact absurd rfl ha
  | coe a => exact ⟨a, le_refl _, h⟩
  | bot =>
    induction b with
    | bot => exact absurd rfl hb
    | coe b => exact ⟨b, bot_le, le_refl _⟩
    | top => exact ⟨0, bot_le, le_top⟩

theorem isProper_of_real_mem (h : real r ∈ x) : x.IsProper := by
  have hnonempty := isEmpty_of_mem h
  obtain ⟨a, b, rfl, ha, hb⟩ := real_mem_iff.mp h
  exact ⟨hnonempty, ha.trans_lt (EReal.coe_lt_top r), (EReal.bot_lt_coe r).trans_le hb⟩

/-- The ends of a proper interval. -/
theorem IsProper.exists_ends (h : x.IsProper) :
    ∃ a b : EReal, x = ⟨number a, number b⟩ ∧ a ≤ b ∧ a ≠ ⊤ ∧ b ≠ ⊥ := by
  obtain ⟨a, b⟩ := x
  obtain ⟨hnonempty, hinf, hsup⟩ := h
  cases a with
  | nan => exact hinf.elim
  | number a =>
    cases b with
    | nan => exact hsup.elim
    | number b =>
      have hab : ¬ b < a := fun hlt => Bool.false_ne_true (hnonempty.symm.trans (isEmpty_number.mpr hlt))
      exact ⟨a, b, rfl, not_lt.mp hab, (show a < ⊤ from hinf).ne, (show ⊥ < b from hsup).ne'⟩

/-- **Proper intervals** are those with a real number in them. -/
theorem isProper_iff : x.IsProper ↔ x.reals.Nonempty := by
  refine ⟨fun h => ?_, fun ⟨r, hr⟩ => isProper_of_real_mem hr⟩
  obtain ⟨a, b, rfl, hab, ha, hb⟩ := h.exists_ends
  obtain ⟨r, hr⟩ := exists_real_between hab ha hb
  exact ⟨r, real_mem_number.mpr hr⟩

@[simp] theorem reals_empty : (empty : Interval Exact).reals = ∅ := by
  ext r
  simp [empty, posInf_def, negInf_def]

@[simp] theorem isEmpty_empty : (empty : Interval Exact).isEmpty = true := isEmpty_number.mpr bot_lt_top

theorem real_notMem_of_isEmpty (h : x.isEmpty = true) (r : ℝ) : real r ∉ x := fun hr =>
  Bool.false_ne_true ((isEmpty_of_mem hr).symm.trans h)

/-! ### Hulls of sets -/

@[simp] theorem hullOf_empty : hullOf ∅ = empty := by
  simp [hullOf, empty, posInf_def, negInf_def]

theorem real_mem_hullOf (h : r ∈ s) : real r ∈ hullOf s :=
  real_mem_number.mpr ⟨iInf₂_le (f := fun (r : ℝ) (_ : r ∈ s) => (r : EReal)) r h,
    le_iSup₂ (f := fun (r : ℝ) (_ : r ∈ s) => (r : EReal)) r h⟩

theorem isProper_hullOf : (hullOf s).IsProper ↔ s.Nonempty := by
  constructor
  · intro h
    by_contra hs
    rw [Set.not_nonempty_iff_eq_empty.mp hs, hullOf_empty] at h
    exact Bool.false_ne_true (h.nonempty.symm.trans isEmpty_empty)
  · rintro ⟨r, hr⟩
    exact isProper_of_real_mem (real_mem_hullOf hr)

@[simp] theorem isEmpty_hullOf : (hullOf s).isEmpty = false ↔ s.Nonempty := by
  refine ⟨fun h => ?_, fun h => (isProper_hullOf.mpr h).nonempty⟩
  by_contra hs
  rw [Set.not_nonempty_iff_eq_empty.mp hs, hullOf_empty] at h
  exact Bool.false_ne_true (h.symm.trans isEmpty_empty)

/-- **An interval is what lies in it.** A proper interval is the smallest one around its real numbers. -/
theorem hullOf_reals (h : x.IsProper) : hullOf x.reals = x := by
  obtain ⟨q, hq⟩ := isProper_iff.mp h
  obtain ⟨a, b, rfl, -⟩ := h.exists_ends
  obtain ⟨haq, hqb⟩ := real_mem_number.mp hq
  have hinf : ⨅ r ∈ reals ⟨number a, number b⟩, (r : EReal) = a := by
    refine le_antisymm (le_of_forall_gt fun e hae => ?_) (le_iInf₂ fun r hr => (real_mem_number.mp hr).1)
    -- a real number below `e` that is not above `q` is in the interval
    obtain ⟨r, har, hre⟩ := EReal.lt_iff_exists_real_btwn.mp hae
    have hmem : min r q ∈ reals ⟨number a, number b⟩ := real_mem_number.mpr
      ⟨EReal.coe_strictMono.monotone.map_min ▸ le_min har.le haq,
        EReal.coe_strictMono.monotone.map_min ▸ min_le_of_right_le hqb⟩
    exact (iInf₂_le (f := fun (r : ℝ) _ => (r : EReal)) _ hmem).trans_lt
      ((EReal.coe_le_coe_iff.mpr (min_le_left r q)).trans_lt hre)
  have hsup : ⨆ r ∈ reals ⟨number a, number b⟩, (r : EReal) = b := by
    refine le_antisymm (iSup₂_le fun r hr => (real_mem_number.mp hr).2) (le_of_forall_lt fun e heb => ?_)
    obtain ⟨r, her, hrb⟩ := EReal.lt_iff_exists_real_btwn.mp heb
    have hmem : max r q ∈ reals ⟨number a, number b⟩ := real_mem_number.mpr
      ⟨EReal.coe_strictMono.monotone.map_max ▸ le_max_of_le_right haq,
        EReal.coe_strictMono.monotone.map_max ▸ max_le hrb.le hqb⟩
    exact (her.trans_le (EReal.coe_le_coe_iff.mpr (le_max_left r q))).trans_le
      (le_iSup₂ (f := fun (r : ℝ) _ => (r : EReal)) _ hmem)
  rw [hullOf, hinf, hsup]

/-- The hull of an interval of real numbers has no others in it. -/
theorem reals_hullOf_reals (x : Interval Exact) : (hullOf x.reals).reals = x.reals := by
  rcases x.reals.eq_empty_or_nonempty with hempty | hnonempty
  · rw [hempty, hullOf_empty, reals_empty]
  · rw [hullOf_reals (isProper_iff.mpr hnonempty)]

theorem hullOf_union (s t : Set ℝ) : hullOf (s ∪ t) = (hullOf s).hull (hullOf t) := by
  rcases s.eq_empty_or_nonempty with rfl | hs
  · rw [Set.empty_union, hullOf_empty, hull, if_pos isEmpty_empty]
  rcases t.eq_empty_or_nonempty with rfl | ht
  · rw [Set.union_empty, hullOf_empty, hull, isEmpty_hullOf.mpr hs, if_neg Bool.false_ne_true, if_pos isEmpty_empty]
  rw [hull, isEmpty_hullOf.mpr hs, isEmpty_hullOf.mpr ht]
  simp only [hullOf, Bool.false_eq_true, if_false, minNum_number, maxNum_number, iInf_union, iSup_union]

/-! ### Meets -/

theorem inter_number (a b c d : EReal) : (⟨number a, number b⟩ : Interval Exact).inter ⟨number c, number d⟩ =
    if min b d < max a c then empty else ⟨number (max a c), number (min b d)⟩ := by
  simp only [inter, maxNum_number, minNum_number, isEmpty_number]

theorem inter_empty (hx : x.IsProper) : x.inter empty = empty := by
  obtain ⟨a, b, rfl, -⟩ := hx.exists_ends
  rw [empty, posInf_def, negInf_def, inter_number, if_pos (by simp)]
  rfl

theorem reals_inter_number (a b c d : EReal) : reals ⟨number a, number b⟩ ∩ reals ⟨number c, number d⟩ =
    reals ⟨number (max a c), number (min b d)⟩ := by
  ext r
  simp only [Set.mem_inter_iff, mem_reals, real_mem_number, max_le_iff, le_min_iff]
  exact ⟨fun ⟨⟨ha, hb⟩, hc, hd⟩ => ⟨⟨ha, hc⟩, hb, hd⟩, fun ⟨⟨ha, hc⟩, hb, hd⟩ => ⟨⟨ha, hb⟩, hc, hd⟩⟩

/-- **Meets.** -/
theorem inter_eq_hullOf (hx : x.IsProper) (hy : y.IsProper) : x.inter y = hullOf (x.reals ∩ y.reals) := by
  obtain ⟨a, b, rfl, -, ha, hb⟩ := hx.exists_ends
  obtain ⟨c, d, rfl, -, hc, hd⟩ := hy.exists_ends
  rw [inter_number, reals_inter_number]
  split_ifs with hlt
  · have hnone : reals ⟨number (max a c), number (min b d)⟩ = ∅ := by
      refine Set.eq_empty_iff_forall_notMem.mpr fun r hr => ?_
      obtain ⟨hlow, hhigh⟩ := real_mem_number.mp hr
      exact (hlow.trans hhigh).not_gt hlt
    rw [hnone, hullOf_empty]
  · obtain ⟨r, hr⟩ := exists_real_between (not_lt.mp hlt)
      (max_lt (lt_top_iff_ne_top.mpr ha) (lt_top_iff_ne_top.mpr hc)).ne
      (lt_min (bot_lt_iff_ne_bot.mpr hb) (bot_lt_iff_ne_bot.mpr hd)).ne'
    exact (hullOf_reals (isProper_of_real_mem (real_mem_number.mpr hr))).symm

theorem reals_inter (hx : x.IsProper) (hy : y.IsProper) : (x.inter y).reals = x.reals ∩ y.reals := by
  rw [inter_eq_hullOf hx hy]
  obtain ⟨a, b, rfl, -⟩ := hx.exists_ends
  obtain ⟨c, d, rfl, -⟩ := hy.exists_ends
  rw [reals_inter_number, reals_hullOf_reals]

/-! ### Sums, differences and multiples -/

theorem sub_of_isEmpty (h : x.isEmpty = true) (y : Interval Exact) : x.sub y = .ok empty := by
  rw [sub, h, Bool.true_or, if_pos rfl]

theorem scale_of_isEmpty (h : x.isEmpty = true) (c : Exact) : x.scale c = .ok empty := by
  rw [scale, if_pos h]

/-- What is subtracted and the difference change places. -/
theorem coe_le_coe_sub_comm {c : EReal} {t : ℝ} : (r : EReal) ≤ t - c ↔ c ≤ ((t - r : ℝ) : EReal) := by
  induction c with
  | bot => simp
  | top => simp [-EReal.coe_sub]
  | coe c => rw [← EReal.coe_sub, EReal.coe_le_coe_iff, EReal.coe_le_coe_iff, le_sub_comm]

theorem coe_sub_le_coe_comm {d : EReal} {t : ℝ} : (t : EReal) - d ≤ r ↔ ((t - r : ℝ) : EReal) ≤ d := by
  induction d with
  | bot => simp [-EReal.coe_sub]
  | top => simp
  | coe d => rw [← EReal.coe_sub, EReal.coe_le_coe_iff, EReal.coe_le_coe_iff, sub_le_comm]

theorem coe_sub_lt_top {d : EReal} {t : ℝ} (h : d ≠ ⊥) : (t : EReal) - d < ⊤ := by
  induction d with
  | bot => exact absurd rfl h
  | coe d => exact EReal.coe_lt_top (t - d)
  | top => simp

theorem bot_lt_coe_sub {c : EReal} {t : ℝ} (h : c ≠ ⊤) : ⊥ < (t : EReal) - c := by
  induction c with
  | bot => simp
  | coe c => exact EReal.bot_lt_coe (t - c)
  | top => exact absurd rfl h

/-- Lower ends have sums, and so have upper ends. -/
theorem number_add_of_ne_top {c : EReal} (ha : a ≠ ⊤) (hc : c ≠ ⊤) : number a + number c = number (a + c) :=
  number_add fun h => by
    rcases h with ⟨rfl | rfl, rfl⟩
    · exact ha rfl
    · exact hc EReal.neg_bot

theorem number_add_of_ne_bot {d : EReal} (hb : b ≠ ⊥) (hd : d ≠ ⊥) : number b + number d = number (b + d) :=
  number_add fun h => by
    rcases h with ⟨rfl | rfl, rfl⟩
    · exact hd EReal.neg_top
    · exact hb rfl

theorem number_mul_real (hc : c ≠ 0) : number a * real c = number (a * c) := number_mul (by simp [hc])

@[simp] theorem point_real (c : ℝ) : point (real c) = .ok ⟨real c, real c⟩ := ofBounds_number

theorem isProper_point (c : ℝ) : IsProper ⟨real c, real c⟩ :=
  isProper_of_real_mem (real_mem_real.mpr ⟨le_refl c, le_refl c⟩)

@[simp] theorem reals_point (c : ℝ) : reals ⟨real c, real c⟩ = {c} := by
  ext r
  rw [mem_reals, Set.mem_singleton_iff]
  rw [real_mem_real, and_comm, le_antisymm_iff]

theorem reals_neg (h : x.IsProper) : (-x).reals = -x.reals := by
  have hnonempty := h.nonempty
  obtain ⟨a, b, rfl, -⟩ := h.exists_ends
  have hneg : -(⟨number a, number b⟩ : Interval Exact) = ⟨number (-b), number (-a)⟩ :=
    if_neg (Bool.eq_false_iff.mp hnonempty)
  ext r
  rw [hneg, Set.mem_neg, mem_reals, mem_reals, real_mem_number, real_mem_number, EReal.coe_neg, EReal.neg_le,
    EReal.le_neg]
  exact and_comm

theorem IsProper.neg (h : x.IsProper) : (-x).IsProper := isProper_iff.mpr (reals_neg h ▸ (isProper_iff.mp h).neg)

/-- A real number between the sums of ends is a sum of real numbers between the ends. -/
theorem exists_summands {c d : EReal} {t : ℝ} (hab : a ≤ b) (ha : a ≠ ⊤) (hb : b ≠ ⊥) (hcd : c ≤ d) (hc : c ≠ ⊤)
    (hd : d ≠ ⊥) (hlow : a + c ≤ t) (hhigh : t ≤ b + d) :
    ∃ r : ℝ, (a ≤ r ∧ (r : EReal) ≤ b) ∧ c ≤ ((t - r : ℝ) : EReal) ∧ ((t - r : ℝ) : EReal) ≤ d := by
  have hac : a ≤ t - c := (EReal.le_sub_iff_add_le (Or.inr (EReal.coe_ne_bot t)) (Or.inr (EReal.coe_ne_top t))).mpr hlow
  have hdb : t - d ≤ b := (EReal.sub_le_iff_le_add (Or.inl hd) (Or.inr hb)).mpr hhigh
  -- the first summand has to leave the second one a place between its ends
  obtain ⟨r, hr, hr'⟩ := exists_real_between (a := max a (t - d)) (b := min b (t - c))
    (max_le (le_min hab hac) (le_min hdb (EReal.sub_le_sub (le_refl _) hcd)))
    (max_lt (lt_top_iff_ne_top.mpr ha) (coe_sub_lt_top hd)).ne
    (lt_min (bot_lt_iff_ne_bot.mpr hb) (bot_lt_coe_sub hc)).ne'
  obtain ⟨har, hdr⟩ := max_le_iff.mp hr
  obtain ⟨hrb, hrc⟩ := le_min_iff.mp hr'
  exact ⟨r, ⟨har, hrb⟩, coe_le_coe_sub_comm.mp hrc, coe_sub_le_coe_comm.mp hdr⟩

/-- **Sums.** -/
theorem exists_add (hx : x.IsProper) (hy : y.IsProper) :
    ∃ z, x.add y = .ok z ∧ z.IsProper ∧ z.reals = x.reals + y.reals := by
  obtain ⟨p, hp⟩ := isProper_iff.mp hx
  obtain ⟨q, hq⟩ := isProper_iff.mp hy
  obtain ⟨z, hz, hpq⟩ := real_mem_add hp hq
  refine ⟨z, hz, isProper_of_real_mem hpq, Set.Subset.antisymm (fun t ht => ?_) ?_⟩
  · have hnonempty : (x.isEmpty || y.isEmpty) = false := by simp [hx.nonempty, hy.nonempty]
    obtain ⟨a, b, rfl, hab, ha, hb⟩ := hx.exists_ends
    obtain ⟨c, d, rfl, hcd, hc, hd⟩ := hy.exists_ends
    rw [add, hnonempty] at hz
    simp only [number_add_of_ne_top ha hc, number_add_of_ne_bot hb hd, Bool.false_eq_true, if_false, ofBounds_number,
      Except.ok.injEq] at hz
    subst hz
    obtain ⟨hlow, hhigh⟩ := real_mem_number.mp ht
    obtain ⟨r, hr, hs⟩ := exists_summands hab ha hb hcd hc hd hlow hhigh
    exact ⟨r, real_mem_number.mpr hr, t - r, real_mem_number.mpr hs, add_sub_cancel _ _⟩
  · rintro _ ⟨r, hr, s, hs, rfl⟩
    obtain ⟨z', hz', hmem⟩ := real_mem_add hr hs
    cases hz.symm.trans hz'
    exact hmem

/-- **Differences.** -/
theorem exists_sub (hx : x.IsProper) (hy : y.IsProper) :
    ∃ z, x.sub y = .ok z ∧ z.IsProper ∧ z.reals = x.reals - y.reals := by
  obtain ⟨z, hz, hproper, hreals⟩ := exists_add hx hy.neg
  refine ⟨z, ?_, hproper, by rw [hreals, reals_neg hy, sub_eq_add_neg]⟩
  rw [← hz, sub, add, hy.neg.nonempty, hy.nonempty]
  have hends : -y = ⟨-y.sup, -y.inf⟩ := if_neg (Bool.eq_false_iff.mp hy.nonempty)
  rw [hends]
  rfl

section Scale

variable {e f : EReal} (h : (⟨number e, number f⟩ : Interval Exact).isEmpty = false)

include h

theorem scale_of_pos (hc : 0 < c) :
    (⟨number e, number f⟩ : Interval Exact).scale (real c) = .ok ⟨number (e * c), number (f * c)⟩ := by
  rw [scale, h, if_neg Bool.false_ne_true, if_neg (mt real_beq_zero.mp hc.ne'), if_pos (real_pos.mpr hc),
    number_mul_real hc.ne', number_mul_real hc.ne', ofBounds_number]

theorem scale_of_neg (hc : c < 0) :
    (⟨number e, number f⟩ : Interval Exact).scale (real c) = .ok ⟨number (f * c), number (e * c)⟩ := by
  rw [scale, h, if_neg Bool.false_ne_true, if_neg (mt real_beq_zero.mp hc.ne), if_neg (mt real_pos.mp hc.not_gt),
    number_mul_real hc.ne, number_mul_real hc.ne, ofBounds_number]

end Scale

/-- Multiplying by a number and by its inverse changes nothing. -/
theorem scale_inv_scale (hx : x.IsProper) (hc : c ≠ 0) (hz : x.scale (real c) = .ok y) (hy : y.isEmpty = false) :
    y.scale (real c⁻¹) = .ok x := by
  have hnonempty := hx.nonempty
  obtain ⟨a, b, rfl, -⟩ := hx.exists_ends
  have hcancel (e : EReal) : e * c * (c⁻¹ : ℝ) = e := by
    rw [mul_assoc, ← EReal.coe_mul, mul_inv_cancel₀ hc, EReal.coe_one, mul_one]
  rcases hc.lt_or_gt with hneg | hpos
  · cases (scale_of_neg hnonempty hneg).symm.trans hz
    rw [scale_of_neg hy (inv_lt_zero.mpr hneg), hcancel, hcancel]
  · cases (scale_of_pos hnonempty hpos).symm.trans hz
    rw [scale_of_pos hy (inv_pos.mpr hpos), hcancel, hcancel]

/-- **Multiples.** -/
theorem exists_scale (hx : x.IsProper) (c : ℝ) :
    ∃ z, x.scale (real c) = .ok z ∧ z.IsProper ∧ z.reals = (· * c) '' x.reals := by
  obtain ⟨p, hp⟩ := isProper_iff.mp hx
  obtain ⟨z, hz, hpc⟩ := real_mem_scale hp c
  refine ⟨z, hz, isProper_of_real_mem hpc, Set.Subset.antisymm (fun t ht => ?_) ?_⟩
  · rcases eq_or_ne c 0 with rfl | hc
    · have hzero : (real 0 == (0 : Exact)) = true := by rw [← real_zero, real_beq_real]
      rw [scale, hx.nonempty, if_neg Bool.false_ne_true, if_pos hzero, ← real_zero, point_real] at hz
      cases hz
      rw [reals_point, Set.mem_singleton_iff] at ht
      exact ⟨p, hp, (mul_zero p).trans ht.symm⟩
    · obtain ⟨z', hz', hmem⟩ := real_mem_scale ht c⁻¹
      cases (scale_inv_scale hx hc hz (isEmpty_of_mem ht)).symm.trans hz'
      exact ⟨t * c⁻¹, hmem, inv_mul_cancel_right₀ hc t⟩
  · rintro _ ⟨r, hr, rfl⟩
    obtain ⟨z', hz', hmem⟩ := real_mem_scale hr c
    cases hz.symm.trans hz'
    exact hmem

end Interval

end IntervalDag
