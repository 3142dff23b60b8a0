import Mathlib.Analysis.Convex.Function
import IntervalDag.Proofs.Scalar.Exact
import IntervalDag.Shape

/-!
# What verdicts say

A verdict on the curvature of a function allows it to lie on one side of its chords, on either one or on both
(`Curvature.Allows`). The rules by which verdicts combine keep to that: for weighted sums (`Curvature.Allows.scale` and
`Curvature.Allows.add`) and for functions of functions (`Curvature.On.compose`).
-/

namespace IntervalDag

open Scalar Exact

/-- The number between two others that a parameter from zero to one picks. It picks the first one at one. -/
def Exact.mix (t a b : ℝ) : ℝ := t * a + (1 - t) * b

theorem Exact.mix_self (t a : ℝ) : mix t a a = a := by
  rw [mix]
  ring

theorem Exact.mix_add (t a b k l : ℝ) : mix t (a + k) (b + l) = mix t a b + mix t k l := by
  simp only [mix]
  ring

theorem Exact.mul_mix (k t a b : ℝ) : k * mix t a b = mix t (k * a) (k * b) := by
  simp only [mix]
  ring

theorem Exact.mix_mem {D : Set ℝ} (hD : Convex ℝ D) {t a b : ℝ} (ht : 0 ≤ t) (ht' : t ≤ 1) (ha : a ∈ D) (hb : b ∈ D) :
    mix t a b ∈ D :=
  hD ha hb ht (sub_nonneg.mpr ht') (add_sub_cancel t 1)

/-! ### Verdicts -/

namespace Curvature

variable {c d : Curvature} {chord chord' value value' : ℝ}

/-- What a verdict allows the value of a function between two points to be, where the chord of the function has a given
value. -/
def Allows : Curvature → ℝ → ℝ → Prop
  | .linear, chord, value => value = chord
  | .convex, chord, value => value ≤ chord
  | .concave, chord, value => chord ≤ value
  | .unknown, _, _ => True

/-- Every verdict allows the value on the chord. -/
theorem allows_self (c : Curvature) (value : ℝ) : c.Allows value value := by
  cases c with
  | linear => rfl
  | convex | concave => exact le_refl value
  | unknown => trivial

theorem Allows.trans (h : c.Allows chord value) (h' : c.Allows value value') : c.Allows chord value' := by
  cases c with
  | linear => exact Eq.trans h' h
  | convex => exact le_trans h' h
  | concave => exact le_trans h h'
  | unknown => trivial

theorem Allows.negate (h : c.Allows chord value) : c.negate.Allows (-chord) (-value) := by
  cases c with
  | linear => exact congrArg _ h
  | convex | concave => exact neg_le_neg h
  | unknown => trivial

theorem Allows.mul (h : c.Allows chord value) {k : ℝ} (hk : 0 ≤ k) : c.Allows (k * chord) (k * value) := by
  cases c with
  | linear => exact congrArg _ h
  | convex | concave => exact mul_le_mul_of_nonneg_left h hk
  | unknown => trivial

theorem Allows.scale (h : c.Allows chord value) (k : ℝ) : (c.scale (real k)).Allows (k * chord) (k * value) := by
  rw [Curvature.scale, ← real_zero]
  split_ifs with hzero hneg
  · rw [real_beq_real.mp hzero, zero_mul, zero_mul]
    exact allows_self _ _
  · have hk : 0 ≤ -k := neg_nonneg.mpr (real_lt_real.mp hneg).le
    simpa using (h.mul hk).negate
  · exact h.mul (not_lt.mp fun hk => hneg (real_lt_real.mpr hk))

/-- One verdict says at least as much as another. -/
def Refines (c d : Curvature) : Prop := c = .linear ∨ c = d ∨ d = .unknown

instance (c d : Curvature) : Decidable (c.Refines d) := inferInstanceAs (Decidable (_ ∨ _ ∨ _))

theorem Allows.of_refines (h : c.Allows chord value) (hd : c.Refines d) : d.Allows chord value := by
  rcases hd with rfl | rfl | rfl
  · obtain rfl : value = chord := h
    exact allows_self d value
  · exact h
  · trivial

/-- Two verdicts say at least as much as the verdict on the sum. -/
theorem refines_add (c d : Curvature) : c.Refines (c.add d) ∧ d.Refines (c.add d) := by
  cases c <;> cases d <;> decide

theorem Allows.add (h : c.Allows chord value) (h' : d.Allows chord' value') :
    (c.add d).Allows (chord + chord') (value + value') := by
  have hc := h.of_refines (refines_add c d).1
  have hd := h'.of_refines (refines_add c d).2
  generalize c.add d = sum at hc hd ⊢
  cases sum with
  | linear => exact congrArg₂ _ hc hd
  | convex | concave => exact add_le_add hc hd
  | unknown => trivial

end Curvature

/-! ### Functions -/

/-- A function moves over a set of real numbers as a verdict says. -/
def Monotonicity.On (D : Set ℝ) (f : ℝ → ℝ) : Monotonicity → Prop
  | .increasing => MonotoneOn f D
  | .decreasing => AntitoneOn f D
  | .constant => ∀ r ∈ D, ∀ s ∈ D, f r = f s
  | .unknown => True

/-- A function bends over a set of real numbers as a verdict says. The set has no gaps, unless the verdict says
nothing. -/
structure Curvature.On (D : Set ℝ) (f : ℝ → ℝ) (c : Curvature) : Prop where
  convex : c ≠ .unknown → Convex ℝ D
  allows : ∀ r ∈ D, ∀ s ∈ D, ∀ t, 0 ≤ t → t ≤ 1 → c.Allows (mix t (f r) (f s)) (f (mix t r s))

namespace Monotonicity

variable {D : Set ℝ} {f : ℝ → ℝ} {m : Monotonicity}

theorem On.comp_neg (h : m.On D f) : m.negate.On (-D) fun r => f (-r) := by
  cases m with
  | increasing => exact fun r hr s hs hle => h hs hr (neg_le_neg hle)
  | decreasing => exact fun r hr s hs hle => h hs hr (neg_le_neg hle)
  | constant => exact fun r hr s hs => h _ hr _ hs
  | unknown => trivial

theorem On.neg (h : m.On D f) : m.negate.On D fun r => -f r := by
  cases m with
  | increasing => exact MonotoneOn.neg h
  | decreasing => exact AntitoneOn.neg h
  | constant => exact fun r hr s hs => congrArg _ (h r hr s hs)
  | unknown => trivial

@[simp] theorem negate_negate (m : Monotonicity) : m.negate.negate = m := by
  cases m <;> rfl

/-- What a verdict on the argument of a function says of the function. -/
def carry : Monotonicity → Curvature → Curvature
  | _, .linear => .linear
  | .increasing, c => c
  | .decreasing, c => c.negate
  | .constant, _ => .linear
  | .unknown, _ => .unknown

theorem On.carry (h : m.On D f) {c : Curvature} {chord value : ℝ} (hchord : chord ∈ D) (hvalue : value ∈ D)
    (hc : c.Allows chord value) : (m.carry c).Allows (f chord) (f value) := by
  cases m with
  | increasing =>
    cases c with
    | linear => exact congrArg f hc
    | convex => exact h hvalue hchord hc
    | concave => exact h hchord hvalue hc
    | unknown => trivial
  | decreasing =>
    cases c with
    | linear => exact congrArg f hc
    | convex => exact h hvalue hchord hc
    | concave => exact h hchord hvalue hc
    | unknown => trivial
  | constant => cases c <;> exact h _ hvalue _ hchord
  | unknown =>
    cases c with
    | linear => exact congrArg f hc
    | convex | concave | unknown => trivial

end Monotonicity

namespace Curvature

variable {D : Set ℝ} {f : ℝ → ℝ} {c inner : Curvature} {m : Monotonicity}

theorem On.of_convexOn (h : ConvexOn ℝ D f) : Curvature.convex.On D f :=
  ⟨fun _ => h.1, fun _ hr _ hs t ht ht' => h.2 hr hs ht (sub_nonneg.mpr ht') (add_sub_cancel t 1)⟩

/-- A function without a verdict bends in any way. -/
theorem on_unknown (D : Set ℝ) (f : ℝ → ℝ) : Curvature.unknown.On D f :=
  ⟨fun h => absurd rfl h, fun _ _ _ _ _ _ _ => trivial⟩

theorem On.comp_neg (h : c.On D f) : c.On (-D) fun r => f (-r) := by
  refine ⟨fun hc => (h.convex hc).neg, fun r hr s hs t ht ht' => ?_⟩
  have hmix : -mix t r s = mix t (-r) (-s) := by
    simp only [mix]
    ring
  rw [hmix]
  exact h.allows _ hr _ hs t ht ht'

theorem On.neg (h : c.On D f) : c.negate.On D fun r => -f r := by
  refine ⟨fun hc => h.convex (by rintro rfl; exact hc rfl), fun r hr s hs t ht ht' => ?_⟩
  have hmix : mix t (-f r) (-f s) = -mix t (f r) (f s) := by
    simp only [mix]
    ring
  rw [hmix]
  exact (h.allows r hr s hs t ht ht').negate

/-- Where the verdict on a composition says something, the outer function has a verdict that says as much, and so does
what the outer function makes of the inner one. -/
theorem refines_compose (outer : Curvature) (m : Monotonicity) (inner : Curvature) (hm : m ≠ .constant) :
    compose outer m inner = .unknown ∨ outer ≠ .unknown ∧ outer.Refines (compose outer m inner) ∧
      (m.carry inner).Refines (compose outer m inner) := by
  revert hm
  cases outer <;> cases m <;> cases inner <;> decide

/-- **Composition.** The value of the inner function may be off the chord, and that of the outer function follows. -/
theorem On.compose (hc : c.On D f) (hm : m.On D f) {r s value : ℝ} (hr : r ∈ D) (hs : s ∈ D) (hvalue : value ∈ D)
    {t : ℝ} (ht : 0 ≤ t) (ht' : t ≤ 1) (hinner : inner.Allows (mix t r s) value) :
    (compose c m inner).Allows (mix t (f r) (f s)) (f value) := by
  by_cases hconstant : m = .constant
  · subst hconstant
    rw [hm r hr value hvalue, hm s hs value hvalue, mix_self]
    exact allows_self _ _
  rcases refines_compose c m inner hconstant with hunknown | ⟨hknown, houter, hcarry⟩
  · rw [hunknown]
    trivial
  · have hchord : mix t r s ∈ D := mix_mem (hc.convex hknown) ht ht' hr hs
    exact ((hc.allows r hr s hs t ht ht').of_refines houter).trans
      ((hm.carry hchord hvalue hinner).of_refines hcarry)

end Curvature

end IntervalDag
