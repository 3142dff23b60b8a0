import Mathlib.Data.Int.Log
import IntervalDag.Proofs.Scalar.Values
import IntervalDag.Proofs.Text.Numerals

/-!
# Digits that read back

A numeral is read as the value of the format that is nearest to it (`Binary64.nearest`). The digits that a value is
written with are read as this value again (`Binary.nearest_shortest`).

What is read as a value lies within half of its last bit's weight, or a quarter below a power of two
(`Binary.Covers`). A grid of seventeen digits is fine enough to have a point there.
-/

namespace IntervalDag

/-! ### Rounding to the nearest -/

namespace Decimal

/-- A quotient within a half of a natural number is rounded to it. -/
theorem roundDivEven_eq {num den k : ℕ} (hden : 0 < den) (hlow : 2 * k * den ≤ 2 * num + den)
    (hhigh : 2 * num ≤ (2 * k + 1) * den)
    (hodd : k % 2 = 1 → 2 * k * den < 2 * num + den ∧ 2 * num < (2 * k + 1) * den) : roundDivEven num den = k := by
  have hdiv : den * (num / den) + num % den = num := Nat.div_add_mod num den
  have hmod : num % den < den := Nat.mod_lt num hden
  generalize hquot : num / den = quot at hdiv
  generalize hrest : num % den = rest at hdiv hmod
  have hk : k = quot ∨ k = quot + 1 := by
    have h₁ : k < quot + 2 := by
      refine Nat.lt_of_mul_lt_mul_right (a := den) ?_
      linarith
    have h₂ : quot < k + 1 := by
      refine Nat.lt_of_mul_lt_mul_right (a := den) ?_
      linarith
    omega
  rw [roundDivEven, hquot, hrest]
  rcases hk with rfl | rfl
  · have hle : 2 * rest ≤ den := by linarith
    have hlt : k % 2 = 1 → 2 * rest < den := fun h => by linarith [(hodd h).2]
    split_ifs <;> omega
  · have hle : den ≤ 2 * rest := by linarith
    have hlt : (quot + 1) % 2 = 1 → den < 2 * rest := fun h => by linarith [(hodd h).1]
    split_ifs <;> omega

/-- The natural number that is nearest to a rational one that is not negative, an exact half going to the even
neighbour. -/
def roundEven (q : ℚ) : ℕ := roundDivEven q.num.toNat q.den

theorem roundEven_eq {q : ℚ} {k : ℕ} (hq : 0 ≤ q) (hlow : k - 1 / 2 ≤ q) (hhigh : q ≤ k + 1 / 2)
    (hodd : k % 2 = 1 → k - 1 / 2 < q ∧ q < k + 1 / 2) : roundEven q = k := by
  have hden : (0 : ℚ) < q.den := by exact_mod_cast q.den_pos
  have hnum : (q.num.toNat : ℚ) = q * q.den := by
    have hcast : ((q.num.toNat : ℤ) : ℚ) = q.num := congrArg _ (Int.toNat_of_nonneg (Rat.num_nonneg.mpr hq))
    rw [Rat.mul_den_eq_num, ← hcast, Int.cast_natCast]
  refine roundDivEven_eq q.den_pos ?_ ?_ fun h => ⟨?_, ?_⟩
  · have := mul_le_mul_of_nonneg_right hlow hden.le
    exact_mod_cast (by push_cast; linarith : ((2 * k * q.den : ℕ) : ℚ) ≤ (2 * q.num.toNat + q.den : ℕ))
  · have := mul_le_mul_of_nonneg_right hhigh hden.le
    exact_mod_cast (by push_cast; linarith : ((2 * q.num.toNat : ℕ) : ℚ) ≤ ((2 * k + 1) * q.den : ℕ))
  · have := mul_lt_mul_of_pos_right (hodd h).1 hden
    exact_mod_cast (by push_cast; linarith : ((2 * k * q.den : ℕ) : ℚ) < (2 * q.num.toNat + q.den : ℕ))
  · have := mul_lt_mul_of_pos_right (hodd h).2 hden
    exact_mod_cast (by push_cast; linarith : ((2 * q.num.toNat : ℕ) : ℚ) < ((2 * k + 1) * q.den : ℕ))

end Decimal

namespace Binary64

/-- The exponent of the last bit that the format keeps of a rational number. -/
def lastBit (q : ℚ) : ℤ := max (Int.log 2 q - 52) (-1074)

/-- The value of the format that is nearest to a rational number that is not negative, an exact half going to the even
neighbour. There is no greatest value here. -/
def nearest (q : ℚ) : ℚ := Decimal.roundEven (q / 2 ^ lastBit q) * 2 ^ lastBit q

variable {r : ℚ} {e : ℤ} {k : ℕ}

theorem lastBit_eq (hr : 0 < r) (he : -1074 ≤ e) (hlow : e = -1074 ∨ 2 ^ 52 ≤ r) (hhigh : r < 2 ^ 53) :
    lastBit (r * 2 ^ e) = e := by
  have hpos : (0 : ℚ) < 2 ^ e := zpow_pos (by norm_num) e
  have hlt : Int.log 2 (r * 2 ^ e) < 53 + e := by
    refine (Int.lt_zpow_iff_log_lt (by decide) (mul_pos hr hpos)).mp ?_
    rw [Nat.cast_two, zpow_add₀ two_ne_zero]
    exact mul_lt_mul_of_pos_right (by exact_mod_cast hhigh) hpos
  have hle : 2 ^ 52 ≤ r → 52 + e ≤ Int.log 2 (r * 2 ^ e) := fun hlow => by
    refine (Int.zpow_le_iff_le_log (by decide) (mul_pos hr hpos)).mp ?_
    rw [Nat.cast_two, zpow_add₀ two_ne_zero]
    exact mul_le_mul_of_nonneg_right (by exact_mod_cast hlow) hpos.le
  rw [lastBit]
  rcases hlow with rfl | hlow
  · omega
  · have := hle hlow
    omega

theorem nearest_eq (hr : 0 < r) (he : -1074 ≤ e) (hnormal : e = -1074 ∨ 2 ^ 52 ≤ r) (hlt : r < 2 ^ 53)
    (hlow : k - 1 / 2 ≤ r) (hhigh : r ≤ k + 1 / 2) (hodd : k % 2 = 1 → k - 1 / 2 < r ∧ r < k + 1 / 2) :
    nearest (r * 2 ^ e) = k * 2 ^ e := by
  rw [nearest, lastBit_eq hr he hnormal hlt, mul_div_cancel_right₀ r (zpow_ne_zero e two_ne_zero),
    Decimal.roundEven_eq hr.le hlow hhigh hodd]

end Binary64

/-! ### What rounds to a value -/

namespace Binary

open Decimal

/-- The value. -/
def value (b : Binary) : ℚ := b.mantissa * 2 ^ b.exponent

/-- How far it is halfway to the next value below, in weights of the last bit. -/
def margin (b : Binary) : ℚ := if b.closeBelow then 1 / 4 else 1 / 2

/-- A number, in weights of the last bit, lies among those that round to a value. -/
structure Covers (b : Binary) (r : ℚ) : Prop where
  ge : b.mantissa - b.margin ≤ r
  le : r ≤ b.mantissa + 1 / 2
  strict : b.mantissa % 2 = 1 → b.mantissa - b.margin < r ∧ r < b.mantissa + 1 / 2

/-- A value is kept as the format does, and knows how far the next one below is. -/
structure Canonical (b : Binary) : Prop extends Binary64.Canonical b.mantissa b.exponent where
  closeBelow_iff : b.closeBelow = true ↔ b.mantissa = 2 ^ 52 ∧ -1074 < b.exponent

variable {b : Binary}

theorem margin_le (b : Binary) : b.margin ≤ 1 / 2 := by
  rw [margin]
  split_ifs <;> norm_num

/-- **What rounds to a value** is read as it. -/
theorem Covers.nearest_eq {r : ℚ} (hb : b.Canonical) (hpos : 0 < b.mantissa) (h : b.Covers r) :
    Binary64.nearest (r * 2 ^ b.exponent) = b.value := by
  have hge := h.ge
  have hle := h.le
  have hmargin := b.margin_le
  have hone : (1 : ℚ) ≤ b.mantissa := by exact_mod_cast hpos
  have hmax : (b.mantissa : ℚ) + 1 ≤ 2 ^ 53 := by exact_mod_cast hb.lt
  have hr : 0 < r := by linarith
  have hlt : r < 2 ^ 53 := by linarith
  by_cases hnormal : b.exponent = -1074 ∨ 2 ^ 52 ≤ r
  · refine Binary64.nearest_eq hr hb.ge hnormal hlt ?_ hle fun hodd => ⟨?_, (h.strict hodd).2⟩
    · linarith
    · linarith [(h.strict hodd).1]
  · -- below a power of two, bits have half the weight
    rw [not_or, not_le] at hnormal
    have hexponent : -1074 < b.exponent := lt_of_le_of_ne hb.ge (Ne.symm hnormal.1)
    have hmantissa : b.mantissa = 2 ^ 52 := by
      refine Nat.le_antisymm (Nat.le_of_lt_succ ?_) (hb.normal.resolve_left hnormal.1)
      exact_mod_cast (by push_cast; linarith : (b.mantissa : ℚ) < (2 ^ 52 + 1 : ℕ))
    have hclose : b.margin = 1 / 4 := if_pos (hb.closeBelow_iff.mpr ⟨hmantissa, hexponent⟩)
    rw [hmantissa, hclose] at hge
    push_cast at hge
    have hhalf : ∀ s : ℚ, s * 2 ^ b.exponent = 2 * s * 2 ^ (b.exponent - 1) := fun s => by
      rw [zpow_sub₀ two_ne_zero, zpow_one]
      ring
    have hvalue : b.value = (2 ^ 53 : ℕ) * 2 ^ (b.exponent - 1) := by
      rw [value, hhalf, hmantissa]
      push_cast
      ring
    rw [hhalf, hvalue]
    refine Binary64.nearest_eq (by linarith) (by omega) (Or.inr (by linarith)) (by linarith) ?_ ?_
      fun hodd => absurd hodd (by decide)
    all_goals
      push_cast
      linarith

/-! ### Counting in quarters -/

theorem quarterUnit_spec (b : Binary) : 0 < b.quarterUnit.2 ∧
    4 * (b.quarterUnit.1 : ℚ) = 2 ^ b.exponent * b.quarterUnit.2 := by
  have hsplit : (2 : ℚ) ^ b.exponent = 4 * 2 ^ (b.exponent - 2) := by
    rw [zpow_sub₀ two_ne_zero]
    norm_num
    ring
  rw [hsplit, quarterUnit]
  split_ifs with h
  · have hpow : (2 : ℚ) ^ (b.exponent - 2) = 2 ^ (b.exponent - 2).toNat := by
      rw [← zpow_natCast, Int.toNat_of_nonneg h]
    exact ⟨Nat.one_pos, by rw [hpow, Nat.one_shiftLeft]; push_cast; ring⟩
  · have hpow : (2 : ℚ) ^ (b.exponent - 2) = (2 ^ (-(b.exponent - 2)).toNat)⁻¹ := by
      rw [← zpow_natCast, Int.toNat_of_nonneg (by omega), zpow_neg, inv_inv]
    refine ⟨by rw [Nat.one_shiftLeft]; exact Nat.two_pow_pos _, ?_⟩
    rw [hpow, Nat.one_shiftLeft]
    push_cast
    rw [mul_assoc, inv_mul_cancel₀ (by positivity)]

/-- The comparison that tells what rounds to a value, in any unit. -/
theorem covers_iff {low value high : ℕ} {r : ℚ} (unit : ℚ) (hunit : 0 < unit)
    (hlow : (low : ℚ) = (b.mantissa - b.margin) * unit) (hvalue : (value : ℚ) = r * unit)
    (hhigh : (high : ℚ) = (b.mantissa + 1 / 2) * unit) :
    (if b.mantissa % 2 = 0 then decide (low ≤ value) && decide (value ≤ high)
      else decide (low < value) && decide (value < high)) = true ↔ b.Covers r := by
  have hle₁ : low ≤ value ↔ b.mantissa - b.margin ≤ r := by
    rw [← Nat.cast_le (α := ℚ), hlow, hvalue, mul_le_mul_iff_of_pos_right hunit]
  have hle₂ : value ≤ high ↔ r ≤ b.mantissa + 1 / 2 := by
    rw [← Nat.cast_le (α := ℚ), hhigh, hvalue, mul_le_mul_iff_of_pos_right hunit]
  have hlt₁ : low < value ↔ b.mantissa - b.margin < r := by
    rw [← Nat.cast_lt (α := ℚ), hlow, hvalue, mul_lt_mul_iff_of_pos_right hunit]
  have hlt₂ : value < high ↔ r < b.mantissa + 1 / 2 := by
    rw [← Nat.cast_lt (α := ℚ), hhigh, hvalue, mul_lt_mul_iff_of_pos_right hunit]
  split_ifs with heven
  · rw [Bool.and_eq_true_iff, decide_eq_true_iff, decide_eq_true_iff, hle₁, hle₂]
    exact ⟨fun h => ⟨h.1, h.2, fun hodd => absurd hodd (by omega)⟩, fun h => ⟨h.ge, h.le⟩⟩
  · rw [Bool.and_eq_true_iff, decide_eq_true_iff, decide_eq_true_iff, hlt₁, hlt₂]
    exact ⟨fun h => ⟨h.1.le, h.2.le, fun _ => h⟩, fun h => h.strict (by omega)⟩

theorem cast_low (hpos : 0 < b.mantissa) :
    ((if b.closeBelow then 4 * b.mantissa - 1 else 4 * b.mantissa - 2 : ℕ) : ℚ) = 4 * (b.mantissa - b.margin) := by
  rw [margin]
  split_ifs
  all_goals
    rw [Nat.cast_sub (by omega)]
    push_cast
    ring

/-- **Reading back** is being covered. -/
theorem readsBack_iff (hpos : 0 < b.mantissa) (c : ℕ) (k : ℤ) :
    b.readsBack c k = true ↔ b.Covers (c * 10 ^ k / 2 ^ b.exponent) := by
  have hlow := cast_low hpos
  have hunit := b.quarterUnit_spec
  rw [readsBack]
  generalize b.quarterUnit = unit at hunit ⊢
  obtain ⟨num, den⟩ := unit
  obtain ⟨hden, hnum⟩ : 0 < den ∧ 4 * (num : ℚ) = 2 ^ b.exponent * den := hunit
  by_cases hk : 0 ≤ k
  · simp only [if_pos hk]
    refine covers_iff (2 ^ b.exponent * den) (by positivity) ?_ ?_ ?_
    · rw [Nat.mul_one, Nat.cast_mul, hlow]
      linear_combination (b.mantissa - b.margin) * hnum
    · push_cast
      rw [cast_tenPow hk]
      field_simp
    · push_cast
      linear_combination (b.mantissa + 1 / 2) * hnum
  · have hten : (0 : ℚ) < (10 ^ k)⁻¹ := by positivity
    simp only [if_neg hk]
    refine covers_iff (2 ^ b.exponent * den * (10 ^ k)⁻¹) (by positivity) ?_ ?_ ?_
    · rw [Nat.cast_mul, Nat.cast_mul, hlow, cast_tenPow_neg hk]
      linear_combination (b.mantissa - b.margin) * (10 ^ k)⁻¹ * hnum
    · push_cast
      field_simp
    · rw [Nat.cast_mul, cast_tenPow_neg hk]
      push_cast
      linear_combination (b.mantissa + 1 / 2) * (10 ^ k)⁻¹ * hnum

/-- What is found on a grid reads back. -/
theorem exists_of_onGrid? {k : ℤ} {d : Digits} (h : b.onGrid? k = some d) :
    ∃ c : ℕ, b.readsBack c k = true ∧ d.value = c * 10 ^ k := by
  rw [onGrid?] at h
  generalize b.neighbour k = neighbour at h
  obtain ⟨c, nearer⟩ := neighbour
  dsimp only at h
  split_ifs at h with hboth hnearer hlower hupper
  · exact ⟨c, (Bool.and_eq_true_iff.mp hboth).1, Option.some.inj h ▸ value_trimZeros c k⟩
  · exact ⟨c + 1, (Bool.and_eq_true_iff.mp hboth).2, Option.some.inj h ▸ value_trimZeros (c + 1) k⟩
  · exact ⟨c, hlower, Option.some.inj h ▸ value_trimZeros c k⟩
  · exact ⟨c + 1, hupper, Option.some.inj h ▸ value_trimZeros (c + 1) k⟩

/-- If one of the neighbours reads back, something is found. -/
theorem exists_onGrid? {k : ℤ} (h : b.readsBack (b.neighbour k).1 k = true ∨
    b.readsBack ((b.neighbour k).1 + 1) k = true) : ∃ d, b.onGrid? k = some d := by
  rw [onGrid?]
  generalize b.neighbour k = neighbour at h ⊢
  obtain ⟨c, nearer⟩ := neighbour
  dsimp only at h ⊢
  split_ifs with hboth hnearer hlower hupper
  all_goals first | exact ⟨_, rfl⟩ | exact absurd h (not_or.mpr ⟨hlower, hupper⟩)

/-! ### Seventeen digits suffice -/

/-- The neighbours on a grid are below and above. -/
theorem neighbour_spec (b : Binary) (k : ℤ) :
    (b.neighbour k).1 * 10 ^ k ≤ b.value ∧ b.value < ((b.neighbour k).1 + 1) * 10 ^ k := by
  have hunit := b.quarterUnit_spec
  have hten : (0 : ℚ) < 10 ^ k := by positivity
  rw [neighbour, value]
  generalize b.quarterUnit = unit at hunit ⊢
  obtain ⟨num, den⟩ := unit
  obtain ⟨hden, hnum⟩ : 0 < den ∧ 4 * (num : ℚ) = 2 ^ b.exponent * den := hunit
  have hfloor : ∀ top bottom : ℕ, 0 < bottom → (top : ℚ) = b.mantissa * 2 ^ b.exponent / 10 ^ k * bottom →
      ((top / bottom : ℕ) : ℚ) * 10 ^ k ≤ b.mantissa * 2 ^ b.exponent ∧
        b.mantissa * 2 ^ b.exponent < ((top / bottom : ℕ) + 1) * (10 : ℚ) ^ k := by
    intro top bottom hbottom htop
    have hpos : (0 : ℚ) < bottom := Nat.cast_pos.mpr hbottom
    have hle : ((top / bottom : ℕ) : ℚ) * bottom ≤ top := by exact_mod_cast Nat.div_mul_le_self top bottom
    have hlt : (top : ℚ) < ((top / bottom : ℕ) + 1) * bottom := by
      exact_mod_cast Nat.lt_mul_of_div_lt (Nat.lt_succ_self _) hbottom
    rw [htop, mul_le_mul_iff_of_pos_right hpos] at hle
    rw [htop, mul_lt_mul_iff_of_pos_right hpos] at hlt
    exact ⟨(le_div_iff₀ hten).mp hle, (div_lt_iff₀ hten).mp hlt⟩
  by_cases hk : 0 ≤ k
  · simp only [if_pos hk]
    refine hfloor _ _ (Nat.mul_pos hden (Nat.pow_pos (by decide))) ?_
    push_cast
    rw [cast_tenPow hk]
    field_simp
    linear_combination b.mantissa * hnum
  · simp only [if_neg hk]
    refine hfloor _ _ hden ?_
    push_cast
    rw [cast_tenPow_neg hk]
    field_simp
    linear_combination b.mantissa * hnum

end Binary

namespace Decimal

theorem pow_pred_digitCount_le {n : ℕ} (hn : 0 < n) : 10 ^ (digitCount n - 1) ≤ n := by
  by_contra hlt
  rw [not_le] at hlt
  rcases Nat.eq_zero_or_pos (digitCount n - 1) with h | h
  · rw [h, Nat.pow_zero] at hlt
    omega
  · have hle : digitCount n ≤ digitCount n - 1 := (Nat.length_toDigits_le_iff (by decide) h).mpr hlt
    omega

theorem digitCount_pos (n : ℕ) : 0 < digitCount n := List.length_pos_iff.mpr Nat.toDigits_ne_nil

theorem lt_pow_digitCount (n : ℕ) : n < 10 ^ digitCount n :=
  (Nat.length_toDigits_le_iff (by decide) (digitCount_pos n)).mp (Nat.le_refl _)

/-- The leading digit of a quotient is found not too high. -/
theorem pow_log10_le {num : ℕ} (hnum : 0 < num) (den : ℕ) : (10 : ℚ) ^ log10 num den * den ≤ num := by
  rw [log10]
  generalize he : (digitCount num : ℤ) - digitCount den = e
  have hbelow : (10 : ℚ) ^ (e - 1) * den ≤ num := calc
    (10 : ℚ) ^ (e - 1) * den ≤ 10 ^ (e - 1) * 10 ^ digitCount den := by
      gcongr
      exact_mod_cast (lt_pow_digitCount den).le
    _ = 10 ^ (digitCount num - 1) := by
      have := digitCount_pos num
      rw [← zpow_natCast, ← zpow_natCast, ← zpow_add₀ (by norm_num)]
      congr 1
      omega
    _ ≤ num := by exact_mod_cast pow_pred_digitCount_le hnum
  split_ifs with hsign hreached hreached
  · rw [← cast_tenPow hsign, mul_comm]
    exact_mod_cast of_decide_eq_true hreached
  · exact hbelow
  · rw [← inv_inv (10 ^ e), ← cast_tenPow_neg hsign, inv_mul_le_iff₀ (by exact_mod_cast Nat.pow_pos (by decide)),
      mul_comm]
    exact_mod_cast of_decide_eq_true hreached
  · exact hbelow

end Decimal

namespace Binary

open Decimal

variable {b : Binary}

theorem Covers.of_lt {r : ℚ} (hlow : b.mantissa - b.margin < r) (hhigh : r < b.mantissa + 1 / 2) : b.Covers r :=
  ⟨hlow.le, hhigh.le, fun _ => ⟨hlow, hhigh⟩⟩

/-- **A fine grid** has a neighbour that reads back. -/
theorem readsBack_or (hb : b.Canonical) (hpos : 0 < b.mantissa) {k : ℤ} (hfine : 10 ^ 16 * 10 ^ k ≤ b.value) :
    b.readsBack (b.neighbour k).1 k = true ∨ b.readsBack ((b.neighbour k).1 + 1) k = true := by
  obtain ⟨hle, hlt⟩ := b.neighbour_spec k
  rw [readsBack_iff hpos, readsBack_iff hpos]
  generalize (b.neighbour k).1 = c at hle hlt
  have htwo : (0 : ℚ) < 2 ^ b.exponent := zpow_pos two_pos _
  -- the grid, in weights of the last bit
  obtain ⟨t, ht⟩ : ∃ t : ℚ, (10 : ℚ) ^ k = t * 2 ^ b.exponent :=
    ⟨10 ^ k / 2 ^ b.exponent, (div_mul_cancel₀ _ htwo.ne').symm⟩
  rw [value, ht, ← mul_assoc, mul_le_mul_iff_of_pos_right htwo] at hfine hle
  rw [value, ht, ← mul_assoc, mul_lt_mul_iff_of_pos_right htwo] at hlt
  rw [ht, ← mul_assoc, ← mul_assoc, mul_div_cancel_right₀ _ htwo.ne', mul_div_cancel_right₀ _ htwo.ne']
  have hwidth : 0 < b.margin ∧ t < b.margin + 1 / 2 := by
    rw [margin]
    split_ifs with hclose
    · rw [(hb.closeBelow_iff.mp hclose).1] at hfine
      push_cast at hfine
      exact ⟨by norm_num, by linarith⟩
    · have hmax : (b.mantissa : ℚ) < 2 ^ 53 := by exact_mod_cast hb.lt
      exact ⟨by norm_num, by linarith⟩
  by_cases hnear : b.mantissa - b.margin < c * t
  · exact Or.inl (.of_lt hnear (by linarith))
  · rw [Nat.cast_succ]
    exact Or.inr (.of_lt (by linarith) (by linarith))

/-- The fewest digits read back. -/
theorem exists_shortest (hb : b.Canonical) (hpos : 0 < b.mantissa) :
    ∃ (c : ℕ) (k : ℤ), b.readsBack c k = true ∧ b.shortest.value = c * 10 ^ k := by
  have hunit := b.quarterUnit_spec
  rw [shortest]
  generalize hu : b.quarterUnit = unit at hunit ⊢
  obtain ⟨num, den⟩ := unit
  obtain ⟨hden, hnum⟩ : 0 < den ∧ 4 * (num : ℚ) = 2 ^ b.exponent * den := hunit
  have hnumpos : 0 < num := by
    have : (0 : ℚ) < 4 * num := by
      rw [hnum]
      positivity
    exact_mod_cast (by linarith : (0 : ℚ) < num)
  dsimp only
  generalize he : log10 (4 * b.mantissa * num) den = e
  have hfine : 10 ^ 16 * (10 : ℚ) ^ (e - (16 : ℕ)) ≤ b.value := by
    have hlog := pow_log10_le (Nat.mul_pos (Nat.mul_pos (by decide : 0 < 4) hpos) hnumpos) den
    have hdenpos : (0 : ℚ) < den := Nat.cast_pos.mpr hden
    rw [he] at hlog
    push_cast at hlog
    have hvalue : 4 * b.mantissa * num = b.value * den := by
      rw [value]
      linear_combination b.mantissa * hnum
    rw [hvalue, mul_le_mul_iff_of_pos_right hdenpos] at hlog
    rw [← zpow_natCast, ← zpow_add₀ (by norm_num)]
    simpa using hlog
  obtain ⟨d, hd⟩ := exists_onGrid? (readsBack_or hb hpos hfine)
  have hfound : ((List.range 17).findSome? fun n : ℕ => b.onGrid? (e - n)).isSome = true := by
    rw [List.isSome_findSome?, List.any_eq_true]
    exact ⟨16, by decide, by rw [hd]; rfl⟩
  obtain ⟨d', hd'⟩ := Option.isSome_iff_exists.mp hfound
  rw [hd', Option.getD_some]
  obtain ⟨n, -, hn⟩ := List.exists_of_findSome?_eq_some hd'
  obtain ⟨c, hc, hvalue⟩ := exists_of_onGrid? hn
  exact ⟨c, _, hc, hvalue⟩

/-- **The fewest digits** are read as the value that they were written for. -/
theorem nearest_shortest (hb : b.Canonical) (hpos : 0 < b.mantissa) :
    Binary64.nearest b.shortest.value = b.value := by
  obtain ⟨c, k, hread, hvalue⟩ := exists_shortest hb hpos
  have hcovers := ((readsBack_iff hpos c k).mp hread).nearest_eq hb hpos
  rwa [div_mul_cancel₀ _ (zpow_ne_zero _ two_ne_zero), ← hvalue] at hcovers

/-- The number that a magnitude is written as. -/
def decimal (b : Binary) : ℚ := if b.mantissa = 0 then 0 else b.shortest.value

/-- What a magnitude is written as is read as its value. -/
theorem nearest_decimal (hb : b.Canonical) : Binary64.nearest b.decimal = b.value := by
  rw [decimal]
  split_ifs with h
  · rw [value, h]
    simp [Binary64.nearest, roundEven, roundDivEven]
  · exact nearest_shortest hb (Nat.pos_of_ne_zero h)

/-- Values are kept as the format does. -/
theorem canonical_ofMagnitudeBits (bits : ℕ) : (ofMagnitudeBits bits).Canonical := by
  have hlt : bits % (1 <<< 52) < 2 ^ 52 := Nat.mod_lt _ (by decide)
  rw [ofMagnitudeBits]
  generalize bits % (1 <<< 52) = fraction at hlt
  generalize bits >>> 52 = field
  split_ifs with h
  · have hlt' : fraction < 2 ^ 53 := by omega
    exact ⟨⟨hlt', le_rfl, Or.inl rfl⟩, ⟨fun hclose => absurd hclose Bool.false_ne_true, fun hclose => hclose.2.false.elim⟩⟩
  · have hlt' : fraction + 1 <<< 52 < 2 ^ 53 := by
      rw [Nat.one_shiftLeft]
      omega
    have hge : 2 ^ 52 ≤ fraction + 1 <<< 52 := by
      rw [Nat.one_shiftLeft]
      omega
    have hclose : (decide (fraction = 0) && decide (1 < field)) = true ↔
        fraction + 1 <<< 52 = 2 ^ 52 ∧ -1074 < (field : ℤ) - 1075 := by
      rw [Bool.and_eq_true_iff, decide_eq_true_iff, decide_eq_true_iff, Nat.one_shiftLeft]
      omega
    exact ⟨⟨hlt', by dsimp only; omega, Or.inr hge⟩, hclose⟩

end Binary

/-! ### Plain text -/

namespace Formula

open Binary64 NumberText Float.Model.UnpackedFloat

theorem reads_plainMagnitude (b : Binary) : Reads 4 4 (plainMagnitude b) (.number b.decimal) := by
  rw [plainMagnitude, Binary.decimal]
  split_ifs with h
  · exact_mod_cast reads_padded 0 1
  · exact reads_positional _

/-- The term that a number is written as. -/
def numeral (v : Float) : Term :=
  match sign v with
  | .positive => .number (magnitude v).decimal
  | .negative => .negate (.number (magnitude v).decimal)

variable {v : Float}

/-- Finite numbers are written as magnitudes behind their signs. -/
theorem plain_eq (hv : Scalar.isFinite v = true) : plain v =
    match sign v with
    | .positive => plainMagnitude (magnitude v)
    | .negative => "-" ++ plainMagnitude (magnitude v) := by
  have hunpack := unpack_eq hv
  generalize (magnitude v).mantissa = m at hunpack
  generalize (magnitude v).exponent = e at hunpack
  have hnumber : v.isNaN = false ∧ v.isInf = false := by
    change v.toModel.unpack.isNaN = false ∧ v.toModel.unpack.isInf = false
    rw [hunpack, ofRounded]
    split_ifs <;> exact ⟨rfl, rfl⟩
  have hsign : v.toBits.toNat >>> 63 = 1 ↔ Scalar.isNegative v = true := by
    have hlt : v.toBits.toNat < 2 ^ 64 := v.toBits.toNat_lt
    rw [isNegative_iff, Nat.shiftRight_eq_div_pow]
    omega
  change textWith plainMagnitude v = _
  rw [textWith, hnumber.1, hnumber.2, sign]
  simp only [hsign]
  by_cases hnegative : Scalar.isNegative v = true
  · simp only [hnegative, Bool.false_eq_true, if_true, if_false]
    rfl
  · simp only [hnegative, Bool.false_eq_true, if_false, String.empty_append]
    rfl

/-- **Numbers** are read as terms that stand together, unless they have a minus sign. -/
theorem reads_plain (hv : Scalar.isFinite v = true) : Reads 4 2 (plain v) (numeral v) := by
  rw [plain_eq hv, numeral]
  cases sign v with
  | positive => exact (reads_plainMagnitude _).mono le_rfl (by decide)
  | negative => exact ((reads_plainMagnitude _).mono le_rfl (by decide)).negate

theorem reads_plain_of_positive (hv : Scalar.isFinite v = true) (hsign : sign v = .positive) :
    Reads 4 4 (plain v) (numeral v) := by
  rw [plain_eq hv, numeral, hsign]
  exact reads_plainMagnitude _

/-- A number stands for what it is read as. -/
theorem value_eq (hv : Scalar.isFinite v = true) : value v =
    match sign v with
    | .positive => nearest (magnitude v).decimal
    | .negative => -nearest (magnitude v).decimal := by
  have hread : nearest (magnitude v).decimal = (magnitude v).value :=
    Binary.nearest_decimal (Binary.canonical_ofMagnitudeBits _)
  rw [value, unpack_eq hv, amount_ofRounded, hread, Binary.value]
  cases sign v with
  | positive => simp [Sign.apply]
  | negative => simp [Sign.apply]

end Formula

end IntervalDag
