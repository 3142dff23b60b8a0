import Mathlib
import IntervalDag.Proofs.Scalar.Thresholds

/-!
# Rounding keeps to the right side

A threshold moves an end outward: `a + eps * max 1 |a|` is not below `a`, and `a - eps * max 1 |a|` not above it.
Over binary floating point this holds because sums are rounded to nearest, and the nearest representable value is
never on the other side of a representable one.

`Binary64.round_eq` says what rounding comes to, as an inequality between the exact value and the rounded mantissa
at the exponent in question. The comparisons with a representable value follow from it (`Binary64.round_ge`,
`Binary64.round_le`).
-/

namespace IntervalDag

namespace Binary64

open Float.Model UnpackedFloat

/-! ### Shifting and rounding mantissas -/

theorem repeat_shiftRightOne_mantissa (em : ExtendedMantissa) (n : ℕ) :
    (n.repeat ExtendedMantissa.shiftRightOne em).mantissa = em.mantissa / 2 ^ n := by
  induction n with
  | zero => simp [Nat.repeat]
  | succ n ih =>
    rw [Nat.repeat, ExtendedMantissa.shiftRightOne, ih, Nat.div_div_eq_div_mul, Nat.pow_succ]

/-- No bit gets lost where the mantissa is divisible. -/
theorem repeat_shiftRightOne_of_dvd {m n k : ℕ} (h : m = 2 ^ n * k) :
    n.repeat ExtendedMantissa.shiftRightOne ⟨m, false, false⟩ = ⟨k, false, false⟩ := by
  induction n generalizing k with
  | zero =>
    rw [Nat.pow_zero, Nat.one_mul] at h
    rw [h]
    rfl
  | succ n ih =>
    rw [Nat.repeat, ih (k := 2 * k) (by rw [h, Nat.pow_succ, Nat.mul_assoc]), ExtendedMantissa.shiftRightOne]
    simp

theorem roundedMantissa_cases (em : ExtendedMantissa) :
    em.roundedMantissa = em.mantissa ∨ em.roundedMantissa = em.mantissa + 1 := by
  rcases em with ⟨m, _ | _, _ | _⟩
  · exact Or.inl rfl
  · exact Or.inl rfl
  · change m + m % 2 = m ∨ m + m % 2 = m + 1
    omega
  · exact Or.inr rfl

/-- A mantissa is rounded down or up by less than one. -/
theorem roundedMantissa_bounds (m n : ℕ) :
    let r := (n.repeat ExtendedMantissa.shiftRightOne ⟨m, false, false⟩).roundedMantissa
    m < (r + 1) * 2 ^ n ∧ r * 2 ^ n < m + 2 ^ n := by
  intro r
  have hpos : 0 < 2 ^ n := Nat.two_pow_pos n
  have hdiv : 2 ^ n * (m / 2 ^ n) + m % 2 ^ n = m := Nat.div_add_mod ..
  have hmod : m % 2 ^ n < 2 ^ n := Nat.mod_lt _ hpos
  by_cases hexact : m % 2 ^ n = 0
  · rw [hexact, Nat.add_zero] at hdiv
    have hr : r = m / 2 ^ n := congrArg ExtendedMantissa.roundedMantissa (repeat_shiftRightOne_of_dvd hdiv.symm)
    rw [hr]
    constructor <;> nlinarith
  · have hr := roundedMantissa_cases (n.repeat ExtendedMantissa.shiftRightOne ⟨m, false, false⟩)
    rw [repeat_shiftRightOne_mantissa] at hr
    rcases hr with hr | hr <;> simp only [r, hr] <;> constructor <;> nlinarith [Nat.pos_of_ne_zero hexact]

/-! ### Rounding to the format -/

/-- The exponent to which a value is rounded. -/
def target (m : ℕ) (e : ℤ) : ℤ := max (m.log2 + 1 + e - 53) (-1074)

theorem log2_mul_two_pow {m : ℕ} (hm : 0 < m) (a : ℕ) : (m * 2 ^ a).log2 = m.log2 + a := by
  have hne : m * 2 ^ a ≠ 0 := Nat.mul_ne_zero hm.ne' (Nat.two_pow_pos a).ne'
  rw [Nat.log2_eq_iff hne, show m.log2 + a + 1 = m.log2 + 1 + a by omega, Nat.pow_add, Nat.pow_add]
  exact ⟨Nat.mul_le_mul_right _ (Nat.log2_self_le hm.ne'),
    Nat.mul_lt_mul_of_pos_right Nat.lt_log2_self (Nat.two_pow_pos a)⟩

/-- Shifting to the target exponent drops bits only where the exponent is below it. -/
theorem shiftToTargetExponent_eq (m : ℕ) (e : ℤ) :
    shiftToTargetExponent Format.binary64 m e .exact =
      ((target m e - e).toNat.repeat ExtendedMantissa.shiftRightOne ⟨m, false, false⟩,
        e + (target m e - e).toNat) := rfl

/-- A mantissa that is short enough stays where it is, and one that is a bit too long loses its last one. -/
theorem shiftToTargetExponent_of_le {r : ℕ} {e : ℤ} (hr : r ≤ 2 ^ 53) (he : -1074 ≤ e) :
    ((shiftToTargetExponent Format.binary64 r e .exact).1.mantissa,
      (shiftToTargetExponent Format.binary64 r e .exact).2) =
        if r < 2 ^ 53 then (r, e) else (2 ^ 52, e + 1) := by
  rw [shiftToTargetExponent_eq, repeat_shiftRightOne_mantissa]
  split_ifs with hlt
  · have hlog : r.log2 < 53 := by
      rcases Nat.eq_zero_or_pos r with rfl | hpos
      · decide
      · exact (Nat.log2_lt hpos.ne').mpr hlt
    have hshift : (target r e - e).toNat = 0 := by
      rw [target]
      omega
    simp [hshift]
  · obtain rfl : r = 2 ^ 53 := Nat.le_antisymm hr (Nat.le_of_not_lt hlt)
    have hshift : (target (2 ^ 53) e - e).toNat = 1 := by
      rw [target, Nat.log2_two_pow]
      omega
    rw [hshift]
    rfl

/-- The value of a rounded mantissa at an exponent. -/
def ofRounded (s : Sign) (p : ℕ × ℤ) : UnpackedFloat :=
  if h : p.1 = 0 then .zero s else .finite s p.1 p.2 (Nat.pos_of_ne_zero h)

theorem roundWithAccuracy_eq (s : Sign) (m : ℕ) (e : ℤ) {em : ExtendedMantissa} {e' : ℤ}
    (h : shiftToTargetExponent Format.binary64 m e .exact = (em, e')) :
    roundWithAccuracy Format.binary64 s m e .exact =
      ofRounded s ((shiftToTargetExponent Format.binary64 em.roundedMantissa e' .exact).1.mantissa,
        (shiftToTargetExponent Format.binary64 em.roundedMantissa e' .exact).2) := by
  rw [roundWithAccuracy, h]
  rfl

/-- **Rounding.** The mantissa is rounded at the target exponent. If it gets one bit too long, the least mantissa at
the next exponent stands for the same value. -/
theorem round_eq (s : Sign) {m : ℕ} (hm : 0 < m) (e : ℤ) : ∃ r : ℕ,
    m * 2 ^ (e - target m e).toNat < (r + 1) * 2 ^ (target m e - e).toNat ∧
    r * 2 ^ (target m e - e).toNat < m * 2 ^ (e - target m e).toNat + 2 ^ (target m e - e).toNat ∧ r ≤ 2 ^ 53 ∧
    round Format.binary64 s m e =
      ofRounded s (if r < 2 ^ 53 then (r, target m e) else (2 ^ 52, target m e + 1)) := by
  let a := (e - target m e).toNat
  let b := (target m e - e).toNat
  let r := (b.repeat ExtendedMantissa.shiftRightOne ⟨m * 2 ^ a, false, false⟩).roundedMantissa
  obtain ⟨hlow, hhigh⟩ : m * 2 ^ a < (r + 1) * 2 ^ b ∧ r * 2 ^ b < m * 2 ^ a + 2 ^ b :=
    roundedMantissa_bounds (m * 2 ^ a) b
  have htarget : m.log2 + 1 + e - 53 ≤ target m e ∧ -1074 ≤ target m e := by
    rw [target]
    omega
  have hr : r ≤ 2 ^ 53 := by
    have hm' : m * 2 ^ a < 2 ^ 53 * 2 ^ b := calc
      m * 2 ^ a < 2 ^ (m.log2 + 1) * 2 ^ a := Nat.mul_lt_mul_of_pos_right Nat.lt_log2_self (Nat.two_pow_pos a)
      _ = 2 ^ (m.log2 + 1 + a) := (Nat.pow_add ..).symm
      _ ≤ 2 ^ (53 + b) := Nat.pow_le_pow_right (by decide) (by omega)
      _ = 2 ^ 53 * 2 ^ b := Nat.pow_add ..
    have hlt : r * 2 ^ b < (2 ^ 53 + 1) * 2 ^ b := by
      rw [Nat.add_mul]
      omega
    exact Nat.le_of_lt_succ (Nat.lt_of_mul_lt_mul_right hlt)
  refine ⟨r, hlow, hhigh, hr, ?_⟩
  -- lowering the exponent first changes neither the value nor the target
  have hlowered : target (m * 2 ^ a) (e - a) = target m e := by
    rw [target, target, log2_mul_two_pow hm]
    push_cast
    congr 1
    omega
  have hfirst : shiftToTargetExponent Format.binary64 (m * 2 ^ a) (e - a) .exact =
      (b.repeat ExtendedMantissa.shiftRightOne ⟨m * 2 ^ a, false, false⟩, target m e) := by
    have hshift : (target m e - (e - a)).toNat = b := by omega
    rw [shiftToTargetExponent_eq, hlowered, hshift]
    congr 1
    omega
  have hdown : decreaseExponent m e (target m e) = (m * 2 ^ a, e - a) := by
    rw [decreaseExponent, Nat.shiftLeft_eq]
  change (match decreaseExponent m e (target m e) with
    | (m, e) => roundWithAccuracy Format.binary64 s m e .exact) = _
  rw [hdown]
  exact (roundWithAccuracy_eq s _ _ hfirst).trans (by rw [shiftToTargetExponent_of_le hr htarget.2])

/-- A mantissa and an exponent as they are kept. -/
structure Canonical (m : ℕ) (e : ℤ) : Prop where
  lt : m < 2 ^ 53
  ge : -1074 ≤ e
  normal : e = -1074 ∨ 2 ^ 52 ≤ m

variable {s : Sign} {m m₁ k : ℕ} {e e₁ : ℤ}

theorem target_ge (h₁ : Canonical m₁ e₁) (he : e₁ = e + k) (hle : m₁ * 2 ^ k ≤ m) : e₁ ≤ target m e := by
  rw [target]
  rcases h₁.normal with hmin | hnormal
  · omega
  · have hm : 2 ^ (52 + k) ≤ m := by
      rw [Nat.pow_add]
      exact Nat.le_trans (Nat.mul_le_mul_right _ hnormal) hle
    have hlog := (Nat.le_log2 (Nat.lt_of_lt_of_le (Nat.two_pow_pos _) hm).ne').mpr hm
    omega

theorem target_le (h₁ : Canonical m₁ e₁) (hm : 0 < m) (he : e₁ = e + k) (hle : m ≤ m₁ * 2 ^ k) :
    target m e ≤ e₁ := by
  have hlt : m < 2 ^ (53 + k) := by
    rw [Nat.pow_add]
    exact Nat.lt_of_le_of_lt hle (Nat.mul_lt_mul_of_pos_right h₁.lt (Nat.two_pow_pos k))
  have hlog := (Nat.log2_lt hm.ne').mpr hlt
  have hge := h₁.ge
  rw [target]
  omega

/-- Above the least exponent, the rounded mantissa has all its bits. -/
theorem mantissa_ge {r : ℕ} (hm : 0 < m) (htarget : -1074 < target m e)
    (hlow : m * 2 ^ (e - target m e).toNat < (r + 1) * 2 ^ (target m e - e).toNat) : 2 ^ 52 ≤ r := by
  have hbits : target m e = m.log2 + 1 + e - 53 := by
    rw [target] at htarget ⊢
    omega
  have hlog : m.log2 + (e - target m e).toNat = 52 + (target m e - e).toNat := by omega
  refine Nat.le_of_lt_succ (Nat.lt_of_mul_lt_mul_right (a := 2 ^ (target m e - e).toNat) ?_)
  calc
    2 ^ 52 * 2 ^ (target m e - e).toNat = 2 ^ m.log2 * 2 ^ (e - target m e).toNat := by
      rw [← Nat.pow_add, ← Nat.pow_add, hlog]
    _ ≤ m * 2 ^ (e - target m e).toNat := Nat.mul_le_mul_right _ (Nat.log2_self_le hm.ne')
    _ < (r + 1) * 2 ^ (target m e - e).toNat := hlow

theorem canonical_of_lt {r : ℕ} (hm : 0 < m) (hr : r < 2 ^ 53)
    (hlow : m * 2 ^ (e - target m e).toNat < (r + 1) * 2 ^ (target m e - e).toNat) : Canonical r (target m e) :=
  ⟨hr, le_max_right .., (eq_or_lt_of_le (le_max_right ..)).imp Eq.symm fun hlt => mantissa_ge hm hlt hlow⟩

/-- **A value from a representable one on** is rounded to one from there on. -/
theorem round_ge (s : Sign) (h₁ : Canonical m₁ e₁) (hpos : 0 < m₁) (he : e₁ = e + k) (hle : m₁ * 2 ^ k ≤ m) :
    ∃ m' e' hm', round Format.binary64 s m e = .finite s m' e' hm' ∧ Canonical m' e' ∧
      toLex (e₁, (m₁ : ℤ)) ≤ toLex (e', (m' : ℤ)) := by
  have hm : 0 < m := Nat.lt_of_lt_of_le (Nat.mul_pos hpos (Nat.two_pow_pos k)) hle
  have htarget := target_ge h₁ he hle
  obtain ⟨r, hlow, -, -, hround⟩ := round_eq s hm e
  -- at the exponent of the representable value, its mantissa is a lower bound
  have hmantissa : target m e = e₁ → m₁ ≤ r := by
    intro heq
    have hk : (target m e - e).toNat = k := by omega
    have hnone : (e - target m e).toNat = 0 := by omega
    rw [hk, hnone, Nat.pow_zero, Nat.mul_one] at hlow
    exact Nat.le_of_lt_succ (Nat.lt_of_mul_lt_mul_right (Nat.lt_of_le_of_lt hle hlow))
  have hr : r ≠ 0 := by
    rcases lt_or_eq_of_le htarget with hlt | heq
    · have hnormal := mantissa_ge hm (Int.lt_of_le_of_lt h₁.ge hlt) hlow
      omega
    · exact (Nat.lt_of_lt_of_le hpos (hmantissa heq.symm)).ne'
  rw [hround]
  split_ifs with hlt
  · refine ⟨r, target m e, Nat.pos_of_ne_zero hr, dif_neg hr, canonical_of_lt hm hlt hlow, ?_⟩
    rw [Prod.Lex.toLex_le_toLex]
    rcases lt_or_eq_of_le htarget with hlt | heq
    · exact Or.inl hlt
    · exact Or.inr ⟨heq, Int.ofNat_le.mpr (hmantissa heq.symm)⟩
  · refine ⟨2 ^ 52, target m e + 1, Nat.two_pow_pos 52, dif_neg (Nat.two_pow_pos 52).ne',
      ⟨by decide, Int.le_add_one (le_max_right ..), Or.inr (Nat.le_refl _)⟩, ?_⟩
    rw [Prod.Lex.toLex_le_toLex]
    exact Or.inl (by omega)

/-- **A value up to a representable one** is rounded to one up to there. -/
theorem round_le (s : Sign) (h₁ : Canonical m₁ e₁) (hm : 0 < m) (he : e₁ = e + k) (hle : m ≤ m₁ * 2 ^ k) :
    round Format.binary64 s m e = .zero s ∨
      ∃ m' e' hm', round Format.binary64 s m e = .finite s m' e' hm' ∧ Canonical m' e' ∧
        toLex (e', (m' : ℤ)) ≤ toLex (e₁, (m₁ : ℤ)) := by
  have htarget := target_le h₁ hm he hle
  have hge : -1074 ≤ target m e := le_max_right ..
  obtain ⟨r, hlow, hhigh, hr, hround⟩ := round_eq s hm e
  -- at the exponent of the representable value, its mantissa is an upper bound
  have hmantissa : target m e = e₁ → r ≤ m₁ := by
    intro heq
    have hk : (target m e - e).toNat = k := by omega
    have hnone : (e - target m e).toNat = 0 := by omega
    rw [hk, hnone, Nat.pow_zero, Nat.mul_one] at hhigh
    have hlt : r * 2 ^ k < (m₁ + 1) * 2 ^ k := by
      rw [Nat.add_mul]
      omega
    exact Nat.le_of_lt_succ (Nat.lt_of_mul_lt_mul_right hlt)
  rw [hround]
  split_ifs with hlt
  · by_cases hzero : r = 0
    · exact Or.inl (dif_pos hzero)
    · refine Or.inr ⟨r, target m e, Nat.pos_of_ne_zero hzero, dif_neg hzero, canonical_of_lt hm hlt hlow, ?_⟩
      rw [Prod.Lex.toLex_le_toLex]
      rcases lt_or_eq_of_le htarget with hlt | heq
      · exact Or.inl hlt
      · exact Or.inr ⟨heq, Int.ofNat_le.mpr (hmantissa heq)⟩
  · refine Or.inr ⟨2 ^ 52, target m e + 1, Nat.two_pow_pos 52, dif_neg (Nat.two_pow_pos 52).ne',
      ⟨by decide, Int.le_add_one (le_max_right ..), Or.inr (Nat.le_refl _)⟩, ?_⟩
    rw [Prod.Lex.toLex_le_toLex]
    have hne : target m e ≠ e₁ := fun heq => by
      have := hmantissa heq
      have := h₁.lt
      omega
    have hnormal := h₁.normal
    push_cast
    omega

/-! ### What is packed and unpacked again -/

/-- A value of the format that is neither too large nor out of shape. -/
def Representable : UnpackedFloat → Prop
  | .finite _ m e _ => Canonical m e ∧ e ≤ 971
  | _ => True

theorem toNat_implicit_append (m : BitVec 52) : (1#1 ++ m).toNat = 2 ^ 52 + m.toNat := by
  rw [BitVec.toNat_append, BitVec.toNat_ofNat, Nat.shiftLeft_eq, ← Nat.two_pow_add_eq_or_of_lt m.isLt 1]
  omega

/-- The value with a sign, the bits of an exponent and those of a mantissa. -/
def assemble (s : Sign) (e : BitVec 11) (m : BitVec 52) : UnpackedFloat :=
  if e = -1#11 then
    if m = 0#52 then .infinity s else .notANumber
  else if e = 0#11 then
    if h : m = 0#52 then .zero s
    else .finite s m.toNat ((e.toNat : ℤ) - 1075 + 1) (by simpa [BitVec.toNat_pos, BitVec.pos_iff_ne_zero])
  else .finite s (1#1 ++ m).toNat ((e.toNat : ℤ) - 1075) (by rw [toNat_implicit_append]; omega)

theorem representable_assemble (s : Sign) (e : BitVec 11) (m : BitVec 52) : Representable (assemble s e m) := by
  have hm := m.isLt
  have he := e.isLt
  rw [assemble]
  split_ifs with hinf hzero hsub hnull
  · trivial
  · trivial
  · trivial
  · rw [hsub]
    exact ⟨⟨by omega, by decide, Or.inl (by decide)⟩, by decide⟩
  · have hne : e.toNat ≠ 0 := fun h => hsub (BitVec.eq_of_toNat_eq h)
    have hinf : e.toNat ≠ 2047 := fun h => hinf (BitVec.eq_of_toNat_eq h)
    refine ⟨⟨?_, ?_, Or.inr ?_⟩, ?_⟩
    · rw [toNat_implicit_append]
      omega
    · omega
    · rw [toNat_implicit_append]
      omega
    · omega

theorem representable_unpack (x : Float.Model) : Representable x.unpack :=
  representable_assemble (Sign.ofBitVec (@unpackSign Format.binary64 x.toBits.toBitVec)) _ _

theorem sign_packComponents (s : Sign) (e : BitVec 11) (m : BitVec 52) :
    Sign.ofBitVec (unpackSign (packComponents Format.binary64 s e m)) = s := by
  have hbit : unpackSign (packComponents Format.binary64 s e m) = s.toBitVec := by
    ext i hi
    obtain rfl : i = 0 := by omega
    simp only [unpackSign, packComponents, BitVec.getElem_cast, BitVec.extractLsb, BitVec.getElem_extractLsb']
    rw [BitVec.getLsbD_append, BitVec.getLsbD_append]
    simp
  rw [hbit]
  cases s <;> rfl

theorem unpack_packComponents (s : Sign) (e : BitVec 11) (m : BitVec 52) :
    UnpackedFloat.unpack Format.binary64 (packComponents Format.binary64 s e m) = assemble s e m := by
  have hunpack : ∀ b, UnpackedFloat.unpack Format.binary64 b =
    assemble (Sign.ofBitVec (unpackSign b)) (unpackExponent b) (unpackMantissa b) := fun _ => rfl
  rw [hunpack, sign_packComponents, unpackExponent_packComponents, unpackMantissa_packComponents]

theorem finite_congr {s : Sign} {m m' : ℕ} {e e' : ℤ} (hm : m' = m) (he : e' = e) (h : 0 < m) (h' : 0 < m') :
    UnpackedFloat.finite s m' e' h' = .finite s m e h := by
  subst hm he
  rfl

theorem unpack_pack {x : UnpackedFloat} (hx : Representable x) : (Float.Model.pack x).unpack = x := by
  change UnpackedFloat.unpack Format.binary64 (UnpackedFloat.pack Format.binary64 x) = x
  cases x with
  | notANumber => rfl
  | infinity s => exact (unpack_packComponents s _ _).trans rfl
  | zero s => exact (unpack_packComponents s _ _).trans rfl
  | finite s m e hm =>
    obtain ⟨⟨hlt, hge, hnormal⟩, hle⟩ := hx
    have hbiased : (e + (1023 : ℕ) + (52 : ℕ)).toNat = e + 1075 := by omega
    have hsmall : ¬ 2 ^ 11 ≤ (e + (1023 : ℕ) + (52 : ℕ)).toNat + 1 := by omega
    have hpack : UnpackedFloat.pack Format.binary64 (.finite s m e hm) =
        if m.log2 + 1 = 53 then
          packComponents Format.binary64 s (BitVec.ofNat 11 (e + (1023 : ℕ) + (52 : ℕ)).toNat) (BitVec.ofNat 52 m)
        else packComponents Format.binary64 s 0#11 (BitVec.ofNat 52 m) := if_neg hsmall
    rw [hpack]
    split_ifs with hbits
    · have hm52 : 2 ^ 52 ≤ m := (Nat.le_log2 hm.ne').mp (by omega)
      have hexponent : (BitVec.ofNat 11 (e + (1023 : ℕ) + (52 : ℕ)).toNat).toNat = e + 1075 := by
        rw [BitVec.toNat_ofNat, Nat.mod_eq_of_lt (by omega), hbiased]
      rw [unpack_packComponents, assemble, if_neg, if_neg]
      · refine finite_congr ?_ (by omega) hm _
        rw [toNat_implicit_append, BitVec.toNat_ofNat]
        omega
      · intro h
        rw [h] at hexponent
        simp only [BitVec.toNat_ofNat] at hexponent
        omega
      · intro h
        rw [h, show (-1#11).toNat = 2047 from rfl] at hexponent
        omega
    · have hm52 : m < 2 ^ 52 := (Nat.log2_lt hm.ne').mp (by
        have := (Nat.log2_lt hm.ne').mpr hlt
        omega)
      have hmin : e = -1074 := by omega
      have hne : BitVec.ofNat 52 m ≠ 0#52 := fun h => by
        have := congrArg BitVec.toNat h
        simp only [BitVec.toNat_ofNat] at this
        omega
      rw [unpack_packComponents, assemble, if_neg (by decide), if_pos rfl, dif_neg hne]
      exact finite_congr (by rw [BitVec.toNat_ofNat, Nat.mod_eq_of_lt hm52]) hmin.symm hm _

theorem unpack_pack_notANumber : (Float.Model.pack .notANumber).unpack = .notANumber := unpack_pack trivial

theorem unpack_pack_infinity (s : Sign) : (Float.Model.pack (.infinity s)).unpack = .infinity s := unpack_pack trivial

theorem unpack_pack_zero (s : Sign) : (Float.Model.pack (.zero s)).unpack = .zero s := unpack_pack trivial

/-- A value that is not negative. -/
def NonNegative (x : UnpackedFloat) : Prop := ∀ i, rank x = some i → toLex (0, toLex (0, 0)) ≤ i

theorem nonNegative_finite (m : ℕ) (e : ℤ) (hm : 0 < m) : NonNegative (.finite .positive m e hm) := by
  intro i hi
  cases hi
  rw [Prod.Lex.toLex_le_toLex]
  exact Or.inl Int.one_pos

theorem nonNegative_notANumber : NonNegative .notANumber := by
  intro i hi
  cases hi

theorem nonNegative_assemble (e : BitVec 11) (m : BitVec 52) : NonNegative (assemble .positive e m) := by
  rw [assemble]
  split_ifs
  · intro i hi
    cases hi
    decide
  · exact nonNegative_notANumber
  · intro i hi
    cases hi
    exact le_refl _
  · exact nonNegative_finite _ _ _
  · exact nonNegative_finite _ _ _

/-- Packing does not make a value negative. -/
theorem nonNegative_pack {x : UnpackedFloat} (hx : NonNegative x) : NonNegative (Float.Model.pack x).unpack := by
  have hpacked : ∀ e m, NonNegative
      (UnpackedFloat.unpack Format.binary64 (packComponents Format.binary64 .positive e m)) := by
    intro e m
    rw [unpack_packComponents]
    exact nonNegative_assemble e m
  rcases x with (_ | _) | _ | _ | ⟨_ | _, m, e, hm⟩
  case finite.positive =>
    change NonNegative (UnpackedFloat.unpack Format.binary64 (UnpackedFloat.pack Format.binary64 _))
    rw [UnpackedFloat.pack]
    split_ifs
    · exact hpacked _ _
    · exact hpacked _ _
    · exact hpacked _ _
  case finite.negative =>
    have h := hx _ rfl
    rw [Prod.Lex.toLex_le_toLex] at h
    omega
  all_goals
    refine (congrArg NonNegative (unpack_pack ?_)).mpr hx
    trivial

/-! ### Sums and products -/

theorem normalize_apply (s zero : Sign) {k : ℕ} (hk : 0 < k) (e : ℤ) :
    normalize Format.binary64 (s.apply k) e zero = round Format.binary64 s k e := by
  cases s with
  | negative =>
    have hlt : compare (-(k : ℤ)) 0 = .lt := by
      rw [Int.compare_eq_lt]
      omega
    simp only [UnpackedFloat.normalize, Sign.apply, hlt, neg_neg, Int.toNat_natCast]
  | positive =>
    have hgt : compare (k : ℤ) 0 = .gt := by
      rw [Int.compare_eq_gt]
      omega
    simp only [UnpackedFloat.normalize, Sign.apply, hgt, Int.toNat_natCast]

theorem apply_add_apply (s : Sign) (a b : ℕ) : s.apply a + s.apply b = s.apply (a + b : ℕ) := by
  cases s <;> simp only [Sign.apply] <;> omega

theorem apply_add_apply_neg (s : Sign) {a b : ℕ} (h : b ≤ a) :
    s.apply a + (-s).apply b = s.apply (a - b : ℕ) ∧ s.apply b + (-s).apply a = (-s).apply (a - b : ℕ) := by
  cases s with
  | negative =>
    change -(a : ℤ) + b = -((a - b : ℕ) : ℤ) ∧ -(b : ℤ) + a = ((a - b : ℕ) : ℤ)
    omega
  | positive =>
    change (a : ℤ) + -b = ((a - b : ℕ) : ℤ) ∧ (b : ℤ) + -a = -((a - b : ℕ) : ℤ)
    omega

variable {m₂ : ℕ} {e₂ : ℤ} {h₁ : 0 < m₁} {h₂ : 0 < m₂}

/-- The sum of two values is that of their mantissas at the smaller exponent. -/
theorem add_eq (s₁ s₂ : Sign) :
    UnpackedFloat.add Format.binary64 (.finite s₁ m₁ e₁ h₁) (.finite s₂ m₂ e₂ h₂) =
      normalize Format.binary64 (s₁.apply (m₁ * 2 ^ (e₁ - min e₁ e₂).toNat : ℕ) +
        s₂.apply (m₂ * 2 ^ (e₂ - min e₁ e₂).toNat : ℕ)) (min e₁ e₂) .positive := by
  rw [← Nat.shiftLeft_eq, ← Nat.shiftLeft_eq]
  rfl

/-- Values of one sign add up to one at least as far from zero. -/
theorem add_same (s : Sign) (hc₁ : Canonical m₁ e₁) :
    ∃ m e hm, UnpackedFloat.add Format.binary64 (.finite s m₁ e₁ h₁) (.finite s m₂ e₂ h₂) = .finite s m e hm ∧
      Canonical m e ∧ toLex (e₁, (m₁ : ℤ)) ≤ toLex (e, (m : ℤ)) := by
  rw [add_eq, apply_add_apply, normalize_apply _ _ (Nat.add_pos_left (Nat.mul_pos h₁ (Nat.two_pow_pos _)) _)]
  exact round_ge s hc₁ h₁ (by omega) (Nat.le_add_right ..)

/-- Values of opposite signs add up to zero, or to one that is on the side of either and no further from zero. -/
theorem add_opposite (s : Sign) (hc₁ : Canonical m₁ e₁) (hc₂ : Canonical m₂ e₂) :
    (∃ s', UnpackedFloat.add Format.binary64 (.finite s m₁ e₁ h₁) (.finite (-s) m₂ e₂ h₂) = .zero s') ∨
    ∃ m e hm, Canonical m e ∧
      (UnpackedFloat.add Format.binary64 (.finite s m₁ e₁ h₁) (.finite (-s) m₂ e₂ h₂) = .finite s m e hm ∧
        toLex (e, (m : ℤ)) ≤ toLex (e₁, (m₁ : ℤ)) ∨
      UnpackedFloat.add Format.binary64 (.finite s m₁ e₁ h₁) (.finite (-s) m₂ e₂ h₂) = .finite (-s) m e hm ∧
        toLex (e, (m : ℤ)) ≤ toLex (e₂, (m₂ : ℤ))) := by
  rw [add_eq]
  have hk₁ : e₁ = min e₁ e₂ + (e₁ - min e₁ e₂).toNat := by omega
  have hk₂ : e₂ = min e₁ e₂ + (e₂ - min e₁ e₂).toNat := by omega
  generalize ha : m₁ * 2 ^ (e₁ - min e₁ e₂).toNat = a
  generalize hb : m₂ * 2 ^ (e₂ - min e₁ e₂).toNat = b
  rcases Nat.lt_trichotomy a b with hlt | rfl | hlt
  · have hpos := Nat.sub_pos_of_lt hlt
    rw [(apply_add_apply_neg s hlt.le).2, normalize_apply _ _ hpos]
    rcases round_le (-s) hc₂ hpos hk₂ (hb ▸ Nat.sub_le b a) with hzero | ⟨m, e, hm, hround, hc, hle⟩
    · exact Or.inl ⟨-s, hzero⟩
    · exact Or.inr ⟨m, e, hm, hc, Or.inr ⟨hround, hle⟩⟩
  · refine Or.inl ⟨.positive, ?_⟩
    rw [(apply_add_apply_neg s le_rfl).1, Nat.sub_self]
    cases s <;> rfl
  · have hpos := Nat.sub_pos_of_lt hlt
    rw [(apply_add_apply_neg s hlt.le).1, normalize_apply _ _ hpos]
    rcases round_le s hc₁ hpos hk₁ (ha ▸ Nat.sub_le a b) with hzero | ⟨m, e, hm, hround, hc, hle⟩
    · exact Or.inl ⟨s, hzero⟩
    · exact Or.inr ⟨m, e, hm, hc, Or.inl ⟨hround, hle⟩⟩

/-! ### Moving to one side -/

/-- A rank lies on the side of a sign of another one, or there. -/
def Toward : Sign → (ℤ ×ₗ ℤ ×ₗ ℤ) → (ℤ ×ₗ ℤ ×ₗ ℤ) → Prop
  | .negative, i, j => j ≤ i
  | .positive, i, j => i ≤ j

theorem Toward.refl (s : Sign) (i : ℤ ×ₗ ℤ ×ₗ ℤ) : Toward s i i := by
  cases s <;> exact le_refl i

theorem Toward.trans {s : Sign} {i j k : ℤ ×ₗ ℤ ×ₗ ℤ} (h₁ : Toward s i j) (h₂ : Toward s j k) : Toward s i k := by
  cases s with
  | negative => exact le_trans h₂ h₁
  | positive => exact le_trans h₁ h₂

theorem Toward.neg {s : Sign} {i j : ℤ ×ₗ ℤ ×ₗ ℤ} (h : Toward s i j) : Toward (-s) j i := by
  cases s <;> exact h

/-- The infinity of a sign lies furthest on its side. -/
theorem toward_infinity (s : Sign) {x : UnpackedFloat} {i j : ℤ ×ₗ ℤ ×ₗ ℤ} (hi : rank x = some i)
    (hj : rank (.infinity s) = some j) : Toward s i j := by
  have hbetween := rank_between hi
  cases s with
  | negative =>
    cases hj
    exact hbetween.1
  | positive =>
    cases hj
    exact hbetween.2

/-- Of the values of a sign, those with greater exponents and mantissas lie further on its side. -/
theorem toward_finite (s : Sign) {m m' : ℕ} {e e' : ℤ} {hm : 0 < m} {hm' : 0 < m'} {i j : ℤ ×ₗ ℤ ×ₗ ℤ}
    (hi : rank (.finite s m e hm) = some i) (hj : rank (.finite s m' e' hm') = some j)
    (hle : toLex (e, (m : ℤ)) ≤ toLex (e', (m' : ℤ))) : Toward s i j := by
  rw [Prod.Lex.toLex_le_toLex] at hle
  cases s with
  | negative =>
    cases hi
    cases hj
    refine Prod.Lex.toLex_le_toLex.mpr (Or.inr ⟨rfl, Prod.Lex.toLex_le_toLex.mpr ?_⟩)
    dsimp only at hle ⊢
    omega
  | positive =>
    cases hi
    cases hj
    exact Prod.Lex.toLex_le_toLex.mpr (Or.inr ⟨rfl, Prod.Lex.toLex_le_toLex.mpr hle⟩)

/-- The values of a sign lie on its side of zero. -/
theorem toward_zero (s z : Sign) {m : ℕ} {e : ℤ} {hm : 0 < m} {i j : ℤ ×ₗ ℤ ×ₗ ℤ}
    (hi : rank (.zero z) = some i) (hj : rank (.finite s m e hm) = some j) : Toward s i j := by
  cases hi
  cases s with
  | negative =>
    cases hj
    exact Prod.Lex.toLex_le_toLex.mpr (Or.inl (Int.negSucc_lt_zero 0))
  | positive =>
    cases hj
    exact Prod.Lex.toLex_le_toLex.mpr (Or.inl Int.one_pos)

/-- A value that gets too large is packed as an infinity. -/
theorem unpack_pack_cases (s : Sign) {m : ℕ} {e : ℤ} (hm : 0 < m) (hc : Canonical m e) :
    (Float.Model.pack (.finite s m e hm)).unpack = .finite s m e hm ∨
      (Float.Model.pack (.finite s m e hm)).unpack = .infinity s := by
  by_cases hle : e ≤ 971
  · exact Or.inl (unpack_pack ⟨hc, hle⟩)
  · have hlarge : 2 ^ 11 ≤ (e + (1023 : ℕ) + (52 : ℕ)).toNat + 1 := by omega
    have hpack : UnpackedFloat.pack Format.binary64 (.finite s m e hm) = packedInfinity Format.binary64 s :=
      if_pos hlarge
    refine Or.inr ?_
    change UnpackedFloat.unpack Format.binary64 (UnpackedFloat.pack Format.binary64 _) = _
    rw [hpack]
    exact (unpack_packComponents s _ _).trans rfl

/-- Values that are zero or have a sign, and those that are not numbers. -/
inductive OnSide (s : Sign) : UnpackedFloat → Prop where
  | notANumber : OnSide s .notANumber
  | infinity : OnSide s (.infinity s)
  | zero (z : Sign) : OnSide s (.zero z)
  | finite (m : ℕ) (e : ℤ) (hm : 0 < m) : OnSide s (.finite s m e hm)

theorem exponent_le {m m' e e' : ℤ} (h : toLex (e, m) ≤ toLex (e', m')) : e ≤ e' := by
  rcases Prod.Lex.toLex_le_toLex.mp h with hlt | ⟨heq, -⟩
  · exact hlt.le
  · exact heq.le

theorem sign_cases (s s' : Sign) : s' = s ∨ s = -s' := by
  cases s <;> cases s' <;> first | exact Or.inl rfl | exact Or.inr rfl

/-- **Adding a value of a sign** does not move to the other side. -/
theorem add_toward (s : Sign) {x y : UnpackedFloat} (hx : Representable x) (hy : Representable y) (hside : OnSide s y)
    {j : ℤ ×ₗ ℤ ×ₗ ℤ} (hj : rank (Float.Model.pack (x.add Format.binary64 y)).unpack = some j) :
    ∃ i, rank x = some i ∧ Toward s i j := by
  -- a sum that is no number has no rank
  have hnan : x.add Format.binary64 y = .notANumber → False := by
    intro h
    rw [h, unpack_pack_notANumber] at hj
    cases hj
  -- a sum that is one of the summands
  have hfirst : x.add Format.binary64 y = x → ∃ i, rank x = some i ∧ Toward s i j := by
    intro h
    rw [h, unpack_pack hx] at hj
    exact ⟨j, hj, .refl s j⟩
  have hinfinity : (Float.Model.pack (x.add Format.binary64 y)).unpack = .infinity s → x ≠ .notANumber →
      ∃ i, rank x = some i ∧ Toward s i j := by
    intro h hne
    rw [h] at hj
    obtain ⟨i, hi⟩ : ∃ i, rank x = some i := by
      rcases x with (_ | _) | _ | _ | ⟨_ | _, m, e, hm⟩
      case notANumber => exact absurd rfl hne
      all_goals exact ⟨_, rfl⟩
    exact ⟨i, hi, toward_infinity s hi hj⟩
  rcases x with s' | _ | z | ⟨s', m', e', hm'⟩
  case notANumber => exact (hnan rfl).elim
  · -- an infinity
    cases hside with
    | notANumber => exact (hnan rfl).elim
    | infinity =>
      by_cases hs : (s' == s) = true
      · exact hfirst (if_pos hs)
      · exact (hnan (if_neg hs)).elim
    | zero z => exact hfirst rfl
    | finite m e hm => exact hfirst rfl
  · -- a zero
    cases hside with
    | notANumber => exact (hnan rfl).elim
    | infinity => exact hinfinity (unpack_pack_infinity s) (by simp)
    | zero z' =>
      have hsum : ∃ z'', UnpackedFloat.add Format.binary64 (.zero z) (.zero z') = .zero z'' := by
        rw [UnpackedFloat.add]
        split_ifs
        · exact ⟨z, rfl⟩
        · exact ⟨.positive, rfl⟩
      obtain ⟨z'', hsum⟩ := hsum
      rw [hsum, unpack_pack_zero] at hj
      exact ⟨j, hj, .refl s j⟩
    | finite m e hm =>
      have hsum : UnpackedFloat.add Format.binary64 (.zero z) (.finite s m e hm) = .finite s m e hm := rfl
      rw [hsum, unpack_pack hy] at hj
      exact ⟨_, rfl, toward_zero s z rfl hj⟩
  · cases hside with
    | notANumber => exact (hnan rfl).elim
    | infinity => exact hinfinity (unpack_pack_infinity s) (by simp)
    | zero z => exact hfirst rfl
    | finite m e hm =>
      obtain ⟨i, hi⟩ : ∃ i, rank (.finite s' m' e' hm') = some i := by cases s' <;> exact ⟨_, rfl⟩
      refine ⟨i, hi, ?_⟩
      rcases sign_cases s s' with rfl | rfl
      · -- of one sign, the sum is at least as far out
        obtain ⟨m'', e'', hm'', hsum, hc, hle⟩ := @add_same m' e' m e hm' hm s' hx.1
        rw [hsum] at hj
        rcases unpack_pack_cases s' hm'' hc with hpacked | hpacked
        · rw [hpacked] at hj
          exact toward_finite s' hi hj hle
        · rw [hpacked] at hj
          exact toward_infinity s' hi hj
      · -- of opposite signs, it is on the side of either, and not out of bounds
        rcases @add_opposite m' e' m e hm' hm s' hx.1 hy.1 with
          ⟨z, hsum⟩ | ⟨m'', e'', hm'', hc, ⟨hsum, hle⟩ | ⟨hsum, hle⟩⟩
        · rw [hsum, unpack_pack_zero] at hj
          exact (toward_zero s' z hj hi).neg
        · have hfits : Representable (.finite s' m'' e'' hm'') := ⟨hc, (exponent_le hle).trans hx.2⟩
          rw [hsum, unpack_pack hfits] at hj
          exact (toward_finite s' hj hi hle).neg
        · have hfits : Representable (.finite (-s') m'' e'' hm'') := ⟨hc, (exponent_le hle).trans hy.2⟩
          rw [hsum, unpack_pack hfits] at hj
          exact (toward_zero s' .positive rfl hi).neg.trans (toward_zero (-s') .positive rfl hj)

/-! ### Products -/

/-- A value that is not negative is zero, has the positive sign or is not a number. -/
theorem onSide_of_nonNegative {x : UnpackedFloat} (h : NonNegative x) : OnSide .positive x := by
  rcases x with (_ | _) | _ | z | ⟨_ | _, m, e, hm⟩
  case infinity.negative => exact absurd (h _ rfl) (by decide)
  case finite.negative =>
    have hle := Prod.Lex.toLex_le_toLex.mp (h _ rfl)
    dsimp only at hle
    omega
  case infinity.positive => exact .infinity
  case notANumber => exact .notANumber
  case zero => exact .zero z
  case finite.positive => exact .finite m e hm

/-- Products of values that are not negative are not negative. -/
theorem nonNegative_mul {x y : UnpackedFloat} (hx : NonNegative x) (hy : NonNegative y) :
    NonNegative (x.mul Format.binary64 y) := by
  have hinf : NonNegative (.infinity .positive) := fun i hi => by
    cases hi
    decide
  have hzero : ∀ s, NonNegative (.zero s) := fun s i hi => by
    cases hi
    exact le_refl _
  cases onSide_of_nonNegative hx with
  | notANumber => exact nonNegative_notANumber
  | infinity => cases onSide_of_nonNegative hy with
    | notANumber | zero z => exact nonNegative_notANumber
    | infinity | finite m e hm => exact hinf
  | zero z => cases onSide_of_nonNegative hy with
    | notANumber | infinity => exact nonNegative_notANumber
    | zero z' => exact hzero _
    | finite m e hm => exact hzero _
  | finite m e hm => cases onSide_of_nonNegative hy with
    | notANumber => exact nonNegative_notANumber
    | infinity => exact hinf
    | zero z => exact hzero _
    | finite m' e' hm' =>
      change NonNegative (roundWithAccuracy Format.binary64 .positive (m * m') (e + e') .exact)
      rw [roundWithAccuracy_eq _ _ _ rfl, ofRounded]
      split_ifs
      · exact hzero _
      · exact nonNegative_finite _ _ _

/-! ### Laws of thresholds -/

/-- Subtracting is adding the negated value. -/
theorem sub_eq_add_neg (x y : UnpackedFloat) : x.sub Format.binary64 y = x.add Format.binary64 y.neg := by
  rcases x with s | _ | z | ⟨s, m, e, hm⟩ <;> rcases y with s' | _ | z' | ⟨s', m', e', hm'⟩
  case finite.finite =>
    have hsign : ∀ k : ℕ, (-s').apply k = -(s'.apply k) := fun k => by
      cases s' with
      | negative => exact (neg_neg (k : ℤ)).symm
      | positive => rfl
    change normalize _ (s.apply _ - s'.apply _) _ _ = normalize _ (s.apply _ + (-s').apply _) _ _
    rw [hsign, Int.sub_eq_add_neg]
  all_goals rfl

theorem onSide_neg {x : UnpackedFloat} (h : OnSide .positive x) : OnSide .negative x.neg := by
  cases h with
  | notANumber => exact .notANumber
  | infinity => exact .infinity
  | zero z => exact .zero _
  | finite m e hm => exact .finite m e hm

theorem representable_neg {x : UnpackedFloat} (h : Representable x) : Representable x.neg := by
  cases x with
  | finite s m e hm => exact h
  | notANumber | infinity s | zero s => trivial

variable {a b eps y : Float}

theorem lt_of_add_lt_of_nonNegative (hy : NonNegative y.toModel.unpack) (h : a + y < b) : a < b := by
  obtain ⟨j, k, hj, hk, hlt⟩ := lt_iff.mp h
  obtain ⟨i, hi, hle⟩ := add_toward .positive (representable_unpack a.toModel) (representable_unpack y.toModel)
    (onSide_of_nonNegative hy) hj
  exact lt_iff.mpr ⟨i, k, hi, hk, lt_of_le_of_lt hle hlt⟩

theorem lt_of_lt_sub_of_nonNegative (hy : NonNegative y.toModel.unpack) (h : b < a - y) : b < a := by
  obtain ⟨k, j, hk, hj, hlt⟩ := lt_iff.mp h
  have hj : rank (Float.Model.pack (a.toModel.unpack.sub Format.binary64 y.toModel.unpack)).unpack = some j := hj
  rw [sub_eq_add_neg] at hj
  obtain ⟨i, hi, hle⟩ := add_toward .negative (representable_unpack a.toModel)
    (representable_neg (representable_unpack y.toModel)) (onSide_neg (onSide_of_nonNegative hy)) hj
  exact lt_iff.mpr ⟨k, i, hk, hi, lt_of_lt_of_le hlt hle⟩

theorem nonNegative_of_le {x : Float} (h : 0 ≤ x) : NonNegative x.toModel.unpack := by
  obtain ⟨i, j, hi, hj, hle⟩ := le_iff.mp h
  have hzero : rankOf 0 = some (toLex (0, toLex (0, 0))) := by decide +kernel
  rw [hzero] at hi
  cases hi
  intro k hk
  obtain rfl : j = k := Option.some.inj (hj.symm.trans hk)
  exact hle

theorem nonNegative_maxNum_abs (a : Float) : NonNegative (Scalar.maxNum (Scalar.abs a) 1).toModel.unpack := by
  have hone : NonNegative (1 : Float).toModel.unpack := nonNegative_of_le (by decide +kernel)
  have habs : NonNegative (Scalar.abs a).toModel.unpack := by
    refine nonNegative_pack ?_
    rcases a.toModel.unpack with s | _ | z | ⟨s, m, e, hm⟩
    · intro i hi
      cases hi
      decide
    · exact nonNegative_notANumber
    · intro i hi
      cases hi
      exact le_refl _
    · exact nonNegative_finite m e hm
  rw [Scalar.maxNum]
  split_ifs
  · exact hone
  · exact hone
  · exact habs

/-- The margin of a threshold is not negative. -/
theorem nonNegative_margin (heps : 0 ≤ eps) (a : Float) :
    NonNegative (eps * Scalar.maxNum (Scalar.abs a) 1).toModel.unpack :=
  nonNegative_pack (nonNegative_mul (nonNegative_of_le heps) (nonNegative_maxNum_abs a))

/-- Values that are equal stand at one place. -/
theorem exists_rank_of_beq (h : (a == b) = true) : ∃ i j, rankOf a = some i ∧ rankOf b = some j ∧ i = j := by
  change (a.toModel.unpack.compare b.toModel.unpack == some .eq) = true at h
  rw [compare_eq, beq_iff_eq, Option.bind_eq_some_iff] at h
  obtain ⟨i, hi, h⟩ := h
  obtain ⟨j, hj, hcompare⟩ := Option.map_eq_some_iff.mp h
  exact ⟨i, j, hi, hj, compare_eq_iff_eq.mp hcompare⟩

end Binary64

open Binary64 in
instance : ThresholdScalar Float where
  lt_trans h₁ h₂ := by
    obtain ⟨i, j, hi, hj, hij⟩ := lt_iff.mp h₁
    obtain ⟨j', k, hj', hk, hjk⟩ := lt_iff.mp h₂
    obtain rfl : j = j' := Option.some.inj (hj.symm.trans hj')
    exact lt_iff.mpr ⟨i, k, hi, hk, hij.trans hjk⟩
  le_of_lt h := by
    obtain ⟨i, j, hi, hj, hij⟩ := lt_iff.mp h
    exact le_iff.mpr ⟨i, j, hi, hj, hij.le⟩
  le_of_beq h := by
    obtain ⟨i, j, hi, hj, rfl⟩ := exists_rank_of_beq h
    exact le_iff.mpr ⟨i, i, hi, hj, le_rfl⟩
  self_le h := by
    obtain ⟨i, j, hi, hj, -⟩ := le_iff.mp h
    exact le_iff.mpr ⟨i, i, hi, hi, le_rfl⟩
  negInf_lt_posInf := by decide +kernel
  lt_of_add_lt heps := lt_of_add_lt_of_nonNegative (nonNegative_margin heps _)
  lt_of_lt_sub heps := lt_of_lt_sub_of_nonNegative (nonNegative_margin heps _)

open Binary64 in
instance : ComparableScalar Float where
  le_of_not_lt ha hb hlt := by
    obtain ⟨i, -, hi, -, -⟩ := le_iff.mp ha
    obtain ⟨j, -, hj, -, -⟩ := le_iff.mp hb
    refine le_iff.mpr ⟨i, j, hi, hj, le_of_not_gt fun hji => hlt ?_⟩
    exact lt_iff.mpr ⟨j, i, hj, hi, hji⟩

end IntervalDag
