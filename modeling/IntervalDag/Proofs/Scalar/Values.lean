import IntervalDag.Proofs.Scalar.Exact
import IntervalDag.Proofs.Scalar.Rounding
import IntervalDag.Text.Decimal

/-!
# What floating point values stand for

A finite value of binary floating point stands for a rational number (`Binary64.value`), and so for an exact one
(`Binary64.exact`). Comparisons with constants, magnitudes and bit patterns tell which.
-/

namespace IntervalDag

namespace Binary64

open Float.Model UnpackedFloat

/-- The rational number that a finite value stands for. -/
def amount : UnpackedFloat → ℚ
  | .finite s m e _ => s.apply m * 2 ^ e
  | .zero _ | .infinity _ | .notANumber => 0

/-- The rational number that a finite value stands for. -/
def value (x : Float) : ℚ := amount x.toModel.unpack

/-- The exact number that a value stands for. -/
noncomputable def exact (x : Float) : Exact :=
  match x.toModel.unpack with
  | .notANumber => .nan
  | .infinity .negative => .number ⊥
  | .infinity .positive => .number ⊤
  | .zero _ | .finite .. => .real (value x)

variable {x y : Float} {s : Sign} {m : ℕ} {e : ℤ}

theorem ofRounded_of_pos (s : Sign) (hm : 0 < m) (e : ℤ) : ofRounded s (m, e) = .finite s m e hm := dif_neg hm.ne'

theorem amount_ofRounded (s : Sign) (m : ℕ) (e : ℤ) : amount (ofRounded s (m, e)) = s.apply m * 2 ^ e := by
  rw [ofRounded]
  split_ifs with hm
  · obtain rfl : m = 0 := hm
    cases s <;> exact (zero_mul _).symm
  · rfl

/-! ### Places on the line -/

/-- The number that stands at a place. -/
def amountAt (i : ℤ ×ₗ ℤ ×ₗ ℤ) : ℚ :=
  match ofLex i with
  | (1, p) => (ofLex p).2 * 2 ^ (ofLex p).1
  | (-1, p) => (ofLex p).2 * 2 ^ (-(ofLex p).1)
  | _ => 0

/-- What a value stands for depends on its place only. -/
theorem amount_eq_of_rank {u : UnpackedFloat} {i : ℤ ×ₗ ℤ ×ₗ ℤ} (h : rank u = some i) : amount u = amountAt i := by
  rcases u with (_ | _) | _ | z | ⟨_ | _, m, e, hm⟩
  case notANumber => cases h
  case finite.negative =>
    cases h
    change ((-(m : ℤ) : ℤ) : ℚ) * 2 ^ e = ((-(m : ℤ) : ℤ) : ℚ) * 2 ^ (- -e)
    rw [neg_neg]
  all_goals
    cases h
    rfl

/-- Values that are equal stand for one number. -/
theorem value_eq_of_beq (h : (x == y) = true) : value x = value y := by
  obtain ⟨i, j, hi, hj, rfl⟩ := exists_rank_of_beq h
  exact (amount_eq_of_rank hi).trans (amount_eq_of_rank hj).symm

theorem rank_posInf : rankOf Scalar.posInf = some (toLex (2, toLex (0, 0))) := by decide +kernel

theorem rank_negInf : rankOf Scalar.negInf = some (toLex (-2, toLex (0, 0))) := by decide +kernel

theorem rank_zero : rankOf 0 = some (toLex (0, toLex (0, 0))) := by decide +kernel

/-- Where a value with a mantissa and an exponent stands. -/
theorem exists_rank_ofRounded (s : Sign) (m : ℕ) (e : ℤ) : ∃ i, rank (ofRounded s (m, e)) = some i ∧
    toLex (-2, toLex (0, 0)) < i ∧ i < toLex (2, toLex (0, 0)) ∧
      (i < toLex (0, toLex (0, 0)) ↔ ((s.apply m : ℤ) : ℚ) * 2 ^ e < 0) := by
  rw [ofRounded]
  split_ifs with hm
  · obtain rfl : m = 0 := hm
    refine ⟨_, rfl, by decide, by decide, ?_⟩
    cases s <;> simp [Sign.apply]
  · have hpos : (0 : ℚ) < m * 2 ^ e := mul_pos (Nat.cast_pos.mpr (Nat.pos_of_ne_zero hm)) (zpow_pos two_pos e)
    cases s with
    | negative =>
      refine ⟨_, rfl, ?_⟩
      simp [Prod.Lex.toLex_lt_toLex, Sign.apply, hpos]
    | positive =>
      refine ⟨_, rfl, ?_⟩
      simp [Prod.Lex.toLex_lt_toLex, Sign.apply, hpos.le]

/-! ### Finite values -/

/-- A finite value has a mantissa and an exponent. -/
theorem exists_of_isFinite (hx : Scalar.isFinite x = true) : ∃ s m e, x.toModel.unpack = ofRounded s (m, e) := by
  rw [Scalar.isFinite, Bool.and_eq_true_iff, decide_eq_true_iff, decide_eq_true_iff, lt_iff, lt_iff] at hx
  obtain ⟨⟨low, i, hlow, hi, hlt⟩, ⟨j, high, hj, hhigh, hlt'⟩⟩ := hx
  obtain rfl := Option.some.inj (rank_negInf.symm.trans hlow)
  obtain rfl := Option.some.inj (rank_posInf.symm.trans hhigh)
  rw [rankOf] at hi hj
  generalize x.toModel.unpack = u at hi hj ⊢
  rcases u with (_ | _) | _ | s | ⟨s, m, e, hm⟩
  · cases hi
    exact absurd hlt (lt_irrefl _)
  · cases hj
    exact absurd hlt' (lt_irrefl _)
  · cases hi
  · exact ⟨s, 0, 0, rfl⟩
  · exact ⟨s, m, e, (ofRounded_of_pos s hm e).symm⟩

theorem isFinite_of_unpack (hx : x.toModel.unpack = ofRounded s (m, e)) : Scalar.isFinite x = true := by
  obtain ⟨i, hrank, hlow, hhigh, -⟩ := exists_rank_ofRounded s m e
  rw [← hx] at hrank
  rw [Scalar.isFinite, Bool.and_eq_true_iff, decide_eq_true_iff, decide_eq_true_iff, lt_iff, lt_iff]
  exact ⟨⟨_, i, rank_negInf, hrank, hlow⟩, ⟨i, _, hrank, rank_posInf, hhigh⟩⟩

theorem exact_of_isFinite (hx : Scalar.isFinite x = true) : exact x = .real (value x) := by
  obtain ⟨s, m, e, hunpack⟩ := exists_of_isFinite hx
  rw [exact, hunpack, ofRounded]
  split_ifs <;> rfl

/-- Values below zero stand for numbers below zero. -/
theorem lt_zero_iff (hx : Scalar.isFinite x = true) : x < 0 ↔ value x < 0 := by
  obtain ⟨s, m, e, hunpack⟩ := exists_of_isFinite hx
  obtain ⟨i, hrank, -, -, hneg⟩ := exists_rank_ofRounded s m e
  rw [lt_iff, rank_zero, rankOf, value, hunpack, amount_ofRounded, hrank, ← hneg]
  simp

/-- Magnitudes. -/
theorem value_abs (hx : Scalar.isFinite x = true) :
    Scalar.isFinite (Scalar.abs x) = true ∧ value (Scalar.abs x) = |value x| := by
  obtain ⟨s, m, e, hunpack⟩ := exists_of_isFinite hx
  have habs : (Scalar.abs x).toModel.unpack = ofRounded .positive (m, e) := by
    change (Float.Model.pack x.toModel.unpack.abs).unpack = _
    have hfits := representable_unpack x.toModel
    rw [hunpack] at hfits ⊢
    have hpositive : (ofRounded s (m, e)).abs = ofRounded .positive (m, e) := by
      rw [ofRounded, ofRounded]
      split_ifs <;> rfl
    rw [hpositive, unpack_pack]
    revert hfits
    rw [ofRounded, ofRounded]
    split_ifs <;> exact id
  have hpos : (0 : ℚ) ≤ m * 2 ^ e := mul_nonneg (Nat.cast_nonneg m) (zpow_pos two_pos e).le
  refine ⟨isFinite_of_unpack habs, ?_⟩
  rw [value, value, habs, hunpack, amount_ofRounded, amount_ofRounded]
  cases s with
  | negative => simp [Sign.apply, abs_of_nonneg hpos]
  | positive => simp [Sign.apply, abs_of_nonneg hpos]

/-- Zeros are what stands for zero. -/
theorem beq_zero_of_value (hx : Scalar.isFinite x = true) (hvalue : value x = 0) : (x == 0) = true := by
  obtain ⟨s, m, e, hunpack⟩ := exists_of_isFinite hx
  have hm : m = 0 := by
    rw [value, hunpack, amount_ofRounded, mul_eq_zero_iff_right (zpow_ne_zero e two_ne_zero)] at hvalue
    cases s with
    | negative => simpa [Sign.apply] using hvalue
    | positive => simpa [Sign.apply] using hvalue
  have hrank : rankOf x = some (toLex (0, toLex (0, 0))) := by
    rw [rankOf, hunpack, hm]
    rfl
  have hcompare : x.toModel.unpack.compare (0 : Float).toModel.unpack = some .eq := by
    rw [compare_eq, ← rankOf, ← rankOf, hrank, rank_zero]
    rfl
  change (x.toModel.unpack.compare (0 : Float).toModel.unpack == some .eq) = true
  rw [hcompare]
  rfl

/-! ### Bit patterns -/

/-- The sign that a value is written with. -/
def sign (x : Float) : Sign := if Scalar.isNegative x then .negative else .positive

/-- The magnitude that a value is written with. -/
def magnitude (x : Float) : Binary := Binary.ofMagnitudeBits (x.toBits.toNat % (1 <<< 63))

theorem isNegative_iff : Scalar.isNegative x = true ↔ 2 ^ 63 ≤ x.toBits.toNat :=
  decide_eq_true_iff.trans UInt64.le_iff_toNat_le

theorem assemble_eq (s : Sign) {e : BitVec 11} (m : BitVec 52) (he : e ≠ -1#11) : assemble s e m =
    ofRounded s (if e.toNat = 0 then (m.toNat, -1074) else (m.toNat + 2 ^ 52, (e.toNat : ℤ) - 1075)) := by
  rw [assemble, if_neg he]
  split_ifs with hzero hnull hnat hnat
  · subst hnull
    rfl
  · exact absurd (congrArg BitVec.toNat hzero) hnat
  · rw [ofRounded, dif_neg]
    · subst hzero
      rfl
    · exact fun h => hnull (BitVec.eq_of_toNat_eq h)
  · exact absurd (congrArg BitVec.toNat hzero) hnat
  · exact absurd (BitVec.eq_of_toNat_eq ‹_›) hzero
  · rw [ofRounded_of_pos s (Nat.add_pos_right _ (Nat.two_pow_pos 52))]
    exact finite_congr (by rw [toNat_implicit_append, Nat.add_comm]) rfl _ _

theorem ofMagnitudeBits_parts (bits : ℕ) :
    ((Binary.ofMagnitudeBits bits).mantissa, (Binary.ofMagnitudeBits bits).exponent) =
      if bits >>> 52 = 0 then (bits % 2 ^ 52, -1074) else (bits % 2 ^ 52 + 2 ^ 52, ((bits >>> 52 : ℕ) : ℤ) - 1075) := by
  rw [Binary.ofMagnitudeBits]
  split_ifs
  · simp
  · simp

/-- **A finite value** is what it is written as. -/
theorem unpack_eq (hx : Scalar.isFinite x = true) :
    x.toModel.unpack = ofRounded (sign x) ((magnitude x).mantissa, (magnitude x).exponent) := by
  obtain ⟨s, m, e, hunpack⟩ := exists_of_isFinite hx
  have hlt : x.toBits.toNat < 2 ^ 64 := x.toBits.toNat_lt
  have hsign : Sign.ofBitVec (@unpackSign Format.binary64 x.toBits.toBitVec) = sign x := by
    have hbit : @unpackSign Format.binary64 x.toBits.toBitVec = 0#1 ↔ ¬ 2 ^ 63 ≤ x.toBits.toNat := by
      rw [← BitVec.toNat_inj]
      simp only [unpackSign, BitVec.toNat_cast, BitVec.extractLsb_toNat, Nat.shiftRight_eq_div_pow]
      simp
      omega
    rw [sign, Sign.ofBitVec]
    simp only [hbit, isNegative_iff, ite_not]
  have hexponent : (@unpackExponent Format.binary64 x.toBits.toBitVec).toNat =
      (x.toBits.toNat % (1 <<< 63)) >>> 52 := by
    simp [unpackExponent, Nat.shiftRight_eq_div_pow]
    omega
  have hmantissa : (@unpackMantissa Format.binary64 x.toBits.toBitVec).toNat =
      x.toBits.toNat % (1 <<< 63) % 2 ^ 52 := by
    simp [unpackMantissa]
  have hparts : x.toModel.unpack = assemble (Sign.ofBitVec (@unpackSign Format.binary64 x.toBits.toBitVec))
    (@unpackExponent Format.binary64 x.toBits.toBitVec) (@unpackMantissa Format.binary64 x.toBits.toBitVec) := rfl
  have hfinite : @unpackExponent Format.binary64 x.toBits.toBitVec ≠ -1#11 := by
    intro h
    rw [hparts, assemble, if_pos h, ofRounded] at hunpack
    split_ifs at hunpack
  rw [hparts, hsign, assemble_eq _ _ hfinite, hexponent, hmantissa, magnitude, ofMagnitudeBits_parts]

/-- A value with a minus sign does not stand for a number above zero. -/
theorem value_nonpos (hx : Scalar.isFinite x = true) (hnegative : Scalar.isNegative x = true) : value x ≤ 0 := by
  have hpos : (0 : ℚ) ≤ (magnitude x).mantissa * 2 ^ (magnitude x).exponent :=
    mul_nonneg (Nat.cast_nonneg _) (zpow_pos two_pos _).le
  rw [value, unpack_eq hx, amount_ofRounded, sign, if_pos hnegative]
  simpa [Sign.apply] using hpos

end Binary64

end IntervalDag
