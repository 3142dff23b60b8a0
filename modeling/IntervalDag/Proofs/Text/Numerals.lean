import Mathlib.Data.List.TakeWhile
import Mathlib.Data.Nat.Cast.Order.Field
import Mathlib.Tactic.Ring
import IntervalDag.Proofs.Text.Reader
import IntervalDag.Text.Formula

/-!
# Numerals

Digits that are laid out without an exponent read as what they stand for (`Formula.reads_positional`), and the names of
variables as the variables (`Formula.reads_variableName`).
-/

namespace IntervalDag

namespace Decimal

/-- What digits stand for. -/
def Digits.value (d : Digits) : ℚ := d.digits * 10 ^ d.exponent

/-- Taking trailing zeros off does not change the value. -/
theorem value_trimZeros (digits : Nat) (exponent : Int) :
    (trimZeros digits exponent).value = digits * 10 ^ exponent := by
  fun_induction trimZeros digits exponent with
  | case1 digits exponent h ih =>
    have hdigits : (digits : ℚ) = (digits / 10 : ℕ) * 10 := by
      exact_mod_cast (Nat.div_mul_cancel (Nat.dvd_of_mod_eq_zero h.1)).symm
    rw [ih, hdigits, zpow_add₀ (by norm_num), zpow_one]
    ring
  | case2 digits exponent h => rfl

/-- Powers of ten with whole exponents. -/
theorem cast_tenPow {k : Int} (h : 0 ≤ k) : (tenPow k.toNat : ℚ) = 10 ^ k := by
  rw [← Int.toNat_of_nonneg h, zpow_natCast, Int.toNat_natCast]
  exact Nat.cast_pow 10 _

theorem cast_tenPow_neg {k : Int} (h : ¬ 0 ≤ k) : (tenPow (-k).toNat : ℚ) = (10 ^ k)⁻¹ := by
  rw [cast_tenPow (by omega), zpow_neg]

/-! ### Digits -/

theorem toList_padded (n width : Nat) : (padded n width).toList =
    List.replicate (width - (Nat.toDigits 10 n).length) '0' ++ Nat.toDigits 10 n := by
  rw [padded, String.toList_ofList]

theorem isDigit_of_mem_padded {n width : Nat} {c : Char} (hc : c ∈ (padded n width).toList) : c.isDigit = true := by
  rw [toList_padded, List.mem_append, List.mem_replicate] at hc
  rcases hc with ⟨-, rfl⟩ | hc
  · rfl
  · exact Nat.isDigit_of_mem_toDigits (by decide) (by decide) hc

theorem padded_ne_nil (n width : Nat) : (padded n width).toList ≠ [] := by
  rw [toList_padded]
  simp

theorem ofDigitChars_padded (n width before : Nat) :
    Nat.ofDigitChars 10 (padded n width).toList before = 10 ^ (padded n width).toList.length * before + n := by
  have hzero : Nat.ofDigitChars 10 (padded n width).toList 0 = n := by
    rw [toList_padded, Nat.ofDigitChars_append, Nat.ofDigitChars_replicate_zero, Nat.mul_zero,
      Nat.ofDigitChars_ten_toDigits]
  rw [Nat.ofDigitChars_eq_ofDigitChars_zero, hzero]

theorem length_padded {n width : Nat} (h : n < 10 ^ width) (hwidth : 0 < width) :
    (padded n width).toList.length = width := by
  have hlen := (Nat.length_toDigits_le_iff (by decide) hwidth).mpr h
  rw [toList_padded, List.length_append, List.length_replicate]
  omega

end Decimal

namespace Formula

open Decimal

theorem isWordChar_of_isDigit {c : Char} (hc : c.isDigit = true) : Token.isWordChar c = true := by
  simp [Token.isWordChar, Char.isAlphanum, hc]

theorem areDigits_iff {ds : List Char} : Token.areDigits ds = true ↔ ds ≠ [] ∧ ∀ c ∈ ds, c.isDigit = true := by
  simp [Token.areDigits]

theorem areDigits_padded (n width : Nat) : Token.areDigits (padded n width).toList = true :=
  areDigits_iff.mpr ⟨padded_ne_nil n width, fun _ hc => isDigit_of_mem_padded hc⟩

/-! ### Words -/

theorem numeral?_of_digits {ds : List Char} (h : Token.areDigits ds = true) :
    Token.numeral? ds = some ((Nat.ofDigitChars 10 ds 0 : ℕ) : ℚ) := by
  have hdigits := (areDigits_iff.mp h).2
  have htake : ds.takeWhile Char.isDigit = ds := List.takeWhile_eq_self_iff.mpr hdigits
  have hdrop : ds.dropWhile Char.isDigit = [] := List.dropWhile_eq_nil_iff.mpr hdigits
  rw [Token.numeral?, htake, hdrop]
  exact if_pos h

theorem numeral?_of_places {whole places : List Char} (hwhole : Token.areDigits whole = true)
    (hplaces : Token.areDigits places = true) : Token.numeral? (whole ++ '.' :: places) =
      some (((Nat.ofDigitChars 10 (whole ++ places) 0 : ℕ) : ℚ) / 10 ^ places.length) := by
  have hdigits := (areDigits_iff.mp hwhole).2
  have htake : (whole ++ '.' :: places).takeWhile Char.isDigit = whole := by
    rw [List.takeWhile_append_of_pos hdigits, List.takeWhile_cons_of_neg (by decide), List.append_nil]
  have hdrop : (whole ++ '.' :: places).dropWhile Char.isDigit = '.' :: places := by
    rw [List.dropWhile_append_of_pos hdigits, List.dropWhile_cons_of_neg (by decide)]
  rw [Token.numeral?, htake, hdrop]
  exact if_pos (by rw [hwhole, hplaces]; rfl)

/-- A word that begins with a digit is read as a number. -/
theorem reads_of_numeral? {text : String} {q : ℚ} {c : Char} {cs : List Char} (htext : text.toList = c :: cs)
    (hc : c.isDigit = true) (hword : ∀ c ∈ text.toList, Token.isWordChar c = true)
    (hq : Token.numeral? text.toList = some q) : Reads 4 4 text (.number q) := by
  refine .word (.number q) hword (htext ▸ List.cons_ne_nil c cs) ?_ fun _ => rfl
  have hx : c ≠ 'x' := by
    rintro rfl
    cases hc
  rw [htext] at hq ⊢
  rw [Token.ofWord?.eq_def]
  split
  · rename_i ds heq
    exact absurd (List.cons.inj heq).1 hx
  · rw [hq]
    rfl

/-- Digits in front of what else there may be of a word. -/
theorem exists_head_padded (n width : Nat) (rest : List Char) :
    ∃ c cs, (padded n width).toList ++ rest = c :: cs ∧ c.isDigit = true := by
  obtain ⟨c, cs, heq⟩ := List.exists_cons_of_ne_nil (padded_ne_nil n width)
  exact ⟨c, cs ++ rest, by rw [heq, List.cons_append],
    isDigit_of_mem_padded (heq ▸ List.mem_cons_self : c ∈ (padded n width).toList)⟩

theorem reads_padded (n width : Nat) : Reads 4 4 (padded n width) (.number n) := by
  obtain ⟨c, cs, htext, hc⟩ := exists_head_padded n width []
  rw [List.append_nil] at htext
  refine reads_of_numeral? htext hc (fun c hc => isWordChar_of_isDigit (isDigit_of_mem_padded hc)) ?_
  rw [numeral?_of_digits (areDigits_padded n width), ofDigitChars_padded, Nat.mul_zero, Nat.zero_add]

theorem reads_withPlaces (n : Nat) {places : Nat} (hplaces : 0 < places) :
    Reads 4 4 (withPlaces n places) (.number (n / 10 ^ places)) := by
  have hlen : (padded (n % tenPow places) places).toList.length = places :=
    length_padded (Nat.mod_lt n (Nat.pow_pos (by decide))) hplaces
  have htext : (withPlaces n places).toList =
      (padded (n / tenPow places) 1).toList ++ '.' :: (padded (n % tenPow places) places).toList := by
    rw [withPlaces, if_neg hplaces.ne']
    simp
  obtain ⟨c, cs, hhead, hc⟩ := exists_head_padded (n / tenPow places) 1
    ('.' :: (padded (n % tenPow places) places).toList)
  refine reads_of_numeral? (htext.trans hhead) hc (fun c hc => ?_) ?_
  · rw [htext, List.mem_append, List.mem_cons] at hc
    rcases hc with hc | rfl | hc
    · exact isWordChar_of_isDigit (isDigit_of_mem_padded hc)
    · decide
    · exact isWordChar_of_isDigit (isDigit_of_mem_padded hc)
  · rw [htext, numeral?_of_places (areDigits_padded _ _) (areDigits_padded _ _), Nat.ofDigitChars_append,
      ofDigitChars_padded, ofDigitChars_padded]
    rw [Nat.mul_zero, Nat.zero_add, hlen]
    exact congrArg (fun k : ℕ => some ((k : ℚ) / 10 ^ places)) (Nat.div_add_mod n (tenPow places))

/-- **Digits** laid out without an exponent. -/
theorem reads_positional (d : Digits) : Reads 4 4 (positional d) (.number d.value) := by
  rw [positional, Digits.value]
  split_ifs with h
  · rw [← cast_tenPow h, ← Nat.cast_mul]
    exact reads_padded _ 1
  · rw [← inv_inv (10 ^ d.exponent), ← cast_tenPow_neg h, ← div_eq_mul_inv, tenPow]
    exact_mod_cast reads_withPlaces d.digits (by omega)

/-- **Variables.** -/
theorem reads_variableName (v : VarId) : Reads 4 4 (variableName v) (.var v) := by
  have htext : (variableName v).toList = 'x' :: Nat.toDigits 10 v := by
    simp [variableName]
  have hdigits : Token.areDigits (Nat.toDigits 10 v) = true :=
    areDigits_iff.mpr ⟨Nat.toDigits_ne_nil, fun c hc => Nat.isDigit_of_mem_toDigits (by decide) (by decide) hc⟩
  refine .word (.var v) (fun c hc => ?_) (htext ▸ List.cons_ne_nil _ _) ?_ fun _ => rfl
  · rw [htext, List.mem_cons] at hc
    rcases hc with rfl | hc
    · decide
    · exact isWordChar_of_isDigit ((areDigits_iff.mp hdigits).2 c hc)
  · rw [htext, Token.ofWord?, if_pos hdigits, Nat.ofDigitChars_ten_toDigits]

end Formula

end IntervalDag
