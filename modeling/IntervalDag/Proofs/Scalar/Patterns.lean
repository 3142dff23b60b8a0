import Mathlib
import IntervalDag.Scalar.Binary64

/-!
# Bit patterns

What analyses that keep values as words rely on: a value can be had back from its pattern, and the pattern of ones is
that of no number. Both are so for binary floating point.
-/

namespace IntervalDag

/-- A value can be had back from its pattern, and the pattern of ones stands for no number. -/
class LawfulBitPattern (α : Type) [Scalar α] [BitPattern α] : Prop where
  ofBits_toBits (v : α) : BitPattern.ofBits (BitPattern.toBits v) = v
  isNaN_ofBits_ones : Scalar.isNaN (BitPattern.ofBits 0xffffffffffffffff : α) = true

instance : LawfulBitPattern Float where
  ofBits_toBits := Float.ofBits_toBits
  isNaN_ofBits_ones := by decide +kernel

end IntervalDag
