import Mathlib.Tactic

/-!
# Weighted means of two numbers

The mean of `x` with the weight `v` and `y` with the weight `w` lies between any bounds of both.
-/

namespace Lib

variable {κ : Type} [Field κ] [LinearOrder κ] [IsStrictOrderedRing κ] {v w x y b : κ}

/-- The mean of `x` with the weight `v` and `y` with the weight `w`. -/
def weightedMean (v w x y : κ) : κ := (v * x + w * y) / (v + w)

theorem weightedMean_le (hv : 0 ≤ v) (hw : 0 < w) (hx : x ≤ b) (hy : y ≤ b) :
    weightedMean v w x y ≤ b := by
  rw [weightedMean, div_le_iff₀ (by linarith), mul_comm b, add_mul]
  exact add_le_add (mul_le_mul_of_nonneg_left hx hv) (mul_le_mul_of_nonneg_left hy hw.le)

theorem le_weightedMean (hv : 0 ≤ v) (hw : 0 < w) (hx : b ≤ x) (hy : b ≤ y) :
    b ≤ weightedMean v w x y := by
  rw [weightedMean, le_div_iff₀ (by linarith), mul_comm b, add_mul]
  exact add_le_add (mul_le_mul_of_nonneg_left hx hv) (mul_le_mul_of_nonneg_left hy hw.le)

omit [IsStrictOrderedRing κ] in
/-- A number without weight does not count. -/
theorem weightedMean_zero (hw : 0 < w) (x y : κ) : weightedMean 0 w x y = y := by
  rw [weightedMean, zero_mul, zero_add, zero_add, mul_div_cancel_left₀ y hw.ne']

end Lib
