import Mathlib.Tactic

/-!
# Cutting a range into tiles

The numbers below `n` are cut into tiles of `k` numbers, the last of which takes what is left.  Every
number lies in exactly one tile, the one that a division finds (`div_eq_iff_mem_tile`).
-/

namespace Lib

/-- The number of tiles: `n / k`, rounded up. -/
def tileCount (n k : ℕ) : ℕ := (n + k - 1) / k

/-- The size of the tile that starts at `i * k`. -/
def tileSize (n k i : ℕ) : ℕ := min k (n - i * k)

variable {n k i x : ℕ}

theorem lt_tileCount_iff (hk : 0 < k) : i < tileCount n k ↔ i * k < n := by
  rw [tileCount, Nat.lt_iff_add_one_le, Nat.le_div_iff_mul_le hk, Nat.add_mul, Nat.one_mul]
  omega

theorem tile_end_le (hk : 0 < k) (hi : i < tileCount n k) : i * k + tileSize n k i ≤ n := by
  have := (lt_tileCount_iff hk).1 hi
  rw [tileSize]
  omega

/-- A number below `n` is in the tile that the division finds, and in no other. -/
theorem div_eq_iff_mem_tile (hk : 0 < k) (hx : x < n) :
    x / k = i ↔ i * k ≤ x ∧ x < i * k + tileSize n k i := by
  rw [Nat.div_eq_iff hk, tileSize]
  omega

theorem div_lt_tileCount (hk : 0 < k) (hx : x < n) : x / k < tileCount n k :=
  (lt_tileCount_iff hk).2 ((Nat.div_mul_le_self x k).trans_lt hx)

theorem sum_tileSize_range (n k j : ℕ) :
    ((List.range j).map (tileSize n k)).sum = min n (j * k) := by
  induction j with
  | zero => simp
  | succ j ih =>
    rw [List.range_succ, List.map_append, List.sum_append, ih, List.map_singleton,
      List.sum_singleton, tileSize, Nat.add_mul, Nat.one_mul]
    omega

/-- The tiles have the size of the range. -/
theorem sum_tileSize (hk : 0 < k) :
    ((List.range (tileCount n k)).map (tileSize n k)).sum = n := by
  rw [sum_tileSize_range]
  have := (lt_tileCount_iff (n := n) (i := tileCount n k) hk).not.1 (lt_irrefl _)
  omega

end Lib
