import Mathlib.Tactic

/-!
# Extents of a random access store

A store is a function from positions to values.  `slice f off n` reads the `n` values from `off`
on, and `overwrite f off d` stores the list `d` from `off` on and changes nothing else.
-/

namespace Lib

variable {α : Type}

/-- The `n` values from position `off` on. -/
def slice (f : ℕ → α) (off n : ℕ) : List α := (List.range n).map fun i => f (off + i)

/-- Store the list `d` from position `off` on. -/
def overwrite (f : ℕ → α) (off : ℕ) (d : List α) : ℕ → α := fun x =>
  if off ≤ x then (d[x - off]?).getD (f x) else f x

@[simp] theorem length_slice (f : ℕ → α) (off n : ℕ) : (slice f off n).length = n := by
  simp [slice]

theorem slice_add (f : ℕ → α) (off m n : ℕ) :
    slice f off (m + n) = slice f off m ++ slice f (off + m) n := by
  simp only [slice, List.range_add, List.map_append, List.map_map]
  congr 1
  refine List.map_congr_left fun i _ => ?_
  simp only [Function.comp_apply, Nat.add_assoc]

theorem slice_congr {f g : ℕ → α} {off n : ℕ} (h : ∀ x, off ≤ x → x < off + n → f x = g x) :
    slice f off n = slice g off n := by
  refine List.map_congr_left fun i hi => ?_
  rw [List.mem_range] at hi
  exact h _ (by omega) (by omega)

theorem overwrite_outside {f : ℕ → α} {off : ℕ} {d : List α} {x : ℕ}
    (h : x < off ∨ off + d.length ≤ x) : overwrite f off d x = f x := by
  unfold overwrite
  split_ifs with hx
  · rw [List.getElem?_eq_none (by omega)]
    rfl
  · rfl

theorem overwrite_inside {f : ℕ → α} {off : ℕ} {d : List α} {i : ℕ} (h : i < d.length) :
    overwrite f off d (off + i) = d[i] := by
  unfold overwrite
  rw [if_pos (by omega), Nat.add_sub_cancel_left, List.getElem?_eq_getElem h]
  rfl

/-- Reading back what was stored. -/
theorem slice_overwrite (f : ℕ → α) (off : ℕ) (d : List α) :
    slice (overwrite f off d) off d.length = d := by
  apply List.ext_getElem (by simp)
  intro i h₁ h₂
  simp only [slice, List.getElem_map, List.getElem_range]
  exact overwrite_inside h₂

theorem drop_slice (f : ℕ → α) (off n : ℕ) {k : ℕ} (h : k ≤ n) :
    (slice f off n).drop k = slice f (off + k) (n - k) := by
  obtain ⟨l, rfl⟩ := Nat.exists_eq_add_of_le h
  rw [slice_add, List.drop_left' (length_slice f off k), Nat.add_sub_cancel_left]

theorem take_slice (f : ℕ → α) (off n : ℕ) {k : ℕ} (h : k ≤ n) :
    (slice f off n).take k = slice f off k := by
  obtain ⟨l, rfl⟩ := Nat.exists_eq_add_of_le h
  rw [slice_add, List.take_left' (length_slice f off k)]

/-- Values of another store are copied. -/
theorem overwrite_slice (f g : ℕ → α) (off n x : ℕ) :
    overwrite f off (slice g off n) x = if off ≤ x ∧ x < off + n then g x else f x := by
  split_ifs with hx
  · obtain ⟨i, rfl⟩ := Nat.exists_eq_add_of_le hx.1
    have hi : i < (slice g off n).length := by
      rw [length_slice]
      omega
    rw [overwrite_inside hi]
    simp [slice]
  · apply overwrite_outside
    rw [length_slice]
    omega

end Lib
