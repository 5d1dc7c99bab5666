import Mathlib.Tactic

/-!
# Decimal numerals

Numbers written in decimal, as ASCII bytes.  A numeral has at least one digit and no leading zero, so that
each number has one numeral at most, and that is the one that `decimal` writes (`Numeral.eq_decimal`).
-/

namespace Lib

def isDigit (b : UInt8) : Bool := 48 ≤ b && b ≤ 57

def digitValue (b : UInt8) : ℕ := b.toNat - 48

/-- The number that the digits write. -/
def decimalValue (ds : List UInt8) : ℕ := ds.foldl (fun v d => v * 10 + digitValue d) 0

/-- The digits write the number, without a leading zero. -/
structure Numeral (ds : List UInt8) (n : ℕ) : Prop where
  nonempty : ds ≠ []
  digits : ∀ d ∈ ds, isDigit d = true
  minimal : ds.head? = some 48 → ds = [48]
  value : decimalValue ds = n

/-- A numeral, or a minus sign and the numeral of a positive number. -/
inductive IntNumeral : List UInt8 → ℤ → Prop
  | nonneg {ds : List UInt8} {n : ℕ} (h : Numeral ds n) : IntNumeral ds n
  | neg {ds : List UInt8} {n : ℕ} (h : Numeral ds n) (hn : 0 < n) : IntNumeral (45 :: ds) (-n)

/-- The numeral of a number. -/
def decimal (n : ℕ) : List UInt8 :=
  if n = 0 then [48] else (Nat.digits 10 n).reverse.map fun d => .ofNat (48 + d)

def decimalInt (z : ℤ) : List UInt8 := if z < 0 then 45 :: decimal z.natAbs else decimal z.natAbs

theorem isDigit_iff {b : UInt8} : isDigit b = true ↔ 48 ≤ b.toNat ∧ b.toNat ≤ 57 := by
  simp [isDigit, UInt8.le_iff_toNat_le]

theorem decimalValue_eq_ofDigits (ds : List UInt8) :
    decimalValue ds = Nat.ofDigits 10 (ds.map digitValue).reverse := by
  induction ds using List.reverseRecOn with
  | nil => rfl
  | append_singleton ds d ih =>
    rw [List.map_append, List.reverse_append, List.map_singleton, List.reverse_singleton,
      List.singleton_append, Nat.ofDigits_cons, ← ih, decimalValue, List.foldl_append]
    change decimalValue ds * 10 + digitValue d = _
    rw [Nat.add_comm, Nat.mul_comm]

theorem ofNat_digitValue {d : UInt8} (h : isDigit d = true) :
    UInt8.ofNat (48 + digitValue d) = d := by
  have := (isDigit_iff.1 h).1
  rw [digitValue, Nat.add_sub_cancel' this, UInt8.ofNat_toNat]

namespace Numeral

variable {ds : List UInt8} {n : ℕ}

/-- A numeral begins with a digit. -/
theorem eq_cons (h : Numeral ds n) : ∃ d ds', ds = d :: ds' ∧ isDigit d = true := by
  rcases ds with _ | ⟨d, ds⟩
  · exact absurd rfl h.nonempty
  · exact ⟨d, ds, rfl, h.digits d List.mem_cons_self⟩

/-- There is one numeral of a number. -/
theorem eq_decimal (h : Numeral ds n) : ds = decimal n := by
  rcases ds with _ | ⟨d, ds⟩
  · exact absurd rfl h.nonempty
  by_cases hd : d = 48
  · have hone := h.minimal (congrArg some hd)
    have hn := h.value
    rw [hone] at hn ⊢
    rw [← hn]
    rfl
  · have hpos : digitValue d ≠ 0 := by
      have := (isDigit_iff.1 (h.digits d List.mem_cons_self)).1
      have hne : d.toNat ≠ 48 := fun heq => hd (UInt8.toNat_inj.1 heq)
      rw [digitValue]
      omega
    have hdigits : Nat.digits 10 n = ((d :: ds).map digitValue).reverse := by
      rw [← h.value, decimalValue_eq_ofDigits]
      apply Nat.digits_ofDigits 10 (by decide)
      · intro l hl
        obtain ⟨b, hb, rfl⟩ := List.mem_map.1 (List.mem_reverse.1 hl)
        have := isDigit_iff.1 (h.digits b hb)
        rw [digitValue]
        omega
      · intro hne
        simpa using hpos
    have hn : n ≠ 0 := by
      rintro rfl
      simp at hdigits
    rw [decimal, if_neg hn, hdigits, List.reverse_reverse, List.map_map]
    calc d :: ds = (d :: ds).map id := (List.map_id _).symm
      _ = _ := List.map_congr_left fun b hb => (ofNat_digitValue (h.digits b hb)).symm

end Numeral

/-- Every number has a numeral. -/
theorem numeral_decimal (n : ℕ) : Numeral (decimal n) n := by
  by_cases hn : n = 0
  · subst hn
    refine ⟨List.cons_ne_nil _ _, fun d hd => ?_, fun _ => rfl, rfl⟩
    rw [List.mem_singleton.1 hd]
    rfl
  have hlt : ∀ d ∈ Nat.digits 10 n, d < 10 := fun d hd => Nat.digits_lt_base (by decide) hd
  have hne := Nat.digits_ne_nil_iff_ne_zero (b := 10).2 hn
  have htoNat : ∀ d < 10, (UInt8.ofNat (48 + d)).toNat = 48 + d := by
    intro d hd
    rw [UInt8.toNat_ofNat', Nat.mod_eq_of_lt (by omega)]
  rw [decimal, if_neg hn]
  constructor
  · simpa using hne
  · intro b hb
    obtain ⟨d, hd, rfl⟩ := List.mem_map.1 hb
    have hd10 := hlt d (List.mem_reverse.1 hd)
    rw [isDigit_iff, htoNat d hd10]
    omega
  · intro hhead
    rw [List.head?_map, List.head?_reverse, List.getLast?_eq_getLast_of_ne_nil hne] at hhead
    have hzero := congrArg UInt8.toNat (Option.some.inj hhead)
    rw [htoNat _ (hlt _ (List.getLast_mem hne))] at hzero
    exact absurd (Nat.add_left_cancel (hzero : 48 + _ = 48 + 0)) (Nat.getLast_digit_ne_zero 10 hn)
  · rw [decimalValue_eq_ofDigits, List.map_map, ← List.map_reverse, List.reverse_reverse]
    calc Nat.ofDigits 10 ((Nat.digits 10 n).map _) = Nat.ofDigits 10 ((Nat.digits 10 n).map id) := by
          congr 1
          refine List.map_congr_left fun d hd => ?_
          rw [Function.comp_apply, digitValue, htoNat d (hlt d hd), Nat.add_sub_cancel_left, id]
      _ = n := by rw [List.map_id, Nat.ofDigits_digits]

theorem intNumeral_decimalInt (z : ℤ) : IntNumeral (decimalInt z) z := by
  unfold decimalInt
  split_ifs with hz
  · have h := IntNumeral.neg (numeral_decimal z.natAbs) (by omega)
    rwa [show -(z.natAbs : ℤ) = z by omega] at h
  · have h := IntNumeral.nonneg (numeral_decimal z.natAbs)
    rwa [show (z.natAbs : ℤ) = z by omega] at h

theorem IntNumeral.eq_decimalInt {ds : List UInt8} {z : ℤ} (h : IntNumeral ds z) :
    ds = decimalInt z := by
  cases h with
  | nonneg h =>
    rw [decimalInt, if_neg (by omega), Int.natAbs_natCast, h.eq_decimal]
  | neg h hn =>
    rw [decimalInt, if_pos (by omega), Int.natAbs_neg, Int.natAbs_natCast, h.eq_decimal]

end Lib
