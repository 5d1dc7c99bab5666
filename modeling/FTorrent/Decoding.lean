import FTorrent.Bencoding

/-!
# What the decoder accepts

`Reads value bytes` is the language of the decoder: it is wider than canonical bencoding, as numbers can
have zeros in front, or no digits at all, and the entries of a dictionary can stand in any order; and it is
narrower, as a number must fit and has a bounded number of digits.  The decoder accepts exactly the byte
strings that begin with a word of this language, and returns its value (`decode_eq_ok_iff`).  Every value
that it returns can be encoded, and is read back from its encoding whatever follows
(`decode_encode`, `decode_normal`).
-/

namespace FTorrent

open Lib

/-! ### Numbers and strings -/

/-- The digits write the number, and it fits. -/
structure Digits (limits : IntegerLimits) (sgn : ℤ) (ds : List UInt8) (z : ℤ) : Prop where
  digits : ∀ d ∈ ds, isDigit d = true
  length : ds.length ≤ limits.digits10 + 1
  value : z = decimalValue ds * sgn
  min_le : limits.min ≤ z
  le_max : z ≤ limits.max

/-- The digits that are read without a check fit. -/
structure IntegerLimits.Allows (limits : IntegerLimits) (sgn : ℤ) : Prop where
  min_le : limits.min ≤ 0
  max_ge : 0 ≤ limits.max
  unchecked : sgn = 1 ∧ 10 ^ limits.digits10 ≤ limits.max + 1 ∨
    sgn = -1 ∧ 10 ^ limits.digits10 ≤ 1 - limits.min

theorem longLong_allows : longLong.Allows 1 := ⟨by decide, by decide, .inl (by decide)⟩

theorem longLong_allows_neg : longLong.Allows (-1) := ⟨by decide, by decide, .inr (by decide)⟩

theorem sizeT_allows : sizeT.Allows 1 := ⟨by decide, by decide, .inl (by decide)⟩

section Digits

variable {limits : IntegerLimits} {sgn : ℤ}

/-- The number in front of a digit, and the digit after it. -/
def shift (w : ℕ) (d : UInt8) : ℕ := w * 10 + digitValue d

theorem shift_lt {w k : ℕ} (hw : w < 10 ^ k) {d : UInt8} (hd : isDigit d = true) :
    shift w d < 10 ^ (k + 1) := by
  have := isDigit_iff.1 hd
  rw [shift, digitValue, pow_succ]
  omega

theorem shift_mul (w : ℕ) (d : UInt8) (sgn : ℤ) :
    (w : ℤ) * sgn * 10 + digitValue d * sgn = (shift w d : ℕ) * sgn := by
  rw [shift]
  push_cast
  ring

/-- Where only the unchecked digits are read, the number fits. -/
theorem IntegerLimits.Allows.fits (h : limits.Allows sgn) {w : ℕ} (hw : w < 10 ^ limits.digits10) :
    limits.min ≤ w * sgn ∧ (w : ℤ) * sgn ≤ limits.max := by
  have hw' : (w : ℤ) < 10 ^ limits.digits10 := by exact_mod_cast hw
  have := h.min_le
  have := h.max_ge
  rcases h.unchecked with ⟨rfl, hmax⟩ | ⟨rfl, hmin⟩
  · omega
  · omega

/-- The check lets through what fits. -/
theorem IntegerLimits.Allows.check_eq_ok (h : limits.Allows sgn) (w : ℕ) {d : UInt8}
    (hd : isDigit d = true) : checkOverUnderflow limits (w * sgn) (digitValue d * sgn) sgn = .ok () ↔
      limits.min ≤ shift w d * sgn ∧ (shift w d : ℤ) * sgn ≤ limits.max := by
  have hdigit := isDigit_iff.1 hd
  have hmin := h.min_le
  have hmax := h.max_ge
  have hvalue : (digitValue d : ℤ) < 10 := by
    rw [digitValue]
    omega
  unfold checkOverUnderflow shift
  rcases h.unchecked with ⟨rfl, -⟩ | ⟨rfl, -⟩
  · rw [if_pos rfl, Int.tdiv_eq_ediv_of_nonneg hmax, Int.tmod_eq_emod_of_nonneg hmax]
    split_ifs with hover
    · simp only [false_iff]
      omega
    · simp only [true_iff]
      omega
  · have hquot : limits.min.tdiv 10 = -((-limits.min) / 10) := by
      rw [← Int.tdiv_eq_ediv_of_nonneg (by omega), Int.neg_tdiv, neg_neg]
    have hrem : limits.min.tmod 10 = -((-limits.min) % 10) := by
      rw [← Int.tmod_eq_emod_of_nonneg (by omega), Int.neg_tmod, neg_neg]
    rw [if_neg (by decide), hquot, hrem]
    split_ifs with hunder
    · simp only [false_iff]
      omega
    · simp only [true_iff]
      omega

/-- Digits that fit are read. -/
theorem decodeDigits_of_fits (hallows : limits.Allows sgn) {ds rest : List UInt8} {c : UInt8} {n w : ℕ}
    (hds : ∀ d ∈ ds, isDigit d = true) (hc : isDigit c = false) (hlen : ds.length ≤ n + 1)
    (hfits : limits.min ≤ (ds.foldl shift w : ℕ) * sgn ∧
      ((ds.foldl shift w : ℕ) : ℤ) * sgn ≤ limits.max) :
    decodeDigits limits sgn n (w * sgn) (ds ++ c :: rest) =
      .ok ((ds.foldl shift w : ℕ) * sgn, c :: rest) := by
  induction ds generalizing n w with
  | nil =>
    cases n with
    | zero =>
      rw [List.nil_append, decodeDigits, hc]
      rfl
    | succ n =>
      rw [List.nil_append, decodeDigits, hc]
      rfl
  | cons d ds ih =>
    obtain ⟨hd, hds⟩ := List.forall_mem_cons.1 hds
    rw [List.length_cons, Nat.add_le_add_iff_right] at hlen
    cases n with
    | zero =>
      -- the last digit there can be
      rw [List.length_eq_zero_iff.1 (Nat.le_zero.1 hlen)] at hfits ⊢
      rw [List.cons_append, decodeDigits, if_pos hd, (hallows.check_eq_ok w hd).2 hfits, shift_mul]
      change endDigits sgn (shift w d * sgn) (c :: rest) = _
      rw [endDigits, hc]
      rfl
    | succ n =>
      rw [List.cons_append, decodeDigits, if_pos hd, shift_mul]
      exact ih hds hlen hfits

/-- What is read are digits that fit. -/
theorem fits_of_decodeDigits (hallows : limits.Allows sgn) {bytes rest : List UInt8} {n k w : ℕ} {z : ℤ}
    (hk : k + n = limits.digits10) (hw : w < 10 ^ k)
    (h : decodeDigits limits sgn n (w * sgn) bytes = .ok (z, rest)) :
    ∃ ds c rest', bytes = ds ++ rest ∧ rest = c :: rest' ∧ isDigit c = false ∧
      (∀ d ∈ ds, isDigit d = true) ∧ ds.length ≤ n + 1 ∧ z = (ds.foldl shift w : ℕ) * sgn ∧
      limits.min ≤ z ∧ z ≤ limits.max := by
  induction bytes generalizing n k w with
  | nil => cases n <;> cases h
  | cons b bytes ih =>
    cases hb : isDigit b with
    | false =>
      have hpow : w < 10 ^ limits.digits10 :=
        hw.trans_le (Nat.pow_le_pow_right (by decide) (by omega))
      have hr : (z, rest) = ((w : ℤ) * sgn, b :: bytes) := by
        cases n with
        | zero =>
          rw [decodeDigits, hb] at h
          exact (Except.ok.inj h).symm
        | succ n =>
          rw [decodeDigits, hb] at h
          exact (Except.ok.inj h).symm
      obtain ⟨rfl, rfl⟩ := Prod.mk.inj hr
      exact ⟨[], b, bytes, rfl, rfl, hb, fun _ hd => absurd hd List.not_mem_nil, Nat.zero_le _, rfl,
        hallows.fits hpow⟩
    | true =>
      cases n with
      | zero =>
        rw [decodeDigits, if_pos hb] at h
        obtain ⟨u, hcheck, hend⟩ := bind_eq_ok.1 h
        have hfits := (hallows.check_eq_ok w hb).1 hcheck
        rw [shift_mul] at hend
        rcases bytes with _ | ⟨c, bytes⟩
        · cases hend
        · rw [endDigits] at hend
          split_ifs at hend with hc
          cases hend
          exact ⟨[b], c, bytes, rfl, rfl, by simpa using hc, by simpa using hb, le_rfl, rfl, hfits⟩
      | succ n =>
        rw [decodeDigits, if_pos hb, shift_mul] at h
        obtain ⟨ds, c, rest', rfl, hrest, hc, hds, hlen, hz, hfits⟩ :=
          ih (by omega) (shift_lt hw hb) h
        exact ⟨b :: ds, c, rest', rfl, hrest, hc, List.forall_mem_cons.2 ⟨hb, hds⟩,
          Nat.succ_le_succ hlen, hz, hfits⟩

/-- The decoder reads exactly the digits that fit. -/
theorem decodeDigits_eq_ok (hallows : limits.Allows sgn) {bytes rest : List UInt8} {z : ℤ} :
    decodeDigits limits sgn limits.digits10 0 bytes = .ok (z, rest) ↔
      ∃ ds c rest', bytes = ds ++ rest ∧ rest = c :: rest' ∧ isDigit c = false ∧
        Digits limits sgn ds z := by
  have hzero : (0 : ℤ) = (0 : ℕ) * sgn := by rw [Nat.cast_zero, zero_mul]
  rw [hzero]
  constructor
  · intro h
    obtain ⟨ds, c, rest', hbytes, hrest, hc, hds, hlen, hz, hmin, hmax⟩ :=
      fits_of_decodeDigits hallows (Nat.zero_add _) (by decide) h
    exact ⟨ds, c, rest', hbytes, hrest, hc, hds, hlen, hz, hmin, hmax⟩
  · rintro ⟨ds, c, rest', rfl, rfl, hc, hds, hlen, rfl, hmin, hmax⟩
    exact decodeDigits_of_fits hallows hds hc hlen ⟨hmin, hmax⟩

end Digits

/-- Digits, or a minus sign and digits. -/
inductive IntText : List UInt8 → ℤ → Prop
  | nonneg {ds : List UInt8} {z : ℤ} (h : Digits longLong 1 ds z) : IntText ds z
  | neg {ds : List UInt8} {z : ℤ} (h : Digits longLong (-1) ds z) : IntText (token '-' :: ds) z

/-- The length of the string with at least one digit, a colon and the string. -/
inductive ReadsString : List UInt8 → List UInt8 → Prop
  | mk {ds s : List UInt8} (hne : ds ≠ []) (h : Digits sizeT 1 ds s.length) :
    ReadsString s (ds ++ token ':' :: s)

theorem endInt_eq_ok {value z : ℤ} {bytes rest : List UInt8} :
    endInt value bytes = .ok (z, rest) ↔ z = value ∧ bytes = token 'e' :: rest := by
  cases bytes with
  | nil => simp [endInt]
  | cons b bytes =>
    rw [endInt]
    split_ifs with hb
    · simp [hb]
    · rw [not_not] at hb
      simp [hb, eq_comm]

/-- The decoder reads exactly the texts of numbers. -/
theorem decodeInt_eq_ok {bytes rest : List UInt8} {z : ℤ} :
    decodeInt bytes = .ok (z, rest) ↔ ∃ ds, bytes = ds ++ token 'e' :: rest ∧ IntText ds z := by
  constructor
  · intro h
    rcases bytes with _ | ⟨b, bytes⟩
    · cases h
    rw [decodeInt] at h
    split_ifs at h with hb
    · obtain ⟨⟨value, rest'⟩, hdigits, hend⟩ := bind_eq_ok.1 h
      obtain ⟨rfl, rfl⟩ := endInt_eq_ok.1 hend
      obtain ⟨ds, -, -, rfl, -, -, hds⟩ := (decodeDigits_eq_ok longLong_allows_neg).1 hdigits
      exact ⟨token '-' :: ds, by rw [hb]; rfl, .neg hds⟩
    · obtain ⟨⟨value, rest'⟩, hdigits, hend⟩ := bind_eq_ok.1 h
      obtain ⟨rfl, rfl⟩ := endInt_eq_ok.1 hend
      obtain ⟨ds, -, -, hbytes, -, -, hds⟩ := (decodeDigits_eq_ok longLong_allows).1 hdigits
      exact ⟨ds, hbytes, .nonneg hds⟩
  · rintro ⟨ds, rfl, hds | hds⟩
    · have hread : decodeDigits longLong 1 longLong.digits10 0 (ds ++ token 'e' :: rest) =
          .ok (z, token 'e' :: rest) :=
        (decodeDigits_eq_ok longLong_allows).2 ⟨ds, _, _, rfl, rfl, by decide, hds⟩
      have hfirst : ∃ b bytes, ds ++ token 'e' :: rest = b :: bytes ∧ b ≠ token '-' := by
        rcases ds with _ | ⟨d, ds⟩
        · exact ⟨_, _, rfl, by decide⟩
        · exact ⟨_, _, rfl, ne_token (hds.digits d List.mem_cons_self) (by decide)⟩
      obtain ⟨b, bytes, hbytes, hb⟩ := hfirst
      rw [hbytes] at hread ⊢
      rw [decodeInt, if_neg hb, hread]
      rfl
    · have hread : decodeDigits longLong (-1) longLong.digits10 0 (_ ++ token 'e' :: rest) =
          .ok (z, token 'e' :: rest) :=
        (decodeDigits_eq_ok longLong_allows_neg).2 ⟨_, _, _, rfl, rfl, by decide, hds⟩
      rw [List.cons_append, decodeInt, if_pos rfl, hread]
      rfl

/-- The decoder reads exactly the texts of strings, where there is a digit. -/
theorem decodeStr_eq_ok {bytes rest s : List UInt8} (hdigit : bytes.head?.any isDigit = true) :
    decodeStr bytes = .ok (s, rest) ↔ ∃ pre, bytes = pre ++ rest ∧ ReadsString s pre := by
  constructor
  · intro h
    obtain ⟨⟨len, rest'⟩, hdigits, hread⟩ := bind_eq_ok.1 h
    obtain ⟨ds, c, rest', rfl, rfl, hc, hds⟩ := (decodeDigits_eq_ok sizeT_allows).1 hdigits
    dsimp only at hread
    split_ifs at hread with hcolon hlen
    cases hread
    rw [not_not] at hcolon
    obtain ⟨n, rfl⟩ := Int.eq_ofNat_of_zero_le hds.min_le
    rw [Int.toNat_natCast, not_lt] at *
    refine ⟨ds ++ token ':' :: rest'.take n, ?_, .mk ?_ ?_⟩
    · rw [List.append_assoc, List.cons_append, List.take_append_drop, hcolon]
    · rintro rfl
      rw [List.nil_append, List.head?_cons, Option.any_some, hc] at hdigit
      cases hdigit
    · rwa [List.length_take, min_eq_left hlen]
  · rintro ⟨pre, rfl, hs⟩
    cases hs with
    | mk hne hds =>
      have hread := (decodeDigits_eq_ok sizeT_allows).2
        ⟨_, token ':', s ++ rest, rfl, rfl, by decide, hds⟩
      rw [List.append_assoc, List.cons_append]
      refine bind_eq_ok.2 ⟨_, hread, ?_⟩
      dsimp only
      rw [if_neg (not_not.2 rfl), Int.toNat_natCast, if_neg (by simp), List.take_left, List.drop_left]

/-! ### The language -/

mutual

/-- The decoder reads the value from the bytes. -/
inductive Reads : Data → List UInt8 → Prop
  | integer {z : ℤ} {ds : List UInt8} (h : IntText ds z) :
    Reads (.integer z) (token 'i' :: ds ++ [token 'e'])
  | string {s bytes : List UInt8} (h : ReadsString s bytes) : Reads (.string s) bytes
  | list {items : List Data} {bytes : List UInt8} (h : ReadsItems items bytes) :
    Reads (.list items) (token 'l' :: bytes ++ [token 'e'])
  /-- The entries in the bytes are those of the map, in any order. -/
  | dict {entries read : Dict} {bytes : List UInt8} (h : ReadsEntries read bytes)
    (hkeys : SortedKeys entries) (hperm : entries.Perm read) :
    Reads (.dict entries) (token 'd' :: bytes ++ [token 'e'])

inductive ReadsItems : List Data → List UInt8 → Prop
  | nil : ReadsItems [] []
  | cons {value : Data} {items : List Data} {bytes rest : List UInt8} (h : Reads value bytes)
    (hs : ReadsItems items rest) : ReadsItems (value :: items) (bytes ++ rest)

inductive ReadsEntries : Dict → List UInt8 → Prop
  | nil : ReadsEntries [] []
  | cons {key : List UInt8} {value : Data} {entries : Dict} {keyBytes bytes rest : List UInt8}
    (hkey : ReadsString key keyBytes) (h : Reads value bytes) (hs : ReadsEntries entries rest) :
    ReadsEntries ((key, value) :: entries) (keyBytes ++ bytes ++ rest)

end

theorem ReadsString.eq_cons {s bytes : List UInt8} (h : ReadsString s bytes) :
    ∃ b bytes', bytes = b :: bytes' ∧ isDigit b = true := by
  cases h with
  | @mk ds s hne h =>
    obtain ⟨d, ds', rfl⟩ := List.exists_cons_of_ne_nil hne
    exact ⟨d, _, rfl, h.digits d List.mem_cons_self⟩

theorem ReadsString.decodeStr {s bytes : List UInt8} (h : ReadsString s bytes) (rest : List UInt8) :
    decodeStr (bytes ++ rest) = .ok (s, rest) := by
  obtain ⟨b, bytes', rfl, hb⟩ := h.eq_cons
  exact (decodeStr_eq_ok (by simpa using hb)).2 ⟨_, rfl, h⟩

theorem Reads.eq_cons {value : Data} {bytes : List UInt8} (h : Reads value bytes) :
    ∃ b bytes', bytes = b :: bytes' ∧ b ≠ token 'e' := by
  cases h with
  | integer | list | dict => exact ⟨_, _, rfl, by decide⟩
  | string h =>
    obtain ⟨b, bytes', rfl, hb⟩ := h.eq_cons
    exact ⟨b, bytes', rfl, ne_token hb (by decide)⟩

/-! ### The loop without a bound -/

namespace Decoder

/-- The rest of the loop. -/
def finish (d : Decoder) : Except Fault Decoder := proceed (d.rest.length + 1) d

theorem loop_eq_iterate {fuel : ℕ} {d : Decoder} (h : d.rest.length < fuel) :
    loop fuel d = d.iterate >>= finish := by
  cases fuel with
  | zero => exact absurd h (Nat.not_lt_zero _)
  | succ fuel =>
    rw [loop]
    cases hd : d.iterate with
    | error e => rfl
    | ok d₁ =>
      have hlt := length_of_iterate hd
      change (if d₁.state.isEmpty then _ else _) = if d₁.state.isEmpty then _ else _
      rw [loop_eq_loop (by omega : d₁.rest.length < fuel) (Nat.lt_succ_self _)]
      rfl

theorem finish_of_cons {rest : List UInt8} {result : Data} {container : Opened} {state : List Opened} :
    finish ⟨rest, result, container :: state⟩ =
      iterate ⟨rest, result, container :: state⟩ >>= finish :=
  loop_eq_iterate (Nat.lt_succ_self _)

/-- At the end of a container. -/
theorem finish_end {rest : List UInt8} {result : Data} {container : Opened} {state : List Opened} :
    finish ⟨token 'e' :: rest, result, container :: state⟩ =
      pop ⟨rest, result, container :: state⟩ >>= finish := by
  rw [finish_of_cons]
  rfl

end Decoder

open Decoder

/-! ### What is in the language is accepted -/

/-- The key is new in the dictionary on top of the stack. -/
def Fresh (key : List UInt8) : List Opened → Prop
  | .dict _ entries :: _ => ∀ x ∈ entries, key ≠ x.1
  | _ => True

theorem push_of_fresh {key rest : List UInt8} {result : Data} {state : List Opened}
    (h : Fresh key state) (container : Opened) :
    push ⟨rest, result, state⟩ key container = .ok ⟨rest, result, container :: state⟩ := by
  unfold push
  split
  · next heq =>
    dsimp only at heq
    rw [heq] at h
    have hnone : List.lookup key _ = none := List.lookup_eq_none_iff.2 fun x hx => by simpa using h x hx
    rw [hnone]
    rfl
  · rfl

/-- The decoder reads the value from the bytes and stores it. -/
def Stored (value : Data) (bytes : List UInt8) : Prop :=
  ∀ (rest key : List UInt8) (result : Data) (state : List Opened), Fresh key state →
    (Decoder.element ⟨bytes ++ rest, result, state⟩ key >>= finish) =
      (store ⟨rest, result, state⟩ key value >>= finish)

/-- The decoder reads the rest of a list and stores the list. -/
def ItemsStored (items : List Data) (bytes : List UInt8) : Prop :=
  ∀ (rest key : List UInt8) (result : Data) (done : List Data) (state : List Opened),
    finish ⟨bytes ++ token 'e' :: rest, result, .list key done :: state⟩ =
      (store ⟨rest, result, state⟩ key (.list (done ++ items)) >>= finish)

/-- The decoder reads the rest of a dictionary and stores the dictionary. -/
def EntriesStored (read : Dict) (bytes : List UInt8) : Prop :=
  ∀ (rest key : List UInt8) (result : Data) (done entries : Dict) (state : List Opened),
    SortedKeys done → SortedKeys entries → entries.Perm (done ++ read) →
      finish ⟨bytes ++ token 'e' :: rest, result, .dict key done :: state⟩ =
        (store ⟨rest, result, state⟩ key (.dict entries) >>= finish)

section Stored

variable {value : Data} {bytes bytes' : List UInt8}

theorem stored_integer {z : ℤ} {ds : List UInt8} (hz : IntText ds z) :
    Stored (.integer z) (token 'i' :: ds ++ [token 'e']) := by
  intro rest key result state _
  have hread : decodeInt (ds ++ token 'e' :: rest) = .ok (z, rest) := decodeInt_eq_ok.2 ⟨ds, rfl, hz⟩
  rw [List.append_assoc, List.cons_append, List.singleton_append]
  change (do let x ← decodeInt (ds ++ token 'e' :: rest); _) >>= finish = _
  rw [hread]
  rfl

theorem stored_string {s : List UInt8} (hs : ReadsString s bytes) : Stored (.string s) bytes := by
  intro rest key result state _
  obtain ⟨b, bytes', rfl, hb⟩ := hs.eq_cons
  have hread := hs.decodeStr rest
  unfold Decoder.element
  rw [List.cons_append] at hread ⊢
  dsimp only
  rw [if_neg (ne_token hb (by decide)), if_neg (ne_token hb (by decide)),
    if_neg (ne_token hb (by decide)), if_pos hb, hread]
  rfl

theorem stored_list {items : List Data} (hs : ItemsStored items bytes) :
    Stored (.list items) (token 'l' :: bytes ++ [token 'e']) := by
  intro rest key result state hfresh
  rw [List.append_assoc, List.cons_append, List.singleton_append]
  change Decoder.push ⟨_, result, state⟩ key (.list key []) >>= finish = _
  rw [push_of_fresh hfresh]
  exact hs rest key result [] state

theorem stored_dict {entries read : Dict} (hs : EntriesStored read bytes) (hkeys : SortedKeys entries)
    (hperm : entries.Perm read) : Stored (.dict entries) (token 'd' :: bytes ++ [token 'e']) := by
  intro rest key result state hfresh
  rw [List.append_assoc, List.cons_append, List.singleton_append]
  change Decoder.push ⟨_, result, state⟩ key (.dict key []) >>= finish = _
  rw [push_of_fresh hfresh]
  exact hs rest key result [] entries state List.Pairwise.nil hkeys hperm

theorem itemsStored_nil : ItemsStored [] [] := by
  intro rest key result done state
  rw [List.append_nil]
  exact finish_end

theorem itemsStored_cons {items : List Data} (hvalue : Reads value bytes) (h : Stored value bytes)
    (hs : ItemsStored items bytes') : ItemsStored (value :: items) (bytes ++ bytes') := by
  intro rest key result done state
  obtain ⟨b, tail, rfl, hb⟩ := hvalue.eq_cons
  rw [List.append_assoc, List.cons_append, finish_of_cons,
    iterate_element hb (fun _ _ _ heq => (by cases heq)), ← List.cons_append,
    h _ [] result (.list key done :: state) trivial]
  change finish ⟨_, result, .list key (done ++ [value]) :: state⟩ = _
  rw [hs, List.append_assoc, List.singleton_append]

theorem entriesStored_nil : EntriesStored [] [] := by
  intro rest key result done entries state hdone hkeys hperm
  rw [List.append_nil] at hperm
  rw [hkeys.eq_of_perm hdone hperm]
  exact finish_end

theorem entriesStored_cons {k keyBytes : List UInt8} {read : Dict} (hkey : ReadsString k keyBytes)
    (h : Stored value bytes) (hs : EntriesStored read bytes') :
    EntriesStored ((k, value) :: read) (keyBytes ++ bytes ++ bytes') := by
  intro rest key result done entries state hdone hkeys hperm
  obtain ⟨b, tail, rfl, hb⟩ := hkey.eq_cons
  have hmiddle : entries.Perm ((k, value) :: (done ++ read)) := hperm.trans List.perm_middle
  have hnew : ∀ x ∈ done, k ≠ x.1 :=
    fun x hx => hkeys.ne_of_perm hmiddle x (List.mem_append_left _ hx)
  obtain ⟨added, hadded⟩ := exists_emplace hnew value
  have hadd := (emplace_eq_some hdone).1 hadded
  rw [List.append_assoc, List.append_assoc, List.cons_append, finish_of_cons, iterate_dict hb,
    ← List.cons_append, hkey.decodeStr]
  change Decoder.element ⟨_, result, .dict key done :: state⟩ k >>= finish = _
  rw [h _ k result (.dict key done :: state) hnew]
  unfold store
  dsimp only
  rw [hadded]
  exact hs rest key result added entries state hadd.1 hkeys
    (hmiddle.trans (hadd.2.symm.append_right read))

/-- What is in the language is read and stored. -/
theorem Reads.stored (h : Reads value bytes) : Stored value bytes :=
  @Reads.rec (fun value bytes _ => Stored value bytes) (fun items bytes _ => ItemsStored items bytes)
    (fun read bytes _ => EntriesStored read bytes) stored_integer stored_string
    (fun _ hs => stored_list hs) (fun _ hkeys hperm hs => stored_dict hs hkeys hperm) itemsStored_nil
    (fun hvalue _ h hs => itemsStored_cons hvalue h hs) entriesStored_nil
    (fun hkey _ _ h hs => entriesStored_cons hkey h hs) value bytes h

end Stored

/-! ### What is accepted is in the language -/

/-- The bytes complete the open container. -/
inductive Completes : Opened → List UInt8 → Data → Prop
  | list {key : List UInt8} {done items : List Data} {bytes : List UInt8} (h : ReadsItems items bytes) :
    Completes (.list key done) bytes (.list (done ++ items))
  | dict {key : List UInt8} {done read entries : Dict} {bytes : List UInt8} (h : ReadsEntries read bytes)
    (hkeys : SortedKeys entries) (hperm : entries.Perm (done ++ read)) :
    Completes (.dict key done) bytes (.dict entries)

namespace Opened

def key : Opened → List UInt8
  | list key _ => key
  | dict key _ => key

/-- The map of an open dictionary is sorted. -/
def Sorted : Opened → Prop
  | list _ _ => True
  | dict _ entries => SortedKeys entries

end Opened

/-- An item before those that complete a list. -/
theorem Completes.item {key bytes rest : List UInt8} {done : List Data} {value list : Data}
    (h : Reads value bytes) (hs : Completes (.list key (done ++ [value])) rest list) :
    Completes (.list key done) (bytes ++ rest) list := by
  cases hs with
  | list hs =>
    rw [List.append_assoc, List.singleton_append]
    exact .list (.cons h hs)

/-- An entry before those that complete a dictionary. -/
theorem Completes.entry {key k keyBytes bytes rest : List UInt8} {done added : Dict}
    {value dict : Data} (hkey : ReadsString k keyBytes) (h : Reads value bytes)
    (hadded : added.Perm ((k, value) :: done)) (hs : Completes (.dict key added) rest dict) :
    Completes (.dict key done) (keyBytes ++ bytes ++ rest) dict := by
  cases hs with
  | dict hs hkeys hperm =>
    exact .dict (.cons hkey h hs) hkeys
      (hperm.trans ((hadded.append_right _).trans List.perm_middle.symm))

namespace Decoder

variable {result : Data} {state : List Opened} {key : List UInt8} {r : Decoder}

/-- Nothing more is in the container. -/
theorem completes_nil {container : Opened} (hsorted : container.Sorted) (rest : List UInt8)
    (result : Data) (state : List Opened) :
    ∃ value, Completes container [] value ∧
      pop ⟨rest, result, container :: state⟩ = store ⟨rest, result, state⟩ container.key value := by
  cases container with
  | list key done =>
    refine ⟨.list done, ?_, rfl⟩
    have h : Completes (.list key done) [] (.list (done ++ [])) := .list .nil
    rwa [List.append_nil] at h
  | dict key done =>
    exact ⟨.dict done, .dict .nil hsorted (by rw [List.append_nil]), rfl⟩

/-- From `n` bytes, a loop that returns has completed the container on top. -/
def LoopCompletes (n : ℕ) : Prop :=
  ∀ {bytes : List UInt8} {result : Data} {container : Opened} {state : List Opened} {r : Decoder},
    bytes.length = n → container.Sorted → finish ⟨bytes, result, container :: state⟩ = .ok r →
      ∃ value pre rest, bytes = pre ++ token 'e' :: rest ∧ Completes container pre value ∧
        (store ⟨rest, result, state⟩ container.key value >>= finish) = .ok r

/-- An element that is read is in the language, if this holds of the elements in it. -/
theorem reads_of_element {bytes : List UInt8} (hloop : ∀ n < bytes.length, LoopCompletes n)
    (h : (element ⟨bytes, result, state⟩ key >>= finish) = .ok r) :
    ∃ value pre rest, bytes = pre ++ rest ∧ Reads value pre ∧
      (store ⟨rest, result, state⟩ key value >>= finish) = .ok r := by
  obtain ⟨d, hd, hfinish⟩ := bind_eq_ok.1 h
  rcases bytes with _ | ⟨b, bytes⟩
  · cases hd
  unfold element at hd
  dsimp only at hd
  have hlt : bytes.length < (b :: bytes).length := Nat.lt_succ_self _
  split_ifs at hd with hi hl hdict hdigit
  · obtain ⟨⟨z, rest⟩, hread, hstore⟩ := bind_eq_ok.1 hd
    obtain ⟨ds, rfl, hz⟩ := decodeInt_eq_ok.1 hread
    exact ⟨.integer z, token 'i' :: ds ++ [token 'e'], rest, by simp [hi], .integer hz,
      bind_eq_ok.2 ⟨d, hstore, hfinish⟩⟩
  · rw [push_eq_ok hd] at hfinish
    have hsorted : (Opened.list key []).Sorted := trivial
    obtain ⟨value, pre, rest, rfl, hcompletes, hstore⟩ := hloop _ hlt rfl hsorted hfinish
    cases hcompletes with
    | list hs =>
      exact ⟨_, token 'l' :: pre ++ [token 'e'], rest, by simp [hl], .list hs, hstore⟩
  · rw [push_eq_ok hd] at hfinish
    have hsorted : (Opened.dict key []).Sorted := List.Pairwise.nil
    obtain ⟨value, pre, rest, rfl, hcompletes, hstore⟩ := hloop _ hlt rfl hsorted hfinish
    cases hcompletes with
    | dict hs hkeys hperm =>
      exact ⟨_, token 'd' :: pre ++ [token 'e'], rest, by simp [hdict], .dict hs hkeys hperm, hstore⟩
  · obtain ⟨⟨s, rest⟩, hread, hstore⟩ := bind_eq_ok.1 hd
    obtain ⟨pre, hpre, hs⟩ := (decodeStr_eq_ok (by simpa using hdigit)).1 hread
    exact ⟨.string s, pre, rest, hpre, .string hs, bind_eq_ok.2 ⟨d, hstore, hfinish⟩⟩

theorem loopCompletes_of_lt {n : ℕ} (hloop : ∀ m < n, LoopCompletes m) : LoopCompletes n := by
  intro bytes result container state r hlen hsorted h
  rw [finish_of_cons] at h
  rcases bytes with _ | ⟨b, bytes⟩
  · cases h
  by_cases hb : b = token 'e'
  · obtain ⟨value, hcompletes, hpop⟩ := completes_nil hsorted bytes result state
    refine ⟨value, [], bytes, by rw [hb]; rfl, hcompletes, ?_⟩
    rw [← hpop, ← h]
    unfold iterate
    dsimp only
    rw [if_pos hb]
  cases container with
  | list k done =>
    rw [iterate_element hb (fun _ _ _ heq => (by cases heq))] at h
    obtain ⟨value, pre, rest, hbytes, hvalue, hstore⟩ :=
      reads_of_element (fun m hm => hloop m (hm.trans_eq hlen)) h
    obtain ⟨c, pre', rfl, -⟩ := hvalue.eq_cons
    have hlt : rest.length < n := by
      rw [← hlen, hbytes, List.length_append, List.length_cons]
      omega
    have hsorted : (Opened.list k (done ++ [value])).Sorted := trivial
    obtain ⟨list, pre, rest, rfl, hcompletes, hstore⟩ := hloop _ hlt rfl hsorted hstore
    exact ⟨list, _, rest, by rw [hbytes, List.append_assoc], hcompletes.item hvalue, hstore⟩
  | dict k done =>
    have hdigit : isDigit b = true := by
      by_contra hdigit
      unfold iterate at h
      dsimp only at h
      rw [if_neg hb, if_neg hdigit] at h
      cases h
    rw [iterate_dict hdigit, bind_assoc] at h
    obtain ⟨⟨s, rest⟩, hread, h⟩ := bind_eq_ok.1 h
    obtain ⟨keyBytes, hbytes, hkey⟩ := (decodeStr_eq_ok (by simpa using hdigit)).1 hread
    have hrest : rest.length < n := hlen ▸ length_of_decodeStr hread
    obtain ⟨value, pre, rest, rfl, hvalue, hstore⟩ :=
      reads_of_element (fun m hm => hloop m (hm.trans hrest)) h
    obtain ⟨added, hadded⟩ : ∃ added, emplace s value done = some added := by
      by_contra hnone
      unfold store at hstore
      dsimp only at hstore
      rw [Option.eq_none_iff_forall_ne_some.2 fun added hadded => hnone ⟨added, hadded⟩] at hstore
      cases hstore
    have hadd := (emplace_eq_some hsorted).1 hadded
    have hlt : rest.length < n := by
      rw [List.length_append] at hrest
      omega
    unfold store at hstore
    dsimp only at hstore
    rw [hadded] at hstore
    have hsorted' : (Opened.dict k added).Sorted := hadd.1
    obtain ⟨dict, pre', rest, rfl, hcompletes, hstore⟩ := hloop _ hlt rfl hsorted' hstore
    refine ⟨dict, _, rest, ?_, hcompletes.entry hkey hvalue hadd.2, hstore⟩
    rw [hbytes, List.append_assoc, List.append_assoc]

theorem loopCompletes (n : ℕ) : LoopCompletes n := by
  induction n using Nat.strong_induction_on with
  | _ n hloop => exact loopCompletes_of_lt hloop

/-- From a sequence of bytes, the loop returns the value of the word it begins with, and what is left. -/
theorem loop_eq_ok_iff {bytes rest : List UInt8} {value : Data} :
    loop (bytes.length + 1) { rest := bytes } = .ok ⟨rest, value, []⟩ ↔
      ∃ pre, bytes = pre ++ rest ∧ Reads value pre := by
  have hloop : loop (bytes.length + 1) { rest := bytes } = iterate { rest := bytes } >>= finish :=
    loop_eq_iterate (Nat.lt_succ_self _)
  rw [hloop]
  constructor
  · intro h
    rcases bytes with _ | ⟨b, bytes⟩
    · cases h
    by_cases hb : b = token 'e'
    · unfold iterate at h
      dsimp only at h
      rw [if_pos hb] at h
      cases h
    · rw [iterate_element hb (fun _ _ _ heq => (by cases heq))] at h
      obtain ⟨value', pre, rest', hbytes, hvalue, hstore⟩ :=
        reads_of_element (fun n _ => loopCompletes n) h
      cases hstore
      exact ⟨pre, hbytes, hvalue⟩
  · rintro ⟨pre, rfl, hvalue⟩
    obtain ⟨b, pre', rfl, hb⟩ := hvalue.eq_cons
    rw [List.cons_append, iterate_element hb (fun _ _ _ heq => (by cases heq)), ← List.cons_append,
      hvalue.stored rest [] default [] trivial]
    rfl

/-- The loop ends with an empty stack. -/
theorem state_of_loop {fuel : ℕ} {d : Decoder} (h : loop fuel d = .ok r) : r.state = [] := by
  induction fuel generalizing d with
  | zero => cases h
  | succ fuel ih =>
    obtain ⟨d₁, -, h⟩ := bind_eq_ok.1 h
    split_ifs at h with hempty
    · cases h
      exact List.isEmpty_iff.1 hempty
    · exact ih h

end Decoder

theorem reads_of_decode {bytes : List UInt8} {value : Data} (h : decode bytes = .ok value) :
    ∃ pre rest, bytes = pre ++ rest ∧ Reads value pre := by
  obtain ⟨⟨rest, value', state⟩, hloop, hresult⟩ := bind_eq_ok.1 h
  obtain rfl : state = [] := state_of_loop hloop
  cases hresult
  obtain ⟨pre, hbytes, hvalue⟩ := loop_eq_ok_iff.1 hloop
  exact ⟨pre, rest, hbytes, hvalue⟩

theorem Reads.decode_append {pre : List UInt8} {value : Data} (h : Reads value pre) (rest : List UInt8) :
    decode (pre ++ rest) = .ok value :=
  bind_eq_ok.2 ⟨_, loop_eq_ok_iff.2 ⟨pre, rfl, h⟩, rfl⟩

/-- The decoder accepts exactly the sequences that begin with a word of the language, and returns its
value. -/
theorem decode_eq_ok_iff {bytes : List UInt8} {value : Data} :
    decode bytes = .ok value ↔ ∃ pre rest, bytes = pre ++ rest ∧ Reads value pre := by
  constructor
  · exact reads_of_decode
  · rintro ⟨pre, rest, rfl, hvalue⟩
    exact hvalue.decode_append rest

/-! ### What is returned can be encoded -/

mutual

/-- The numbers in the value fit. -/
def Fits : Data → Prop
  | .integer z => longLong.min ≤ z ∧ z ≤ longLong.max
  | .string s => (s.length : ℤ) ≤ sizeT.max
  | .list items => FitsItems items
  | .dict entries => FitsEntries entries

def FitsItems : List Data → Prop
  | [] => True
  | value :: items => Fits value ∧ FitsItems items

def FitsEntries : Dict → Prop
  | [] => True
  | (key, value) :: entries => (key.length : ℤ) ≤ sizeT.max ∧ Fits value ∧ FitsEntries entries

end

theorem ascendingEntries_iff {entries : Dict} :
    AscendingEntries entries ↔ ∀ x ∈ entries, Ascending x.2 := by
  induction entries with
  | nil => exact iff_of_true trivial fun _ hx => absurd hx List.not_mem_nil
  | cons x entries ih => rw [AscendingEntries, ih, List.forall_mem_cons]

theorem fitsEntries_iff {entries : Dict} :
    FitsEntries entries ↔ ∀ x ∈ entries, (x.1.length : ℤ) ≤ sizeT.max ∧ Fits x.2 := by
  induction entries with
  | nil => exact iff_of_true trivial fun _ hx => absurd hx List.not_mem_nil
  | cons x entries ih => rw [FitsEntries, ih, List.forall_mem_cons, and_assoc]

theorem IntText.fits {ds : List UInt8} {z : ℤ} (h : IntText ds z) : Fits (.integer z) := by
  cases h with
  | nonneg h => exact ⟨h.min_le, h.le_max⟩
  | neg h => exact ⟨h.min_le, h.le_max⟩

theorem ReadsString.fits {s bytes : List UInt8} (h : ReadsString s bytes) : Fits (.string s) := by
  cases h with
  | mk _ h => exact h.le_max

/-- A value of the language has sorted maps and numbers that fit. -/
theorem Reads.ascending_fits {value : Data} {bytes : List UInt8} (h : Reads value bytes) :
    Ascending value ∧ Fits value :=
  @Reads.rec (fun value _ _ => Ascending value ∧ Fits value)
    (fun items _ _ => AscendingItems items ∧ FitsItems items)
    (fun read _ _ => AscendingEntries read ∧ FitsEntries read)
    (fun h => ⟨trivial, h.fits⟩) (fun h => ⟨trivial, h.fits⟩) (fun _ hs => hs)
    (fun _ hkeys hperm hs => ⟨⟨hkeys, ascendingEntries_iff.2 fun x hx =>
      ascendingEntries_iff.1 hs.1 x (hperm.subset hx)⟩,
      fitsEntries_iff.2 fun x hx => fitsEntries_iff.1 hs.2 x (hperm.subset hx)⟩)
    ⟨trivial, trivial⟩ (fun _ _ h hs => ⟨⟨h.1, hs.1⟩, h.2, hs.2⟩) ⟨trivial, trivial⟩
    (fun hkey _ _ h hs => ⟨⟨h.1, hs.1⟩, hkey.fits, h.2, hs.2⟩) value bytes h

/-! ### Encodings are in the language -/

/-- A numeral has as many digits as its number needs. -/
theorem length_of_numeral {ds : List UInt8} {n k : ℕ} (h : Numeral ds n) (hn : n < 10 ^ (k + 1)) :
    ds.length ≤ k + 1 := by
  rw [h.eq_decimal, decimal]
  split_ifs with hzero
  · exact Nat.le_add_left _ _
  · rw [List.length_map, List.length_reverse]
    exact (Nat.digits_length_le_iff (by decide) n).2 hn

theorem digits_of_numeral {limits : IntegerLimits} {sgn : ℤ} {ds : List UInt8} {n : ℕ}
    (h : Numeral ds n) (hn : n < 10 ^ (limits.digits10 + 1)) (hmin : limits.min ≤ n * sgn)
    (hmax : (n : ℤ) * sgn ≤ limits.max) : Digits limits sgn ds (n * sgn) :=
  ⟨h.digits, length_of_numeral h hn, by rw [h.value], hmin, hmax⟩

theorem intText_decimalInt {z : ℤ} (h : Fits (.integer z)) : IntText (decimalInt z) z := by
  obtain ⟨hmin, hmax⟩ := h
  simp only [longLong] at hmin hmax
  have hn : z.natAbs < 10 ^ (longLong.digits10 + 1) := by
    simp only [longLong]
    omega
  unfold decimalInt
  split_ifs with hneg
  · have habs : z = z.natAbs * (-1) := by omega
    rw [habs] at hmin hmax
    have hdigits := digits_of_numeral (numeral_decimal z.natAbs) hn hmin hmax
    rw [← habs] at hdigits
    exact .neg hdigits
  · have habs : z = z.natAbs * 1 := by omega
    rw [habs] at hmin hmax
    have hdigits := digits_of_numeral (numeral_decimal z.natAbs) hn hmin hmax
    rw [← habs] at hdigits
    exact .nonneg hdigits

theorem readsString_encodeString {s : List UInt8} (h : (s.length : ℤ) ≤ sizeT.max) :
    ReadsString s (encodeString s) := by
  have hn : s.length < 10 ^ (sizeT.digits10 + 1) := by
    simp only [sizeT] at h ⊢
    omega
  have hnum := numeral_decimal s.length
  have hdigits : Digits sizeT 1 (decimal s.length) (s.length * 1) :=
    digits_of_numeral hnum hn (Int.natCast_nonneg _) (by rwa [mul_one])
  rw [mul_one] at hdigits
  exact .mk hnum.nonempty hdigits

mutual

/-- The encoding of a value is in the language. -/
theorem reads_encode {value : Data} (h : Ascending value) (hfits : Fits value) :
    Reads value (encode value) := by
  cases value with
  | integer z => exact .integer (intText_decimalInt hfits)
  | string s => exact .string (readsString_encodeString hfits)
  | list items => exact .list (readsItems_encode h hfits)
  | dict entries => exact .dict (readsEntries_encode h.2 hfits) h.1 (.refl _)

theorem readsItems_encode {items : List Data} (h : AscendingItems items) (hfits : FitsItems items) :
    ReadsItems items (encodeItems items) := by
  cases items with
  | nil => exact .nil
  | cons value items => exact .cons (reads_encode h.1 hfits.1) (readsItems_encode h.2 hfits.2)

theorem readsEntries_encode {entries : Dict} (h : AscendingEntries entries)
    (hfits : FitsEntries entries) : ReadsEntries entries (encodeEntries entries) := by
  cases entries with
  | nil => exact .nil
  | cons x entries =>
    obtain ⟨key, value⟩ := x
    exact .cons (readsString_encodeString hfits.1) (reads_encode h.1 hfits.2.1)
      (readsEntries_encode h.2 hfits.2.2)

end

/-- A value with sorted maps whose numbers fit is read back from its encoding, whatever follows. -/
theorem decode_encode {value : Data} (h : Ascending value) (hfits : Fits value) (rest : List UInt8) :
    decode (encode value ++ rest) = .ok value :=
  (reads_encode h hfits).decode_append rest

/-- A dictionary in which there is a list. -/
def nested : Data := .dict [(ascii "a", .list [.integer (-5), .string (ascii "x")])]

theorem decode_encode_sample : decode (ascii "d1:ali-5e1:xee!") = .ok nested := by
  have hascending : Ascending nested := ⟨by decide, ⟨trivial, trivial, trivial⟩, trivial⟩
  have hfits : Fits nested :=
    ⟨by decide, ⟨⟨by decide, by decide⟩, show (1 : ℤ) ≤ sizeT.max by decide, trivial⟩, trivial⟩
  have hencode : encode nested ++ ascii "!" = ascii "d1:ali-5e1:xee!" := by decide +kernel
  rw [← hencode]
  exact decode_encode hascending hfits (ascii "!")

/-- What is accepted has the value of a canonical bencoding, which is what the encoder writes for it. -/
theorem decode_normal {bytes : List UInt8} {value : Data} (h : decode bytes = .ok value) :
    Bencodes value (encode value) ∧ ∀ rest, decode (encode value ++ rest) = .ok value := by
  obtain ⟨pre, rest, -, hread⟩ := reads_of_decode h
  obtain ⟨hascending, hfits⟩ := hread.ascending_fits
  exact ⟨bencodes_encode hascending, (reads_encode hascending hfits).decode_append⟩

/-- The entries stand in the wrong order, and the numbers have zeros in front. -/
theorem decode_normal_sample :
    decode (ascii "d1:bi007e01:ali-0eee!") =
        .ok (.dict [(ascii "a", .list [.integer 0]), (ascii "b", .integer 7)]) ∧
      ∀ rest, decode (ascii "d1:ali0ee1:bi7ee" ++ rest) =
        .ok (.dict [(ascii "a", .list [.integer 0]), (ascii "b", .integer 7)]) := by
  have hdecode : decode (ascii "d1:bi007e01:ali-0eee!") =
      .ok (.dict [(ascii "a", .list [.integer 0]), (ascii "b", .integer 7)]) := rfl
  exact ⟨hdecode, (decode_normal hdecode).2⟩

end FTorrent
