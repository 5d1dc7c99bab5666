import FTorrent.Bencode

/-!
# Canonical bencoding

`Bencodes value bytes` is the grammar of canonical bencoding: numerals have no leading zero, and the keys
of a dictionary ascend.  The encoder writes exactly these bytes (`Bencodes.encode_eq`); the decoder, if it
does not throw, reads the value back from them (`Bencodes.decode_eq`), whatever is open around it.
-/

namespace FTorrent

open Lib

/-! ### The grammar -/

/-- The length of the string, a colon and the string. -/
inductive BencodesString : List UInt8 → List UInt8 → Prop
  | mk {ds s : List UInt8} (h : Numeral ds s.length) : BencodesString s (ds ++ token ':' :: s)

mutual

/-- The bytes are the canonical bencoding of the value. -/
inductive Bencodes : Data → List UInt8 → Prop
  | integer {z : ℤ} {ds : List UInt8} (h : IntNumeral ds z) :
    Bencodes (.integer z) (token 'i' :: ds ++ [token 'e'])
  | string {s bytes : List UInt8} (h : BencodesString s bytes) : Bencodes (.string s) bytes
  | list {items : List Data} {bytes : List UInt8} (h : BencodesItems items bytes) :
    Bencodes (.list items) (token 'l' :: bytes ++ [token 'e'])
  | dict {entries : Dict} {bytes : List UInt8} (hkeys : SortedKeys entries)
    (h : BencodesEntries entries bytes) :
    Bencodes (.dict entries) (token 'd' :: bytes ++ [token 'e'])

inductive BencodesItems : List Data → List UInt8 → Prop
  | nil : BencodesItems [] []
  | cons {value : Data} {items : List Data} {bytes rest : List UInt8} (h : Bencodes value bytes)
    (hs : BencodesItems items rest) : BencodesItems (value :: items) (bytes ++ rest)

inductive BencodesEntries : Dict → List UInt8 → Prop
  | nil : BencodesEntries [] []
  | cons {key : List UInt8} {value : Data} {entries : Dict} {keyBytes bytes rest : List UInt8}
    (hkey : BencodesString key keyBytes) (h : Bencodes value bytes)
    (hs : BencodesEntries entries rest) :
    BencodesEntries ((key, value) :: entries) (keyBytes ++ bytes ++ rest)

end

theorem BencodesString.eq_cons {s bytes : List UInt8} (h : BencodesString s bytes) :
    ∃ b bytes', bytes = b :: bytes' ∧ isDigit b = true := by
  cases h with
  | mk h =>
    obtain ⟨b, ds, rfl, hb⟩ := h.eq_cons
    exact ⟨b, _, rfl, hb⟩

/-! ### The encoder writes it -/

theorem BencodesString.encode_eq {s bytes : List UInt8} (h : BencodesString s bytes) :
    encodeString s = bytes := by
  cases h with
  | mk h => rw [encodeString, h.eq_decimal]

mutual

theorem Bencodes.encode_eq {value : Data} {bytes : List UInt8} (h : Bencodes value bytes) :
    encode value = bytes := by
  cases h with
  | integer h => rw [encode, h.eq_decimalInt]
  | string h => rw [encode, h.encode_eq]
  | list h => rw [encode, h.encode_eq]
  | dict _ h => rw [encode, h.encode_eq]

theorem BencodesItems.encode_eq {items : List Data} {bytes : List UInt8}
    (h : BencodesItems items bytes) : encodeItems items = bytes := by
  cases h with
  | nil => rfl
  | cons h hs => rw [encodeItems, h.encode_eq, hs.encode_eq]

theorem BencodesEntries.encode_eq {entries : Dict} {bytes : List UInt8}
    (h : BencodesEntries entries bytes) : encodeEntries entries = bytes := by
  cases h with
  | nil => rfl
  | cons hkey h hs => rw [encodeEntries, hkey.encode_eq, h.encode_eq, hs.encode_eq]

end

mutual

/-- The keys of all dictionaries in the value ascend. -/
def Ascending : Data → Prop
  | .integer _ => True
  | .string _ => True
  | .list items => AscendingItems items
  | .dict entries => SortedKeys entries ∧ AscendingEntries entries

def AscendingItems : List Data → Prop
  | [] => True
  | value :: items => Ascending value ∧ AscendingItems items

def AscendingEntries : Dict → Prop
  | [] => True
  | (_, value) :: entries => Ascending value ∧ AscendingEntries entries

end

theorem bencodesString (s : List UInt8) : BencodesString s (encodeString s) :=
  .mk (numeral_decimal s.length)

mutual

/-- What the encoder writes is canonical. -/
theorem bencodes_encode {value : Data} (h : Ascending value) : Bencodes value (encode value) := by
  cases value with
  | integer value => exact .integer (intNumeral_decimalInt value)
  | string value => exact .string (bencodesString value)
  | list items => exact .list (bencodesItems_encode h)
  | dict entries => exact .dict h.1 (bencodesEntries_encode h.2)

theorem bencodesItems_encode {items : List Data} (h : AscendingItems items) :
    BencodesItems items (encodeItems items) := by
  cases items with
  | nil => exact .nil
  | cons value items => exact .cons (bencodes_encode h.1) (bencodesItems_encode h.2)

theorem bencodesEntries_encode {entries : Dict} (h : AscendingEntries entries) :
    BencodesEntries entries (encodeEntries entries) := by
  cases entries with
  | nil => exact .nil
  | cons x entries =>
    obtain ⟨key, value⟩ := x
    exact .cons (bencodesString key) (bencodes_encode h.1) (bencodesEntries_encode h.2)

end

/-! ### Numbers and strings are read back -/

section Digits

variable {limits : IntegerLimits} {sgn : ℤ}

/-- Digits that are followed by something else are read as their number, unless it is too large. -/
theorem decodeDigits_eq {ds rest : List UInt8} {c : UInt8} {unchecked : ℕ} {value : ℤ}
    {r : ℤ × List UInt8} (hds : ∀ d ∈ ds, isDigit d = true) (hc : isDigit c = false)
    (h : decodeDigits limits sgn unchecked value (ds ++ c :: rest) = .ok r) :
    r = (ds.foldl (fun v d => v * 10 + digitValue d * sgn) value, c :: rest) := by
  induction ds generalizing unchecked value with
  | nil =>
    rw [List.nil_append] at h
    cases unchecked with
    | zero =>
      rw [decodeDigits, hc] at h
      cases h
      rfl
    | succ unchecked =>
      rw [decodeDigits, hc] at h
      cases h
      rfl
  | cons d ds ih =>
    obtain ⟨hd, hds⟩ := List.forall_mem_cons.1 hds
    rw [List.cons_append] at h
    cases unchecked with
    | zero =>
      rw [decodeDigits, if_pos hd] at h
      obtain ⟨-, -, hend⟩ := bind_eq_ok.1 h
      cases ds with
      | nil =>
        rw [List.nil_append, endDigits, hc] at hend
        cases hend
        rfl
      | cons d' ds =>
        rw [List.cons_append, endDigits, if_pos (hds d' List.mem_cons_self)] at hend
        cases hend
    | succ unchecked =>
      rw [decodeDigits, if_pos hd] at h
      exact ih hds h

theorem foldl_sgn (sgn : ℤ) (ds : List UInt8) (v : ℕ) :
    ds.foldl (fun v d => v * 10 + digitValue d * sgn) (v * sgn) =
      ds.foldl (fun v d => v * 10 + digitValue d) v * sgn := by
  induction ds generalizing v with
  | nil => rfl
  | cons d ds ih =>
    rw [List.foldl_cons, List.foldl_cons, ← ih]
    congr 1
    push_cast
    ring

/-- A numeral is read as its number. -/
theorem decodeDigits_numeral {ds rest : List UInt8} {n : ℕ} {c : UInt8} {unchecked : ℕ}
    {r : ℤ × List UInt8} (hn : Numeral ds n) (hc : isDigit c = false)
    (h : decodeDigits limits sgn unchecked 0 (ds ++ c :: rest) = .ok r) :
    r = (n * sgn, c :: rest) := by
  rw [decodeDigits_eq hn.digits hc h]
  have hfold := foldl_sgn sgn ds 0
  rw [Nat.cast_zero, zero_mul] at hfold
  rw [hfold, ← hn.value]
  rfl

end Digits

theorem ne_token {b : UInt8} (hb : isDigit b = true) {c : Char} (hc : isDigit (token c) = false) :
    b ≠ token c := by
  rintro rfl
  exact absurd (hb.symm.trans hc) (by decide)

theorem decodeInt_eq {ds rest : List UInt8} {z : ℤ} (hz : IntNumeral ds z)
    {r : ℤ × List UInt8} (h : decodeInt (ds ++ token 'e' :: rest) = .ok r) : r = (z, rest) := by
  cases hz with
  | nonneg hn =>
    obtain ⟨d, ds', rfl, hd⟩ := hn.eq_cons
    rw [List.cons_append, decodeInt, if_neg (ne_token hd (by decide)), ← List.cons_append] at h
    obtain ⟨x, hx, hend⟩ := bind_eq_ok.1 h
    obtain rfl := decodeDigits_numeral hn (by decide) hx
    cases hend
    rw [mul_one]
  | neg hn _ =>
    rw [List.cons_append, decodeInt, if_pos (by decide)] at h
    obtain ⟨x, hx, hend⟩ := bind_eq_ok.1 h
    obtain rfl := decodeDigits_numeral hn (by decide) hx
    cases hend
    rw [mul_neg_one]

theorem decodeStr_eq {s bytes rest : List UInt8} (hs : BencodesString s bytes)
    {r : List UInt8 × List UInt8} (h : decodeStr (bytes ++ rest) = .ok r) : r = (s, rest) := by
  cases hs with
  | mk hn =>
    rw [List.append_assoc, List.cons_append] at h
    obtain ⟨x, hx, h⟩ := bind_eq_ok.1 h
    obtain rfl := decodeDigits_numeral hn (by decide) hx
    dsimp only at h
    rw [if_neg (by decide), mul_one, Int.toNat_natCast] at h
    split_ifs at h
    cases h
    rw [List.take_left, List.drop_left]

/-! ### The decoder reads it back -/

/-- What the loop does after an iteration. -/
def Decoder.proceed (fuel : ℕ) (d : Decoder) : Except Fault Decoder :=
  if d.state.isEmpty then .ok d else loop fuel d

theorem Bencodes.eq_cons {value : Data} {bytes : List UInt8} (h : Bencodes value bytes) :
    ∃ b bytes', bytes = b :: bytes' ∧ b ≠ token 'e' := by
  cases h with
  | integer | list | dict => exact ⟨_, _, rfl, by decide⟩
  | string h =>
    obtain ⟨b, bytes', rfl, hb⟩ := h.eq_cons
    exact ⟨b, bytes', rfl, ne_token hb (by decide)⟩

namespace Decoder

variable {rest : List UInt8} {result : Data} {state : List Opened} {key : List UInt8} {fuel : ℕ}
  {r : Decoder}

theorem loop_eq_ok {d : Decoder} (h : loop fuel d = .ok r) :
    ∃ fuel', (d.iterate >>= proceed fuel') = .ok r := by
  cases fuel with
  | zero => cases h
  | succ fuel => exact ⟨fuel, h⟩

/-- A container that is opened becomes the top of the stack. -/
theorem push_eq_ok {d : Decoder} {container : Opened} (h : d.push key container = .ok r) :
    r = { d with state := container :: d.state } := by
  unfold push at h
  split at h
  · split_ifs at h
    cases h
    rfl
  · cases h
    rfl

theorem iterate_element {b : UInt8} (hb : b ≠ token 'e')
    (hstate : ∀ key entries state', state ≠ .dict key entries :: state') :
    iterate ⟨b :: rest, result, state⟩ = element ⟨b :: rest, result, state⟩ [] := by
  unfold iterate
  dsimp only
  rw [if_neg hb]
  split
  · next key entries state' => exact absurd rfl (hstate key entries state')
  · rfl

theorem iterate_dict {b : UInt8} (hb : isDigit b = true) {entries : Dict} :
    iterate ⟨b :: rest, result, .dict key entries :: state⟩ = decodeStr (b :: rest) >>=
      fun x => element ⟨x.2, result, .dict key entries :: state⟩ x.1 := by
  unfold iterate
  dsimp only
  rw [if_neg (ne_token hb (by decide)), if_pos hb]

end Decoder

open Decoder

mutual

/-- The decoder stores the value, or throws. -/
theorem Bencodes.element {value : Data} {bytes rest key : List UInt8} {result : Data}
    {state : List Opened} {fuel : ℕ} {r : Decoder} (h : Bencodes value bytes)
    (hr : (Decoder.element ⟨bytes ++ rest, result, state⟩ key >>= proceed fuel) = .ok r) :
    ∃ fuel', (store ⟨rest, result, state⟩ key value >>= proceed fuel') = .ok r := by
  obtain ⟨d, hd, hproceed⟩ := bind_eq_ok.1 hr
  cases h with
  | integer hz =>
    rw [List.append_assoc, List.cons_append, List.singleton_append] at hd
    obtain ⟨x, hx, hstore⟩ := bind_eq_ok.1 hd
    obtain rfl := decodeInt_eq hz hx
    exact ⟨fuel, bind_eq_ok.2 ⟨d, hstore, hproceed⟩⟩
  | string hs =>
    obtain ⟨b, bytes', rfl, hb⟩ := hs.eq_cons
    unfold Decoder.element at hd
    rw [List.cons_append] at hd
    dsimp only at hd
    rw [if_neg (ne_token hb (by decide)), if_neg (ne_token hb (by decide)),
      if_neg (ne_token hb (by decide)), if_pos hb] at hd
    obtain ⟨x, hx, hstore⟩ := bind_eq_ok.1 hd
    obtain rfl := decodeStr_eq hs hx
    exact ⟨fuel, bind_eq_ok.2 ⟨d, hstore, hproceed⟩⟩
  | list hs =>
    rw [List.append_assoc, List.cons_append, List.singleton_append] at hd
    obtain rfl := push_eq_ok (show Decoder.push _ key _ = .ok d from hd)
    exact hs.loop hproceed
  | dict hkeys hs =>
    rw [List.append_assoc, List.cons_append, List.singleton_append] at hd
    obtain rfl := push_eq_ok (show Decoder.push _ key _ = .ok d from hd)
    exact hs.loop (show SortedKeys ([] ++ _) from hkeys) hproceed

/-- The decoder reads the rest of a list and stores the list, or throws. -/
theorem BencodesItems.loop {items : List Data} {bytes rest key : List UInt8} {result : Data}
    {done : List Data} {state : List Opened} {fuel : ℕ} {r : Decoder} (h : BencodesItems items bytes)
    (hr : Decoder.loop fuel ⟨bytes ++ token 'e' :: rest, result, .list key done :: state⟩ = .ok r) :
    ∃ fuel', (store ⟨rest, result, state⟩ key (.list (done ++ items)) >>= proceed fuel') = .ok r := by
  obtain ⟨fuel', hr⟩ := loop_eq_ok hr
  cases h with
  | nil =>
    rw [List.append_nil]
    exact ⟨fuel', hr⟩
  | cons h hs =>
    obtain ⟨b, bytes', rfl, hb⟩ := h.eq_cons
    rw [List.append_assoc, List.cons_append,
      iterate_element hb (fun _ _ _ heq => (by cases heq)), ← List.cons_append] at hr
    obtain ⟨fuel₁, hr⟩ := h.element hr
    obtain ⟨fuel₂, hr⟩ := hs.loop hr
    rw [List.append_assoc, List.singleton_append] at hr
    exact ⟨fuel₂, hr⟩

/-- The decoder reads the rest of a dictionary and stores the dictionary, or throws. -/
theorem BencodesEntries.loop {entries : Dict} {bytes rest key : List UInt8} {result : Data}
    {done : Dict} {state : List Opened} {fuel : ℕ} {r : Decoder} (h : BencodesEntries entries bytes)
    (hkeys : SortedKeys (done ++ entries))
    (hr : Decoder.loop fuel ⟨bytes ++ token 'e' :: rest, result, .dict key done :: state⟩ = .ok r) :
    ∃ fuel', (store ⟨rest, result, state⟩ key (.dict (done ++ entries)) >>= proceed fuel') =
      .ok r := by
  obtain ⟨fuel', hr⟩ := loop_eq_ok hr
  cases h with
  | nil =>
    rw [List.append_nil]
    exact ⟨fuel', hr⟩
  | @cons k value _ _ _ _ hkey h hs =>
    obtain ⟨b, bytes', rfl, hb⟩ := hkey.eq_cons
    rw [List.append_assoc, List.append_assoc, List.cons_append, iterate_dict hb,
      ← List.cons_append] at hr
    obtain ⟨d, hd, hproceed⟩ := bind_eq_ok.1 hr
    obtain ⟨x, hx, hd⟩ := bind_eq_ok.1 hd
    obtain rfl := decodeStr_eq hkey hx
    obtain ⟨fuel₁, hr⟩ := h.element (bind_eq_ok.2 ⟨d, hd, hproceed⟩)
    have hlast : emplace k value done = some (done ++ [(k, value)]) :=
      emplace_last (fun x hx => (List.pairwise_append.1 hkeys).2.2 x hx _ List.mem_cons_self) value
    unfold store at hr
    dsimp only at hr
    rw [hlast] at hr
    rw [← List.singleton_append, ← List.append_assoc] at hkeys ⊢
    exact hs.loop hkeys hr

end

/-- What the decoder reads from a canonical bencoding is the value. -/
theorem Bencodes.decode_eq {value value' : Data} {bytes : List UInt8} (h : Bencodes value bytes)
    (hdecode : decode bytes = .ok value') : value' = value := by
  obtain ⟨d, hd, hresult⟩ := bind_eq_ok.1 hdecode
  obtain ⟨fuel, hr⟩ := loop_eq_ok hd
  obtain ⟨b, bytes', rfl, hb⟩ := h.eq_cons
  rw [iterate_element hb (fun _ _ _ heq => (by cases heq)), ← List.append_nil (b :: bytes')] at hr
  obtain ⟨fuel', hr⟩ := h.element hr
  cases hr
  cases hresult
  rfl

end FTorrent
