import FTorrent.Basic
import FTorrent.Lib.Decimal
import FTorrent.Lib.SortedMap

/-!
# Bencoding

`basic_decode` on the bytes of a file, and `encode`.  The decoder keeps a stack of the containers that
are open; here a container on the stack stands apart from the one that it is in, with the key it has
there, and is stored when it is closed.  The key is checked when the container is opened.

The iterators are the bytes that are left.  Where the program reads `*begin` behind the last byte, the
result is `outOfRange`.
-/

namespace FTorrent

open Lib

def token (c : Char) : UInt8 := c.toUInt8

/-- The bytes of a literal. -/
def ascii (s : String) : List UInt8 := s.toList.map token

/-! ### Values -/

/-- `bencode::data`; a `dict` is a `std::map`. -/
inductive Data where
  | integer (value : ℤ)
  | string (value : List UInt8)
  | list (items : List Data)
  | dict (entries : List (List UInt8 × Data))

/-- `bencode::dict`. -/
abbrev Dict := List (List UInt8 × Data)

/-- A variant is constructed with its first alternative. -/
instance : Inhabited Data := ⟨.integer 0⟩

/-! ### Encoding -/

/-- `encode` for a `string_view`. -/
def encodeString (value : List UInt8) : List UInt8 := decimal value.length ++ token ':' :: value

mutual

/-- `encode`, as the bytes that are written to the stream. -/
def encode : Data → List UInt8
  | .integer value => token 'i' :: decimalInt value ++ [token 'e']
  | .string value => encodeString value
  | .list items => token 'l' :: encodeItems items ++ [token 'e']
  | .dict entries => token 'd' :: encodeEntries entries ++ [token 'e']

/-- The calls of `list_encoder::add`. -/
def encodeItems : List Data → List UInt8
  | [] => []
  | value :: items => encode value ++ encodeItems items

/-- The calls of `dict_encoder::add`. -/
def encodeEntries : Dict → List UInt8
  | [] => []
  | (key, value) :: entries => encodeString key ++ encode value ++ encodeEntries entries

end

/-! ### Decoding numbers and strings -/

/-- `end_of_input_error`. -/
def endOfInput : Fault := .exception "unexpected end of input"

/-- What the decoder uses of `std::numeric_limits`. -/
structure IntegerLimits where
  digits10 : ℕ
  min : ℤ
  max : ℤ

def longLong : IntegerLimits := ⟨18, -2 ^ 63, 2 ^ 63 - 1⟩

def sizeT : IntegerLimits := ⟨19, 0, 2 ^ 64 - 1⟩

/-- `check_over_underflow`; the negated conditions of `check_overflow` and `check_underflow`. -/
def checkOverUnderflow (limits : IntegerLimits) (value digit sgn : ℤ) : Except Fault Unit :=
  if sgn = 1 then
    if value > limits.max.tdiv 10 ∨ (value = limits.max.tdiv 10 ∧ digit > limits.max.tmod 10) then
      .error (.exception "integer overflow")
    else .ok ()
  else
    if value < limits.min.tdiv 10 ∨ (value = limits.min.tdiv 10 ∧ digit < limits.min.tmod 10) then
      .error (.exception "integer underflow")
    else .ok ()

/-- The end of `decode_digits`: there must not be another digit. -/
def endDigits (sgn value : ℤ) : List UInt8 → Except Fault (ℤ × List UInt8)
  | [] => .error .outOfRange
  | b :: rest =>
    if isDigit b then
      .error (.exception (if sgn = 1 then "integer overflow" else "integer underflow"))
    else .ok (value, b :: rest)

/-- `decode_digits`, with the number of digits that are read without a check. -/
def decodeDigits (limits : IntegerLimits) (sgn : ℤ) : ℕ → ℤ → List UInt8 →
    Except Fault (ℤ × List UInt8)
  | _, _, [] => .error endOfInput
  | unchecked + 1, value, b :: rest =>
    if isDigit b then decodeDigits limits sgn unchecked (value * 10 + digitValue b * sgn) rest
    else .ok (value, b :: rest)
  | 0, value, b :: rest =>
    if isDigit b then do
      checkOverUnderflow limits value (digitValue b * sgn) sgn
      endDigits sgn (value * 10 + digitValue b * sgn) rest
    else .ok (value, b :: rest)

/-- The end of `decode_int`. -/
def endInt (value : ℤ) : List UInt8 → Except Fault (ℤ × List UInt8)
  | [] => .error .outOfRange
  | b :: rest =>
    if b ≠ token 'e' then .error (.exception "expected 'e' token") else .ok (value, rest)

/-- `decode_int` after the `i`. -/
def decodeInt : List UInt8 → Except Fault (ℤ × List UInt8)
  | [] => .error .outOfRange
  | b :: rest =>
    if b = token '-' then do
      let (value, rest) ← decodeDigits longLong (-1) longLong.digits10 0 rest
      endInt value rest
    else do
      let (value, rest) ← decodeDigits longLong 1 longLong.digits10 0 (b :: rest)
      endInt value rest

/-- `decode_str`. -/
def decodeStr (bytes : List UInt8) : Except Fault (List UInt8 × List UInt8) := do
  let (len, rest) ← decodeDigits sizeT 1 sizeT.digits10 0 bytes
  match rest with
  | [] => .error endOfInput
  | b :: rest =>
    if b ≠ token ':' then .error (.exception "expected ':' token")
    else if rest.length < len.toNat then .error endOfInput
    else .ok (rest.take len.toNat, rest.drop len.toNat)

/-! ### Decoding -/

/-- A container that is open, and the key that it has in the `dict` it is in. -/
inductive Opened where
  | list (key : List UInt8) (items : List Data)
  | dict (key : List UInt8) (entries : Dict)

/-- The local variables of `basic_decode`: the bytes that are left, the root and the stack. -/
structure Decoder where
  rest : List UInt8
  result : Data := default
  state : List Opened := []

namespace Decoder

def duplicatedKey (key : List UInt8) : Fault :=
  .exception ("duplicated key in dict: " ++ String.ofList (key.map fun b => Char.ofNat b.toNat))

/-- `store`, where `key` is `dict_key`. -/
def store (d : Decoder) (key : List UInt8) (thing : Data) : Except Fault Decoder :=
  match d.state with
  | [] => .ok { d with result := thing }
  | .list key' items :: state => .ok { d with state := .list key' (items ++ [thing]) :: state }
  | .dict key' entries :: state =>
    match emplace key thing entries with
    | none => .error (duplicatedKey key)
    | some entries => .ok { d with state := .dict key' entries :: state }

/-- `state.push(store(..))`. -/
def push (d : Decoder) (key : List UInt8) (container : Opened) : Except Fault Decoder :=
  match d.state with
  | .dict _ entries :: _ =>
    if (entries.lookup key).isSome then .error (duplicatedKey key)
    else .ok { d with state := container :: d.state }
  | _ => .ok { d with state := container :: d.state }

/-- `state.pop()`. -/
def pop (d : Decoder) : Except Fault Decoder :=
  match d.state with
  | [] => .error (.exception "unexpected 'e' token")
  | .list key items :: state => { d with state }.store key (.list items)
  | .dict key entries :: state => { d with state }.store key (.dict entries)

/-- The part of an iteration that reads the start of a value. -/
def element (d : Decoder) (key : List UInt8) : Except Fault Decoder :=
  match d.rest with
  | [] => .error endOfInput
  | b :: rest =>
    if b = token 'i' then do
      let (value, rest) ← decodeInt rest
      { d with rest }.store key (.integer value)
    else if b = token 'l' then { d with rest }.push key (.list key [])
    else if b = token 'd' then { d with rest }.push key (.dict key [])
    else if isDigit b then do
      let (value, rest) ← decodeStr (b :: rest)
      { d with rest }.store key (.string value)
    else .error (.exception "unexpected type token")

/-- One iteration of the loop. -/
def iterate (d : Decoder) : Except Fault Decoder :=
  match d.rest with
  | [] => .error endOfInput
  | b :: rest =>
    if b = token 'e' then { d with rest }.pop
    else
      match d.state with
      | .dict _ _ :: _ =>
        if isDigit b then do
          let (key, rest) ← decodeStr (b :: rest)
          { d with rest }.element key
        else .error (.exception "expected string start token for dict key")
      | _ => d.element []

/-- The loop, with a bound on the number of iterations. -/
def loop : ℕ → Decoder → Except Fault Decoder
  | 0, _ => .error .notEnabled
  | fuel + 1, d => do
    let d ← d.iterate
    if d.state.isEmpty then return d else loop fuel d

end Decoder

/-- `bencode::decode`.  Every iteration takes a byte, and one without a byte throws.  The exceptions are
those that `decode_error` wraps. -/
def decode (bytes : List UInt8) : Except Fault Data := do
  let d ← Decoder.loop (bytes.length + 1) { rest := bytes }
  return d.result

/-! ### The end of the loop -/

theorem length_of_endDigits {sgn value : ℤ} {bytes : List UInt8} {r : ℤ × List UInt8}
    (h : endDigits sgn value bytes = .ok r) : r.2.length ≤ bytes.length := by
  cases bytes with
  | nil => cases h
  | cons b rest =>
    by_cases hb : isDigit b = true
    · rw [endDigits, if_pos hb] at h
      cases h
    · rw [endDigits, if_neg hb] at h
      cases h
      exact le_rfl

theorem length_of_decodeDigits {limits : IntegerLimits} {sgn value : ℤ} {unchecked : ℕ}
    {bytes : List UInt8} {r : ℤ × List UInt8}
    (h : decodeDigits limits sgn unchecked value bytes = .ok r) : r.2.length ≤ bytes.length := by
  induction bytes generalizing unchecked value with
  | nil => cases unchecked <;> cases h
  | cons b rest ih =>
    cases unchecked with
    | zero =>
      unfold decodeDigits at h
      split_ifs at h
      · obtain ⟨-, -, h⟩ := bind_eq_ok.1 h
        exact (length_of_endDigits h).trans (Nat.le_succ _)
      · cases h
        exact le_rfl
    | succ unchecked =>
      unfold decodeDigits at h
      split_ifs at h
      · exact (ih h).trans (Nat.le_succ _)
      · cases h
        exact le_rfl

theorem length_of_endInt {value : ℤ} {bytes : List UInt8} {r : ℤ × List UInt8}
    (h : endInt value bytes = .ok r) : r.2.length ≤ bytes.length := by
  cases bytes with
  | nil => cases h
  | cons b rest =>
    rw [endInt] at h
    split_ifs at h
    cases h
    exact Nat.le_succ _

theorem length_of_decodeInt {bytes : List UInt8} {r : ℤ × List UInt8} (h : decodeInt bytes = .ok r) :
    r.2.length ≤ bytes.length := by
  cases bytes with
  | nil => cases h
  | cons b rest =>
    rw [decodeInt] at h
    split_ifs at h
    · obtain ⟨x, hx, h⟩ := bind_eq_ok.1 h
      exact ((length_of_endInt h).trans (length_of_decodeDigits hx)).trans (Nat.le_succ _)
    · obtain ⟨x, hx, h⟩ := bind_eq_ok.1 h
      exact (length_of_endInt h).trans (length_of_decodeDigits hx)

/-- A string takes at least the colon. -/
theorem length_of_decodeStr {bytes : List UInt8} {r : List UInt8 × List UInt8}
    (h : decodeStr bytes = .ok r) : r.2.length < bytes.length := by
  obtain ⟨⟨len, rest⟩, hx, h⟩ := bind_eq_ok.1 h
  have hrest := length_of_decodeDigits hx
  dsimp only at h
  cases rest with
  | nil => cases h
  | cons b rest =>
    dsimp only at h
    split_ifs at h
    cases h
    calc (rest.drop len.toNat).length ≤ rest.length := by simp
      _ < (b :: rest).length := Nat.lt_succ_self _
      _ ≤ bytes.length := hrest

namespace Decoder

variable {d d' : Decoder} {key : List UInt8}

theorem rest_of_store {thing : Data} (h : d.store key thing = .ok d') : d'.rest = d.rest := by
  unfold store at h
  split at h
  · cases h
    rfl
  · cases h
    rfl
  · split at h
    · cases h
    · cases h
      rfl

theorem rest_of_push {container : Opened} (h : d.push key container = .ok d') : d'.rest = d.rest := by
  unfold push at h
  split at h
  · split_ifs at h
    cases h
    rfl
  · cases h
    rfl

theorem rest_of_pop (h : d.pop = .ok d') : d'.rest = d.rest := by
  unfold pop at h
  split at h
  · cases h
  · have hrest := rest_of_store h
    exact hrest
  · have hrest := rest_of_store h
    exact hrest

theorem length_of_element (h : d.element key = .ok d') : d'.rest.length < d.rest.length := by
  unfold element at h
  split at h
  · cases h
  · next b rest hrest =>
    rw [hrest, List.length_cons, Nat.lt_succ_iff]
    split_ifs at h
    · obtain ⟨x, hx, h⟩ := bind_eq_ok.1 h
      rw [rest_of_store h]
      exact length_of_decodeInt hx
    · rw [rest_of_push h]
    · rw [rest_of_push h]
    · obtain ⟨x, hx, h⟩ := bind_eq_ok.1 h
      rw [rest_of_store h]
      exact Nat.lt_succ_iff.1 (length_of_decodeStr hx)

/-- Every iteration takes a byte. -/
theorem length_of_iterate (h : d.iterate = .ok d') : d'.rest.length < d.rest.length := by
  unfold iterate at h
  split at h
  · cases h
  · next b rest hrest =>
    by_cases hb : b = token 'e'
    · rw [if_pos hb] at h
      rw [rest_of_pop h, hrest]
      exact Nat.lt_succ_self _
    · rw [if_neg hb] at h
      split at h
      · split_ifs at h
        obtain ⟨x, hx, h⟩ := bind_eq_ok.1 h
        rw [hrest]
        exact (length_of_element h).trans (length_of_decodeStr hx)
      · exact length_of_element h

/-- The bound on the iterations makes no difference if it is larger than the number of bytes. -/
theorem loop_eq_loop {fuel fuel' : ℕ} (h : d.rest.length < fuel) (h' : d.rest.length < fuel') :
    loop fuel d = loop fuel' d := by
  induction fuel generalizing d fuel' with
  | zero => exact absurd h (Nat.not_lt_zero _)
  | succ fuel ih =>
    obtain ⟨fuel', rfl⟩ := Nat.exists_eq_add_one_of_ne_zero (Nat.ne_zero_of_lt h')
    unfold loop
    cases hd : d.iterate with
    | error e => rfl
    | ok d₁ =>
      have hlt := length_of_iterate hd
      change (if d₁.state.isEmpty then _ else _) = if d₁.state.isEmpty then _ else _
      rw [ih (by omega) (by omega : d₁.rest.length < fuel')]

end Decoder

end FTorrent
