import FTorrent.Basic
import FTorrent.Lib.Bytes
import FTorrent.Lib.Codec

/-!
# Serialization

`Serializer` and `Deserializer` with the overloads of `serialize` and `deserialize` that the messages
use.  The overloads for `std::string`, `std::vector<uint8_t>` and the arrays of bytes write
the same way, hence `serializeBytes` for all of them.  The index of a bit is an `int` in the program,
which long vectors of bits overflow.
-/

namespace FTorrent

open Lib

/-! ### The serializer -/

/-- `Serializer`. -/
structure Serializer where
  data : List UInt8 := []
  offset : ℕ := 0

/-- A function that writes to a serializer. -/
abbrev Writer := StateT Serializer (Except Fault) Unit

/-- `Serializer::write`. -/
def write (byte : UInt8) : Writer := fun s =>
  if s.offset ≥ s.data.length then .error (.exception "Serializer: not enough space")
  else .ok ((), ⟨s.data.set s.offset byte, s.offset + 1⟩)

/-- `Serializer::reserve`, whose parameter is a `uint32_t`. -/
def reserve (bytes : ℕ) : Writer := fun s =>
  .ok ((), ⟨s.data ++ .replicate (u32 bytes) 0, s.offset⟩)

/-- The loops over `write`. -/
def writeAll : List UInt8 → Writer
  | [] => return ()
  | byte :: bytes => do
    write byte
    writeAll bytes

def serializeU8 (byte : UInt8) : Writer := do
  reserve 1
  write byte

def serializeU32 (num : UInt32) : Writer := do
  reserve 4
  writeAll (littleEndian num)

def serializeU16 (num : UInt16) : Writer := do
  reserve 2
  writeAll (bytesOf 2 num.toNat)

def serializeU64 (num : UInt64) : Writer := do
  reserve 8
  writeAll (bytesOf 8 num.toNat)

/-- `serialize` for `std::array<uint32_t, 2>`, whose calls reserve once more. -/
def serializePair (arr : Vector UInt32 2) : Writer := do
  reserve 8
  serializeU32 arr[0]
  serializeU32 arr[1]

def serializeBytes (v : List UInt8) : Writer := do
  reserve v.length
  writeAll v

/-- `serialize` for `std::vector<bool>`; the indices run up to the end of the last byte or of the vector. -/
def serializeBits (v : List Bool) : Writer := do
  let blocks := u32 (numBytes v.length)
  if min v.length (8 * blocks) ≥ 2 ^ 31 then throw .outOfRange
  else do
    reserve blocks
    writeAll ((List.range blocks).map fun i => packByte (chunk v i))

/-- The data of a new serializer after `w`. -/
def serialized (w : Writer) : Except Fault (List UInt8) := do
  let (_, s) ← w {}
  return s.data

/-- A serializer between two calls of `serialize`: all that was reserved has been written. -/
def Serializer.sink : Sink Serializer UInt8 where
  Valid s := s.offset = s.data.length
  written s := s.data

theorem serialized_of_writes {w : Writer} {bs : List UInt8} (h : Serializer.sink.Writes w bs) :
    serialized w = .ok bs := by
  obtain ⟨t, ht, -, hwt⟩ := h {} rfl
  unfold serialized
  rw [ht, ← show t.data = bs from hwt]
  rfl

/-- With `k` bytes reserved and not yet written, `w` writes `bs` and leaves `n` more. -/
def Spares (w : Writer) (bs : List UInt8) (n : ℕ) : Prop :=
  ∀ pre k, w ⟨pre ++ .replicate k 0, pre.length⟩ =
    .ok ((), ⟨(pre ++ bs) ++ .replicate (k + n) 0, (pre ++ bs).length⟩)

theorem Spares.bind {w w' : Writer} {bs cs : List UInt8} {n m : ℕ} (hw : Spares w bs n)
    (hw' : Spares w' cs m) : Spares (w >>= fun _ => w') (bs ++ cs) (n + m) := by
  intro pre k
  show (w _ >>= fun p => w' p.2) = _
  rw [hw, ← List.append_assoc, ← Nat.add_assoc]
  exact hw' (pre ++ bs) (k + n)

/-- Where everything reserved is written. -/
theorem Spares.writes {w : Writer} {bs : List UInt8} (h : Spares w bs 0) :
    Serializer.sink.Writes w bs := by
  rintro ⟨data, offset⟩ hs
  have hdata := h data 0
  rw [List.replicate_zero, List.append_nil, List.append_nil,
    ← show offset = data.length from hs] at hdata
  exact ⟨_, hdata, rfl, rfl⟩

theorem writeAll_eq_ok (pre bs : List UInt8) (zeros : ℕ) :
    writeAll bs ⟨pre ++ .replicate (bs.length + zeros) 0, pre.length⟩ =
      .ok ((), ⟨(pre ++ bs) ++ .replicate zeros 0, (pre ++ bs).length⟩) := by
  induction bs generalizing pre with
  | nil =>
    rw [List.length_nil, Nat.zero_add, List.append_nil]
    rfl
  | cons b bs ih =>
    have hw : write b ⟨pre ++ .replicate ((b :: bs).length + zeros) 0, pre.length⟩ =
        .ok ((), ⟨(pre ++ [b]) ++ .replicate (bs.length + zeros) 0, (pre ++ [b]).length⟩) := by
      have hlt : ¬ pre.length ≥ (pre ++ List.replicate ((b :: bs).length + zeros) 0).length := by
        simp
      rw [write, if_neg hlt, List.length_cons, Nat.add_right_comm]
      simp [List.replicate_succ]
    show (write b _ >>= fun p => writeAll bs p.2) = _
    rw [hw]
    show writeAll bs _ = _
    rw [ih (pre ++ [b]), List.append_assoc pre [b] bs]
    rfl

theorem spares_reserve (n : ℕ) : Spares (reserve n) [] (u32 n) := by
  intro pre k
  rw [reserve, List.append_nil, List.append_assoc, List.replicate_append_replicate]

/-- Reserving and then writing, at most as much. -/
theorem spares_reserved {bs : List UInt8} {n m : ℕ} (hn : u32 n = bs.length + m) :
    Spares (do reserve n; writeAll bs) bs m := by
  intro pre k
  have h := writeAll_eq_ok pre bs (k + m)
  rw [Nat.add_left_comm, ← hn] at h
  rw [← h, ← List.replicate_append_replicate, ← List.append_assoc]
  rfl

theorem spares_serializeU8 (byte : UInt8) : Spares (serializeU8 byte) [byte] 0 := by
  have hone : write byte = writeAll [byte] := (bind_pure_unit).symm
  rw [serializeU8, hone]
  exact spares_reserved rfl

theorem spares_serializeU32 (num : UInt32) : Spares (serializeU32 num) (littleEndian num) 0 :=
  spares_reserved rfl

theorem spares_serializeU16 (num : UInt16) : Spares (serializeU16 num) (bytesOf 2 num.toNat) 0 :=
  spares_reserved rfl

theorem spares_serializeU64 (num : UInt64) : Spares (serializeU64 num) (bytesOf 8 num.toNat) 0 :=
  spares_reserved rfl

/-- An array leaves as many bytes as it writes. -/
theorem spares_serializePair (arr : Vector UInt32 2) :
    Spares (serializePair arr) (littleEndian arr[0] ++ littleEndian arr[1]) 8 :=
  (spares_reserve 8).bind ((spares_serializeU32 _).bind (spares_serializeU32 _))

theorem spares_serializeBytes {v : List UInt8} (h : v.length < 2 ^ 32) :
    Spares (serializeBytes v) v 0 :=
  spares_reserved (u32_of_lt h)

theorem spares_serializeBits {v : List Bool} (h : v.length < 2 ^ 31) :
    Spares (serializeBits v) (packBits v) 0 := by
  have hle : numBytes v.length ≤ 2 ^ 28 := numBytes_le (by omega)
  have hu : u32 (numBytes v.length) = numBytes v.length := u32_of_lt (by omega)
  unfold serializeBits packBits
  rw [hu, if_neg (by omega)]
  apply spares_reserved
  rw [hu]
  exact (packBits_length v).symm

theorem writes_serializeU8 (byte : UInt8) : Serializer.sink.Writes (serializeU8 byte) [byte] :=
  (spares_serializeU8 byte).writes

theorem writes_serializeU32 (num : UInt32) :
    Serializer.sink.Writes (serializeU32 num) (littleEndian num) :=
  (spares_serializeU32 num).writes

theorem writes_serializeU16 (num : UInt16) :
    Serializer.sink.Writes (serializeU16 num) (bytesOf 2 num.toNat) :=
  (spares_serializeU16 num).writes

theorem writes_serializeU64 (num : UInt64) :
    Serializer.sink.Writes (serializeU64 num) (bytesOf 8 num.toNat) :=
  (spares_serializeU64 num).writes

theorem writes_serializeBytes {v : List UInt8} (h : v.length < 2 ^ 32) :
    Serializer.sink.Writes (serializeBytes v) v :=
  (spares_serializeBytes h).writes

theorem writes_serializeBits {v : List Bool} (h : v.length < 2 ^ 31) :
    Serializer.sink.Writes (serializeBits v) (packBits v) :=
  (spares_serializeBits h).writes

/-! ### The deserializer -/

/-- `Deserializer`. -/
structure Deserializer where
  data : List UInt8
  offset : UInt32 := 0

/-- A function that reads from a deserializer. -/
abbrev Reader := StateT Deserializer (Except Fault)

/-- `Deserializer::get(bytes)`; the sum of the check is a `uint32_t`. -/
def get (bytes : UInt32) : Reader (List UInt8) := fun d =>
  if (d.offset + bytes).toNat > d.data.length then
    .error (.exception "Deserializer: read out of bounds")
  else if d.offset.toNat + bytes.toNat > d.data.length then .error .outOfRange
  else .ok ((d.data.drop d.offset.toNat).take bytes.toNat, { d with offset := d.offset + bytes })

/-- `Deserializer::get()`. -/
def getByte : Reader UInt8 := fun d =>
  if d.offset.toNat ≥ d.data.length then .error (.exception "Deserializer: read out of bounds")
  else do
    let offset := d.offset + 1
    let byte ← vectorAt d.data (offset - 1).toNat
    return (byte, { d with offset := offset })

def deserializeU8 : Reader UInt8 := getByte

def deserializeU32 : Reader UInt32 := do
  let bytes ← get 4
  return ofLittleEndian bytes

def deserializeU16 : Reader UInt16 := do
  let bytes ← get 2
  return .ofNat (ofBytes bytes)

def deserializeU64 : Reader UInt64 := do
  let bytes ← get 8
  return .ofNat (ofBytes bytes)

/-- `deserialize` for `std::array<uint32_t, 2>`. -/
def deserializePair : Reader (Vector UInt32 2) := do
  let first ← deserializeU32
  let second ← deserializeU32
  return #v[first, second]

/-- The loop of `deserialize` for a `std::string`. -/
def readString : ℕ → Reader (List UInt8)
  | 0 => return []
  | fuel + 1 => do
    let d ← MonadState.get
    if d.offset.toNat ≥ d.data.length then return []
    else do
      let cur ← getByte
      if cur = 0 then return []
      else do
        let rest ← readString fuel
        return cur :: rest

/-- `deserialize` for a `std::string`: up to a zero byte or the end. -/
def deserializeString : Reader (List UInt8) := do
  let d ← MonadState.get
  readString d.data.length

/-- The value that `m` reads from the start of the bytes. -/
def deserialized {α : Type} (m : Reader α) (bytes : List UInt8) : Except Fault α := do
  let (a, _) ← m { data := bytes }
  return a

/-- `deserialize` for an array of `n` bytes. -/
def deserializeArray (n : ℕ) : Reader (Vector UInt8 n) := readVector deserializeU8 n

/-- `deserialize` for a `std::vector<uint8_t>` of the given size. -/
def deserializeVector (size : ℕ) : Reader (List UInt8) := get (.ofNat size)

/-- `deserialize` for a `std::vector<bool>` of the given size, all `false`; the number of bytes is a
`uint32_t`. -/
def deserializeBits (size : ℕ) : Reader (List Bool) := do
  let numBlocks : UInt32 := .ofNat (numBytes size)
  let blocks ← get numBlocks
  if numBlocks.toNat > 2 ^ 28 then throw .outOfRange
  else
    let bits := (blocks.flatMap unpackByte).take size
    return bits ++ .replicate (size - bits.length) false

/-- A deserializer of less than `2 ^ 32` bytes. -/
def Deserializer.source : Source Deserializer UInt8 where
  Valid d := d.data.length < 2 ^ 32 ∧ d.offset.toNat ≤ d.data.length
  left d := d.data.drop d.offset.toNat

theorem reads_get {bs : List UInt8} {n : UInt32} (hn : n.toNat = bs.length) :
    Deserializer.source.Reads (get n) bs bs := by
  rintro d rest ⟨hlen, hoff⟩ hl
  have hsum : d.data.length - d.offset.toNat = bs.length + rest.length := by
    rw [← List.length_drop, show d.data.drop d.offset.toNat = bs ++ rest from hl, List.length_append]
  have hadd : (d.offset + n).toNat = d.offset.toNat + bs.length := by
    rw [UInt32.toNat_add, hn, Nat.mod_eq_of_lt (by omega)]
  refine ⟨{ d with offset := d.offset + n }, ?_, ⟨hlen, ?_⟩, ?_⟩
  · rw [get, if_neg (by omega), if_neg (by omega), show d.data.drop d.offset.toNat = bs ++ rest from hl,
      hn, List.take_left]
  · show (d.offset + n).toNat ≤ d.data.length
    omega
  · show d.data.drop (d.offset + n).toNat = rest
    rw [hadd, ← List.drop_drop, show d.data.drop d.offset.toNat = bs ++ rest from hl, List.drop_left]

theorem reads_getByte (b : UInt8) : Deserializer.source.Reads getByte [b] b := by
  rintro d rest ⟨hlen, hoff⟩ hl
  have hl' : d.data.drop d.offset.toNat = b :: rest := hl
  have hlt : d.offset.toNat < d.data.length := by
    by_contra h
    rw [List.drop_eq_nil_of_le (by omega)] at hl'
    cases hl'
  have hadd : (d.offset + 1).toNat = d.offset.toNat + 1 := by
    rw [UInt32.toNat_add, UInt32.toNat_one, Nat.mod_eq_of_lt (by omega)]
  have hget : d.data[d.offset.toNat]? = some b := by
    rw [← List.head?_drop, hl', List.head?_cons]
  refine ⟨{ d with offset := d.offset + 1 }, ?_, ⟨hlen, ?_⟩, ?_⟩
  · have hsub : d.offset + 1 - 1 = d.offset := UInt32.add_sub_cancel _ _
    rw [getByte, if_neg (by omega)]
    dsimp only
    rw [hsub, vectorAt_eq_ok.2 hget]
    rfl
  · show (d.offset + 1).toNat ≤ d.data.length
    omega
  · show d.data.drop (d.offset + 1).toNat = rest
    rw [hadd, ← List.drop_drop, hl']
    rfl

theorem reads_deserializeU32 (num : UInt32) :
    Deserializer.source.Reads deserializeU32 (littleEndian num) num := by
  have hget : Deserializer.source.Reads (get 4) (littleEndian num) (littleEndian num) := reads_get rfl
  have h := hget.bind_pure (f := ofLittleEndian)
  rwa [ofLittleEndian_littleEndian] at h

theorem reads_deserializeU16 (num : UInt16) :
    Deserializer.source.Reads deserializeU16 (bytesOf 2 num.toNat) num := by
  have hget : Deserializer.source.Reads (get 2) (bytesOf 2 num.toNat) (bytesOf 2 num.toNat) :=
    reads_get rfl
  have h := hget.bind_pure (f := fun bytes => UInt16.ofNat (ofBytes bytes))
  have hmod : num.toNat % 256 ^ 2 = num.toNat := Nat.mod_eq_of_lt num.toNat_lt
  rwa [ofBytes_bytesOf, hmod, UInt16.ofNat_toNat] at h

theorem reads_deserializeU64 (num : UInt64) :
    Deserializer.source.Reads deserializeU64 (bytesOf 8 num.toNat) num := by
  have hget : Deserializer.source.Reads (get 8) (bytesOf 8 num.toNat) (bytesOf 8 num.toNat) :=
    reads_get rfl
  have h := hget.bind_pure (f := fun bytes => UInt64.ofNat (ofBytes bytes))
  have hmod : num.toNat % 256 ^ 8 = num.toNat := Nat.mod_eq_of_lt num.toNat_lt
  rwa [ofBytes_bytesOf, hmod, UInt64.ofNat_toNat] at h

theorem reads_deserializePair (arr : Vector UInt32 2) :
    Deserializer.source.Reads deserializePair (littleEndian arr[0] ++ littleEndian arr[1]) arr := by
  have harr : #v[arr[0], arr[1]] = arr := by
    ext i hi
    interval_cases i <;> rfl
  have h := (reads_deserializeU32 arr[1]).bind_pure (f := fun second => #v[arr[0], second])
  rw [harr] at h
  exact (reads_deserializeU32 arr[0]).bind h

theorem reads_deserializeArray {n : ℕ} (v : Vector UInt8 n) :
    Deserializer.source.Reads (deserializeArray n) v.toList v := by
  have h := Source.Reads.readVector (g := fun b => [b]) reads_getByte v
  rwa [List.flatMap_singleton'] at h

theorem reads_deserializeVector {bs : List UInt8} (h : bs.length < 2 ^ 32) :
    Deserializer.source.Reads (deserializeVector bs.length) bs bs :=
  reads_get (UInt32.toNat_ofNat_of_lt' h)

/-- The first bits of some bytes. -/
theorem reads_bits {bs : List UInt8} {size : ℕ} (hsize : numBytes size = bs.length)
    (h : bs.length ≤ 2 ^ 28) :
    Deserializer.source.Reads (deserializeBits size) bs ((bs.flatMap unpackByte).take size) := by
  have hn : (UInt32.ofNat (numBytes size)).toNat = bs.length := by
    rw [hsize, UInt32.toNat_ofNat_of_lt' (lt_of_le_of_lt h (by decide))]
  have hlen : ((bs.flatMap unpackByte).take size).length = size := by
    have := le_numBytes size
    rw [List.length_take, length_flatMap_unpackByte, min_eq_left (by omega)]
  have hr := (reads_get hn).bind_pure (f := fun blocks =>
    let bits := (blocks.flatMap unpackByte).take size
    bits ++ .replicate (size - bits.length) false)
  dsimp only at hr
  rw [hlen, Nat.sub_self, List.replicate_zero, List.append_nil] at hr
  have hle : ¬ (UInt32.ofNat (numBytes size)).toNat > 2 ^ 28 := by omega
  simpa only [deserializeBits, if_neg hle] using hr

/-- All the bits of some bytes. -/
theorem reads_unpacked {bs : List UInt8} (h : bs.length ≤ 2 ^ 28) :
    Deserializer.source.Reads (deserializeBits (8 * bs.length)) bs (bs.flatMap unpackByte) := by
  have hr := reads_bits (numBytes_mul bs.length) h
  rwa [List.take_of_length_le (length_flatMap_unpackByte bs).le] at hr

/-- Bits that are read back into a vector of their number. -/
theorem reads_deserializeBits {v : List Bool} (h : v.length < 2 ^ 31) :
    Deserializer.source.Reads (deserializeBits v.length) (packBits v) v := by
  have hle : (packBits v).length ≤ 2 ^ 28 := by
    rw [packBits_length]
    exact numBytes_le (by omega)
  have hr := reads_bits (packBits_length v).symm hle
  rwa [flatMap_unpackByte_packBits, padBits, List.take_left] at hr

/-- A read that succeeds does not depend on what follows. -/
def Stable {α : Type} (m : Reader α) : Prop :=
  ∀ d d' a rest, m d = .ok (a, d') →
    m { d with data := d.data ++ rest } = .ok (a, { d' with data := d'.data ++ rest })

theorem stable_get (n : UInt32) : Stable (get n) := by
  intro d d' bs rest h
  unfold get at h
  split_ifs at h with h₁ h₂
  cases h
  unfold get
  dsimp only
  rw [List.length_append, if_neg (by omega), if_neg (by omega),
    List.drop_append_of_le_length (by omega), List.take_append_of_le_length]
  rw [List.length_drop]
  omega

theorem Stable.bind {α β : Type} {m : Reader α} {k : α → Reader β} (hm : Stable m)
    (hk : ∀ a, Stable (k a)) : Stable (m >>= k) := by
  intro d d' b rest h
  obtain ⟨⟨a, d₁⟩, h₁, h₂⟩ := bind_eq_ok.1 h
  exact bind_eq_ok.2 ⟨_, hm d d₁ a rest h₁, hk a d₁ d' b rest h₂⟩

theorem Stable.pure {α : Type} (a : α) : Stable (Pure.pure a) := by
  intro d d' b rest h
  cases h
  rfl

theorem stable_deserializeU32 : Stable deserializeU32 := (stable_get 4).bind fun _ => .pure _

theorem stable_deserializeU64 : Stable deserializeU64 := (stable_get 8).bind fun _ => .pure _

theorem Stable.deserialized_append {α : Type} {m : Reader α} (hm : Stable m) {bytes : List UInt8} {a : α}
    (h : deserialized m bytes = .ok a) (rest : List UInt8) :
    deserialized m (bytes ++ rest) = .ok a := by
  obtain ⟨⟨b, d⟩, h₁, h₂⟩ := bind_eq_ok.1 h
  cases h₂
  exact bind_eq_ok.2 ⟨_, hm _ d a rest h₁, rfl⟩

/-- A read beyond the end fails. -/
theorem lacks_get {bs : List UInt8} {n : UInt32} (hn : bs.length < n.toNat) :
    Deserializer.source.Lacks (get n) bs := by
  rintro d ⟨hlen, hoff⟩ hl
  have hsum : d.data.length - d.offset.toNat = bs.length := by
    rw [← List.length_drop, show d.data.drop d.offset.toNat = bs from hl]
  unfold get
  split_ifs
  · exact ⟨_, rfl⟩
  · exact ⟨_, rfl⟩
  · omega

theorem lacks_deserializeU32 {bs : List UInt8} (h : bs.length < 4) :
    Deserializer.source.Lacks deserializeU32 bs :=
  (lacks_get h).bind _

/-! ### Readers of a fixed length -/

namespace Reader

variable {α β : Type} {m : Reader α} {d d' : Deserializer}

theorem bind_of_ok {a : α} (h : m d = .ok (a, d')) (f : α → Reader β) : (m >>= f) d = f a d' := by
  change (m d >>= fun x => f x.1 x.2) = _
  rw [h]
  rfl

theorem bind_of_error {e : Fault} (h : m d = .error e) (f : α → Reader β) :
    (m >>= f) d = .error e := by
  change (m d >>= fun x => f x.1 x.2) = _
  rw [h]
  rfl

end Reader

/-- The reader takes `k` bytes, and fails where there are fewer. -/
def Measured {α : Type} (m : Reader α) (k : ℕ) : Prop :=
  ∀ d : Deserializer, d.data.length < 2 ^ 31 → d.offset.toNat ≤ d.data.length →
    (d.offset.toNat + k ≤ d.data.length → ∃ a d', m d = .ok (a, d') ∧ d'.data = d.data ∧
      d'.offset.toNat = d.offset.toNat + k) ∧
    (d.data.length < d.offset.toNat + k → ∃ f, m d = .error f)

theorem measured_get {n : UInt32} (hn : n.toNat < 2 ^ 31) : Measured (get n) n.toNat := by
  intro d hlen hoff
  have hadd : (d.offset + n).toNat = d.offset.toNat + n.toNat := by
    rw [UInt32.toNat_add, Nat.mod_eq_of_lt (by omega)]
  constructor
  · intro h
    refine ⟨(d.data.drop d.offset.toNat).take n.toNat, { d with offset := d.offset + n }, ?_, rfl, hadd⟩
    rw [get, if_neg (by omega), if_neg (by omega)]
  · intro h
    rw [get, if_pos (by omega)]
    exact ⟨_, rfl⟩

namespace Measured

variable {α β : Type}

theorem bind {m : Reader α} {f : α → Reader β} {k l : ℕ} (hm : Measured m k)
    (hf : ∀ a, Measured (f a) l) : Measured (m >>= f) (k + l) := by
  intro d hlen hoff
  obtain ⟨hok, herror⟩ := hm d hlen hoff
  by_cases hk : d.offset.toNat + k ≤ d.data.length
  · obtain ⟨a, d', hmd, hdata, hoff'⟩ := hok hk
    have hrest := hf a d' (by rwa [hdata]) (by rwa [hdata, hoff'])
    rw [hdata, hoff', Nat.add_assoc] at hrest
    rwa [Reader.bind_of_ok hmd]
  · obtain ⟨e, hmd⟩ := herror (by omega)
    exact ⟨fun h => absurd h (by omega), fun _ => ⟨e, Reader.bind_of_error hmd f⟩⟩

theorem pure (a : α) : Measured (Pure.pure a) 0 := by
  intro d _ hoff
  exact ⟨fun _ => ⟨a, d, rfl, rfl, rfl⟩, fun h => absurd h (by omega)⟩

end Measured

theorem measured_deserializeU32 : Measured deserializeU32 4 :=
  (measured_get (n := 4) (by decide)).bind fun _ => .pure _

theorem measured_deserializeU16 : Measured deserializeU16 2 :=
  (measured_get (n := 2) (by decide)).bind fun _ => .pure _

theorem measured_deserializeU64 : Measured deserializeU64 8 :=
  (measured_get (n := 8) (by decide)).bind fun _ => .pure _

theorem get_of_le {buf : List UInt8} {i n : UInt32} (hlen : buf.length < 2 ^ 32)
    (hi : i.toNat + n.toNat ≤ buf.length) :
    get n ⟨buf, i⟩ = .ok ((buf.drop i.toNat).take n.toNat, ⟨buf, i + n⟩) := by
  have hadd : (i + n).toNat = i.toNat + n.toNat := by
    rw [UInt32.toNat_add, Nat.mod_eq_of_lt (by omega)]
  rw [get, if_neg (by simp only; omega), if_neg (by simp only; omega)]

theorem deserializeU16_of_le {buf : List UInt8} {i : UInt32} (hlen : buf.length < 2 ^ 31)
    (hi : i.toNat + 2 ≤ buf.length) : deserializeU16 ⟨buf, i⟩ =
      .ok (.ofNat (ofBytes ((buf.drop i.toNat).take 2)), ⟨buf, i + 2⟩) := by
  rw [deserializeU16, Reader.bind_of_ok (get_of_le (by omega) hi)]
  rfl

theorem deserializeU32_of_le {buf : List UInt8} {i : UInt32} (hlen : buf.length < 2 ^ 31)
    (hi : i.toNat + 4 ≤ buf.length) : deserializeU32 ⟨buf, i⟩ =
      .ok (ofLittleEndian ((buf.drop i.toNat).take 4), ⟨buf, i + 4⟩) := by
  rw [deserializeU32, Reader.bind_of_ok (get_of_le (by omega) hi)]
  rfl

/-! ### Readers of a string -/

theorem getByte_of_lt {d : Deserializer} (h : d.offset.toNat < d.data.length) :
    getByte d = .ok (d.data[d.offset.toNat], { d with offset := d.offset + 1 }) := by
  have hbyte : vectorAt d.data (d.offset + 1 - 1).toNat = .ok d.data[d.offset.toNat] := by
    rw [UInt32.add_sub_cancel]
    exact vectorAt_eq_ok.2 (List.getElem?_eq_getElem h)
  rw [getByte, if_neg (by omega)]
  dsimp only
  rw [hbyte]
  rfl

/-- The end of the data ends a string, too. -/
theorem readString_ok (fuel : ℕ) (d : Deserializer) : ∃ p, readString fuel d = .ok p := by
  induction fuel generalizing d with
  | zero => exact ⟨_, rfl⟩
  | succ fuel ih =>
    have hstep : readString (fuel + 1) d =
        (if d.offset.toNat ≥ d.data.length then (pure [] : Reader (List UInt8)) else do
          let cur ← getByte
          if cur = 0 then return []
          else do
            let rest ← readString fuel
            return cur :: rest) d := rfl
    rw [hstep]
    split_ifs with hend
    · exact ⟨_, rfl⟩
    · rw [Reader.bind_of_ok (getByte_of_lt (not_le.1 hend))]
      split_ifs
      · exact ⟨_, rfl⟩
      · obtain ⟨p, hp⟩ := ih { d with offset := d.offset + 1 }
        exact ⟨_, Reader.bind_of_ok hp _⟩

theorem deserializeString_ok (d : Deserializer) : ∃ p, deserializeString d = .ok p :=
  readString_ok d.data.length d

end FTorrent
