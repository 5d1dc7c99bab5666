import FTorrent.Serialization

/-!
# Streams of values

Values of all the types that have overloads, but for the string, written to one serializer and read back
by one deserializer.  An array of two numbers reserves twice what it writes, so that zeros are left at
the end, and sizes and offsets have 32 bits.  Apart from that the stream is the concatenation of the
encodings, and it is read back as the values (`streamLaw_iff`).
-/

namespace FTorrent

open Lib

/-- A value of a type that `serialize` has an overload for. -/
inductive Value where
  | u8 (num : UInt8)
  | u16 (num : UInt16)
  | u32 (num : UInt32)
  | u64 (num : UInt64)
  | pair (arr : Vector UInt32 2)
  | array8 (arr : Vector UInt8 8)
  | array20 (arr : Vector UInt8 20)
  | bytes (v : List UInt8)
  | bits (v : List Bool)
  deriving DecidableEq

namespace Value

/-- The overload of `serialize` for the type of the value. -/
def serialize : Value → Writer
  | u8 num => serializeU8 num
  | u16 num => serializeU16 num
  | u32 num => serializeU32 num
  | u64 num => serializeU64 num
  | pair arr => serializePair arr
  | array8 arr => serializeBytes arr.toList
  | array20 arr => serializeBytes arr.toList
  | bytes v => serializeBytes v
  | bits v => serializeBits v

/-- The overload of `deserialize` for the type of the value, into a vector of its size. -/
def deserialize : Value → Reader Value
  | u8 _ => do return u8 (← deserializeU8)
  | u16 _ => do return u16 (← deserializeU16)
  | u32 _ => do return u32 (← deserializeU32)
  | u64 _ => do return u64 (← deserializeU64)
  | pair _ => do return pair (← deserializePair)
  | array8 _ => do return array8 (← deserializeArray 8)
  | array20 _ => do return array20 (← deserializeArray 20)
  | bytes v => do return bytes (← deserializeVector v.length)
  | bits v => do return bits (← deserializeBits v.length)

/-- The encoding of a value: the bytes of a number from the least significant on, and eight bits to a
byte. -/
def encoding : Value → List UInt8
  | u8 num => [num]
  | u16 num => bytesOf 2 num.toNat
  | u32 num => littleEndian num
  | u64 num => bytesOf 8 num.toNat
  | pair arr => littleEndian (arr.get 0) ++ littleEndian (arr.get 1)
  | array8 arr => arr.toList
  | array20 arr => arr.toList
  | bytes v => v
  | bits v => packBits v

/-- The bytes that are reserved for the value and not written. -/
def spare : Value → ℕ
  | pair _ => 8
  | _ => 0

/-- The size of a vector fits the counters of its overload. -/
def Sized : Value → Prop
  | bytes v => v.length < 2 ^ 32
  | bits v => v.length < 2 ^ 31
  | _ => True

theorem spares_serialize {v : Value} (h : v.Sized) : Spares v.serialize v.encoding v.spare := by
  cases v with
  | u8 num => exact spares_serializeU8 num
  | u16 num => exact spares_serializeU16 num
  | u32 num => exact spares_serializeU32 num
  | u64 num => exact spares_serializeU64 num
  | pair arr => exact spares_serializePair arr
  | array8 arr | array20 arr =>
    apply spares_serializeBytes
    rw [Vector.length_toList]
    decide
  | bytes v => exact spares_serializeBytes h
  | bits v => exact spares_serializeBits h

theorem reads_deserialize {v : Value} (h : v.Sized) :
    Deserializer.source.Reads v.deserialize v.encoding v := by
  cases v with
  | u8 num => exact (reads_getByte num).bind_pure
  | u16 num => exact (reads_deserializeU16 num).bind_pure
  | u32 num => exact (reads_deserializeU32 num).bind_pure
  | u64 num => exact (reads_deserializeU64 num).bind_pure
  | pair arr => exact (reads_deserializePair arr).bind_pure
  | array8 arr => exact (reads_deserializeArray arr).bind_pure
  | array20 arr => exact (reads_deserializeArray arr).bind_pure
  | bytes v => exact (reads_deserializeVector h).bind_pure
  | bits v => exact (reads_deserializeBits h).bind_pure

end Value

/-! ### Sequences of values -/

/-- `serialize` for each of the values. -/
def serializeAll : List Value → Writer
  | [] => return ()
  | v :: vs => do
    v.serialize
    serializeAll vs

/-- `deserialize` for each of the values. -/
def deserializeAll (vs : List Value) : Reader (List Value) := vs.mapM Value.deserialize

/-- The concatenation of the encodings. -/
def encodingAll (vs : List Value) : List UInt8 := vs.flatMap Value.encoding

/-- `Deserializer::empty`. -/
def Deserializer.empty (d : Deserializer) : Bool := d.offset.toNat ≥ d.data.length

/-- The data of the serializer is the concatenation of the encodings, and reading it back gives the values
and leaves the deserializer empty. -/
def StreamLaw (vs : List Value) : Prop :=
  ∃ data, serialized (serializeAll vs) = .ok data ∧ data = encodingAll vs ∧
    ∃ d, deserializeAll vs { data } = .ok (vs, d) ∧ d.empty = true

/-- There is no array of two numbers, every vector of bits has less than `2 ^ 31` of them, and the
encodings have less than `2 ^ 32` bytes in all. -/
structure FitsStream (vs : List Value) : Prop where
  noPair : ∀ arr, Value.pair arr ∉ vs
  bits : ∀ v, Value.bits v ∈ vs → v.length < 2 ^ 31
  total : (encodingAll vs).length < 2 ^ 32

variable {vs : List Value}

theorem spares_serializeAll (h : ∀ v ∈ vs, v.Sized) :
    Spares (serializeAll vs) (encodingAll vs) (vs.map Value.spare).sum := by
  induction vs with
  | nil =>
    intro pre k
    simp only [encodingAll, List.flatMap_nil, List.append_nil]
    rfl
  | cons v vs ih =>
    obtain ⟨hv, hvs⟩ := List.forall_mem_cons.1 h
    rw [serializeAll, encodingAll, List.flatMap_cons, List.map_cons, List.sum_cons]
    exact (Value.spares_serialize hv).bind (ih hvs)

/-- What the serializer has in the end: the encodings, and a zero for each byte that is left over. -/
theorem serialized_serializeAll (h : ∀ v ∈ vs, v.Sized) :
    serialized (serializeAll vs) =
      .ok (encodingAll vs ++ .replicate (vs.map Value.spare).sum 0) := by
  have hrun := spares_serializeAll h [] 0
  rw [List.replicate_zero, List.nil_append, List.length_nil, Nat.zero_add] at hrun
  rw [serialized, hrun]
  rfl

theorem length_encoding_le {v : Value} (hv : v ∈ vs) :
    v.encoding.length ≤ (encodingAll vs).length := by
  rw [encodingAll, List.length_flatMap]
  exact List.le_sum_of_mem (List.mem_map_of_mem hv)

theorem sized_of_total (hbits : ∀ v, Value.bits v ∈ vs → v.length < 2 ^ 31)
    (htotal : (encodingAll vs).length < 2 ^ 32) : ∀ v ∈ vs, v.Sized := by
  intro v hv
  cases v with
  | bytes bs => exact (length_encoding_le hv).trans_lt htotal
  | bits bits => exact hbits bits hv
  | _ => trivial

namespace FitsStream

theorem sized (h : FitsStream vs) : ∀ v ∈ vs, v.Sized := sized_of_total h.bits h.total

theorem spare_eq_zero (h : FitsStream vs) : (vs.map Value.spare).sum = 0 := by
  apply List.sum_eq_zero
  intro n hn
  obtain ⟨v, hv, rfl⟩ := List.mem_map.1 hn
  cases v with
  | pair arr => exact absurd hv (h.noPair arr)
  | _ => rfl

theorem streamLaw (h : FitsStream vs) : StreamLaw vs := by
  have hdata := serialized_serializeAll h.sized
  rw [h.spare_eq_zero, List.replicate_zero, List.append_nil] at hdata
  have hreads : Deserializer.source.Reads (deserializeAll vs) (encodingAll vs) vs := by
    have hall := Source.Reads.mapM (S := Deserializer.source) (f := id)
      fun v hv => Value.reads_deserialize (h.sized v hv)
    rwa [List.map_id] at hall
  obtain ⟨d, hd, -, hleft⟩ := hreads ⟨encodingAll vs, 0⟩ [] ⟨h.total, Nat.zero_le _⟩
    (List.append_nil _).symm
  refine ⟨_, hdata, rfl, d, hd, ?_⟩
  exact decide_eq_true (List.drop_eq_nil_iff.1 hleft)

end FitsStream

/-! ### Sequences that do not fit -/

/-- Reading leaves the data alone. -/
def KeepsData {α : Type} (m : Reader α) : Prop := ∀ d a d', m d = .ok (a, d') → d'.data = d.data

namespace KeepsData

variable {α β : Type} {m : Reader α}

theorem pure (a : α) : KeepsData (Pure.pure a) := by
  intro d b d' h
  cases h
  rfl

theorem bind {k : α → Reader β} (hm : KeepsData m) (hk : ∀ a, KeepsData (k a)) :
    KeepsData (m >>= k) := by
  intro d b d' h
  obtain ⟨⟨a, d₁⟩, h₁, h₂⟩ := bind_eq_ok.1 h
  exact (hk a d₁ b d' h₂).trans (hm d a d₁ h₁)

theorem bind_pure (hm : KeepsData m) (f : α → β) : KeepsData (m >>= fun a => Pure.pure (f a)) :=
  hm.bind fun _ => pure _

theorem get (n : UInt32) : KeepsData (get n) := by
  intro d bs d' h
  unfold FTorrent.get at h
  split_ifs at h
  cases h
  rfl

theorem getByte : KeepsData getByte := by
  intro d b d' h
  unfold FTorrent.getByte at h
  split_ifs at h
  obtain ⟨b', -, h⟩ := bind_eq_ok.1 h
  cases h
  rfl

theorem readVector (hm : KeepsData m) (n : ℕ) : KeepsData (readVector m n) := by
  induction n with
  | zero => exact pure _
  | succ n ih => exact ih.bind fun _ => hm.bind_pure _

theorem deserializeBits (size : ℕ) : KeepsData (deserializeBits size) := by
  apply (get _).bind
  intro blocks
  split_ifs
  · intro d a d' h
    cases h
  · exact pure _

theorem deserialize (v : Value) : KeepsData v.deserialize := by
  have hU32 : KeepsData deserializeU32 := (get 4).bind_pure _
  cases v with
  | u8 => exact getByte.bind_pure _
  | u16 => exact ((get 2).bind_pure _).bind_pure _
  | u32 => exact hU32.bind_pure _
  | u64 => exact ((get 8).bind_pure _).bind_pure _
  | pair => exact (hU32.bind fun _ => hU32.bind_pure _).bind_pure _
  | array8 | array20 => exact (getByte.readVector _).bind_pure _
  | bytes v => exact (get _).bind_pure _
  | bits v => exact (deserializeBits _).bind_pure _

theorem deserializeAll (vs : List Value) : KeepsData (deserializeAll vs) := by
  induction vs with
  | nil => exact pure []
  | cons v vs ih =>
    rw [FTorrent.deserializeAll, List.mapM_cons]
    exact (deserialize v).bind fun _ => ih.bind_pure _

end KeepsData

/-- A serializer that has written the values has written each of them. -/
theorem exists_serialize {s t : Serializer} (h : serializeAll vs s = .ok ((), t)) {v : Value}
    (hv : v ∈ vs) : ∃ s' t', v.serialize s' = .ok ((), t') := by
  induction vs generalizing s with
  | nil => cases hv
  | cons w vs ih =>
    rw [serializeAll] at h
    obtain ⟨⟨_, s₁⟩, h₁, h₂⟩ := bind_eq_ok.1 h
    rcases List.mem_cons.1 hv with rfl | hv
    · exact ⟨s, s₁, h₁⟩
    · exact ih h₂ hv

theorem length_of_serializeBits {v : List Bool} {s t : Serializer} (hlen : numBytes v.length < 2 ^ 32)
    (h : serializeBits v s = .ok ((), t)) : v.length < 2 ^ 31 := by
  by_contra hlong
  have hle := le_numBytes v.length
  rw [serializeBits, u32_of_lt hlen, if_pos (by omega)] at h
  cases h

/-- The law holds of exactly those sequences that fit. -/
theorem streamLaw_iff (vs : List Value) : StreamLaw vs ↔ FitsStream vs := by
  refine ⟨fun ⟨data, hdata, henc, d, hd, hempty⟩ => ?_, FitsStream.streamLaw⟩
  subst henc
  have htotal : (encodingAll vs).length < 2 ^ 32 := by
    have hkept : d.data = encodingAll vs := KeepsData.deserializeAll vs _ _ _ hd
    rw [← hkept]
    exact (of_decide_eq_true hempty).trans_lt d.offset.toNat_lt
  obtain ⟨⟨_, s⟩, hwritten, -⟩ := bind_eq_ok.1 hdata
  have hbits : ∀ v, Value.bits v ∈ vs → v.length < 2 ^ 31 := by
    intro v hv
    obtain ⟨s', t', hv'⟩ := exists_serialize hwritten hv
    have hle := length_encoding_le hv
    rw [Value.encoding, packBits_length] at hle
    exact length_of_serializeBits (hle.trans_lt htotal) hv'
  refine ⟨fun arr hpair => ?_, hbits, htotal⟩
  -- the zeros after an array make the data longer than the encodings
  have hspare : 8 ≤ (vs.map Value.spare).sum := List.le_sum_of_mem (List.mem_map_of_mem hpair)
  rw [serialized_serializeAll (sized_of_total hbits htotal)] at hdata
  have hlen := congrArg List.length (Except.ok.inj hdata)
  rw [List.length_append, List.length_replicate] at hlen
  omega

/-- Zeros follow an array of two numbers. -/
theorem not_streamLaw_pair : ¬ ∀ vs : List Value, StreamLaw vs := by
  intro h
  obtain ⟨data, hdata, henc, -⟩ := h [.pair #v[1, 2]]
  have hzeros : serialized (serializeAll [.pair #v[1, 2]]) =
      .ok [1, 0, 0, 0, 2, 0, 0, 0, 0, 0, 0, 0, 0, 0, 0, 0] := by decide +kernel
  rw [hzeros] at hdata
  rw [← Except.ok.inj hdata] at henc
  revert henc
  decide +kernel

end FTorrent
