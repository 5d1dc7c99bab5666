import FTorrent.Serialization

/-!
# The messages between peers

The classes of `messages.h`, how they are written and how they are read.  `Message.frame` says what
the bytes of a message are: the length of the rest, most significant byte first, the id, and the
payload.
-/

namespace FTorrent

open Lib

/-! ### Messages and message objects -/

/-- `EMessageId`. -/
inductive EMessageId where
  | choke
  | unchoke
  | interested
  | notInterested
  | haveMsg
  | bitField
  | request
  | piece
  | cancel
  | port
  | handshake
  | keepAlive

/-- The value of an enumerator. -/
def EMessageId.value : EMessageId → UInt8
  | choke => 0
  | unchoke => 1
  | interested => 2
  | notInterested => 3
  | haveMsg => 4
  | bitField => 5
  | request => 6
  | piece => 7
  | cancel => 8
  | port => 9
  | handshake => 10
  | keepAlive => 11

/-- The enumerator with the given value. -/
def EMessageId.ofValue (v : UInt8) : Option EMessageId :=
  [choke, unchoke, interested, notInterested, haveMsg, bitField, request, piece, cancel, port,
    handshake, keepAlive].find? (·.value = v)

/-- The messages of `messages.h` but for the handshake. -/
inductive Message where
  | keepAlive
  | choke
  | unchoke
  | interested
  | notInterested
  | haveMsg (index : UInt32)
  | bitField (bitfield : List Bool)
  | request (index begin length : UInt32)
  | piece (index begin : UInt32) (block : List UInt8)
  | cancel (index begin length : UInt32)
  deriving DecidableEq

/-- An object of a class derived from `messages::Message`: the fields of `Message` and those of the
derived class. -/
structure MessageObject where
  len : UInt32
  id : UInt8
  content : Message
  deriving DecidableEq

/-- The object that the constructor of the class makes. -/
def Message.object : Message → MessageObject
  | .keepAlive => ⟨0, EMessageId.keepAlive.value, .keepAlive⟩
  | .choke => ⟨1, EMessageId.choke.value, .choke⟩
  | .unchoke => ⟨1, EMessageId.unchoke.value, .unchoke⟩
  | .interested => ⟨1, EMessageId.interested.value, .interested⟩
  | .notInterested => ⟨1, EMessageId.notInterested.value, .notInterested⟩
  | .haveMsg index => ⟨5, EMessageId.haveMsg.value, .haveMsg index⟩
  | .bitField bitfield =>
    ⟨1 + .ofNat (numBytes bitfield.length), EMessageId.bitField.value, .bitField bitfield⟩
  | .request index begin length => ⟨13, EMessageId.request.value, .request index begin length⟩
  | .piece index begin block =>
    ⟨9 + .ofNat block.length, EMessageId.piece.value, .piece index begin block⟩
  | .cancel index begin length => ⟨13, EMessageId.cancel.value, .cancel index begin length⟩

/-- `Handshake`. -/
structure Handshake where
  pstr : List UInt8
  infoHash : Hash
  peerId : Vector UInt8 20
  deriving DecidableEq

/-! ### Writing -/

/-- `boost::endian::native_to_big` and `big_to_native` on a little-endian host. -/
def nativeToBig (x : UInt32) : UInt32 := byteSwap x

def bigToNative (x : UInt32) : UInt32 := byteSwap x

namespace MessageObject

/-- `Message::serialize`. -/
def serializeMessage (o : MessageObject) : Writer := serializeU32 (nativeToBig o.len)

/-- `IdMessage::serialize`. -/
def serializeIdMessage (o : MessageObject) : Writer := do
  o.serializeMessage
  serializeU8 o.id

/-- The virtual function `serialize`. -/
def serialize (o : MessageObject) : Writer :=
  match o.content with
  | .keepAlive => o.serializeMessage
  | .choke | .unchoke | .interested | .notInterested => o.serializeIdMessage
  | .haveMsg index => do
    o.serializeIdMessage
    serializeU32 (nativeToBig index)
  | .bitField bitfield => do
    o.serializeIdMessage
    serializeBits bitfield
  | .request index begin length | .cancel index begin length => do
    o.serializeIdMessage
    serializeU32 (nativeToBig index)
    serializeU32 (nativeToBig begin)
    serializeU32 (nativeToBig length)
  | .piece index begin block => do
    o.serializeIdMessage
    serializeU32 (nativeToBig index)
    serializeU32 (nativeToBig begin)
    serializeBytes block

end MessageObject

/-- `Handshake::serialize`. -/
def Handshake.serialize (h : Handshake) : Writer := do
  serializeU8 (.ofNat h.pstr.length)
  serializeBytes h.pstr
  serializeBytes (.replicate 8 0)
  serializeBytes h.infoHash.toList
  serializeBytes h.peerId.toList

/-! ### Reading -/

/-- `deserialize` for `Message`. -/
def deserializeMessage : Reader UInt32 := do
  let len ← deserializeU32
  return bigToNative len

/-- `deserialize` for `IdMessage`. -/
def deserializeIdMessage : Reader (UInt32 × UInt8) := do
  let len ← deserializeMessage
  let id ← deserializeU8
  return (len, id)

/-- `deserialize` for `Have`. -/
def deserializeHave : Reader MessageObject := do
  let (len, id) ← deserializeIdMessage
  let index ← deserializeU32
  return ⟨len, id, .haveMsg (bigToNative index)⟩

/-- `deserialize` for `BitField`. -/
def deserializeBitField : Reader MessageObject := do
  let (len, id) ← deserializeIdMessage
  let bitfield ← deserializeBits ((len - 1) * 8).toNat
  return ⟨len, id, .bitField bitfield⟩

/-- `deserialize` for `Request`. -/
def deserializeRequest : Reader MessageObject := do
  let (len, id) ← deserializeIdMessage
  let index ← deserializeU32
  let begin ← deserializeU32
  let length ← deserializeU32
  return ⟨len, id, .request (nativeToBig index) (nativeToBig begin) (nativeToBig length)⟩

/-- `deserialize` for `Piece`. -/
def deserializePiece : Reader MessageObject := do
  let (len, id) ← deserializeIdMessage
  let index ← deserializeU32
  let begin ← deserializeU32
  let block ← deserializeVector (len - 9).toNat
  return ⟨len, id, .piece (nativeToBig index) (nativeToBig begin) block⟩

/-- `deserialize` for `Cancel`. -/
def deserializeCancel : Reader MessageObject := do
  let (len, id) ← deserializeIdMessage
  let index ← deserializeU32
  let begin ← deserializeU32
  let length ← deserializeU32
  return ⟨len, id, .cancel (nativeToBig index) (nativeToBig begin) (nativeToBig length)⟩

/-- `deserialize` for `Handshake`. -/
def deserializeHandshake : Reader Handshake := do
  let pstrlen ← deserializeU8
  let pstrBytes ← deserializeVector pstrlen.toNat
  let _reserved ← deserializeArray 8
  let infoHash ← deserializeArray 20
  let peerId ← deserializeArray 20
  return ⟨pstrBytes, infoHash, peerId⟩

/-! ### The format -/

namespace Message

/-- The bytes of a message after the length and the id. -/
def payload : Message → List UInt8
  | .haveMsg index => bigEndian index
  | .bitField bitfield => packBits bitfield
  | .request index begin length | .cancel index begin length =>
    bigEndian index ++ (bigEndian begin ++ bigEndian length)
  | .piece index begin block => bigEndian index ++ (bigEndian begin ++ block)
  | _ => []

/-- The bytes of a message after the length. -/
def body (m : Message) : List UInt8 :=
  if m = .keepAlive then [] else m.object.id :: m.payload

/-- The bytes of a message. -/
def frame (m : Message) : List UInt8 := bigEndian m.object.len ++ m.body

/-- The message as the other side sees it: the bits of a bit field fill its last byte. -/
def padded : Message → Message
  | .bitField bitfield => .bitField (padBits bitfield)
  | m => m

theorem frame_length (m : Message) : m.frame.length = 4 + m.body.length := by
  rw [frame, List.length_append, bigEndian_length]

theorem frame_eq {m : Message} (h : m ≠ .keepAlive) :
    m.frame = (bigEndian m.object.len ++ [m.object.id]) ++ m.payload := by
  rw [frame, body, if_neg h, List.append_assoc, List.singleton_append]

theorem body_bitField_length (v : List Bool) :
    (bitField v).body.length = 1 + numBytes v.length := by
  simp [body, payload, add_comm]

theorem body_piece_length (i b : UInt32) (block : List UInt8) :
    (piece i b block).body.length = 9 + block.length := by
  rw [body, if_neg (by simp), payload]
  simp only [List.length_cons, List.length_append, bigEndian_length]
  omega

/-- The length that a message announces is that of its body. -/
theorem len_toNat {m : Message} (h : m.frame.length < 2 ^ 28) :
    m.object.len.toNat = m.body.length := by
  rw [frame_length] at h
  cases m
  case bitField v =>
    rw [body_bitField_length] at h ⊢
    show (1 + UInt32.ofNat (numBytes v.length)).toNat = _
    rw [UInt32.toNat_add, UInt32.toNat_ofNat_of_lt' (by show _ < 2 ^ 32; omega), UInt32.toNat_one]
    omega
  case piece i b block =>
    rw [body_piece_length] at h ⊢
    show (9 + UInt32.ofNat block.length).toNat = _
    rw [UInt32.toNat_add, UInt32.toNat_ofNat_of_lt' (by show _ < 2 ^ 32; omega),
      show (9 : UInt32).toNat = 9 from rfl]
    omega
  all_goals rfl

theorem padded_object (m : Message) : m.padded.object = ⟨m.object.len, m.object.id, m.padded⟩ := by
  cases m
  case bitField v =>
    show (⟨_, _, _⟩ : MessageObject) = _
    rw [padBits_length, numBytes_mul]
    rfl
  all_goals rfl

end Message

/-! ### Writing and reading follow the format -/

theorem writes_nativeToBig (x : UInt32) :
    Serializer.sink.Writes (serializeU32 (nativeToBig x)) (bigEndian x) := by
  rw [← littleEndian_byteSwap]
  exact writes_serializeU32 _

theorem writes_idMessage (o : MessageObject) :
    Serializer.sink.Writes o.serializeIdMessage (bigEndian o.len ++ [o.id]) :=
  (writes_nativeToBig o.len).bind (writes_serializeU8 o.id)

/-- A message writes its frame. -/
theorem Message.writes_frame {m : Message} (h : m.frame.length < 2 ^ 28) :
    Serializer.sink.Writes m.object.serialize m.frame := by
  have hid := writes_idMessage m.object
  rw [frame_length] at h
  cases m with
  | keepAlive => exact writes_nativeToBig 0
  | choke | unchoke | interested | notInterested => exact hid
  | haveMsg index =>
    rw [frame_eq (by simp)]
    exact hid.bind (writes_nativeToBig index)
  | bitField v =>
    rw [frame_eq (by simp)]
    rw [body_bitField_length] at h
    have hle := le_numBytes v.length
    have hv : v.length < 2 ^ 31 := by omega
    exact hid.bind (writes_serializeBits hv)
  | request i b l | cancel i b l =>
    rw [frame_eq (by simp)]
    exact hid.bind ((writes_nativeToBig i).bind ((writes_nativeToBig b).bind (writes_nativeToBig l)))
  | piece i b block =>
    rw [frame_eq (by simp)]
    rw [body_piece_length] at h
    have hb : block.length < 2 ^ 32 := by omega
    exact hid.bind ((writes_nativeToBig i).bind ((writes_nativeToBig b).bind
      (writes_serializeBytes hb)))

theorem reads_bigToNative (x : UInt32) :
    Deserializer.source.Reads deserializeU32 (bigEndian x) (byteSwap x) := by
  rw [← littleEndian_byteSwap]
  exact reads_deserializeU32 _

theorem reads_message (len : UInt32) :
    Deserializer.source.Reads deserializeMessage (bigEndian len) len := by
  have h := (reads_bigToNative len).bind_pure (f := bigToNative)
  rwa [bigToNative, byteSwap_byteSwap] at h

theorem reads_idMessage (len : UInt32) (id : UInt8) :
    Deserializer.source.Reads deserializeIdMessage (bigEndian len ++ [id]) (len, id) :=
  (reads_message len).bind ((reads_getByte id).bind_pure (f := fun id => (len, id)))

theorem reads_have (len : UInt32) (id : UInt8) (index : UInt32) :
    Deserializer.source.Reads deserializeHave ((bigEndian len ++ [id]) ++ bigEndian index)
      ⟨len, id, .haveMsg index⟩ := by
  have h : Deserializer.source.Reads deserializeHave ((bigEndian len ++ [id]) ++ bigEndian index)
      ⟨len, id, .haveMsg (bigToNative (byteSwap index))⟩ :=
    (reads_idMessage len id).bind ((reads_bigToNative index).bind_pure
      (f := fun x => MessageObject.mk len id (.haveMsg (bigToNative x))))
  rwa [bigToNative, byteSwap_byteSwap] at h

/-- Three numbers of a message, still in the order of bytes of the wire. -/
theorem reads_threeU32 {α : Type} (f : UInt32 → UInt32 → UInt32 → α) (i b l : UInt32) :
    Deserializer.source.Reads
      (do
        let index ← deserializeU32
        let begin ← deserializeU32
        let length ← deserializeU32
        return f (nativeToBig index) (nativeToBig begin) (nativeToBig length))
      (bigEndian i ++ (bigEndian b ++ bigEndian l)) (f i b l) := by
  have h := (reads_bigToNative i).bind (k := fun x => do
      let y ← deserializeU32
      let z ← deserializeU32
      return f (nativeToBig x) (nativeToBig y) (nativeToBig z))
    ((reads_bigToNative b).bind ((reads_bigToNative l).bind_pure
      (f := fun z => f (nativeToBig (byteSwap i)) (nativeToBig (byteSwap b)) (nativeToBig z))))
  simpa only [nativeToBig, byteSwap_byteSwap] using h

theorem reads_request (len : UInt32) (id : UInt8) (i b l : UInt32) :
    Deserializer.source.Reads deserializeRequest
      ((bigEndian len ++ [id]) ++ (bigEndian i ++ (bigEndian b ++ bigEndian l)))
      ⟨len, id, .request i b l⟩ :=
  (reads_idMessage len id).bind
    (reads_threeU32 (fun i b l => MessageObject.mk len id (.request i b l)) i b l)

theorem reads_cancel (len : UInt32) (id : UInt8) (i b l : UInt32) :
    Deserializer.source.Reads deserializeCancel
      ((bigEndian len ++ [id]) ++ (bigEndian i ++ (bigEndian b ++ bigEndian l)))
      ⟨len, id, .cancel i b l⟩ :=
  (reads_idMessage len id).bind
    (reads_threeU32 (fun i b l => MessageObject.mk len id (.cancel i b l)) i b l)

/-- The number of the bits of a bit field with `n` bytes. -/
theorem bitField_size {len : UInt32} {n : ℕ} (hlen : len.toNat = 1 + n) (hn : n < 2 ^ 29) :
    ((len - 1) * 8).toNat = 8 * n := by
  have hle : (1 : UInt32) ≤ len := by
    rw [UInt32.le_iff_toNat_le, hlen]
    exact Nat.le_add_right 1 n
  rw [UInt32.toNat_mul, UInt32.toNat_sub_of_le _ _ hle, hlen, UInt32.toNat_one,
    show (8 : UInt32).toNat = 8 from rfl]
  omega

/-- The size of the block of a piece. -/
theorem pieceBlock_size {len : UInt32} (h : 9 ≤ len.toNat) : (len - 9).toNat + 9 = len.toNat := by
  have hle : (9 : UInt32) ≤ len := UInt32.le_iff_toNat_le.2 h
  rw [UInt32.toNat_sub_of_le _ _ hle, show (9 : UInt32).toNat = 9 from rfl]
  omega

/-- Any bytes are the bits of a bit field. -/
theorem reads_unpackedBitField {len : UInt32} {bs : List UInt8} (hlen : len.toNat = 1 + bs.length)
    (hbs : bs.length < 2 ^ 28) (id : UInt8) :
    Deserializer.source.Reads deserializeBitField ((bigEndian len ++ [id]) ++ bs)
      ⟨len, id, .bitField (bs.flatMap unpackByte)⟩ := by
  have hbits : Deserializer.source.Reads (deserializeBits ((len - 1) * 8).toNat) bs
      (bs.flatMap unpackByte) := by
    rw [bitField_size hlen (by omega)]
    exact reads_unpacked hbs.le
  exact (reads_idMessage len id).bind
    (hbits.bind_pure (f := fun bitfield => MessageObject.mk len id (.bitField bitfield)))

theorem reads_bitField {len : UInt32} {v : List Bool} (hlen : len.toNat = 1 + numBytes v.length)
    (hv : numBytes v.length < 2 ^ 28) (id : UInt8) :
    Deserializer.source.Reads deserializeBitField ((bigEndian len ++ [id]) ++ packBits v)
      ⟨len, id, .bitField (padBits v)⟩ := by
  rw [← packBits_length] at hlen hv
  have h := reads_unpackedBitField hlen hv id
  rwa [flatMap_unpackByte_packBits] at h

theorem reads_piece {len : UInt32} {block : List UInt8} (hlen : len.toNat = 9 + block.length)
    (id : UInt8) (i b : UInt32) :
    Deserializer.source.Reads deserializePiece
      ((bigEndian len ++ [id]) ++ (bigEndian i ++ (bigEndian b ++ block)))
      ⟨len, id, .piece i b block⟩ := by
  have hsize : (len - 9).toNat = block.length := by
    have hadd : (len - 9).toNat + 9 = len.toNat := pieceBlock_size (by omega)
    omega
  have hblock : Deserializer.source.Reads (deserializeVector (len - 9).toNat) block block := by
    have := len.toNat_lt
    rw [hsize]
    exact reads_deserializeVector (by omega)
  have h : Deserializer.source.Reads deserializePiece
      ((bigEndian len ++ [id]) ++ (bigEndian i ++ (bigEndian b ++ block)))
      ⟨len, id, .piece (nativeToBig (byteSwap i)) (nativeToBig (byteSwap b)) block⟩ :=
    (reads_idMessage len id).bind ((reads_bigToNative i).bind ((reads_bigToNative b).bind
      (hblock.bind_pure (f := fun x => MessageObject.mk len id
        (.piece (nativeToBig (byteSwap i)) (nativeToBig (byteSwap b)) x)))))
  simpa only [nativeToBig, byteSwap_byteSwap] using h

/-! ### Frames that are too short -/

theorem lacks_have (len : UInt32) (id : UInt8) {bs : List UInt8} (h : bs.length < 4) :
    Deserializer.source.Lacks deserializeHave ((bigEndian len ++ [id]) ++ bs) :=
  (reads_idMessage len id).bind_lacks ((lacks_deserializeU32 h).bind _)

/-- A number and less than what has to follow it. -/
theorem lacks_bind_deserializeU32 {α : Type} {k : UInt32 → Reader α} {bs : List UInt8} {n : ℕ}
    (hk : ∀ x rest, rest.length < n → Deserializer.source.Lacks (k x) rest)
    (h : bs.length < 4 + n) : Deserializer.source.Lacks (deserializeU32 >>= k) bs := by
  by_cases h4 : 4 ≤ bs.length
  · obtain ⟨x, rest, rfl⟩ := exists_bigEndian h4
    rw [List.length_append, bigEndian_length] at h
    exact (reads_bigToNative x).bind_lacks (hk _ _ (by omega))
  · exact (lacks_deserializeU32 (by omega)).bind k

theorem lacks_threeU32 {α : Type} (f : UInt32 → UInt32 → UInt32 → α) {bs : List UInt8}
    (h : bs.length < 12) :
    Deserializer.source.Lacks
      (do
        let index ← deserializeU32
        let begin ← deserializeU32
        let length ← deserializeU32
        return f (nativeToBig index) (nativeToBig begin) (nativeToBig length)) bs :=
  lacks_bind_deserializeU32 (n := 8) (fun _ _ h =>
    lacks_bind_deserializeU32 (n := 4) (fun _ _ h => (lacks_deserializeU32 h).bind _) h) h

theorem lacks_request (len : UInt32) (id : UInt8) {bs : List UInt8} (h : bs.length < 12) :
    Deserializer.source.Lacks deserializeRequest ((bigEndian len ++ [id]) ++ bs) :=
  (reads_idMessage len id).bind_lacks
    (lacks_threeU32 (fun i b l => MessageObject.mk len id (.request i b l)) h)

theorem lacks_cancel (len : UInt32) (id : UInt8) {bs : List UInt8} (h : bs.length < 12) :
    Deserializer.source.Lacks deserializeCancel ((bigEndian len ++ [id]) ++ bs) :=
  (reads_idMessage len id).bind_lacks
    (lacks_threeU32 (fun i b l => MessageObject.mk len id (.cancel i b l)) h)

theorem lacks_piece (len : UInt32) (id : UInt8) {bs : List UInt8} (h : bs.length < 8) :
    Deserializer.source.Lacks deserializePiece ((bigEndian len ++ [id]) ++ bs) :=
  (reads_idMessage len id).bind_lacks <|
    lacks_bind_deserializeU32 (n := 4) (fun _ _ h => (lacks_deserializeU32 h).bind _) h

/-! ### The handshake -/

namespace Handshake

/-- The bytes of a handshake after the length of the protocol name. -/
def body (h : Handshake) : List UInt8 :=
  h.pstr ++ (.replicate 8 0 ++ (h.infoHash.toList ++ h.peerId.toList))

/-- The bytes of a handshake. -/
def frame (h : Handshake) : List UInt8 := .ofNat h.pstr.length :: h.body

theorem body_length (h : Handshake) : h.body.length = h.pstr.length + 48 := by
  simp [body]

theorem writes_frame {h : Handshake} (hp : h.pstr.length ≤ 255) :
    Serializer.sink.Writes h.serialize h.frame :=
  (writes_serializeU8 _).bind ((writes_serializeBytes (by omega)).bind
    ((writes_serializeBytes (by simp)).bind ((writes_serializeBytes (by simp)).bind
      (writes_serializeBytes (by simp)))))

theorem reads_frame {h : Handshake} (hp : h.pstr.length ≤ 255) :
    Deserializer.source.Reads deserializeHandshake h.frame h := by
  have hlen : (UInt8.ofNat h.pstr.length).toNat = h.pstr.length :=
    UInt8.toNat_ofNat_of_lt' (by show _ < 2 ^ 8; omega)
  have hpstr : Deserializer.source.Reads (deserializeVector (UInt8.ofNat h.pstr.length).toNat) h.pstr
      h.pstr := by
    rw [hlen]
    exact reads_deserializeVector (by omega)
  exact (reads_getByte _).bind (hpstr.bind ((reads_deserializeArray (.replicate 8 0)).bind
    ((reads_deserializeArray h.infoHash).bind ((reads_deserializeArray h.peerId).bind_pure
      (f := fun peerId => Handshake.mk h.pstr h.infoHash peerId)))))

end Handshake

end FTorrent
