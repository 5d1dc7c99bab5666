import FTorrent.Messages

/-!
# The messages of the tracker protocol

The requests and responses of a UDP tracker, and what they look like in a datagram.  All numbers are
big endian.  The responses are read from a buffer of fixed size.
-/

namespace FTorrent

open Lib

/-- `native_to_big` and `big_to_native` for `uint64_t`. -/
def nativeToBig64 (x : UInt64) : UInt64 := .ofNat (ofBytes (bytesOf 8 x.toNat).reverse)

def bigToNative64 (x : UInt64) : UInt64 := .ofNat (ofBytes (bytesOf 8 x.toNat).reverse)

/-- `native_to_big` and `big_to_native` for `uint16_t`. -/
def nativeToBig16 (x : UInt16) : UInt16 := .ofNat (ofBytes (bytesOf 2 x.toNat).reverse)

def bigToNative16 (x : UInt16) : UInt16 := .ofNat (ofBytes (bytesOf 2 x.toNat).reverse)

/-! ### Requests -/

/-- `AnnounceRequest::Event`. -/
inductive AnnounceEvent where
  | none
  | completed
  | started
  | stopped
  deriving DecidableEq, Repr

def AnnounceEvent.value : AnnounceEvent → UInt32
  | .none => 0
  | .completed => 1
  | .started => 2
  | .stopped => 3

/-- What an `AnnounceRequest` adds to a `Request`. -/
structure AnnounceFields where
  infoHash : Hash
  peerId : Vector UInt8 20
  downloaded : UInt64
  left : UInt64
  uploaded : UInt64
  event : AnnounceEvent
  ipAddr : UInt32
  key : UInt32
  numWant : UInt32
  port : UInt16
  deriving DecidableEq

/-- `Request`: a `ConnectRequest`, or an `AnnounceRequest` with its fields. -/
structure Request where
  connectionId : UInt64
  action : UInt32
  transactionId : UInt32
  announce : Option AnnounceFields := none
  deriving DecidableEq

namespace Request

/-- `Request::serialize`. -/
def serializeRequest (r : Request) : Writer := do
  serializeU64 (nativeToBig64 r.connectionId)
  serializeU32 (nativeToBig r.action)
  serializeU32 (nativeToBig r.transactionId)

/-- The virtual function `serialize`. -/
def serialize (r : Request) : Writer := do
  r.serializeRequest
  match r.announce with
  | none => return ()
  | some a =>
    serializeBytes a.infoHash.toList
    serializeBytes a.peerId.toList
    serializeU64 (nativeToBig64 a.downloaded)
    serializeU64 (nativeToBig64 a.left)
    serializeU64 (nativeToBig64 a.uploaded)
    serializeU32 (nativeToBig a.event.value)
    serializeU32 (nativeToBig a.ipAddr)
    serializeU32 (nativeToBig a.key)
    serializeU32 (nativeToBig a.numWant)
    serializeU16 (nativeToBig16 a.port)

/-- Serializing a request succeeds. -/
theorem serialized_ok (r : Request) : ∃ bytes, serialized r.serialize = .ok bytes := by
  have h20 : ∀ v : Vector UInt8 20, Serializer.sink.Writes (serializeBytes v.toList) v.toList := by
    intro v
    apply writes_serializeBytes
    rw [Vector.length_toList]
    decide
  have hbase : Serializer.sink.Writes r.serializeRequest _ :=
    (writes_serializeU64 _).bind ((writes_serializeU32 _).bind (writes_serializeU32 _))
  rcases ha : r.announce with _ | a
  · rw [serialize, ha]
    exact ⟨_, serialized_of_writes (hbase.bind .pure)⟩
  · rw [serialize, ha]
    exact ⟨_, serialized_of_writes <| hbase.bind <| (h20 _).bind <| (h20 _).bind <|
      (writes_serializeU64 _).bind <| (writes_serializeU64 _).bind <| (writes_serializeU64 _).bind <|
      (writes_serializeU32 _).bind <| (writes_serializeU32 _).bind <| (writes_serializeU32 _).bind <|
      (writes_serializeU32 _).bind <| writes_serializeU16 _⟩

end Request

/-! ### Responses -/

/-- `Response`. -/
structure Response where
  action : UInt32
  transactionId : UInt32
  deriving DecidableEq

/-- `ConnectionResponse`. -/
structure ConnectionResponse extends Response where
  connectionId : UInt64
  deriving DecidableEq

/-- `AnnounceResponse`. -/
structure AnnounceResponse extends Response where
  interval : UInt32
  leechers : UInt32
  seeders : UInt32
  peers : List PeerDescriptor
  deriving DecidableEq

/-- `ErrorResponse`. -/
structure ErrorResponse extends Response where
  message : List UInt8
  deriving DecidableEq

def deserializeResponse : Reader Response := do
  let action ← deserializeU32
  let transactionId ← deserializeU32
  return ⟨bigToNative action, bigToNative transactionId⟩

def deserializeConnectionResponse : Reader ConnectionResponse := do
  let res ← deserializeResponse
  let connectionId ← deserializeU64
  return ⟨res, bigToNative64 connectionId⟩

/-- The loop over the peers of an `AnnounceResponse`. -/
def deserializePeers : ℕ → Reader (List PeerDescriptor)
  | 0 => return []
  | n + 1 => do
    let ip ← deserializeU32
    let port ← deserializeU16
    let peers ← deserializePeers n
    return ⟨bigToNative ip, bigToNative16 port⟩ :: peers

/-- `deserialize` for `AnnounceResponse`; the number of peers is a `uint32_t`. -/
def deserializeAnnounceResponse : Reader AnnounceResponse := do
  let res ← deserializeResponse
  let interval ← deserializeU32
  let leechers ← deserializeU32
  let seeders ← deserializeU32
  let peers ← deserializePeers (bigToNative leechers + bigToNative seeders).toNat
  return ⟨res, bigToNative interval, bigToNative leechers, bigToNative seeders, peers⟩

def deserializeErrorResponse : Reader ErrorResponse := do
  let res ← deserializeResponse
  let message ← deserializeString
  return ⟨res, message⟩

theorem stable_deserializeConnectionResponse : Stable deserializeConnectionResponse :=
  Stable.bind (stable_deserializeU32.bind fun _ => stable_deserializeU32.bind fun _ => .pure _)
    fun _ => stable_deserializeU64.bind fun _ => .pure _

/-- A `ConnectionResponse` begins with a `Response`. -/
theorem toResponse_eq {bytes : List UInt8} {res : ConnectionResponse} {header : Response}
    (h : deserialized deserializeConnectionResponse bytes = .ok res)
    (hheader : deserialized deserializeResponse bytes = .ok header) : res.toResponse = header := by
  obtain ⟨⟨res', d⟩, h, hres⟩ := bind_eq_ok.1 h
  cases hres
  obtain ⟨⟨header', d'⟩, h₁, h₂⟩ := bind_eq_ok.1 h
  obtain ⟨⟨id, d₂⟩, -, hpure⟩ := bind_eq_ok.1 h₂
  cases hpure
  obtain ⟨⟨header'', d''⟩, h₃, hheader⟩ := bind_eq_ok.1 hheader
  cases hheader
  exact congrArg Prod.fst (Except.ok.inj (h₁.symm.trans h₃))

/-! ### The length of an announce response -/

/-- A peer takes six bytes. -/
theorem measured_deserializePeers (n : ℕ) : Measured (deserializePeers n) (6 * n) := by
  induction n with
  | zero => exact .pure _
  | succ n ih =>
    have h : Measured (deserializePeers (n + 1)) (4 + (2 + (6 * n + 0))) :=
      measured_deserializeU32.bind fun _ => measured_deserializeU16.bind fun _ =>
        ih.bind fun _ => .pure _
    rwa [show 4 + (2 + (6 * n + 0)) = 6 * (n + 1) by omega] at h

/-! ### What is in a buffer -/

/-- The number at `i` in the buffer, as the response has it. -/
def numberAt (buf : List UInt8) (i : ℕ) : UInt32 := bigToNative (ofLittleEndian ((buf.drop i).take 4))

/-- The number of peers that a buffer announces. -/
def announcedPeers (buf : List UInt8) : ℕ := (numberAt buf 12 + numberAt buf 16).toNat

/-- The peer at `i` in the buffer. -/
def peerAt (buf : List UInt8) (i : ℕ) : PeerDescriptor :=
  ⟨numberAt buf i, bigToNative16 (.ofNat (ofBytes ((buf.drop (i + 4)).take 2)))⟩

/-- The announce response in the buffer. -/
def announceResponseAt (buf : List UInt8) : AnnounceResponse where
  action := numberAt buf 0
  transactionId := numberAt buf 4
  interval := numberAt buf 8
  leechers := numberAt buf 12
  seeders := numberAt buf 16
  peers := (List.range (announcedPeers buf)).map fun k => peerAt buf (20 + 6 * k)

theorem length_take_drop {buf : List UInt8} {i n : ℕ} (h : i + n ≤ buf.length) :
    ((buf.drop i).take n).length = n := by
  rw [List.length_take, List.length_drop]
  omega

/-- The numbers are big endian. -/
theorem numberAt_eq {buf : List UInt8} {i : ℕ} (h : i + 4 ≤ buf.length) :
    numberAt buf i = .ofNat (bigEndianAt 4 buf i) := by
  rw [numberAt, bigToNative, byteSwap_ofLittleEndian (length_take_drop h), bigEndianAt]

theorem peerAt_eq {buf : List UInt8} {i : ℕ} (h : i + 6 ≤ buf.length) :
    peerAt buf i = ⟨.ofNat (bigEndianAt 4 buf i), .ofNat (bigEndianAt 2 buf (i + 4))⟩ := by
  have hlen := length_take_drop (show i + 4 + 2 ≤ buf.length by omega)
  have hlt : ofBytes ((buf.drop (i + 4)).take 2) < 2 ^ 16 := by
    have := ofBytes_lt ((buf.drop (i + 4)).take 2)
    rwa [hlen] at this
  have hbytes := bytesOf_ofBytes ((buf.drop (i + 4)).take 2)
  rw [hlen] at hbytes
  rw [peerAt, numberAt_eq (by omega), bigToNative16, UInt16.toNat_ofNat_of_lt' hlt, hbytes]
  rfl

theorem numberAt_append {buf : List UInt8} {i : ℕ} (h : i + 4 ≤ buf.length) (rest : List UInt8) :
    numberAt (buf ++ rest) i = numberAt buf i := by
  have h' : i + 4 ≤ (buf ++ rest).length := by
    rw [List.length_append]
    omega
  rw [numberAt_eq h', numberAt_eq h, bigEndianAt_append h]

theorem announcedPeers_append {buf : List UInt8} (h : 20 ≤ buf.length) (rest : List UInt8) :
    announcedPeers (buf ++ rest) = announcedPeers buf := by
  rw [announcedPeers, numberAt_append (by omega), numberAt_append (by omega), announcedPeers]

theorem peerAt_append {buf : List UInt8} {i : ℕ} (h : i + 6 ≤ buf.length) (rest : List UInt8) :
    peerAt (buf ++ rest) i = peerAt buf i := by
  have h' : i + 6 ≤ (buf ++ rest).length := by
    rw [List.length_append]
    omega
  rw [peerAt_eq h', peerAt_eq h, bigEndianAt_append (by omega), bigEndianAt_append (by omega)]

/-! ### Reading the buffer -/

section Buffer

variable {buf : List UInt8} (hbuf : buf.length < 2 ^ 31)

include hbuf

theorem deserializeResponse_eq (h8 : 8 ≤ buf.length) :
    deserializeResponse ⟨buf, 0⟩ = .ok (⟨numberAt buf 0, numberAt buf 4⟩, ⟨buf, 8⟩) := by
  have hsecond : (0 + 4 : UInt32).toNat + 4 ≤ buf.length := h8
  rw [deserializeResponse, Reader.bind_of_ok (deserializeU32_of_le hbuf (by simp; omega)),
    Reader.bind_of_ok (deserializeU32_of_le hbuf hsecond)]
  rfl

theorem deserialized_response (h8 : 8 ≤ buf.length) :
    deserialized deserializeResponse buf = .ok ⟨numberAt buf 0, numberAt buf 4⟩ := by
  rw [deserialized, deserializeResponse_eq hbuf h8]
  rfl

theorem deserialized_connectionResponse (h16 : 16 ≤ buf.length) :
    ∃ res, deserialized deserializeConnectionResponse buf = .ok res := by
  have h8 : 8 ≤ buf.length := by omega
  obtain ⟨id, d, hid, -⟩ := (measured_deserializeU64 ⟨buf, 8⟩ hbuf h8).1 h16
  refine ⟨⟨⟨numberAt buf 0, numberAt buf 4⟩, bigToNative64 id⟩, ?_⟩
  rw [deserialized, deserializeConnectionResponse, Reader.bind_of_ok (deserializeResponse_eq hbuf h8),
    Reader.bind_of_ok hid]
  rfl

theorem deserialized_errorResponse (h8 : 8 ≤ buf.length) :
    ∃ res, deserialized deserializeErrorResponse buf = .ok res := by
  obtain ⟨⟨message, d⟩, hmessage⟩ := deserializeString_ok ⟨buf, 8⟩
  refine ⟨⟨⟨numberAt buf 0, numberAt buf 4⟩, message⟩, ?_⟩
  rw [deserialized, deserializeErrorResponse, Reader.bind_of_ok (deserializeResponse_eq hbuf h8),
    Reader.bind_of_ok hmessage]
  rfl

/-- The loop reads the peers one after the other. -/
theorem deserializePeers_eq (n : ℕ) (i : UInt32) (hi : i.toNat + 6 * n ≤ buf.length) :
    ∃ d, deserializePeers n ⟨buf, i⟩ =
      .ok ((List.range n).map fun k => peerAt buf (i.toNat + 6 * k), d) := by
  induction n generalizing i with
  | zero => exact ⟨_, rfl⟩
  | succ n ih =>
    have hport : (i + 4).toNat = i.toNat + 4 := by
      rw [UInt32.toNat_add, Nat.mod_eq_of_lt (by simp; omega)]
      rfl
    have hnext : (i + 4 + 2).toNat = i.toNat + 6 := by
      rw [UInt32.toNat_add, hport, Nat.mod_eq_of_lt (by simp; omega)]
      rfl
    obtain ⟨d, hd⟩ := ih (i + 4 + 2) (by omega)
    refine ⟨d, ?_⟩
    rw [deserializePeers, Reader.bind_of_ok (deserializeU32_of_le hbuf (by omega)),
      Reader.bind_of_ok (deserializeU16_of_le hbuf (by omega)), Reader.bind_of_ok hd,
      List.range_succ_eq_map, List.map_cons, List.map_map, hport, hnext]
    have hshift : ∀ k, peerAt buf (i.toNat + 6 + 6 * k) = peerAt buf (i.toNat + 6 * (k + 1)) :=
      fun k => by rw [Nat.mul_succ, Nat.add_assoc, Nat.add_comm 6]
    simp only [hshift]
    rfl

theorem deserializeAnnounceResponse_eq (h20 : 20 ≤ buf.length) :
    deserializeAnnounceResponse ⟨buf, 0⟩ =
      (deserializePeers (announcedPeers buf) >>= fun peers =>
        pure { announceResponseAt buf with peers }) ⟨buf, 20⟩ := by
  have hinterval : (8 : UInt32).toNat + 4 ≤ buf.length := by simp; omega
  have hleechers : (8 + 4 : UInt32).toNat + 4 ≤ buf.length := by simp; omega
  have hseeders : (8 + 4 + 4 : UInt32).toNat + 4 ≤ buf.length := by simp; omega
  rw [deserializeAnnounceResponse, Reader.bind_of_ok (deserializeResponse_eq hbuf (by omega)),
    Reader.bind_of_ok (deserializeU32_of_le hbuf hinterval),
    Reader.bind_of_ok (deserializeU32_of_le hbuf hleechers),
    Reader.bind_of_ok (deserializeU32_of_le hbuf hseeders)]
  rfl

/-- Where there is room for all of the peers, they are read. -/
theorem deserialized_announceResponse (h : 20 + 6 * announcedPeers buf ≤ buf.length) :
    deserialized deserializeAnnounceResponse buf = .ok (announceResponseAt buf) := by
  obtain ⟨d, hd⟩ := deserializePeers_eq hbuf (announcedPeers buf) 20 h
  rw [deserialized, deserializeAnnounceResponse_eq hbuf (by omega), Reader.bind_of_ok hd]
  rfl

end Buffer

/-- The buffer has room for the header of an announce response and 166 peers. -/
theorem deserializeAnnounceResponse_ok {buf : List UInt8} (hbuf : buf.length = 1020) :
    (∃ res, deserialized deserializeAnnounceResponse buf = .ok res) ↔ announcedPeers buf ≤ 166 := by
  constructor
  · rintro ⟨res, hres⟩
    by_contra hmany
    have hpeers := ((measured_deserializePeers (announcedPeers buf)).bind fun peers =>
      Measured.pure { announceResponseAt buf with peers }) ⟨buf, 20⟩ (by simp; omega) (by simp; omega)
    obtain ⟨fault, herror⟩ := hpeers.2 (by simp; omega)
    rw [deserialized, deserializeAnnounceResponse_eq (by omega) (by omega), herror] at hres
    cases hres
  · intro hfew
    exact ⟨_, deserialized_announceResponse (by omega) (by omega)⟩

end FTorrent
