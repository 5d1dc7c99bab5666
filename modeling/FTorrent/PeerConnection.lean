import FTorrent.Lib.Intake
import FTorrent.Messages

/-!
# What a connection receives

`recieve_handshake` and the `recieve_message` loop of `PeerConnection`.  A connection has at most
one read pending; its handler runs when the bytes it asked for have arrived.  Reading errors of the
socket are left out: then no handler runs again.

The inner handler of `recieve_handshake` captures `pstrlen`, a variable of the outer handler, by
reference.  That handler has returned by then, so what it finds there is arbitrary (`stale`).
-/

namespace FTorrent

open Lib

/-- The pending read, by the handler that waits for it, with what the handler has captured. -/
inductive Pending where
  | nothing
  | handshakeLength
  | handshakeRest (pstrlen : UInt8)
  | messageLength
  | messageBody (len : UInt32) (lenBytes : List UInt8) (nonzero : len ≠ 0)

/-- `HandshakeState`. -/
structure HandshakeState where
  sent : Bool := false
  recieved : Bool := false
  deriving DecidableEq

def HandshakeState.complete (h : HandshakeState) : Bool := h.sent && h.recieved

/-- `PeerConnection`; `handled` are the arguments of the calls of `message_handler`, where `none` is
the null pointer, and `stale` is what is left of a byte in the place of a variable that is gone. -/
structure PeerConnection where
  infoHash : Hash
  handshakeState : HandshakeState := {}
  pending : Pending := .nothing
  handled : List (Option MessageObject) := []
  stale : UInt8 → UInt8 := id

/-- The bytes that a read asks for. -/
def Pending.bytes : Pending → Option ℕ
  | nothing => none
  | handshakeLength => some 1
  | handshakeRest pstrlen => some (pstrlen.toNat + 48)
  | messageLength => some 4
  | messageBody len _ _ => some len.toNat

/-- The `switch` of `recieve_message`. -/
def recieveResult (id : UInt8) : Reader (Option MessageObject) :=
  match EMessageId.ofValue id with
  | some .choke => return some Message.choke.object
  | some .unchoke => return some Message.unchoke.object
  | some .interested => return some Message.interested.object
  | some .notInterested => return some Message.notInterested.object
  | some .haveMsg => some <$> deserializeHave
  | some .bitField => some <$> deserializeBitField
  | some .request => some <$> deserializeRequest
  | some .piece => some <$> deserializePiece
  | some .cancel => some <$> deserializeCancel
  | _ => return none

namespace PeerConnection

def recieveHandshake (c : PeerConnection) : PeerConnection := { c with pending := .handshakeLength }

def recieveMessage (c : PeerConnection) : PeerConnection := { c with pending := .messageLength }

/-- `handshake_complete`. -/
def handshakeComplete (c : PeerConnection) : PeerConnection := c.recieveMessage

/-- The outer handler of `recieve_handshake`. -/
def handshakeLengthRead (c : PeerConnection) (recvBuffer : List UInt8) :
    Except Fault PeerConnection := do
  let pstrlen ← vectorAt recvBuffer 0
  return { c with pending := .handshakeRest pstrlen }

/-- The inner handler of `recieve_handshake`. -/
def handshakeRestRead (c : PeerConnection) (pstrlen : UInt8) (recvBuffer : List UInt8) :
    Except Fault PeerConnection := do
  let (handshake, _) ← deserializeHandshake ⟨c.stale pstrlen :: recvBuffer, 0⟩
  if c.infoHash ≠ handshake.infoHash then return { c with pending := .nothing }
  else
    let c := { c with
      handshakeState := { c.handshakeState with recieved := true }, pending := .nothing }
    return if c.handshakeState.complete then c.handshakeComplete else c

/-- The outer handler of `recieve_message`. -/
def messageLengthRead (c : PeerConnection) (recvBuffer : List UInt8) :
    Except Fault PeerConnection := do
  let (num, _) ← deserializeU32 ⟨recvBuffer, 0⟩
  let len := bigToNative num
  if nonzero : len ≠ 0 then return { c with pending := .messageBody len recvBuffer nonzero }
  else return c.recieveMessage

/-- The inner handler of `recieve_message`.  `msg_bytes` has room for the two parts unless `4 + len`
wraps around. -/
def messageBodyRead (c : PeerConnection) (len : UInt32) (lenBytes recvBuffer : List UInt8) :
    Except Fault PeerConnection := do
  let id ← vectorAt recvBuffer 0
  let msgBytes := lenBytes ++ recvBuffer
  if (4 + len).toNat < msgBytes.length then throw .outOfRange
  else
    let (result, _) ← recieveResult id ⟨msgBytes, 0⟩
    return { c with handled := c.handled ++ [result] }.recieveMessage

theorem messageLengthRead_eq_ok {c d : PeerConnection} {recvBuffer : List UInt8}
    (h : c.messageLengthRead recvBuffer = .ok d) :
    d = c.recieveMessage ∨
      ∃ len nonzero, d = { c with pending := .messageBody len recvBuffer nonzero } := by
  obtain ⟨⟨num, t⟩, -, hd⟩ := bind_eq_ok.1 h
  by_cases nonzero : bigToNative num ≠ 0
  · simp only [dif_pos nonzero] at hd
    cases hd
    exact .inr ⟨_, nonzero, rfl⟩
  · simp only [dif_neg nonzero] at hd
    cases hd
    exact .inl rfl

theorem messageBodyRead_eq_ok {c d : PeerConnection} {len : UInt32}
    {lenBytes recvBuffer : List UInt8} (h : c.messageBodyRead len lenBytes recvBuffer = .ok d) :
    ∃ result, d = { c with handled := c.handled ++ [result] }.recieveMessage := by
  obtain ⟨id, -, hd⟩ := bind_eq_ok.1 h
  by_cases hroom : (4 + len).toNat < (lenBytes ++ recvBuffer).length
  · simp only [if_pos hroom] at hd
    cases hd
  · simp only [if_neg hroom] at hd
    obtain ⟨⟨result, t⟩, -, hd⟩ := bind_eq_ok.1 hd
    cases hd
    exact ⟨result, rfl⟩

/-- The handler of the pending read. -/
def readDone (c : PeerConnection) (recvBuffer : List UInt8) : Except Fault PeerConnection :=
  match c.pending with
  | .nothing => .error .notEnabled
  | .handshakeLength => c.handshakeLengthRead recvBuffer
  | .handshakeRest pstrlen => c.handshakeRestRead pstrlen recvBuffer
  | .messageLength => c.messageLengthRead recvBuffer
  | .messageBody len lenBytes _ => c.messageBodyRead len lenBytes recvBuffer

/-- A connection reads what it asks for, and no read asks for nothing. -/
def intake : Intake PeerConnection UInt8 Fault where
  wants c := c.pending.bytes
  accept := readDone
  pos_of_wants := by
    rintro c n h
    cases hp : c.pending <;> rw [hp, Pending.bytes] at h
    case nothing => cases h
    case messageBody len lenBytes nonzero =>
      cases h
      exact Nat.pos_of_ne_zero fun h0 => nonzero (UInt32.toNat_inj.1 h0)
    all_goals
      cases h
      omega

/-- A connection that has sent its handshake and waits for that of the other side.  It will find the
length of the protocol name where it was. -/
def listening (infoHash : Hash) : PeerConnection :=
  { infoHash, handshakeState := { sent := true } : PeerConnection }.recieveHandshake

/-- A connection that waits for the next message, after the given calls of `message_handler`. -/
def connected (infoHash : Hash) (handled : List (Option MessageObject)) : PeerConnection :=
  { infoHash, handshakeState := ⟨true, true⟩, handled : PeerConnection }.recieveMessage

end PeerConnection

/-! ### The frames of messages -/

theorem reads_all {α : Type} {m : Reader α} {bs : List UInt8} {a : α}
    (h : Deserializer.source.Reads m bs a) (hlen : bs.length < 2 ^ 32) :
    ∃ t, m ⟨bs, 0⟩ = .ok (a, t) := by
  obtain ⟨t, ht, -⟩ := h ⟨bs, 0⟩ [] ⟨hlen, Nat.zero_le _⟩ (List.append_nil bs).symm
  exact ⟨t, ht⟩

/-- A frame is read as the object that was written, its bit field filled up. -/
theorem Message.recieveResult_frame {m : Message} (h : m.frame.length < 2 ^ 28)
    (hm : m ≠ .keepAlive) :
    ∃ t, recieveResult m.object.id ⟨m.frame, 0⟩ = .ok (some m.padded.object, t) := by
  have hlen := len_toNat h
  have hread : ∀ {r : Reader MessageObject},
      Deserializer.source.Reads r ((bigEndian m.object.len ++ [m.object.id]) ++ m.payload)
        m.padded.object →
      ∃ t, (some <$> r) ⟨m.frame, 0⟩ = .ok (some m.padded.object, t) := by
    intro r hr
    rw [← frame_eq hm] at hr
    obtain ⟨t, ht⟩ := reads_all hr (by omega)
    refine ⟨t, ?_⟩
    show (r ⟨m.frame, 0⟩ >>= fun p => Except.ok (some p.1, p.2)) = _
    rw [ht]
    rfl
  rw [frame_length] at h
  cases m with
  | keepAlive => exact absurd rfl hm
  | choke | unchoke | interested | notInterested => exact ⟨_, rfl⟩
  | haveMsg index => exact hread (reads_have _ _ index)
  | request i b l => exact hread (reads_request _ _ i b l)
  | cancel i b l => exact hread (reads_cancel _ _ i b l)
  | bitField v =>
    rw [body_bitField_length] at hlen h
    apply hread
    rw [padded_object]
    exact reads_bitField hlen (by omega) _
  | piece i b block =>
    rw [body_piece_length] at hlen
    exact hread (reads_piece hlen _ i b)

/-- What `message_handler` is called with for a message. -/
def Message.handledAs (m : Message) : List (Option MessageObject) :=
  if m = .keepAlive then [] else [some m.padded.object]

theorem Message.flatMap_handledAs (msgs : List Message) :
    msgs.flatMap handledAs =
      (msgs.filter (· ≠ .keepAlive)).map fun m => some m.padded.object := by
  induction msgs with
  | nil => rfl
  | cons m msgs ih =>
    rw [List.flatMap_cons, ih, handledAs]
    by_cases hm : m = .keepAlive
    · rw [if_pos hm, List.filter_cons_of_neg (by simpa using hm), List.nil_append]
    · rw [if_neg hm, List.filter_cons_of_pos (by simpa using hm), List.map_cons,
        List.singleton_append]

/-! ### The stream -/

/-- The bytes of a handshake and the messages after it, each written by its `serialize`. -/
def serializedStream (h : Handshake) (msgs : List Message) : Except Fault (List UInt8) := do
  let handshake ← serialized h.serialize
  let frames ← msgs.mapM fun m => serialized m.object.serialize
  return handshake ++ frames.flatten

theorem mapM_serialized {msgs : List Message} (hm : ∀ m ∈ msgs, m.frame.length < 2 ^ 28) :
    (msgs.mapM fun m => serialized m.object.serialize) = .ok (msgs.map Message.frame) := by
  induction msgs with
  | nil => rfl
  | cons m msgs ih =>
    have hm' := List.forall_mem_cons.1 hm
    rw [List.mapM_cons, serialized_of_writes (m.writes_frame hm'.1), ih hm'.2]
    rfl

theorem serializedStream_eq_ok {h : Handshake} {msgs : List Message} (hp : h.pstr.length ≤ 255)
    (hm : ∀ m ∈ msgs, m.frame.length < 2 ^ 28) :
    serializedStream h msgs = .ok (h.frame ++ msgs.flatMap Message.frame) := by
  unfold serializedStream
  rw [serialized_of_writes (h.writes_frame hp), mapM_serialized hm]
  rfl

namespace PeerConnection

theorem run_handshake {h : Handshake} (hp : h.pstr.length ≤ 255) (rest : List UInt8) :
    intake.run (listening h.infoHash) (h.frame ++ rest) =
      intake.run (connected h.infoHash []) rest := by
  let b : UInt8 := .ofNat h.pstr.length
  let c : PeerConnection := { listening h.infoHash with pending := .handshakeRest b }
  have hlen : h.body.length = h.pstr.length + 48 := h.body_length
  have hb : b.toNat = h.pstr.length := UInt8.toNat_ofNat_of_lt' (by show _ < 2 ^ 8; omega)
  have hfirst : intake.accept (listening h.infoHash) [b] = .ok c := rfl
  have hwants : intake.wants c = some h.body.length := by
    show some (b.toNat + 48) = _
    rw [hb, hlen]
  have hrest : intake.accept c h.body = .ok (connected h.infoHash []) := by
    obtain ⟨t, ht⟩ := reads_all (Handshake.reads_frame hp)
      (by rw [Handshake.frame, List.length_cons]; omega)
    have hframe : c.stale b :: h.body = h.frame := rfl
    show handshakeRestRead c b h.body = _
    unfold handshakeRestRead
    rw [hframe, ht]
    exact if_neg (not_not_intro rfl)
  calc intake.run (listening h.infoHash) (h.frame ++ rest)
      = intake.run (listening h.infoHash) ([b] ++ (h.body ++ rest)) := rfl
    _ = intake.run c (h.body ++ rest) := Intake.run_append_of_accept _ rfl hfirst
    _ = intake.run (connected h.infoHash []) rest := Intake.run_append_of_accept _ hwants hrest

theorem messageLengthRead_bigEndian (c : PeerConnection) (len : UInt32) :
    c.messageLengthRead (bigEndian len) = .ok (
      if nonzero : len ≠ 0 then { c with pending := .messageBody len (bigEndian len) nonzero }
      else c.recieveMessage) := by
  obtain ⟨t, ht⟩ := reads_all (reads_bigToNative len) (by rw [bigEndian_length]; decide)
  have hlen : bigToNative (byteSwap len) = len := byteSwap_byteSwap len
  unfold messageLengthRead
  rw [ht]
  show (if nonzero : bigToNative (byteSwap len) ≠ 0 then Except.ok { c with
      pending := .messageBody (bigToNative (byteSwap len)) (bigEndian len) nonzero }
    else .ok c.recieveMessage) = _
  rw [hlen]
  split_ifs <;> rfl

theorem messageBodyRead_frame (c : PeerConnection) {m : Message} (h : m.frame.length < 2 ^ 28)
    (hm : m ≠ .keepAlive) :
    c.messageBodyRead m.object.len (bigEndian m.object.len) m.body =
      .ok { c with handled := c.handled ++ [some m.padded.object] }.recieveMessage := by
  have hlen := m.len_toNat h
  obtain ⟨t, ht⟩ := m.recieveResult_frame h hm
  have hid : vectorAt m.body 0 = .ok m.object.id := by
    rw [Message.body, if_neg hm]
    rfl
  have hroom : ¬ (4 + m.object.len).toNat < m.frame.length := by
    rw [Message.frame_length] at h ⊢
    rw [UInt32.toNat_add, hlen, show (4 : UInt32).toNat = 4 from rfl, Nat.mod_eq_of_lt (by omega)]
    omega
  unfold messageBodyRead
  rw [hid, ← Message.frame]
  refine (if_neg hroom).trans ?_
  rw [ht]
  rfl

/-- A message is taken off the stream by two reads, or by one if it is a keep-alive. -/
theorem run_message (infoHash : Hash) (handled : List (Option MessageObject)) {m : Message}
    (h : m.frame.length < 2 ^ 28) (rest : List UInt8) :
    intake.run (connected infoHash handled) (m.frame ++ rest) =
      intake.run (connected infoHash (handled ++ m.handledAs)) rest := by
  have hlen := m.len_toNat h
  have hfirst := messageLengthRead_bigEndian (connected infoHash handled) m.object.len
  by_cases hm : m = .keepAlive
  · subst hm
    rw [Message.handledAs, if_pos rfl, List.append_nil]
    exact Intake.run_append_of_accept _ rfl hfirst
  · have hbody : m.body ≠ [] := by
      rw [Message.body, if_neg hm]
      exact List.cons_ne_nil _ _
    have hne : m.object.len ≠ 0 := by
      intro h0
      rw [h0] at hlen
      exact hbody (List.length_eq_zero_iff.1 hlen.symm)
    let c : PeerConnection := { connected infoHash handled with
      pending := .messageBody m.object.len (bigEndian m.object.len) hne }
    rw [dif_pos hne] at hfirst
    have hrest : intake.accept c m.body = .ok (connected infoHash (handled ++ m.handledAs)) := by
      rw [Message.handledAs, if_neg hm]
      exact messageBodyRead_frame c h hm
    have hwants : intake.wants c = some m.body.length := congrArg some hlen
    calc intake.run (connected infoHash handled) (m.frame ++ rest)
        = intake.run (connected infoHash handled) (bigEndian m.object.len ++ (m.body ++ rest)) := by
          rw [Message.frame, List.append_assoc]
      _ = intake.run c (m.body ++ rest) := Intake.run_append_of_accept _ rfl hfirst
      _ = intake.run (connected infoHash (handled ++ m.handledAs)) rest :=
          Intake.run_append_of_accept _ hwants hrest

theorem run_messages (infoHash : Hash) (handled : List (Option MessageObject)) {msgs : List Message}
    (hm : ∀ m ∈ msgs, m.frame.length < 2 ^ 28) :
    intake.run (connected infoHash handled) (msgs.flatMap Message.frame) =
      .ok (connected infoHash (handled ++ msgs.flatMap Message.handledAs), []) := by
  induction msgs generalizing handled with
  | nil =>
    rw [List.flatMap_nil, List.flatMap_nil, List.append_nil]
    rfl
  | cons m msgs ih =>
    have hm' := List.forall_mem_cons.1 hm
    rw [List.flatMap_cons, List.flatMap_cons, run_message _ _ hm'.1, ih _ hm'.2, List.append_assoc]

/-- Whatever is sent after a handshake of the same torrent arrives, in order and complete, however
the stream is cut into pieces. -/
theorem recieves_stream {infoHash : Hash} {h : Handshake} {msgs : List Message}
    (hp : h.pstr.length ≤ 255) (hh : h.infoHash = infoHash)
    (hm : ∀ m ∈ msgs, m.frame.length < 2 ^ 28) :
    ∃ stream, serializedStream h msgs = .ok stream ∧ ∀ pieces : List (List UInt8),
      pieces.flatten = stream →
      pieces.foldlM intake.feed (listening infoHash, []) =
        .ok (connected infoHash ((msgs.filter (· ≠ .keepAlive)).map fun m => some m.padded.object),
          []) := by
  subst hh
  refine ⟨_, serializedStream_eq_ok hp hm, fun pieces hpieces => ?_⟩
  rw [Intake.foldlM_feed rfl, List.nil_append, hpieces, run_handshake hp, run_messages _ _ hm,
    List.nil_append, Message.flatMap_handledAs]

/-- A handshake with the protocol name that the program itself sends. -/
def sampleHandshake : Handshake where
  pstr := [66, 105, 116, 84, 111, 114, 114, 101, 110, 116, 32, 112, 114, 111, 116, 111, 99, 111, 108]
  infoHash := .replicate 20 7
  peerId := .replicate 20 9

def sampleMessages : List Message :=
  [.bitField [true, false, true], .keepAlive, .request 1 16384 16384, .piece 258 0 [1, 2, 3]]

theorem recieves_stream_sample :
    ∃ stream, serializedStream sampleHandshake sampleMessages = .ok stream ∧
      ∀ pieces : List (List UInt8), pieces.flatten = stream →
        pieces.foldlM intake.feed (listening (.replicate 20 7), []) =
          .ok (connected (.replicate 20 7)
            [some (Message.bitField [true, false, true, false, false, false, false, false]).object,
              some (Message.request 1 16384 16384).object,
              some (Message.piece 258 0 [1, 2, 3]).object], []) :=
  recieves_stream (by decide) rfl (by decide)

end PeerConnection

end FTorrent
