import FTorrent.Lib.Run
import FTorrent.Lib.Wire
import FTorrent.PeerConnection

/-!
# What a connection sends

`PeerConnection` with its sending half: `start`, `send` and `handshake_complete`, and the handlers of
the writes.  A step is a call of `start` or `send` or a completion handler as a whole, or a part of a
buffer that the socket takes.  What a handler passes to `send` is data of its event.

An exception that leaves a handler ends the program.  After an error of the socket no handler of that
operation does anything, so a failed write is one that never completes.
-/

namespace FTorrent

open Lib

/-- What `send` is called with. -/
inductive Outgoing where
  | handshake (h : Handshake)
  | message (m : Message)
  deriving DecidableEq

def Outgoing.id : Outgoing → UInt8
  | handshake _ => EMessageId.handshake.value
  | message m => m.object.id

def Outgoing.serialize : Outgoing → Writer
  | handshake h => h.serialize
  | message m => m.object.serialize

/-- What can be written: a length fits into its field. -/
def Outgoing.Fits : Outgoing → Prop
  | handshake h => h.pstr.length ≤ 255
  | message m => m.frame.length < 2 ^ 28

/-- The bytes of what is sent. -/
def Outgoing.frame : Outgoing → List UInt8
  | handshake h => h.frame
  | message m => m.frame

theorem Outgoing.serialized_eq {o : Outgoing} (h : o.Fits) : serialized o.serialize = .ok o.frame := by
  cases o with
  | handshake hs => exact serialized_of_writes (hs.writes_frame h)
  | message m => exact serialized_of_writes (m.writes_frame h)

/-- `PeerConnection`.  `written` are the messages handed to `async_write`, and the jobs of the wire
their buffers; `sendBuffers` has the numbers of those whose handler has not run; `loops` counts the
loops of `recieve_message`. -/
structure Connection extends PeerConnection where
  peerId : Vector UInt8 20
  pendingSendMsgs : List Outgoing := []
  sendBuffers : List ℕ := []
  written : List Outgoing := []
  wire : Wire UInt8 := {}
  loops : ℕ := 0

/-- The protocol name in the handshake. -/
def protocolName : List UInt8 :=
  [66, 105, 116, 84, 111, 114, 114, 101, 110, 116, 32, 112, 114, 111, 116, 111, 99, 111, 108]

/-- What a connection goes through. -/
inductive ConnectionEvent where
  | start
  | send (m : Message)
  /-- The socket takes a part of the `i`-th buffer. -/
  | transfer (i n : ℕ)
  /-- The handler of the `i`-th `async_write`. -/
  | written (i : ℕ) (sends : List Message)
  /-- The handler of the pending read. -/
  | read (recvBuffer : List UInt8) (sends : List Message)
  deriving DecidableEq

namespace Connection

/-- A connection that has been made; it may find anything where a variable was. -/
def created (infoHash : Hash) (peerId : Vector UInt8 20) (stale : UInt8 → UInt8) : Connection :=
  { infoHash := infoHash, peerId := peerId, stale := stale }

def ownHandshake (infoHash : Hash) (peerId : Vector UInt8 20) : Outgoing :=
  .handshake ⟨protocolName, infoHash, peerId⟩

def send (c : Connection) (msg : Outgoing) : Except Fault Connection :=
  if ¬ c.handshakeState.complete ∧ msg.id ≠ EMessageId.handshake.value then
    return { c with pendingSendMsgs := c.pendingSendMsgs ++ [msg] }
  else do
    let buf ← serialized msg.serialize
    return { c with
      sendBuffers := c.sendBuffers ++ [c.written.length]
      written := c.written ++ [msg]
      wire := c.wire.submit buf }

/-- The calls of `send` in a loop or a handler. -/
def sendAll (c : Connection) (msgs : List Outgoing) : Except Fault Connection := msgs.foldlM send c

def sendMessages (c : Connection) (msgs : List Message) : Except Fault Connection :=
  c.sendAll (msgs.map .message)

/-- The receiving half takes a step. -/
def receiving (c : Connection) (r : Except Fault PeerConnection) : Except Fault Connection := do
  let p ← r
  return { c with toPeerConnection := p }

def start (c : Connection) : Except Fault Connection := do
  let c ← c.send (ownHandshake c.infoHash c.peerId)
  return { c with toPeerConnection := c.toPeerConnection.recieveHandshake }

/-- `handshake_complete`. -/
def handshakeComplete (c : Connection) : Except Fault Connection := do
  let c ← c.sendAll c.pendingSendMsgs
  return { c with
    toPeerConnection := c.toPeerConnection.recieveMessage
    loops := c.loops + 1 }

/-- The handler that `start` passes to `send`. -/
def handshakeSent (c : Connection) : Except Fault Connection :=
  let c := { c with handshakeState := { c.handshakeState with sent := true } }
  if c.handshakeState.complete then c.handshakeComplete else return c

/-- The inner handler of `recieve_handshake`. -/
def handshakeRestRead (c : Connection) (pstrlen : UInt8) (recvBuffer : List UInt8) :
    Except Fault Connection := do
  let (handshake, _) ← deserializeHandshake ⟨c.stale pstrlen :: recvBuffer, 0⟩
  if c.infoHash ≠ handshake.infoHash then return { c with pending := .nothing }
  else
    let c := { c with
      handshakeState := { c.handshakeState with recieved := true }, pending := .nothing }
    if c.handshakeState.complete then c.handshakeComplete else return c

/-- The inner handler of `recieve_message`.  The next `recieve_message` and what `message_handler`
passes to `send` do not touch each other. -/
def messageBodyRead (c : Connection) (len : UInt32) (lenBytes recvBuffer : List UInt8)
    (sends : List Message) : Except Fault Connection := do
  let c ← c.receiving (c.toPeerConnection.messageBodyRead len lenBytes recvBuffer)
  c.sendMessages sends

/-- The handler of the pending read, which has got the bytes it asked for.  Only `message_handler`
sends. -/
def readDone (c : Connection) (recvBuffer : List UInt8) (sends : List Message) :
    Except Fault Connection :=
  if c.pending.bytes = some recvBuffer.length then
    match c.pending, sends with
    | .handshakeLength, [] => c.receiving (c.toPeerConnection.handshakeLengthRead recvBuffer)
    | .handshakeRest pstrlen, [] => c.handshakeRestRead pstrlen recvBuffer
    | .messageLength, [] => c.receiving (c.toPeerConnection.messageLengthRead recvBuffer)
    | .messageBody len lenBytes _, sends => c.messageBodyRead len lenBytes recvBuffer sends
    | _, _ => .error .notEnabled
  else .error .notEnabled

/-- The handler of `async_write`, which has moved its buffer, and the handler it was given. -/
def writeDone (c : Connection) (i : ℕ) (sends : List Message) : Except Fault Connection :=
  if i ∈ c.sendBuffers ∧ c.wire.finished i then
    let c := { c with sendBuffers := c.sendBuffers.erase i }
    match c.written[i]?, sends with
    | some (.handshake _), [] => c.handshakeSent
    | some (.message _), sends => c.sendMessages sends
    | _, _ => .error .notEnabled
  else .error .notEnabled

/-- A connection is started once. -/
def step (c : Connection) : ConnectionEvent → Except Fault Connection
  | .start => if c.written = [] then c.start else .error .notEnabled
  | .send m => c.send (.message m)
  | .transfer i n =>
    match c.wire.transfer i n with
    | some w => .ok { c with wire := w }
    | none => .error .notEnabled
  | .written i sends => c.writeDone i sends
  | .read recvBuffer sends => c.readDone recvBuffer sends

/-! ### What the steps do -/

/-- The buffers come from the messages. -/
def Buffers (msgs : List Outgoing) (bufs : List (List UInt8)) : Prop :=
  ∀ buf ∈ bufs, ∃ msg ∈ msgs, serialized msg.serialize = .ok buf

/-- The messages have been handed to `async_write`. -/
structure Handed (c : Connection) (msgs : List Outgoing) (d : Connection) : Prop where
  receiving : d.toPeerConnection = c.toPeerConnection
  peerId : d.peerId = c.peerId
  pending : d.pendingSendMsgs = c.pendingSendMsgs
  loops : d.loops = c.loops
  written : d.written = c.written ++ msgs
  buffers : d.sendBuffers = c.sendBuffers ++ List.range' c.written.length msgs.length
  wire : ∃ bufs, Buffers msgs bufs ∧ d.wire = bufs.foldl Wire.submit c.wire

variable {c d e : Connection}

theorem handed_nil (c : Connection) : c.Handed [] c :=
  ⟨rfl, rfl, rfl, rfl, by simp, by simp, [], fun _ hb => absurd hb List.not_mem_nil, rfl⟩

theorem Handed.append {msgs msgs' : List Outgoing} (h : c.Handed msgs d) (h' : d.Handed msgs' e) :
    c.Handed (msgs ++ msgs') e where
  receiving := h'.receiving.trans h.receiving
  peerId := h'.peerId.trans h.peerId
  pending := h'.pending.trans h.pending
  loops := h'.loops.trans h.loops
  written := by rw [h'.written, h.written, List.append_assoc]
  buffers := by
    rw [h'.buffers, h.buffers, h.written, List.append_assoc, List.length_append,
      List.length_append, List.range'_append_1]
  wire := by
    obtain ⟨bufs, hbufs, hw⟩ := h.wire
    obtain ⟨bufs', hbufs', hw'⟩ := h'.wire
    refine ⟨bufs ++ bufs', fun buf hbuf => ?_, ?_⟩
    · rcases List.mem_append.1 hbuf with hbuf | hbuf
      · obtain ⟨msg, hmsg, hb⟩ := hbufs buf hbuf
        exact ⟨msg, List.mem_append_left _ hmsg, hb⟩
      · obtain ⟨msg, hmsg, hb⟩ := hbufs' buf hbuf
        exact ⟨msg, List.mem_append_right _ hmsg, hb⟩
    · rw [hw', hw, List.foldl_append]

/-- After the handshakes, and for the own handshake, `send` hands the message over. -/
theorem handed_send {msg : Outgoing}
    (hc : c.handshakeState.complete = true ∨ msg.id = EMessageId.handshake.value)
    (h : c.send msg = .ok d) : c.Handed [msg] d := by
  have hcond : ¬ (¬ c.handshakeState.complete ∧ msg.id ≠ EMessageId.handshake.value) := by
    rintro ⟨h₁, h₂⟩
    exact hc.elim h₁ h₂
  rw [send, if_neg hcond] at h
  obtain ⟨buf, hbuf, hd⟩ := bind_eq_ok.1 h
  cases hd
  refine ⟨rfl, rfl, rfl, rfl, rfl, rfl, [buf], fun b hb => ?_, rfl⟩
  rw [List.mem_singleton.1 hb]
  exact ⟨msg, List.mem_singleton_self _, hbuf⟩

theorem handed_sendAll {c : Connection} {msgs : List Outgoing} (hc : c.handshakeState.complete = true)
    (h : c.sendAll msgs = .ok d) : c.Handed msgs d := by
  induction msgs generalizing c with
  | nil =>
    cases h
    exact handed_nil _
  | cons msg msgs ih =>
    rw [sendAll, List.foldlM_cons] at h
    obtain ⟨e, he, hd⟩ := bind_eq_ok.1 h
    have hfirst := handed_send (.inl hc) he
    exact hfirst.append (ih (by rw [hfirst.receiving, hc]) hd)

/-- `send` fails for nothing that can be written. -/
theorem sendAll_ok {c : Connection} {msgs : List Outgoing} (h : ∀ msg ∈ msgs, msg.Fits) :
    ∃ d, c.sendAll msgs = .ok d := by
  induction msgs generalizing c with
  | nil => exact ⟨c, rfl⟩
  | cons msg msgs ih =>
    have hm := List.forall_mem_cons.1 h
    have hsend : ∃ e, c.send msg = .ok e := by
      unfold send
      rw [msg.serialized_eq hm.1]
      split_ifs
      · exact ⟨_, rfl⟩
      · exact ⟨_, rfl⟩
    obtain ⟨e, he⟩ := hsend
    obtain ⟨d, hd⟩ := ih (c := e) hm.2
    refine ⟨d, ?_⟩
    rw [sendAll, List.foldlM_cons, he]
    exact hd

/-- Before that, `send` keeps a message. -/
theorem send_message_eq (hc : c.handshakeState.complete = false) (m : Message) :
    c.send (.message m) = .ok { c with pendingSendMsgs := c.pendingSendMsgs ++ [.message m] } := by
  refine if_pos ⟨by simp [hc], ?_⟩
  cases m <;> simp only [Outgoing.id, Message.object] <;> decide

theorem sendMessages_eq {c : Connection} (hc : c.handshakeState.complete = false) (ms : List Message) :
    c.sendMessages ms =
      .ok { c with pendingSendMsgs := c.pendingSendMsgs ++ ms.map .message } := by
  induction ms generalizing c with
  | nil => simp [sendMessages, sendAll]; rfl
  | cons m ms ih =>
    let d : Connection := { c with pendingSendMsgs := c.pendingSendMsgs ++ [.message m] }
    calc c.sendMessages (m :: ms) = c.send (.message m) >>= fun e => e.sendMessages ms := rfl
      _ = d.sendMessages ms := by rw [send_message_eq hc]; rfl
      _ = _ := by rw [ih (c := d) hc, List.append_assoc, List.map_cons, List.singleton_append]

/-- `handshake_complete` hands the waiting messages over and starts the loop. -/
theorem handed_handshakeComplete (hc : c.handshakeState.complete = true)
    (h : c.handshakeComplete = .ok d) :
    Handed { c with
      toPeerConnection := c.toPeerConnection.recieveMessage
      loops := c.loops + 1 } c.pendingSendMsgs d := by
  obtain ⟨e, he, hd⟩ := bind_eq_ok.1 h
  cases hd
  have hh := handed_sendAll hc he
  refine ⟨?_, hh.peerId, hh.pending, ?_, hh.written, hh.buffers, hh.wire⟩
  · show e.toPeerConnection.recieveMessage = _
    rw [hh.receiving]
  · show e.loops + 1 = _
    rw [hh.loops]

theorem writeDone_eq_ok {i : ℕ} {sends : List Message} (h : c.writeDone i sends = .ok d) :
    i ∈ c.sendBuffers ∧
      ((∃ hs, c.written[i]? = some (.handshake hs) ∧ sends = [] ∧
          { c with sendBuffers := c.sendBuffers.erase i }.handshakeSent = .ok d) ∨
        ∃ m, c.written[i]? = some (.message m) ∧
          { c with sendBuffers := c.sendBuffers.erase i }.sendMessages sends = .ok d) := by
  unfold writeDone at h
  by_cases hi : i ∈ c.sendBuffers ∧ c.wire.finished i
  · rw [if_pos hi] at h
    refine ⟨hi.1, ?_⟩
    rcases hw : c.written[i]? with _ | (hs | m)
    · simp [hw] at h
    · cases sends with
      | nil => exact .inl ⟨hs, rfl, rfl, by simpa [hw] using h⟩
      | cons => simp [hw] at h
    · exact .inr ⟨m, rfl, by simpa [hw] using h⟩
  · rw [if_neg hi] at h
    cases h

theorem handshakeRestRead_eq_ok {pstrlen : UInt8} {recvBuffer : List UInt8}
    (h : c.handshakeRestRead pstrlen recvBuffer = .ok d) :
    ∃ handshake t, deserializeHandshake ⟨c.stale pstrlen :: recvBuffer, 0⟩ = .ok (handshake, t) ∧
      if c.infoHash ≠ handshake.infoHash then d = { c with pending := .nothing }
      else
        let c' := { c with
          handshakeState := { c.handshakeState with recieved := true }, pending := .nothing }
        (if c'.handshakeState.complete then c'.handshakeComplete else .ok c') = .ok d := by
  obtain ⟨⟨handshake, t⟩, hdes, hd⟩ := bind_eq_ok.1 h
  refine ⟨handshake, t, hdes, ?_⟩
  dsimp only at hd
  by_cases hinfo : c.infoHash ≠ handshake.infoHash
  · rw [if_pos hinfo] at hd ⊢
    cases hd
    rfl
  · rw [if_neg hinfo] at hd ⊢
    exact hd

/-! ### The receiving half -/

theorem sendMessages_toPeerConnection {ms : List Message} (h : c.sendMessages ms = .ok d) :
    d.toPeerConnection = c.toPeerConnection := by
  cases hc : c.handshakeState.complete with
  | false =>
    rw [sendMessages_eq hc] at h
    cases h
    rfl
  | true => exact (handed_sendAll hc h).receiving

theorem receiving_eq_ok {r : Except Fault PeerConnection} (h : c.receiving r = .ok d) :
    r = .ok d.toPeerConnection := by
  obtain ⟨p, hp, hd⟩ := bind_eq_ok.1 h
  cases hd
  exact hp

theorem handshakeRestRead_toPeerConnection {pstrlen : UInt8} {recvBuffer : List UInt8}
    (h : c.handshakeRestRead pstrlen recvBuffer = .ok d) :
    c.toPeerConnection.handshakeRestRead pstrlen recvBuffer = .ok d.toPeerConnection := by
  obtain ⟨handshake, t, hdes, hd⟩ := handshakeRestRead_eq_ok h
  unfold PeerConnection.handshakeRestRead
  rw [hdes]
  show (if c.infoHash ≠ handshake.infoHash then _ else _) = _
  by_cases hinfo : c.infoHash ≠ handshake.infoHash
  · rw [if_pos hinfo] at hd ⊢
    rw [hd]
    rfl
  · rw [if_neg hinfo] at hd ⊢
    dsimp only at hd ⊢
    split_ifs at hd ⊢ with hc
    · have hh := handed_handshakeComplete hc hd
      rw [hh.receiving]
      rfl
    · cases hd
      rfl

/-- What a connection reads is what its receiving half reads. -/
theorem readDone_toPeerConnection {recvBuffer : List UInt8} {sends : List Message}
    (h : c.readDone recvBuffer sends = .ok d) :
    c.toPeerConnection.readDone recvBuffer = .ok d.toPeerConnection := by
  unfold readDone at h
  unfold PeerConnection.readDone
  split_ifs at h
  split at h
  case h_1 hp =>
    rw [hp]
    exact receiving_eq_ok h
  case h_2 hp =>
    rw [hp]
    exact handshakeRestRead_toPeerConnection h
  case h_3 hp =>
    rw [hp]
    exact receiving_eq_ok h
  case h_4 hp =>
    obtain ⟨e, he, hd⟩ := bind_eq_ok.1 h
    rw [hp, sendMessages_toPeerConnection hd]
    exact receiving_eq_ok he
  case h_5 => cases h

end Connection

end FTorrent
