import FTorrent.TrackerMessages

/-!
# The UDP tracker

`UdpTracker` with its request queue, its timers and the operations on its socket.  Each handler is
atomic; the handlers of different operations run in any order.  A handler that throws or dereferences
null ends the program, in the state it has reached by then.

A pointer to a request is its position in `requests`, which keeps every request ever made.  Cancelling a
timer aborts its pending wait, but a handler that has been queued still runs.  `log` is a history
variable, latest first.
-/

namespace FTorrent

open Lib

/-! ### The retry timer -/

/-- `RetryTimer`. -/
structure RetryTimer where
  timer : SteadyTimer := {}
  retransmissionIndex : ℕ := 0
  stopped : Bool := true
  deriving DecidableEq

namespace RetryTimer

def increment (t : RetryTimer) : RetryTimer :=
  { t with retransmissionIndex := min (t.retransmissionIndex + 1) 8 }

/-- `get_expire`, in seconds. -/
def getExpire (t : RetryTimer) : ℕ := 15 + 2 ^ t.retransmissionIndex

def start (t : RetryTimer) : RetryTimer :=
  { t with stopped := false, timer := t.timer.start t.getExpire }

def stop (t : RetryTimer) : RetryTimer :=
  { timer := t.timer.cancel, stopped := true, retransmissionIndex := 0 }

/-- The end of `wait_handler`. -/
def again (t : RetryTimer) : RetryTimer :=
  { t.increment with timer := t.timer.start t.increment.getExpire }

end RetryTimer

/-! ### The request queue -/

/-- `RequestQueue`: `queue[0]` and `queue[1]`. -/
structure RequestQueue where
  announce : Option ℕ := none
  connect : Option ℕ := none
  deriving DecidableEq

namespace RequestQueue

/-- `top`, which throws if there is no request. -/
def top (q : RequestQueue) : Option ℕ := q.connect <|> q.announce

def empty (q : RequestQueue) : Bool := q.announce.isNone && q.connect.isNone

def remove (q : RequestQueue) (req : ℕ) : RequestQueue where
  announce := if q.announce = some req then none else q.announce
  connect := if q.connect = some req then none else q.connect

end RequestQueue

/-! ### The tracker -/

/-- What the history records: entering `make_connect_request`, `send_request` with the top of the queue
and `handle_response` with the pending request and the datagram, the requests sent, and the calls of
`on_peers`. -/
inductive TrackerNote where
  | makeConnectRequest
  | sendRequest (top : Option ℕ)
  | sent (req : Request)
  | handleResponse (pending : Option Request) (datagram : List UInt8)
  | onPeers (peers : List PeerDescriptor)
  deriving DecidableEq

/-- `Tracker`, without the handler of the peers. -/
structure Tracker where
  infoHash : Hash
  peerId : Vector UInt8 20
  listenPort : UInt16
  key : UInt32
  downloaded : UInt64 := 0
  uploaded : UInt64 := 0
  left : UInt64 := 12000
  deriving DecidableEq

/-- `MAGIC_CONNECTION_ID`. -/
def magicConnectionId : UInt64 := 0x41727101980

/-- `UdpTracker`, with the requests that have been made and the numbers of outstanding operations on the
socket. -/
structure UdpTracker extends Tracker where
  retryTimer : RetryTimer := {}
  announceTimer : SteadyTimer := {}
  connectTimer : SteadyTimer := {}
  reqBuf : List UInt8 := []
  resBuf : List UInt8 := []
  reqQueue : RequestQueue := {}
  curReq : Option ℕ := none
  reqSent : Bool := false
  connectionId : UInt64 := magicConnectionId
  announceInterval : UInt32
  curAnnounceEvent : AnnounceEvent := .started
  requests : List Request := []
  sending : ℕ := 0
  receiving : ℕ := 0
  ended : Bool := false
  log : List TrackerNote := []
  deriving DecidableEq

namespace UdpTracker

/-- What a handler makes of the tracker: the next state, or the state in which it throws. -/
abbrev Outcome := Except UdpTracker UdpTracker

def note (s : UdpTracker) (n : TrackerNote) : UdpTracker := { s with log := n :: s.log }

/-- The request behind `cur_req`. -/
def pending (s : UdpTracker) : Option Request := s.curReq.bind (s.requests[·]?)

/-- `send_request`: the bytes of the request leave with the call of `async_send_to`. -/
def sendRequest (s : UdpTracker) : Outcome :=
  let s := s.note (.sendRequest s.reqQueue.top)
  match s.reqQueue.top with
  | none => .error s
  | some req =>
    let s := { s with
      curReq := some req
      requests := s.requests.modify req fun r => { r with connectionId := s.connectionId } }
    match s.requests[req]? with
    | none => .error s
    | some r =>
      match serialized r.serialize with
      | .error _ => .error s
      | .ok reqBuf => .ok { s.note (.sent r) with reqBuf, sending := s.sending + 1 }

/-- `make_connect_request`, whose request has the random transaction id `tid`, and the insertion into the
queue. -/
def insertConnectRequest (s : UdpTracker) (tid : UInt32) : UdpTracker :=
  { s.note .makeConnectRequest with
    connectionId := magicConnectionId
    requests := s.requests ++ [⟨magicConnectionId, 0, tid, none⟩]
    reqQueue := { s.reqQueue with connect := some s.requests.length } }

/-- `make_announce_request`; the connection id is set when the request is sent. -/
def makeAnnounceRequest (s : UdpTracker) (tid : UInt32) : Request :=
  ⟨0, 1, tid, some {
    infoHash := s.infoHash, peerId := s.peerId, downloaded := s.downloaded, left := s.left
    uploaded := s.uploaded, event := s.curAnnounceEvent, ipAddr := 0, key := s.key, numWant := 50
    port := s.listenPort }⟩

def insertAnnounceRequest (s : UdpTracker) (tid : UInt32) : UdpTracker :=
  { s with
    requests := s.requests ++ [s.makeAnnounceRequest tid]
    reqQueue := { s.reqQueue with announce := some s.requests.length } }

/-- `run`. -/
def run (s : UdpTracker) (connectTid announceTid : UInt32) : Outcome :=
  ((s.insertConnectRequest connectTid).insertAnnounceRequest announceTid).sendRequest

/-- `get_response`. -/
def getResponse (s : UdpTracker) : UdpTracker :=
  { s with resBuf := .replicate 1020 0, receiving := s.receiving + 1 }

/-- `handle_response`, with the datagram that is in `res_buf` and whether `on_peers` returns. -/
def handleResponse (s : UdpTracker) (datagram : List UInt8) (accepted : Bool) : Outcome :=
  let s := s.note (.handleResponse s.pending datagram)
  match deserialized deserializeResponse s.resBuf, s.curReq, s.pending with
  | .ok header, some curReq, some r =>
    if r.transactionId ≠ header.transactionId then .ok s
    else if header.action = 0 then
      if s.resBuf.length < 16 then .ok s
      else
        let s := { s with reqQueue := s.reqQueue.remove curReq }
        match deserialized deserializeConnectionResponse s.resBuf with
        | .error _ => .error s
        | .ok response =>
          .ok { s with
            connectionId := response.connectionId
            connectTimer := s.connectTimer.start 60 }
    else if header.action = 1 then
      if s.resBuf.length < 20 then .ok s
      else
        let s := { s with reqQueue := s.reqQueue.remove curReq }
        match deserialized deserializeAnnounceResponse s.resBuf with
        | .error _ => .error s
        | .ok response =>
          let s := { s.note (.onPeers response.peers) with announceInterval := response.interval }
          if accepted then
            .ok { s with announceTimer := s.announceTimer.start s.announceInterval.toNat }
          else .error s
    else if header.action = 3 then
      match deserialized deserializeErrorResponse s.resBuf with
      | .error _ => .error s
      | .ok _ =>
        .ok { s with
          reqQueue := s.reqQueue.remove curReq
          announceTimer := s.announceTimer.start s.announceInterval.toNat
          connectTimer := s.connectTimer.start 60 }
    else .ok s
  | _, _, _ => .error s

/-! ### Handlers and events -/

/-- The completion handler of a send. -/
def sendHandler (s : UdpTracker) : Outcome :=
  let s := { s with sending := s.sending - 1 }
  if s.reqSent then .ok s
  else
    let s := s.getResponse
    .ok { s with reqSent := true, retryTimer := s.retryTimer.start }

/-- The datagram fills the buffer from its start, as far as it fits. -/
def fillBuffer (s : UdpTracker) (datagram : List UInt8) : List UInt8 :=
  datagram.take s.resBuf.length ++ s.resBuf.drop datagram.length

/-- The completion handler of a receive. -/
def receiveHandler (s : UdpTracker) (datagram : List UInt8) (accepted : Bool) : Outcome := do
  let s := { s with receiving := s.receiving - 1, resBuf := s.fillBuffer datagram }
  let s ← { s with retryTimer := s.retryTimer.stop }.handleResponse datagram accepted
  let s := { s with reqSent := false, curReq := none }
  if s.reqQueue.empty then return s else s.sendRequest

/-- `RetryTimer::wait_handler` without an error. -/
def retryHandler (s : UdpTracker) : Outcome :=
  let s := { s with retryTimer := { s.retryTimer with timer := s.retryTimer.timer.take } }
  if s.retryTimer.stopped then .ok s
  else do
    let s ← s.sendRequest
    return { s with retryTimer := s.retryTimer.again }

/-- The handler of `schedule_request` after the insertion. -/
def sendIfIdle (s : UdpTracker) : Outcome := if s.reqSent then .ok s else s.sendRequest

/-- The handler of the connect timer without an error. -/
def connectHandler (s : UdpTracker) (tid : UInt32) : Outcome :=
  ({ s with connectTimer := s.connectTimer.take }.insertConnectRequest tid).sendIfIdle

/-- The handler of the announce timer without an error. -/
def announceHandler (s : UdpTracker) (tid : UInt32) : Outcome :=
  ({ s with announceTimer := s.announceTimer.take }.insertAnnounceRequest tid).sendIfIdle

/-- What can happen next: the end of a send or of a receive, the end of a timer's pending wait, and the
handler of one that has ended. -/
inductive Event where
  | sendDone
  | received (datagram : List UInt8) (accepted : Bool)
  | retryExpires
  | connectExpires
  | announceExpires
  | retry
  | connect (tid : UInt32)
  | announce (tid : UInt32)
  deriving DecidableEq

/-- The state after a handler. -/
def settle : Outcome → UdpTracker
  | .ok s => s
  | .error s => { s with ended := true }

/-- The operation that an event is about is outstanding. -/
def Enabled (s : UdpTracker) : Event → Prop
  | .sendDone => 0 < s.sending
  | .received _ _ => 0 < s.receiving
  | .retryExpires => s.retryTimer.timer.waiting = true
  | .connectExpires => s.connectTimer.waiting = true
  | .announceExpires => s.announceTimer.waiting = true
  | .retry => 0 < s.retryTimer.timer.queued
  | .connect _ => 0 < s.connectTimer.queued
  | .announce _ => 0 < s.announceTimer.queued

instance (s : UdpTracker) (ev : Event) : Decidable (s.Enabled ev) := by
  cases ev <;> unfold Enabled <;> infer_instance

/-- What the handler of an event does. -/
def handle (s : UdpTracker) : Event → Outcome
  | .sendDone => s.sendHandler
  | .received datagram accepted => s.receiveHandler datagram accepted
  | .retryExpires =>
    .ok { s with retryTimer := { s.retryTimer with timer := s.retryTimer.timer.expire } }
  | .connectExpires => .ok { s with connectTimer := s.connectTimer.expire }
  | .announceExpires => .ok { s with announceTimer := s.announceTimer.expire }
  | .retry => s.retryHandler
  | .connect tid => s.connectHandler tid
  | .announce tid => s.announceHandler tid

def step (s : UdpTracker) (ev : Event) : Except Fault UdpTracker :=
  if s.ended = false ∧ s.Enabled ev then .ok (settle (s.handle ev)) else .error .notEnabled

/-- The tracker after `run`; the interval has not been set yet and holds any number. -/
def init (base : Tracker) (interval connectTid announceTid : UInt32) : UdpTracker :=
  settle (run { base with announceInterval := interval } connectTid announceTid)

/-- A tracker with a hash and a peer id of zeros. -/
def someTracker : Tracker := ⟨.replicate 20 0, .replicate 20 0, 6881, 0, 0, 0, 12000⟩

/-- A response to the connect request with the transaction id 1, which grants the connection id 5. -/
def connectResponse : List UInt8 := [0, 0, 0, 0, 0, 0, 0, 1, 0, 0, 0, 0, 0, 0, 0, 5]

/-- A response to the announce request with the transaction id 2, without peers. -/
def announceResponse : List UInt8 := [0, 0, 0, 1, 0, 0, 0, 2, 0, 0, 0, 60, 0, 0, 0, 0, 0, 0, 0, 0]

end UdpTracker

end FTorrent
