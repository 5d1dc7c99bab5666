import FTorrent.UdpTracker
import FTorrent.Lib.Post

/-!
# What the handlers of the tracker do

`handle_response` by the kinds of response (`handled`), `send_request` by the top of the queue, and from
what a handler leaves behind what a step leaves behind (`step_of_post`).
-/

namespace FTorrent

open Lib

namespace RequestQueue

theorem top_eq_none {q : RequestQueue} : q.top = none ↔ q.empty = true := by
  rcases q with ⟨_ | a, _ | b⟩ <;> simp [top, empty]

theorem remove_announce (q : RequestQueue) (i : ℕ) :
    (q.remove i).announce = if q.announce = some i then none else q.announce := rfl

theorem remove_connect (q : RequestQueue) (i : ℕ) :
    (q.remove i).connect = if q.connect = some i then none else q.connect := rfl

/-- What is in the queue after a removal was in it before. -/
theorem of_remove {q : RequestQueue} {i j : ℕ} :
    ((q.remove i).announce = some j → q.announce = some j) ∧
      ((q.remove i).connect = some j → q.connect = some j) := by
  rw [remove_announce, remove_connect]
  split_ifs <;> simp

end RequestQueue

namespace UdpTracker

variable {s t : UdpTracker}

theorem known_append {rs : List Request} {i : ℕ} (hi : i < rs.length) (r : Request) :
    i < (rs ++ [r]).length := by
  rw [List.length_append]
  exact Nat.lt_add_right 1 hi

/-! ### Sending -/

/-- The tracker after it has sent the request `r` that the pointer `i` is to. -/
def sentFrom (s : UdpTracker) (i : ℕ) (r : Request) (bytes : List UInt8) : UdpTracker :=
  { s with
    curReq := some i
    requests := s.requests.modify i fun r => { r with connectionId := s.connectionId }
    reqBuf := bytes
    sending := s.sending + 1
    log := .sent { r with connectionId := s.connectionId } :: .sendRequest (some i) :: s.log }

theorem sendRequest_of_top {i : ℕ} {r : Request} (htop : s.reqQueue.top = some i)
    (hr : s.requests[i]? = some r) : ∃ bytes, s.sendRequest = .ok (s.sentFrom i r bytes) := by
  obtain ⟨bytes, hbytes⟩ := Request.serialized_ok { r with connectionId := s.connectionId }
  refine ⟨bytes, ?_⟩
  simp only [sendRequest, note, htop, List.getElem?_modify, hr, if_true, Option.map_eq_map,
    Option.map_some, hbytes]
  rfl

theorem sendRequest_of_empty (h : s.reqQueue.top = none) :
    s.sendRequest = .error (s.note (.sendRequest none)) := by
  simp only [sendRequest, note, h]

/-- What `send_request` leaves alone, also where it throws. -/
structure Sends (s t : UdpTracker) : Prop where
  resBuf : t.resBuf = s.resBuf
  receiving : t.receiving = s.receiving
  reqSent : t.reqSent = s.reqSent
  reqQueue : t.reqQueue = s.reqQueue
  announceTimer : t.announceTimer = s.announceTimer

theorem sends_sendRequest (s : UdpTracker) : Post (Sends s) (Sends s) s.sendRequest := by
  unfold sendRequest
  dsimp only
  split
  · exact ⟨rfl, rfl, rfl, rfl, rfl⟩
  · split
    · exact ⟨rfl, rfl, rfl, rfl, rfl⟩
    · split
      · exact ⟨rfl, rfl, rfl, rfl, rfl⟩
      · exact ⟨rfl, rfl, rfl, rfl, rfl⟩

theorem sends_sendIfIdle (s : UdpTracker) : Post (Sends s) (Sends s) s.sendIfIdle := by
  unfold sendIfIdle
  split_ifs
  · exact ⟨rfl, rfl, rfl, rfl, rfl⟩
  · exact sends_sendRequest s

/-! ### Handling a response -/

/-- The datagram in the buffer is a response to the pending request. -/
structure Answered (s : UdpTracker) (i : ℕ) (r : Request) (header : Response) : Prop where
  current : s.curReq = some i
  request : s.requests[i]? = some r
  readable : deserialized deserializeResponse s.resBuf = .ok header
  tid : r.transactionId = header.transactionId

theorem Answered.header_eq {i j : ℕ} {r q : Request} {header header' : Response}
    (h : s.Answered i r header) (h' : s.Answered j q header') : header = header' :=
  Except.ok.inj (h.readable.symm.trans h'.readable)

/-- The kinds of response, and what `handle_response` makes of each. -/
inductive Handled (s : UdpTracker) (datagram : List UInt8) (accepted : Bool) : Outcome → Prop where
  | ended (h3 : ∀ i r header, s.Answered i r header → header.action = 3) :
    Handled s datagram accepted (.error (s.note (.handleResponse s.pending datagram)))
  | ignored (h : s.pending.isSome = true)
    (ha : ∀ i r header, s.Answered i r header → header.action ≠ 0 ∧ header.action ≠ 1) :
    Handled s datagram accepted (.ok (s.note (.handleResponse s.pending datagram)))
  | connectFailed {i : ℕ} {r : Request} {header : Response} (hm : s.Answered i r header)
    (ha : header.action = 0) :
    Handled s datagram accepted (.error { s.note (.handleResponse s.pending datagram) with
      reqQueue := s.reqQueue.remove i })
  | connected {i : ℕ} {r : Request} {header : Response} {res : ConnectionResponse}
    (hm : s.Answered i r header) (ha : header.action = 0)
    (hres : deserialized deserializeConnectionResponse s.resBuf = .ok res) :
    Handled s datagram accepted (.ok { s.note (.handleResponse s.pending datagram) with
      reqQueue := s.reqQueue.remove i
      connectionId := res.connectionId
      connectTimer := s.connectTimer.start 60 })
  | announceFailed {i : ℕ} {r : Request} {header : Response} (hm : s.Answered i r header)
    (ha : header.action = 1) {f : Fault}
    (hres : deserialized deserializeAnnounceResponse s.resBuf = .error f) :
    Handled s datagram accepted (.error { s.note (.handleResponse s.pending datagram) with
      reqQueue := s.reqQueue.remove i })
  | refused {i : ℕ} {r : Request} {header : Response} {res : AnnounceResponse}
    (hm : s.Answered i r header) (ha : header.action = 1)
    (hres : deserialized deserializeAnnounceResponse s.resBuf = .ok res) (hacc : accepted = false) :
    Handled s datagram accepted (.error
      { (s.note (.handleResponse s.pending datagram)).note (.onPeers res.peers) with
        reqQueue := s.reqQueue.remove i
        announceInterval := res.interval })
  | announced {i : ℕ} {r : Request} {header : Response} {res : AnnounceResponse}
    (hm : s.Answered i r header) (ha : header.action = 1)
    (hres : deserialized deserializeAnnounceResponse s.resBuf = .ok res) (hacc : accepted = true) :
    Handled s datagram accepted (.ok
      { (s.note (.handleResponse s.pending datagram)).note (.onPeers res.peers) with
        reqQueue := s.reqQueue.remove i
        announceInterval := res.interval
        announceTimer := s.announceTimer.start res.interval.toNat })
  | rejected {i : ℕ} {r : Request} {header : Response} (hm : s.Answered i r header)
    (ha : header.action = 3) :
    Handled s datagram accepted (.ok { s.note (.handleResponse s.pending datagram) with
      reqQueue := s.reqQueue.remove i
      announceTimer := s.announceTimer.start s.announceInterval.toNat
      connectTimer := s.connectTimer.start 60 })

/-- With the buffer that a receive is started with, the checks of its size pass. -/
theorem handled (hbuf : s.resBuf.length = 1020) (datagram : List UInt8) (accepted : Bool) :
    Handled s datagram accepted (s.handleResponse datagram accepted) := by
  have hbuf' : (s.note (.handleResponse s.pending datagram)).resBuf.length = 1020 := hbuf
  unfold handleResponse
  dsimp only
  split
  · next header i r hheader hcur hr =>
    have hpending : s.pending = some r := hr
    have hsome : s.pending.isSome = true := hpending ▸ rfl
    have hrequest : s.requests[i]? = some r := by
      rw [← hpending, pending, show s.curReq = some i from hcur]
      rfl
    by_cases htid : r.transactionId = header.transactionId
    · have hm : s.Answered i r header := ⟨hcur, hrequest, hheader, htid⟩
      rw [if_neg (not_not.2 htid)]
      split_ifs with h0 h16 h1 h20 hacc h3
      · omega
      · split
        · exact .connectFailed hm h0
        · next hres => exact .connected hm h0 hres
      · omega
      · split
        · next hres => exact .announceFailed hm h1 hres
        · next hres => exact .announced hm h1 hres hacc
      · split
        · next hres => exact .announceFailed hm h1 hres
        · next hres => exact .refused hm h1 hres (by simpa using hacc)
      · split
        · exact .ended fun j q header' hm' => hm.header_eq hm' ▸ h3
        · exact .rejected hm h3
      · exact .ignored hsome fun j q header' hm' => hm.header_eq hm' ▸ ⟨h0, h1⟩
    · rw [if_pos htid]
      refine .ignored hsome fun j q header' hm' => ?_
      obtain rfl : header = header' := Except.ok.inj (hheader.symm.trans hm'.readable)
      obtain rfl : i = j := Option.some.inj (hcur.symm.trans hm'.current)
      obtain rfl : r = q := Option.some.inj (hrequest.symm.trans hm'.request)
      exact absurd hm'.tid htid
  · next hnone =>
    refine .ended fun i r header hm => ?_
    have hpending : s.pending = some r := by
      rw [pending, hm.current]
      exact hm.request
    exact absurd hpending (hnone header i r hm.readable hm.current)

/-! ### Rules for the handlers -/

theorem length_fillBuffer (s : UdpTracker) (datagram : List UInt8) :
    (s.fillBuffer datagram).length = s.resBuf.length := by
  rw [fillBuffer, List.length_append, List.length_take, List.length_drop]
  omega

/-- The tracker when `handle_response` is entered. -/
def arrived (s : UdpTracker) (datagram : List UInt8) : UdpTracker :=
  { s with
    receiving := s.receiving - 1
    resBuf := s.fillBuffer datagram
    retryTimer := s.retryTimer.stop }

/-- The tracker after a response. -/
def idle (s : UdpTracker) : UdpTracker := { s with reqSent := false, curReq := none }

/-- The tracker when the handler of the retry timer is entered. -/
def retried (s : UdpTracker) : UdpTracker :=
  { s with retryTimer := { s.retryTimer with timer := s.retryTimer.timer.take } }

/-- The tracker after the first of its sends has completed. -/
def awaiting (s : UdpTracker) : UdpTracker :=
  { { s with sending := s.sending - 1 }.getResponse with
    reqSent := true, retryTimer := s.retryTimer.start }

section Rules

variable {P Q E : UdpTracker → Prop}

theorem post_sendHandler (hawaited : s.reqSent = true → Q { s with sending := s.sending - 1 })
    (hfirst : s.reqSent = false → Q s.awaiting) : Post Q E s.sendHandler := by
  unfold sendHandler
  dsimp only
  split_ifs with hsent
  · exact hawaited hsent
  · exact hfirst (by simpa using hsent)

theorem post_receiveHandler (hbuf : s.resBuf.length = 1020) {datagram : List UInt8} {accepted : Bool}
    (hhandled : ∀ o, Handled (s.arrived datagram) datagram accepted o → Post P E o)
    (hempty : ∀ t, P t → t.reqQueue.empty = true → Q t.idle)
    (hsend : ∀ t, P t → t.reqQueue.empty = false → Post Q E t.idle.sendRequest) :
    Post Q E (s.receiveHandler datagram accepted) := by
  apply Post.bind
  · exact hhandled _ (handled ((s.length_fillBuffer datagram).trans hbuf) datagram accepted)
  · intro t ht
    dsimp only
    split_ifs with hq
    · exact hempty t ht hq
    · exact hsend t ht (by simpa using hq)

theorem post_retryHandler (hstopped : s.retryTimer.stopped = true → Q s.retried)
    (hsend : s.retryTimer.stopped = false → Post P E s.retried.sendRequest)
    (hagain : ∀ t, P t → Q { t with retryTimer := t.retryTimer.again }) :
    Post Q E s.retryHandler := by
  unfold retryHandler
  dsimp only
  split_ifs with h
  · exact hstopped h
  · exact (hsend (by simpa using h)).bind hagain

/-- A request is sent unless a response is awaited. -/
theorem post_sendIfIdle (hawaited : s.reqSent = true → Q s) (hsend : Post Q E s.sendRequest) :
    Post Q E s.sendIfIdle := by
  unfold sendIfIdle
  split_ifs with hsent
  · exact hawaited hsent
  · exact hsend

end Rules

/-! ### Steps -/

theorem step_eq_ok {ev : Event} : s.step ev = .ok t ↔
    s.ended = false ∧ s.Enabled ev ∧ t = settle (s.handle ev) := by
  unfold step
  split_ifs with h
  · simp [h, eq_comm]
  · simp only [false_iff, not_and]
    intro h₁ h₂
    exact absurd ⟨h₁, h₂⟩ h

section Settle

variable {P Q : UdpTracker → Prop} (hP : ∀ u, P u → P { u with ended := true })

include hP

/-- What holds of the states in which handlers end, and what else of those in which they return. -/
theorem settle_of_post {o : Outcome} (h : Post (fun t => P t ∧ Q t) P o) :
    P (settle o) ∧ ((settle o).ended = false → Q (settle o)) := by
  cases o with
  | ok u => exact ⟨h.1, fun _ => h.2⟩
  | error u => exact ⟨hP u h, fun hended => by cases hended⟩

theorem step_of_post {ev : Event} (h : Post (fun t => P t ∧ Q t) P (s.handle ev))
    (hs : s.step ev = .ok t) : P t ∧ (t.ended = false → Q t) := by
  obtain ⟨-, -, rfl⟩ := step_eq_ok.1 hs
  exact settle_of_post hP h

/-- What holds of all states in which handlers end. -/
theorem settle_of_post_same {o : Outcome} (h : Post P P o) : P (settle o) := by
  cases o with
  | ok u => exact h
  | error u => exact hP u h

end Settle

/-! ### The receive that is outstanding -/

/-- At most one receive is outstanding, and only while a response is awaited; its buffer is as it was
when the receive was started. -/
structure Listening (s : UdpTracker) : Prop where
  once : s.receiving ≤ if s.reqSent then 1 else 0
  zeroed : 0 < s.receiving → s.resBuf = .replicate 1020 0

theorem Handled.buffer {datagram : List UInt8} {accepted : Bool} {o : Outcome}
    (h : Handled s datagram accepted o) :
    Post (fun t => t.resBuf = s.resBuf ∧ t.receiving = s.receiving)
      (fun t => t.resBuf = s.resBuf ∧ t.receiving = s.receiving) o := by
  cases h <;> exact ⟨rfl, rfl⟩

namespace Listening

theorem buffered (h : Listening s) (hr : 0 < s.receiving) : s.resBuf.length = 1020 := by
  rw [h.zeroed hr, List.length_replicate]

theorem receiving_le (h : Listening s) : s.receiving ≤ 1 := by
  have := h.once
  split_ifs at this
  · exact this
  · omega

/-- While a receive is outstanding, a response is awaited. -/
theorem reqSent (h : Listening s) (hr : 0 < s.receiving) : s.reqSent = true := by
  by_contra hsent
  have := h.once
  rw [if_neg hsent] at this
  omega

theorem of_sends (h : Listening s) (hs : Sends s t) : Listening t := by
  refine ⟨?_, ?_⟩
  · rw [hs.receiving, hs.reqSent]
    exact h.once
  · rw [hs.receiving, hs.resBuf]
    exact h.zeroed

theorem post_of_sends (h : Listening s) {o : Outcome} (ho : Post (Sends s) (Sends s) o) :
    Post Listening Listening o :=
  ho.mono (fun _ => h.of_sends) fun _ => h.of_sends

theorem of_none (h : s.receiving = 0) : Listening s := by
  refine ⟨?_, fun hr => absurd hr (by omega)⟩
  rw [h]
  exact Nat.zero_le _

theorem handle (h : Listening s) {ev : Event} (hen : s.Enabled ev) :
    Post Listening Listening (s.handle ev) := by
  cases ev with
  | sendDone =>
    apply post_sendHandler
    · exact fun _ => ⟨h.once, h.zeroed⟩
    · intro hsent
      have hnone := h.once
      rw [hsent, if_neg Bool.false_ne_true] at hnone
      refine ⟨?_, fun _ => rfl⟩
      change s.receiving + 1 ≤ 1
      omega
  | received datagram accepted =>
    have hnone : (s.arrived datagram).receiving = 0 := Nat.sub_eq_zero_of_le h.receiving_le
    apply post_receiveHandler (P := fun t => t.receiving = 0) (h.buffered hen)
    · intro o ho
      apply ho.buffer.mono
      · exact fun t ht => ht.2.trans hnone
      · exact fun t ht => of_none (ht.2.trans hnone)
    · exact fun t ht _ => of_none ht
    · intro t ht _
      have hidle : Listening t.idle := of_none ht
      exact hidle.post_of_sends (sends_sendRequest _)
  | retryExpires | connectExpires | announceExpires => exact ⟨h.once, h.zeroed⟩
  | retry =>
    have hretried : Listening s.retried := ⟨h.once, h.zeroed⟩
    apply post_retryHandler
    · exact fun _ => hretried
    · exact fun _ => hretried.post_of_sends (sends_sendRequest _)
    · exact fun t ht => ⟨ht.once, ht.zeroed⟩
  | connect tid =>
    apply post_of_sends _ (sends_sendIfIdle _)
    exact ⟨h.once, h.zeroed⟩
  | announce tid =>
    apply post_of_sends _ (sends_sendIfIdle _)
    exact ⟨h.once, h.zeroed⟩

theorem settle {o : Outcome} (h : Post Listening Listening o) : Listening (settle o) :=
  settle_of_post_same (fun _ hu => ⟨hu.once, hu.zeroed⟩) h

theorem step (h : Listening s) {ev : Event} (hs : s.step ev = .ok t) : Listening t := by
  obtain ⟨-, hen, rfl⟩ := step_eq_ok.1 hs
  exact settle (h.handle hen)

theorem settle_sendRequest (h : s.receiving = 0) : Listening (UdpTracker.settle s.sendRequest) :=
  settle ((of_none h).post_of_sends (sends_sendRequest s))

end Listening

/-- No receive is outstanding before the first send completes. -/
theorem listening_init (base : Tracker) (interval connectTid announceTid : UInt32) :
    Listening (init base interval connectTid announceTid) := by
  rw [init, run]
  exact .settle_sendRequest rfl

/-- At most one receive is outstanding, in every run. -/
theorem receiving_le_one (base : Tracker) (interval connectTid announceTid : UInt32)
    (es : List Event) : Always (StepOf step) (fun s => s.receiving ≤ 1)
      (init base interval connectTid announceTid) es :=
  always_of_invariant (R := StepOf step) (fun _ h => h.receiving_le) (fun _ _ _ h hs => h.step hs)
    (listening_init base interval connectTid announceTid)

end UdpTracker

end FTorrent
