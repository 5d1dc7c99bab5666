import FTorrent.TrackerSteps

/-!
# The request that is waited for

A retransmission whose send completes after the response has been handled starts a receive for which no
request is pending.  In runs in which each send that completes finds a response awaited or a request
pending, `handle_response` is never entered without a request and `send_request` never with an empty
queue (`orderly_of_hasRequest`).  That at most one receive is outstanding holds in every run.
-/

namespace FTorrent

open Lib

/-- `send_request` is entered with a request in the queue, `handle_response` with a pending one. -/
def TrackerNote.Proper : TrackerNote → Prop
  | .sendRequest top => top.isSome = true
  | .handleResponse pending _ => pending.isSome = true
  | _ => True

namespace UdpTracker

variable {s t : UdpTracker}

/-- No function has been entered without a request. -/
def Proper (s : UdpTracker) : Prop := ∀ n ∈ s.log, n.Proper

/-- At most one receive is outstanding, and no function has been entered without a request. -/
def Orderly (s : UdpTracker) : Prop := s.receiving ≤ 1 ∧ Proper s

/-- A send completes while a response is awaited or a request is pending. -/
def HasRequest (s : UdpTracker) : Event → Prop
  | .sendDone => s.reqSent = true ∨ s.curReq.isSome = true
  | _ => True

/-- The retry timer runs only while a response is awaited, and the queue has pointers to requests. -/
structure Steady (s : UdpTracker) : Prop where
  retrying : s.retryTimer.stopped = false → s.reqSent = true
  announce : ∀ i, s.reqQueue.announce = some i → i < s.requests.length
  connect : ∀ i, s.reqQueue.connect = some i → i < s.requests.length

/-- There is a pending request exactly if the queue has one, and one is pending while a response is
awaited. -/
structure Busy (s : UdpTracker) : Prop extends Steady s where
  current : s.curReq.isSome = !s.reqQueue.empty
  known : ∀ i, s.curReq = some i → i < s.requests.length
  awaited : s.reqSent = true → s.curReq.isSome = true

/-- What a handler keeps. -/
abbrev Keeps : Outcome → Prop := Post (fun t => Proper t ∧ Busy t) Proper

theorem Proper.note (h : Proper s) {n : TrackerNote} (hn : n.Proper) : Proper (s.note n) := by
  intro k hk
  rcases List.mem_cons.1 hk with rfl | hk
  · exact hn
  · exact h k hk

theorem Proper.sentFrom (h : Proper s) (i : ℕ) (r : Request) (bytes : List UInt8) :
    Proper (s.sentFrom i r bytes) :=
  (h.note (n := .sendRequest (some i)) rfl).note (n := .sent _) trivial

/-! ### Sending -/

namespace Steady

theorem top_lt (h : Steady s) {i : ℕ} (hi : s.reqQueue.top = some i) : i < s.requests.length := by
  rw [RequestQueue.top] at hi
  rcases hconnect : s.reqQueue.connect with _ | j
  · rw [hconnect] at hi
    exact h.announce i hi
  · rw [hconnect] at hi
    cases hi
    exact h.connect _ hconnect

/-- A request is sent if there is one, and is then pending. -/
theorem sendRequest (h : Steady s) (hp : Proper s) (hq : s.reqQueue.empty = false) :
    Post (fun t => (Proper t ∧ Busy t) ∧ t.reqSent = s.reqSent) Proper s.sendRequest := by
  rcases htop : s.reqQueue.top with _ | i
  · rw [RequestQueue.top_eq_none, hq] at htop
    cases htop
  · have hi := h.top_lt htop
    obtain ⟨bytes, hsend⟩ := sendRequest_of_top htop (List.getElem?_eq_getElem hi)
    have hlen : (s.sentFrom i s.requests[i] bytes).requests.length = s.requests.length :=
      List.length_modify ..
    rw [hsend]
    refine ⟨⟨hp.sentFrom i _ bytes, ⟨h.retrying, ?_, ?_⟩, ?_, ?_, ?_⟩, rfl⟩
    · rw [hlen]
      exact h.announce
    · rw [hlen]
      exact h.connect
    · change true = !s.reqQueue.empty
      rw [hq, Bool.not_false]
    · intro j hj
      cases hj
      rwa [hlen]
    · exact fun _ => rfl

theorem keeps_sendRequest (h : Steady s) (hp : Proper s) (hq : s.reqQueue.empty = false) :
    Keeps s.sendRequest :=
  (h.sendRequest hp hq).mono (fun _ => And.left) fun _ => id

/-- A request that is inserted is sent unless a response is awaited. -/
theorem sendIfIdle (h : Steady s) (hp : Proper s) (hq : s.reqQueue.empty = false)
    (hcurrent : s.reqSent = true → s.curReq.isSome = true)
    (hknown : ∀ i, s.curReq = some i → i < s.requests.length) : Keeps s.sendIfIdle := by
  apply post_sendIfIdle
  · exact fun hsent => ⟨hp, h, by rw [hcurrent hsent, hq, Bool.not_false], hknown, hcurrent⟩
  · exact h.keeps_sendRequest hp hq

end Steady

/-! ### The handlers -/

/-- What `handle_response` leaves for the rest of the handler. -/
structure Received (s : UdpTracker) : Prop where
  proper : Proper s
  stopped : s.retryTimer.stopped = true
  announce : ∀ i, s.reqQueue.announce = some i → i < s.requests.length
  connect : ∀ i, s.reqQueue.connect = some i → i < s.requests.length

/-- There is a pending request when a response is handled. -/
theorem Received.handled (h : Received s) (hpending : s.pending.isSome = true) {datagram : List UInt8}
    {accepted : Bool} {o : Outcome} (hh : Handled s datagram accepted o) : Post Received Proper o := by
  have hnote : Proper (s.note (.handleResponse s.pending datagram)) := h.proper.note hpending
  have hannounce : ∀ i j, (s.reqQueue.remove i).announce = some j → j < s.requests.length :=
    fun i j hj => h.announce j (RequestQueue.of_remove.1 hj)
  have hconnect : ∀ i j, (s.reqQueue.remove i).connect = some j → j < s.requests.length :=
    fun i j hj => h.connect j (RequestQueue.of_remove.2 hj)
  cases hh with
  | ended | connectFailed | announceFailed => exact hnote
  | refused => exact hnote.note (n := .onPeers _) trivial
  | ignored => exact ⟨hnote, h.stopped, h.announce, h.connect⟩
  | connected | rejected => exact ⟨hnote, h.stopped, hannounce _, hconnect _⟩
  | announced =>
    exact ⟨hnote.note (n := .onPeers _) trivial, h.stopped, hannounce _, hconnect _⟩

namespace Busy

theorem receiveHandler (h : Busy s) (hp : Proper s) (hsent : s.reqSent = true)
    (hbuf : s.resBuf.length = 1020) (datagram : List UInt8) (accepted : Bool) :
    Keeps (s.receiveHandler datagram accepted) := by
  have hpending : s.pending.isSome = true := by
    obtain ⟨i, hi⟩ := Option.isSome_iff_exists.1 (h.awaited hsent)
    rw [pending, hi, Option.bind_some, List.getElem?_eq_getElem (h.known i hi)]
    rfl
  have hreceived : Received (s.arrived datagram) := ⟨hp, rfl, h.announce, h.connect⟩
  have hidle : ∀ t, Received t → Steady t.idle ∧ Proper t.idle := fun t ht =>
    ⟨⟨fun hf => absurd (ht.stopped.symm.trans hf) (by decide), ht.announce, ht.connect⟩, ht.proper⟩
  apply post_receiveHandler (P := Received) hbuf
  · exact fun o ho => hreceived.handled hpending ho
  · intro t ht hempty
    refine ⟨(hidle t ht).2, (hidle t ht).1, ?_, fun i hi => (by cases hi), fun hf => (by cases hf)⟩
    change false = !t.reqQueue.empty
    rw [hempty, Bool.not_true]
  · exact fun t ht hq => (hidle t ht).1.keeps_sendRequest (hidle t ht).2 hq

/-- A receive is started if none is outstanding, for the request that is pending. -/
theorem sendHandler (h : Busy s) (hp : Proper s) (hC : s.HasRequest .sendDone) :
    Keeps s.sendHandler := by
  apply post_sendHandler
  · exact fun _ => ⟨hp, ⟨h.retrying, h.announce, h.connect⟩, h.current, h.known, h.awaited⟩
  · intro hsent
    have hcurrent : s.curReq.isSome = true := hC.resolve_left (by simp [hsent])
    exact ⟨hp, ⟨fun _ => rfl, h.announce, h.connect⟩, h.current, h.known, fun _ => hcurrent⟩

/-- The retry timer runs only while a response is awaited, so that there is a request to send. -/
theorem retryHandler (h : Busy s) (hp : Proper s) : Keeps s.retryHandler := by
  have hretried : Steady s.retried := ⟨h.retrying, h.announce, h.connect⟩
  apply post_retryHandler (P := fun t => (Proper t ∧ Busy t) ∧ t.reqSent = true)
  · exact fun _ => ⟨hp, hretried, h.current, h.known, h.awaited⟩
  · intro hrunning
    have hsent := h.retrying hrunning
    have hq : s.reqQueue.empty = false := by
      have hcurrent := h.current
      rw [h.awaited hsent] at hcurrent
      simpa using hcurrent.symm
    apply (hretried.sendRequest hp hq).mono
    · exact fun t ht => ht.imp_right fun hsent' => hsent'.trans hsent
    · exact fun _ => id
  · rintro t ⟨⟨hp', hb⟩, hsent⟩
    exact ⟨hp', ⟨fun _ => hsent, hb.announce, hb.connect⟩, hb.current, hb.known, hb.awaited⟩

theorem connectHandler (h : Busy s) (hp : Proper s) (tid : UInt32) : Keeps (s.connectHandler tid) := by
  apply Steady.sendIfIdle
  · refine ⟨h.retrying, fun i hi => known_append (h.announce i hi) _, fun i hi => ?_⟩
    cases hi
    rw [insertConnectRequest]
    simp
  · exact hp.note (n := .makeConnectRequest) trivial
  · exact Bool.and_false _
  · exact h.awaited
  · exact fun i hi => known_append (h.known i hi) _

theorem announceHandler (h : Busy s) (hp : Proper s) (tid : UInt32) :
    Keeps (s.announceHandler tid) := by
  apply Steady.sendIfIdle
  · refine ⟨h.retrying, fun i hi => ?_, fun i hi => known_append (h.connect i hi) _⟩
    cases hi
    rw [insertAnnounceRequest]
    simp
  · exact hp
  · exact Bool.false_and _
  · exact h.awaited
  · exact fun i hi => known_append (h.known i hi) _

end Busy

/-! ### Runs -/

/-- What holds in the states of a run, of those that have ended too. -/
structure OrderlyInv (s : UdpTracker) : Prop where
  listening : Listening s
  proper : Proper s
  busy : s.ended = false → Busy s

theorem OrderlyInv.step (h : OrderlyInv s) {ev : Event} (hs : s.step ev = .ok t)
    (hC : s.HasRequest ev) : OrderlyInv t := by
  obtain ⟨hended, hen, -⟩ := step_eq_ok.1 hs
  have hb := h.busy hended
  have hp := h.proper
  have hkeeps : Keeps (s.handle ev) := by
    cases ev with
    | sendDone => exact hb.sendHandler hp hC
    | received datagram accepted =>
      exact hb.receiveHandler hp (h.listening.reqSent hen) (h.listening.buffered hen) datagram accepted
    | retryExpires | connectExpires | announceExpires =>
      exact ⟨hp, ⟨hb.retrying, hb.announce, hb.connect⟩, hb.current, hb.known, hb.awaited⟩
    | retry => exact hb.retryHandler hp
    | connect tid => exact hb.connectHandler hp tid
    | announce tid => exact hb.announceHandler hp tid
  obtain ⟨hpt, hbt⟩ := step_of_post (fun _ hu => hu) hkeeps hs
  exact ⟨h.listening.step hs, hpt, hbt⟩

theorem OrderlyInv.settle_sendRequest (h : Steady s) (hp : Proper s)
    (hq : s.reqQueue.empty = false) (hr : s.receiving = 0) : OrderlyInv (settle s.sendRequest) := by
  obtain ⟨hpt, hbt⟩ := settle_of_post (fun _ hu => hu) (h.keeps_sendRequest hp hq)
  exact ⟨.settle_sendRequest hr, hpt, hbt⟩

theorem orderlyInv_init (base : Tracker) (interval connectTid announceTid : UInt32) :
    OrderlyInv (init base interval connectTid announceTid) := by
  rw [init, run]
  apply OrderlyInv.settle_sendRequest
  · refine ⟨fun hf => (by cases hf), fun i hi => ?_, fun i hi => ?_⟩
    · cases hi
      exact Nat.lt_succ_self 1
    · cases hi
      exact Nat.zero_lt_succ 1
  · intro n hn
    rw [List.mem_singleton.1 hn]
    trivial
  · rfl
  · rfl

instance (s : UdpTracker) : ∀ ev, Decidable (s.HasRequest ev)
  | .sendDone => inferInstanceAs (Decidable (s.reqSent = true ∨ s.curReq.isSome = true))
  | .received _ _ | .retryExpires | .retry | .connectExpires | .connect _ | .announceExpires
  | .announce _ => .isTrue trivial

/-- In runs in which a send that completes finds a response awaited or a request pending, at most one
receive is outstanding, and no function is entered without a request. -/
theorem orderly_of_hasRequest (base : Tracker) (interval connectTid announceTid : UInt32)
    (es : List Event) : Always (Along (StepOf step) HasRequest) Orderly
      (init base interval connectTid announceTid) es :=
  always_of_invariant (R := Along (StepOf step) HasRequest)
    (fun _ h => ⟨h.listening.receiving_le, h.proper⟩) (fun _ _ _ h hs => h.step hs.1 hs.2)
    (orderlyInv_init base interval connectTid announceTid)

/-- The connect request is sent again just before it is answered, and that send completes while the
announce request is pending. -/
def resentInTime : List Event :=
  [.sendDone, .retryExpires, .retry, .received connectResponse true, .sendDone, .sendDone,
    .received announceResponse true]

theorem orderly_of_hasRequest_resentInTime : ∃ s,
    Run (StepOf step) (init someTracker 0 1 2) resentInTime s ∧ s.curReq = none ∧ s.Orderly := by
  obtain ⟨s, hr, hcur⟩ : ∃ s, Run (Along (StepOf step) HasRequest) (init someTracker 0 1 2)
      resentInTime s ∧ s.curReq = none :=
    exists_run_along (by decide +kernel)
  exact ⟨s, hr.mono fun _ _ _ hs => hs.1, hcur, (orderly_of_hasRequest _ _ _ _ _).of_run hr⟩

theorem handleResponse_of_none (h : s.curReq = none) (datagram : List UInt8) (accepted : Bool) :
    s.handleResponse datagram accepted = .error (s.note (.handleResponse none datagram)) := by
  have hpending : s.pending = none := by
    rw [pending, h]
    rfl
  unfold handleResponse
  dsimp only
  rw [hpending]
  split
  · next hcur _ => cases h.symm.trans hcur
  · rfl

theorem log_receiveHandler_of_none (h : s.curReq = none) (datagram : List UInt8) (accepted : Bool) :
    (settle (s.receiveHandler datagram accepted)).log = .handleResponse none datagram :: s.log := by
  have hcur : (s.arrived datagram).curReq = none := h
  have hnone := handleResponse_of_none hcur datagram accepted
  change (settle ((s.arrived datagram).handleResponse datagram accepted >>= _)).log = _
  rw [hnone]
  rfl

/-- A send that completes otherwise starts a receive whose datagram is handled without a request. -/
theorem not_proper_of_not_hasRequest (hs : s.step .sendDone = .ok t) (hC : ¬ s.HasRequest .sendDone)
    (datagram : List UInt8) (accepted : Bool) :
    ∃ u, t.step (.received datagram accepted) = .ok u ∧ ¬ Proper u := by
  obtain ⟨hsent, hcur⟩ := not_or.1 hC
  have hnone : s.curReq = none := by simpa using hcur
  have ht : t.ended = false ∧ t.curReq = none ∧ 0 < t.receiving := by
    obtain ⟨hended, -, rfl⟩ := step_eq_ok.1 hs
    rw [show s.handle .sendDone = .ok _ from if_neg hsent]
    exact ⟨hended, hnone, Nat.succ_pos _⟩
  refine ⟨_, step_eq_ok.2 ⟨ht.1, ht.2.2, rfl⟩, fun hproper => ?_⟩
  have hnote := hproper (.handleResponse none datagram)
  rw [handle, log_receiveHandler_of_none ht.2.1] at hnote
  exact absurd (hnote List.mem_cons_self) Bool.false_ne_true

/-- The connect request is sent again just before it is answered, and that send completes after the
announce request has been answered too. -/
def lateCompletion : List Event :=
  [.sendDone, .retryExpires, .retry, .received connectResponse true, .sendDone,
    .received announceResponse true, .sendDone, .received [] true]

theorem not_orderly_lateCompletion :
    ¬ ∀ (base : Tracker) (interval connectTid announceTid : UInt32) (es : List Event),
      Always (StepOf step) Orderly (init base interval connectTid announceTid) es := by
  intro h
  obtain ⟨t, hr, hlog⟩ : ∃ t, Run (StepOf step) (init someTracker 0 1 2) lateCompletion t ∧
      t.log.head? = some (.handleResponse none []) :=
    exists_run (by decide +kernel)
  have hproper := ((h _ _ _ _ _).of_run hr).2
  exact absurd (hproper _ (List.mem_of_mem_head? hlog)) Bool.false_ne_true

end UdpTracker

end FTorrent
