import FTorrent.PendingRequest

/-!
# What becomes of a datagram

The length of what was received is not kept: a response is read from the datagram and the zeros that fill
the buffer up.  So a malformed datagram is rejected unless it passes with the zeros for a response to the
pending request (`rejectsMalformed_iff`).  An announce response yields as many peers as its two counters
say, which are the peers in the datagram only where the counters fit its length (`announcesPeers_iff`).
-/

namespace FTorrent

open Lib

/-- A datagram in the buffer of a receive. -/
def inBuffer (datagram : List UInt8) : List UInt8 :=
  datagram.take 1020 ++ .replicate (1020 - datagram.length) 0

theorem inBuffer_length (datagram : List UInt8) : (inBuffer datagram).length = 1020 := by
  rw [inBuffer, List.length_append, List.length_take, List.length_replicate]
  omega

theorem inBuffer_of_le {datagram : List UInt8} (h : datagram.length ≤ 1020) :
    inBuffer datagram = datagram ++ .replicate (1020 - datagram.length) 0 := by
  rw [inBuffer, List.take_of_length_le h]

theorem SteadyTimer.start_ne (t : SteadyTimer) (seconds : ℕ) : t.start seconds ≠ t := by
  intro h
  exact Nat.succ_ne_self t.starts (congrArg SteadyTimer.starts h)

/-- Removing a request changes the queue exactly if it is there. -/
theorem RequestQueue.remove_eq_self {q : RequestQueue} {i : ℕ} :
    q.remove i = q ↔ ¬ (some i = q.announce ∨ some i = q.connect) := by
  constructor
  · rintro h (ha | hc)
    · have hannounce := q.remove_announce i
      rw [if_pos ha.symm, h, ← ha] at hannounce
      cases hannounce
    · have hconnect := q.remove_connect i
      rw [if_pos hc.symm, h, ← hc] at hconnect
      cases hconnect
  · intro h
    rw [not_or] at h
    rw [remove, if_neg (Ne.symm h.1), if_neg (Ne.symm h.2)]

namespace UdpTracker

variable {s t : UdpTracker}

/-- The calls of `on_peers`, the latest first. -/
def reports (s : UdpTracker) : List (List PeerDescriptor) :=
  s.log.filterMap fun
    | .onPeers peers => some peers
    | _ => none

/-! ### The response in the buffer -/

theorem Listening.resBuf_arrived (h : Listening s) (hr : 0 < s.receiving) (datagram : List UInt8) :
    (s.arrived datagram).resBuf = inBuffer datagram := by
  show s.fillBuffer datagram = _
  rw [fillBuffer, h.zeroed hr, List.length_replicate, List.drop_replicate, inBuffer]

/-- In every run, the buffer of a receive that completes has the datagram and zeros. -/
theorem resBuf_arrived_of_run {base : Tracker} {interval connectTid announceTid : UInt32}
    {es : List Event} (hs : Run (StepOf step) (init base interval connectTid announceTid) es s)
    {datagram : List UInt8} {accepted : Bool} (hen : s.Enabled (.received datagram accepted)) :
    (s.arrived datagram).resBuf = inBuffer datagram :=
  (hs.invariant (fun _ _ _ h hs => h.step hs) (listening_init _ _ _ _)).resBuf_arrived hen datagram

/-- The pending request, and that the buffer has its transaction id. -/
theorem answered_iff (hbuf : s.resBuf.length = 1020) {i : ℕ} {r : Request} {header : Response} :
    s.Answered i r header ↔ s.curReq = some i ∧ s.pending = some r ∧
      header = ⟨numberAt s.resBuf 0, numberAt s.resBuf 4⟩ ∧
        numberAt s.resBuf 4 = r.transactionId := by
  have hread := deserialized_response (show s.resBuf.length < 2 ^ 31 by omega) (by omega)
  constructor
  · intro hm
    have hheader := Except.ok.inj (hread.symm.trans hm.readable)
    refine ⟨hm.current, ?_, hheader.symm, ?_⟩
    · rw [pending, hm.current]
      exact hm.request
    · rw [hm.tid, ← hheader]
  · rintro ⟨hcur, hpending, rfl, htid⟩
    rw [pending, hcur] at hpending
    exact ⟨hcur, hpending, hread, htid.symm⟩

theorem pending_eq_some {r : Request} (h : s.pending = some r) : ∃ i, s.curReq = some i := by
  obtain ⟨i, hi, -⟩ := Option.bind_eq_some_iff.1 h
  exact ⟨i, hi⟩

/-- The responses with the actions 0 and 3 start the connect timer. -/
theorem Answered.startsConnect {i : ℕ} {r : Request} {header : Response} (hm : s.Answered i r header)
    (hbuf : s.resBuf.length = 1020) (ha : header.action = 0 ∨ header.action = 3)
    (datagram : List UInt8) (accepted : Bool) : ∃ t, s.handleResponse datagram accepted = .ok t ∧
      t.connectTimer = s.connectTimer.start 60 := by
  rcases ha with ha | ha
  · obtain ⟨res, hres⟩ := deserialized_connectionResponse (show s.resBuf.length < 2 ^ 31 by omega) (by omega)
    simp [handleResponse, note, pending, hm.readable, hm.current, hm.request, hm.tid, ha, hbuf, hres]
  · obtain ⟨res, hres⟩ := deserialized_errorResponse (show s.resBuf.length < 2 ^ 31 by omega) (by omega)
    simp [handleResponse, note, pending, hm.readable, hm.current, hm.request, hm.tid, ha, hres]

/-- What becomes of a response with the action 1: its peers are not read, or not taken, or taken. -/
theorem Answered.announce {i : ℕ} {r : Request} {header : Response} (hm : s.Answered i r header)
    (h1 : header.action = 1) {datagram : List UInt8} {accepted : Bool} {o : Outcome}
    (ho : Handled s datagram accepted o) :
    (∃ f t, deserialized deserializeAnnounceResponse s.resBuf = .error f ∧ o = .error t ∧
      t.reqQueue = s.reqQueue.remove i) ∨
    ∃ res, deserialized deserializeAnnounceResponse s.resBuf = .ok res ∧ ∃ t,
      (accepted = false ∧ o = .error t ∨ accepted = true ∧ o = .ok t) ∧
        t.reports = res.peers :: s.reports := by
  have hother : ∀ {j q header'} {n : UInt32}, s.Answered j q header' → header'.action = n → n ≠ 1 →
      False := by
    intro j q header' n hm' hn hne
    obtain rfl := hm.header_eq hm'
    exact hne (hn.symm.trans h1)
  cases ho with
  | ended h3 => exact (hother hm (h3 _ _ _ hm) (by decide)).elim
  | ignored _ hnone => exact absurd h1 (hnone _ _ _ hm).2
  | connectFailed hm' h0 | connected hm' h0 => exact (hother hm' h0 (by decide)).elim
  | announceFailed hm' _ hres =>
    obtain rfl : i = _ := Option.some.inj (hm.current.symm.trans hm'.current)
    exact .inl ⟨_, _, hres, rfl, rfl⟩
  | refused _ _ hres hacc => exact .inr ⟨_, hres, _, .inl ⟨hacc, rfl⟩, rfl⟩
  | announced _ _ hres hacc => exact .inr ⟨_, hres, _, .inr ⟨hacc, rfl⟩, rfl⟩
  | rejected hm' h3 => exact (hother hm' h3 (by decide)).elim

/-! ### Malformed datagrams -/

/-- Too short for its kind, or a response to another request. -/
def Malformed (s : UdpTracker) (datagram : List UInt8) : Prop :=
  datagram.length < 8 ∨
  datagram.length < 16 ∧ numberAt datagram 0 = 0 ∨
  datagram.length < 20 ∧ numberAt datagram 0 = 1 ∨
  ∃ r, s.pending = some r ∧ numberAt datagram 4 ≠ r.transactionId

/-- A datagram has no effect on the tracker, and `on_peers` is not called. -/
structure Unaffected (s t : UdpTracker) : Prop where
  reqQueue : t.reqQueue = s.reqQueue
  connectionId : t.connectionId = s.connectionId
  announceInterval : t.announceInterval = s.announceInterval
  connectTimer : t.connectTimer = s.connectTimer
  announceTimer : t.announceTimer = s.announceTimer
  reports : t.reports = s.reports

/-- `handle_response` leaves the tracker as it is if the datagram is malformed. -/
def RejectsMalformed (s : UdpTracker) (datagram : List UInt8) (accepted : Bool) : Prop :=
  s.Malformed datagram → Unaffected (s.arrived datagram)
    (settle ((s.arrived datagram).handleResponse datagram accepted))

/-- With the zeros after it, the datagram is a response to the pending request that has an effect: an
announce response with more peers than fit takes the pending request out of the queue, if it is there. -/
def Passes (s : UdpTracker) (datagram : List UInt8) : Prop :=
  ∃ r, s.pending = some r ∧ numberAt (inBuffer datagram) 4 = r.transactionId ∧
    (numberAt (inBuffer datagram) 0 = 0 ∨ numberAt (inBuffer datagram) 0 = 3 ∨
      numberAt (inBuffer datagram) 0 = 1 ∧ (announcedPeers (inBuffer datagram) ≤ 166 ∨
        s.curReq = s.reqQueue.announce ∨ s.curReq = s.reqQueue.connect))

theorem Answered.passes {i : ℕ} {r : Request} {header : Response} {datagram : List UInt8}
    (hm : s.Answered i r header) (hbuf : s.resBuf = inBuffer datagram)
    (ha : header.action = 0 ∨ header.action = 3 ∨ header.action = 1 ∧
      (announcedPeers s.resBuf ≤ 166 ∨ s.reqQueue.remove i ≠ s.reqQueue)) : s.Passes datagram := by
  obtain ⟨hcur, hpending, rfl, htid⟩ := (answered_iff (hbuf ▸ inBuffer_length datagram)).1 hm
  rw [Ne, RequestQueue.remove_eq_self, not_not, ← hcur, hbuf] at ha
  rw [hbuf] at htid
  exact ⟨r, hpending, htid, ha⟩

/-- What `handle_response` does to a tracker with the datagram in its buffer. -/
theorem unaffected_iff {datagram : List UInt8} (hbuf : s.resBuf = inBuffer datagram) (accepted : Bool) :
    Unaffected s (settle (s.handleResponse datagram accepted)) ↔ ¬ s.Passes datagram := by
  have hlen : s.resBuf.length = 1020 := hbuf ▸ inBuffer_length datagram
  constructor
  · rintro h ⟨r, hpending, htid, ha⟩
    obtain ⟨i, hcur⟩ := pending_eq_some hpending
    have hm : s.Answered i r ⟨numberAt s.resBuf 0, numberAt s.resBuf 4⟩ := by
      rw [answered_iff hlen, hbuf]
      exact ⟨hcur, hpending, rfl, htid⟩
    rw [← hbuf] at ha
    rcases or_assoc.2 ha with ha | ⟨h1, ha⟩
    · obtain ⟨t, ht, htimer⟩ := hm.startsConnect hlen ha datagram accepted
      have hsame := h.connectTimer
      rw [ht] at hsame
      exact SteadyTimer.start_ne _ _ (htimer.symm.trans hsame)
    · rcases hm.announce h1 (handled hlen datagram accepted) with
        ⟨f, t, hres, ht, hremove⟩ | ⟨res, hres, t, ht, hreports⟩
      · have hsame := h.reqQueue
        rw [ht] at hsame
        have hkept : s.reqQueue.remove i = s.reqQueue := hremove.symm.trans hsame
        rcases ha with hfew | hq
        · obtain ⟨res, hok⟩ := (deserializeAnnounceResponse_ok hlen).2 hfew
          cases hres.symm.trans hok
        · rw [hcur] at hq
          exact RequestQueue.remove_eq_self.1 hkept hq
      · have hsame := h.reports
        have hsettled : (settle (s.handleResponse datagram accepted)).reports = t.reports := by
          rcases ht with ⟨-, ht⟩ | ⟨-, ht⟩
          all_goals rw [ht]; rfl
        rw [hsettled, hreports] at hsame
        exact List.cons_ne_self _ _ hsame
  · intro hn
    have ho := handled hlen datagram accepted
    generalize s.handleResponse datagram accepted = o at ho
    cases ho with
    | ended | ignored => exact ⟨rfl, rfl, rfl, rfl, rfl, rfl⟩
    | connectFailed hm h0 | connected hm h0 => exact absurd (hm.passes hbuf (.inl h0)) hn
    | @announceFailed i _ _ hm h1 =>
      have hq : s.reqQueue.remove i = s.reqQueue := by
        by_contra hq
        exact hn (hm.passes hbuf (.inr (.inr ⟨h1, .inr hq⟩)))
      exact ⟨hq, rfl, rfl, rfl, rfl, rfl⟩
    | refused hm h1 hres | announced hm h1 hres =>
      have hfew := (deserializeAnnounceResponse_ok hlen).1 ⟨_, hres⟩
      exact absurd (hm.passes hbuf (.inr (.inr ⟨h1, .inl hfew⟩))) hn
    | rejected hm h3 => exact absurd (hm.passes hbuf (.inr (.inl h3))) hn

/-- In every run, a malformed datagram is rejected exactly if it does not pass, with the zeros after it,
for a response to the pending request that has an effect. -/
theorem rejectsMalformed_iff {base : Tracker} {interval connectTid announceTid : UInt32}
    {es : List Event} (hs : Run (StepOf step) (init base interval connectTid announceTid) es s)
    {datagram : List UInt8} {accepted : Bool} (hen : s.Enabled (.received datagram accepted)) :
    RejectsMalformed s datagram accepted ↔ (s.Malformed datagram → ¬ s.Passes datagram) := by
  have h := unaffected_iff (resBuf_arrived_of_run hs hen) accepted
  exact imp_congr_right fun _ => h

/-- A header with the action 0 and the given last byte of the transaction id, and nothing else. -/
def headerOnly (tid : UInt8) : List UInt8 := [0, 0, 0, 0, 0, 0, 0, tid]

/-- The first request has the transaction id 1, a header with another one is rejected. -/
theorem rejectsMalformed_otherTid : ∃ s, Run (StepOf step) (init someTracker 0 1 2) [.sendDone] s ∧
    s.Malformed (headerOnly 9) ∧ RejectsMalformed s (headerOnly 9) true := by
  obtain ⟨s, hrun, hen, hpending⟩ : ∃ s, Run (StepOf step) (init someTracker 0 1 2) [.sendDone] s ∧
      s.Enabled (.received (headerOnly 9) true) ∧ s.pending.map (·.transactionId) = some 1 :=
    exists_run (by decide +kernel)
  refine ⟨s, hrun, .inr (.inl (by decide)), (rejectsMalformed_iff hrun hen).2 ?_⟩
  rintro - ⟨r, hr, htid, -⟩
  have h9 : numberAt (inBuffer (headerOnly 9)) 4 = 9 := by decide +kernel
  rw [hr] at hpending
  have h1 : r.transactionId = 1 := Option.some.inj hpending
  rw [h9, h1] at htid
  exact absurd htid (by decide)

/-- A header with the right transaction id is taken for a whole response. -/
theorem not_rejectsMalformed_headerOnly :
    ¬ ∀ (base : Tracker) (interval connectTid announceTid : UInt32) (es : List Event) (s : UdpTracker),
      Run (StepOf step) (init base interval connectTid announceTid) es s →
      ∀ datagram accepted, s.Enabled (.received datagram accepted) →
        RejectsMalformed s datagram accepted := by
  intro h
  obtain ⟨s, hrun, hen, hbefore, hafter⟩ : ∃ s,
      Run (StepOf step) (init someTracker 0 1 2) [.sendDone] s ∧
        s.Enabled (.received (headerOnly 1) true) ∧ s.connectTimer.waiting = false ∧
        (settle ((s.arrived (headerOnly 1)).handleResponse (headerOnly 1) true)).connectTimer.waiting =
          true := exists_run (by decide +kernel)
  have hsame := (h _ _ _ _ _ s hrun _ _ hen (.inr (.inl (by decide)))).connectTimer
  rw [hsame] at hafter
  cases hbefore.symm.trans hafter

/-! ### Announce responses -/

/-- The peers in an announce response: an address and a port, both big endian, for each six bytes after
the counters. -/
def peersIn (datagram : List UInt8) : List PeerDescriptor :=
  (List.range ((datagram.length - 20) / 6)).map fun k =>
    ⟨.ofNat (bigEndianAt 4 datagram (20 + 6 * k)), .ofNat (bigEndianAt 2 datagram (24 + 6 * k))⟩

/-- The datagram fits into the buffer and is an announce response for the pending request. -/
structure AnswersAnnounce (s : UdpTracker) (datagram : List UInt8) : Prop where
  long : 20 ≤ datagram.length
  short : datagram.length ≤ 1020
  action : numberAt datagram 0 = 1
  tid : ∃ r, s.pending = some r ∧ numberAt datagram 4 = r.transactionId

/-- `handle_response` returns and has called `on_peers` with the peers in the datagram. -/
def AnnouncesPeers (s : UdpTracker) (datagram : List UInt8) (accepted : Bool) : Prop :=
  ∃ t, (s.arrived datagram).handleResponse datagram accepted = .ok t ∧
    t.reports = peersIn datagram :: s.reports

/-- If the counters fit the length, the peers in the buffer are those in the datagram. -/
theorem peers_inBuffer {datagram : List UInt8} (hlong : 20 ≤ datagram.length)
    (hshort : datagram.length ≤ 1020) (h : announcedPeers datagram = (datagram.length - 20) / 6) :
    (announceResponseAt (inBuffer datagram)).peers = peersIn datagram := by
  rw [inBuffer_of_le hshort, announceResponseAt, announcedPeers_append hlong, h, peersIn]
  apply List.map_congr_left
  intro k hk
  have hroom : 20 + 6 * k + 6 ≤ datagram.length := by
    have := List.mem_range.1 hk
    omega
  rw [peerAt_append hroom, peerAt_eq hroom, Nat.add_right_comm]

/-- What `handle_response` does to a tracker with an announce response in its buffer. -/
theorem announced_iff {datagram : List UInt8} (hbuf : s.resBuf = inBuffer datagram)
    (ha : s.AnswersAnnounce datagram) (accepted : Bool) :
    (∃ t, s.handleResponse datagram accepted = .ok t ∧ t.reports = peersIn datagram :: s.reports) ↔
      announcedPeers datagram = (datagram.length - 20) / 6 ∧ accepted = true := by
  have hlen : s.resBuf.length = 1020 := hbuf ▸ inBuffer_length datagram
  have happend : s.resBuf = datagram ++ .replicate (1020 - datagram.length) 0 :=
    hbuf.trans (inBuffer_of_le ha.short)
  have hcount : announcedPeers s.resBuf = announcedPeers datagram := by
    rw [happend, announcedPeers_append ha.long]
  have h20 := ha.long
  have h1020 := ha.short
  obtain ⟨r, hpending, htid⟩ := ha.tid
  obtain ⟨i, hcur⟩ := pending_eq_some hpending
  have hm : s.Answered i r ⟨numberAt s.resBuf 0, numberAt s.resBuf 4⟩ := by
    rw [answered_iff hlen]
    refine ⟨hcur, hpending, rfl, ?_⟩
    rw [happend, numberAt_append (by omega), htid]
  have h1 : numberAt s.resBuf 0 = 1 := by
    rw [happend, numberAt_append (by omega), ha.action]
  have houtcome := hm.announce h1 (handled hlen datagram accepted)
  constructor
  · rintro ⟨t, ht, hreports⟩
    rw [ht] at houtcome
    rcases houtcome with ⟨_, _, -, he, -⟩ | ⟨res, hres, u, ⟨-, he⟩ | ⟨hacc, he⟩, hu⟩
    · cases he
    · cases he
    · cases he
      have hfew := (deserializeAnnounceResponse_ok hlen).1 ⟨_, hres⟩
      have hok := deserialized_announceResponse (show s.resBuf.length < 2 ^ 31 by omega) (by omega)
      obtain rfl := Except.ok.inj (hok.symm.trans hres)
      have hpeers : (announceResponseAt s.resBuf).peers = peersIn datagram :=
        (List.cons.inj (hu.symm.trans hreports)).1
      have hnumber := congrArg List.length hpeers
      rw [announceResponseAt, peersIn, List.length_map, List.length_map, List.length_range,
        List.length_range, hcount] at hnumber
      exact ⟨hnumber, hacc⟩
  · rintro ⟨hfit, hacc⟩
    have hroom : 20 + 6 * announcedPeers s.resBuf ≤ s.resBuf.length := by
      rw [hcount, hfit, hlen]
      omega
    have hok := deserialized_announceResponse (show s.resBuf.length < 2 ^ 31 by omega) hroom
    rcases houtcome with ⟨_, _, hres, -⟩ | ⟨res, hres, t, ⟨hrefused, -⟩ | ⟨-, ht⟩, hreports⟩
    · cases hres.symm.trans hok
    · cases hacc.symm.trans hrefused
    · obtain rfl := Except.ok.inj (hok.symm.trans hres)
      refine ⟨t, ht, hreports.trans (congrArg (· :: s.reports) ?_)⟩
      rw [hbuf]
      exact peers_inBuffer ha.long ha.short hfit

/-- In every run, an announce response for the pending request yields exactly the peers in the datagram if
and only if its counters add up to their number and `on_peers` returns. -/
theorem announcesPeers_iff {base : Tracker} {interval connectTid announceTid : UInt32}
    {es : List Event} (hs : Run (StepOf step) (init base interval connectTid announceTid) es s)
    {datagram : List UInt8} {accepted : Bool} (hen : s.Enabled (.received datagram accepted))
    (ha : s.AnswersAnnounce datagram) : AnnouncesPeers s datagram accepted ↔
      announcedPeers datagram = (datagram.length - 20) / 6 ∧ accepted = true := by
  have harrived : (s.arrived datagram).AnswersAnnounce datagram :=
    ⟨ha.long, ha.short, ha.action, ha.tid⟩
  exact announced_iff (resBuf_arrived_of_run hs hen) harrived accepted

/-- A response to the request with the transaction id 2, with the given number of seeders and one peer. -/
def onePeer (seeders : UInt8) : List UInt8 :=
  [0, 0, 0, 1, 0, 0, 0, 2, 0, 0, 7, 8, 0, 0, 0, 0, 0, 0, 0, seeders, 127, 0, 0, 1, 26, 225]

/-- The connect request is answered and the announce request sent. -/
def untilAnnounce : List Event := [.sendDone, .received connectResponse true, .sendDone]

theorem run_untilAnnounce (seeders : UInt8) : ∃ s,
    Run (StepOf step) (init someTracker 0 1 2) untilAnnounce s ∧
      s.Enabled (.received (onePeer seeders) true) ∧ s.AnswersAnnounce (onePeer seeders) := by
  obtain ⟨s, hr, hen, hpending⟩ : ∃ s, Run (StepOf step) (init someTracker 0 1 2) untilAnnounce s ∧
      0 < s.receiving ∧ s.pending.map (·.transactionId) = some 2 := exists_run (by decide +kernel)
  obtain ⟨r, hpending, htid⟩ := Option.map_eq_some_iff.1 hpending
  have hlong : 20 ≤ (onePeer seeders).length := show 20 ≤ 26 by decide
  have hshort : (onePeer seeders).length ≤ 1020 := show 26 ≤ 1020 by decide
  have haction : numberAt (onePeer seeders) 0 = 1 := by
    show bigToNative (ofLittleEndian [0, 0, 0, 1]) = 1
    decide
  have hnumber : numberAt (onePeer seeders) 4 = 2 := by
    show bigToNative (ofLittleEndian [0, 0, 0, 2]) = 2
    decide
  exact ⟨s, hr, hen, ⟨hlong, hshort, haction, ⟨r, hpending, hnumber.trans htid.symm⟩⟩⟩

/-- One peer and one seeder. -/
theorem announcesPeers_onePeer : ∃ s, Run (StepOf step) (init someTracker 0 1 2) untilAnnounce s ∧
    AnnouncesPeers s (onePeer 1) true := by
  obtain ⟨s, hr, hen, ha⟩ := run_untilAnnounce 1
  exact ⟨s, hr, (announcesPeers_iff hr hen ha).2 (by decide)⟩

/-- A second seeder is read from the zeros after the datagram. -/
theorem not_announcesPeers_twoSeeders :
    ¬ ∀ (base : Tracker) (interval connectTid announceTid : UInt32) (es : List Event) (s : UdpTracker),
      Run (StepOf step) (init base interval connectTid announceTid) es s →
      ∀ datagram, s.Enabled (.received datagram true) → s.AnswersAnnounce datagram →
        AnnouncesPeers s datagram true := by
  intro h
  obtain ⟨s, hr, hen, ha⟩ := run_untilAnnounce 2
  have harrived : (s.arrived (onePeer 2)).AnswersAnnounce (onePeer 2) :=
    ⟨ha.long, ha.short, ha.action, ha.tid⟩
  have hfit := ((announced_iff (resBuf_arrived_of_run hr hen) harrived true).1
    (h _ _ _ _ _ s hr _ hen ha)).1
  exact absurd hfit (by decide)

end UdpTracker

end FTorrent
