import FTorrent.TrackerSteps

/-!
# The connection id of an announce

A request is sent with the connection id that the tracker holds then: the magic one from the moment a
connect request is made, and after that whatever a response with action 0 brings.  A connect request
that an error or an announce response takes out of the queue leaves the magic one behind, and the
announce request goes out with it.  In runs in which this does not happen, every announce request
carries an id that was granted after the last connect request was made (`announcesGranted_of_grants`).
-/

namespace FTorrent

open Lib

/-- The connection id of a datagram that is a `ConnectionResponse` to the pending request. -/
def TrackerNote.grants : TrackerNote → Option UInt64
  | .handleResponse (some r) datagram =>
    match deserialized deserializeConnectionResponse (datagram.take 16) with
    | .ok res =>
      if res.action = 0 ∧ res.transactionId = r.transactionId then some res.connectionId else none
    | .error _ => none
  | _ => none

/-- The connection ids that have been granted since the last connect request was made. -/
def granted : List TrackerNote → List UInt64
  | [] => []
  | .makeConnectRequest :: _ => []
  | n :: log => n.grants.toList ++ granted log

/-- Every announce request in the log carries a connection id that had been granted, and not the magic
one. -/
def AnnouncesGranted : List TrackerNote → Prop
  | [] => True
  | .sent r :: log => (r.announce.isSome = true →
      r.connectionId ∈ granted log ∧ r.connectionId ≠ magicConnectionId) ∧ AnnouncesGranted log
  | _ :: log => AnnouncesGranted log

namespace UdpTracker

variable {s t : UdpTracker}

/-- A response in the buffer to a connect request in the queue has neither action 1 nor action 3, and one
with action 0 is long enough for a connection id and grants one that is not the magic one. -/
def GrantsBy (s : UdpTracker) (datagram : List UInt8) : Prop :=
  ∀ i r header, s.Answered i r header →
    (s.reqQueue.connect = some i → header.action ≠ 1 ∧ header.action ≠ 3) ∧
    (header.action = 0 → ∃ res,
      deserialized deserializeConnectionResponse (datagram.take 16) = .ok res ∧
        res.connectionId ≠ magicConnectionId)

/-- The datagram that is received is such a response, or none. -/
def Grants (s : UdpTracker) : Event → Prop
  | .received datagram _ => GrantsBy { s with resBuf := s.fillBuffer datagram } datagram
  | _ => True

/-- The queue points to requests of the right kinds, and where there is no connect request in it, the
connection id has been granted. -/
structure Renewed (s : UdpTracker) : Prop where
  announce : ∀ i, s.reqQueue.announce = some i → i < s.requests.length
  connect : ∀ i, s.reqQueue.connect = some i → ∃ r, s.requests[i]? = some r ∧ r.announce = none
  ready : s.reqQueue.connect = none →
    s.connectionId ∈ granted s.log ∧ s.connectionId ≠ magicConnectionId

/-- What a handler keeps. -/
abbrev KeepsGranted : Outcome → Prop :=
  Post (fun t => AnnouncesGranted t.log ∧ Renewed t) fun t => AnnouncesGranted t.log

/-- A request that is sent without a connect request in the queue carries a granted id. -/
theorem Renewed.sendRequest (h : Renewed s) (hg : AnnouncesGranted s.log) :
    KeepsGranted s.sendRequest := by
  rcases htop : s.reqQueue.top with _ | i
  · rw [sendRequest_of_empty htop]
    exact hg
  · obtain ⟨r, hr, hkind⟩ : ∃ r, s.requests[i]? = some r ∧
        (r.announce.isSome = true → s.reqQueue.connect = none) := by
      rcases hconnect : s.reqQueue.connect with _ | j
      · rw [RequestQueue.top, hconnect] at htop
        exact ⟨_, List.getElem?_eq_getElem (h.announce i htop), fun _ => rfl⟩
      · obtain ⟨r, hr, hnone⟩ := h.connect j hconnect
        rw [RequestQueue.top, hconnect] at htop
        cases htop
        exact ⟨r, hr, fun hsome => by rw [hnone] at hsome; cases hsome⟩
    obtain ⟨bytes, hsend⟩ := sendRequest_of_top htop hr
    rw [hsend]
    refine ⟨⟨fun hsome => h.ready (hkind hsome), hg⟩, fun j hj => ?_, fun j hj => ?_, h.ready⟩
    · exact (h.announce j hj).trans_eq (List.length_modify ..).symm
    · obtain ⟨r', hr', hnone⟩ := h.connect j hj
      change ∃ r, (s.requests.modify i _)[j]? = some r ∧ _
      rw [List.getElem?_modify, hr']
      by_cases hij : i = j
      · exact ⟨{ r' with connectionId := s.connectionId }, by simp [hij], hnone⟩
      · exact ⟨r', by simp [hij], hnone⟩

theorem Renewed.sendIfIdle (h : Renewed s) (hg : AnnouncesGranted s.log) :
    KeepsGranted s.sendIfIdle := by
  apply post_sendIfIdle
  · exact fun _ => ⟨hg, h⟩
  · exact h.sendRequest hg

/-! ### Responses -/

/-- The buffer begins with the first bytes of the datagram. -/
theorem fillBuffer_eq (hbuf : s.resBuf.length = 1020) (datagram : List UInt8) :
    ∃ rest, s.fillBuffer datagram = datagram.take 16 ++ rest := by
  refine ⟨(datagram.take 1020).drop 16 ++ s.resBuf.drop datagram.length, ?_⟩
  have htake : datagram.take 16 = (datagram.take 1020).take 16 := by
    rw [List.take_take]
    rfl
  rw [fillBuffer, hbuf, htake, ← List.append_assoc, List.take_append_drop]

/-- A response with action 0 grants the connection id that is read from the buffer. -/
theorem grants_of_answered {datagram rest : List UInt8} (hbuf : s.resBuf = datagram.take 16 ++ rest)
    {i : ℕ} {r : Request} {header : Response} (hm : s.Answered i r header) (ha : header.action = 0)
    {res res' : ConnectionResponse}
    (hres : deserialized deserializeConnectionResponse (datagram.take 16) = .ok res)
    (hres' : deserialized deserializeConnectionResponse s.resBuf = .ok res') :
    res' = res ∧ (TrackerNote.handleResponse s.pending datagram).grants = some res.connectionId := by
  have hlong := stable_deserializeConnectionResponse.deserialized_append hres rest
  rw [← hbuf] at hlong
  obtain rfl : res' = res := Except.ok.inj (hres'.symm.trans hlong)
  have hheader : res'.toResponse = header := toResponse_eq hres' hm.readable
  have hpending : s.pending = some r := by
    rw [pending, hm.current]
    exact hm.request
  have hmatch : res'.action = 0 ∧ res'.transactionId = r.transactionId := by
    rw [hheader]
    exact ⟨ha, hm.tid.symm⟩
  refine ⟨rfl, ?_⟩
  simp only [hpending, TrackerNote.grants, hres, if_pos hmatch]

theorem mem_granted_note {n : TrackerNote} (hn : n ≠ .makeConnectRequest) {log : List TrackerNote}
    {x : UInt64} (h : x ∈ granted log) : x ∈ granted (n :: log) := by
  cases n with
  | makeConnectRequest => exact absurd rfl hn
  | _ => exact List.mem_append_right _ h

theorem Renewed.handled (h : Renewed s) (hg : AnnouncesGranted s.log) {datagram rest : List UInt8}
    (hbuf : s.resBuf = datagram.take 16 ++ rest) (hC : s.GrantsBy datagram) {accepted : Bool}
    {o : Outcome} (hh : Handled s datagram accepted o) : KeepsGranted o := by
  have hannounce : ∀ i j, (s.reqQueue.remove i).announce = some j → j < s.requests.length :=
    fun i j hj => h.announce j (RequestQueue.of_remove.1 hj)
  have hconnect : ∀ i j, (s.reqQueue.remove i).connect = some j →
      ∃ r, s.requests[j]? = some r ∧ r.announce = none :=
    fun i j hj => h.connect j (RequestQueue.of_remove.2 hj)
  have hnote : ∀ {x}, x ∈ granted s.log →
      x ∈ granted (.handleResponse s.pending datagram :: s.log) := mem_granted_note (by simp)
  -- anything but the connect request can be taken out of the queue
  have hremove : ∀ i r header, s.Answered i r header → header.action = 1 ∨ header.action = 3 →
      (s.reqQueue.remove i).connect = none →
        s.connectionId ∈ granted s.log ∧ s.connectionId ≠ magicConnectionId := by
    intro i r header hm ha hnone
    have hi : s.reqQueue.connect ≠ some i := by
      intro hi
      obtain ⟨h1, h3⟩ := (hC i r header hm).1 hi
      exact ha.elim h1 h3
    rw [RequestQueue.remove_connect, if_neg hi] at hnone
    exact h.ready hnone
  cases hh with
  | ended | connectFailed | announceFailed | refused => exact hg
  | ignored => exact ⟨hg, h.announce, h.connect, fun hnone => (h.ready hnone).imp_left hnote⟩
  | connected hm ha hres =>
    obtain ⟨res, hshort, hmagic⟩ := (hC _ _ _ hm).2 ha
    obtain ⟨rfl, hgrants⟩ := grants_of_answered hbuf hm ha hshort hres
    refine ⟨hg, hannounce _, hconnect _, fun _ => ⟨?_, hmagic⟩⟩
    change _ ∈ (TrackerNote.grants _).toList ++ _
    rw [hgrants]
    exact List.mem_append_left _ List.mem_cons_self
  | announced hm ha =>
    refine ⟨hg, hannounce _, hconnect _, fun hnone => ?_⟩
    exact (hremove _ _ _ hm (.inl ha) hnone).imp_left fun hx => mem_granted_note (by simp) (hnote hx)
  | rejected hm ha =>
    refine ⟨hg, hannounce _, hconnect _, fun hnone => ?_⟩
    exact (hremove _ _ _ hm (.inr ha) hnone).imp_left hnote

theorem Renewed.receiveHandler (h : Renewed s) (hg : AnnouncesGranted s.log)
    (hbuf : s.resBuf.length = 1020) {datagram : List UInt8} {accepted : Bool}
    (hC : s.Grants (.received datagram accepted)) :
    KeepsGranted (s.receiveHandler datagram accepted) := by
  obtain ⟨rest, hrest⟩ := fillBuffer_eq hbuf datagram
  have harrived : Renewed (s.arrived datagram) := ⟨h.announce, h.connect, h.ready⟩
  have hidle : ∀ t, Renewed t → Renewed t.idle := fun t ht => ⟨ht.announce, ht.connect, ht.ready⟩
  apply post_receiveHandler (P := fun t => AnnouncesGranted t.log ∧ Renewed t) hbuf
  · intro o ho
    apply harrived.handled hg hrest _ ho
    exact fun i r header hm => hC i r header ⟨hm.current, hm.request, hm.readable, hm.tid⟩
  · exact fun t ht _ => ⟨ht.1, hidle t ht.2⟩
  · exact fun t ht _ => (hidle t ht.2).sendRequest ht.1

/-! ### Runs -/

/-- What holds in the states of a run, of those that have ended too. -/
structure GrantedInv (s : UdpTracker) : Prop where
  listening : Listening s
  log : AnnouncesGranted s.log
  renewed : s.ended = false → Renewed s

theorem Renewed.handle (h : Renewed s) (hg : AnnouncesGranted s.log) (hl : Listening s) {ev : Event}
    (hen : s.Enabled ev) (hC : s.Grants ev) : KeepsGranted (s.handle ev) := by
  cases ev with
  | sendDone =>
    apply post_sendHandler
    · exact fun _ => ⟨hg, h.announce, h.connect, h.ready⟩
    · exact fun _ => ⟨hg, h.announce, h.connect, h.ready⟩
  | received datagram accepted => exact h.receiveHandler hg (hl.buffered hen) hC
  | retryExpires | connectExpires | announceExpires =>
    exact ⟨hg, h.announce, h.connect, h.ready⟩
  | retry =>
    have hretried : Renewed s.retried := ⟨h.announce, h.connect, h.ready⟩
    apply post_retryHandler
    · exact fun _ => ⟨hg, hretried⟩
    · exact fun _ => hretried.sendRequest hg
    · exact fun t ht => ⟨ht.1, ht.2.announce, ht.2.connect, ht.2.ready⟩
  | connect tid =>
    apply Renewed.sendIfIdle
    · refine ⟨fun i hi => known_append (h.announce i hi) _, fun i hi => ?_, fun hnone => ?_⟩
      · cases hi
        exact ⟨_, List.getElem?_concat_length, rfl⟩
      · cases hnone
    · exact hg
  | announce tid =>
    apply Renewed.sendIfIdle
    · refine ⟨fun i hi => ?_, fun i hi => ?_, h.ready⟩
      · cases hi
        rw [insertAnnounceRequest]
        simp
      · obtain ⟨r, hr, hnone⟩ := h.connect i hi
        have hlt := (List.getElem?_eq_some_iff.1 hr).1
        exact ⟨r, (List.getElem?_append_left hlt).trans hr, hnone⟩
    · exact hg

theorem GrantedInv.step (h : GrantedInv s) {ev : Event} (hs : s.step ev = .ok t) (hC : s.Grants ev) :
    GrantedInv t := by
  obtain ⟨hended, hen, -⟩ := step_eq_ok.1 hs
  have hkeeps := (h.renewed hended).handle h.log h.listening hen hC
  obtain ⟨hlog, hrenewed⟩ :=
    step_of_post (P := fun t => AnnouncesGranted t.log) (fun _ hu => hu) hkeeps hs
  exact ⟨h.listening.step hs, hlog, hrenewed⟩

theorem GrantedInv.settle_sendRequest (h : Renewed s) (hg : AnnouncesGranted s.log)
    (hr : s.receiving = 0) : GrantedInv (settle s.sendRequest) := by
  obtain ⟨hlog, hrenewed⟩ := settle_of_post (P := fun t => AnnouncesGranted t.log) (fun _ hu => hu)
    (h.sendRequest hg)
  exact ⟨.settle_sendRequest hr, hlog, hrenewed⟩

/-- Only one request can be answered, and only by what the buffer says. -/
theorem grantsBy_iff {datagram : List UInt8} : s.GrantsBy datagram ↔
    ∀ i ∈ s.curReq, ∀ r ∈ s.requests[i]?,
    ∀ header ∈ (deserialized deserializeResponse s.resBuf).toOption,
      r.transactionId = header.transactionId →
        (s.reqQueue.connect = some i → header.action ≠ 1 ∧ header.action ≠ 3) ∧
        (header.action = 0 → ∃ res ∈ (deserialized deserializeConnectionResponse
          (datagram.take 16)).toOption, res.connectionId ≠ magicConnectionId) := by
  simp only [Option.mem_def, toOption_eq_some]
  constructor
  · exact fun h i hi r hr header hread htid => h i r header ⟨hi, hr, hread, htid⟩
  · exact fun h i r header hm => h i hm.current r hm.request header hm.readable hm.tid

instance (s : UdpTracker) : ∀ ev, Decidable (s.Grants ev)
  | .received _ _ => decidable_of_iff _ grantsBy_iff.symm
  | .sendDone | .retryExpires | .retry | .connectExpires | .connect _ | .announceExpires
  | .announce _ => .isTrue trivial

end UdpTracker

end FTorrent
