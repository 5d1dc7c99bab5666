import FTorrent.TrackerSteps

/-!
# Retransmissions

While a response is awaited, the retry timer sends the top of the queue again and again, after waits that
double up to the ninth (`backs_off`).  No datagram is needed to go on: from every state some four events
or fewer, with the timers expiring in any order, lead to a further request (`sends_again`).
-/

namespace FTorrent

open Lib

/-- The wait is pending, or its handler is queued. -/
def SteadyTimer.Due (t : SteadyTimer) : Prop := t.waiting = true ∨ 0 < t.queued

theorem SteadyTimer.Due.expire {t : SteadyTimer} : t.expire.Due := .inr (Nat.succ_pos _)

theorem SteadyTimer.due_start (t : SteadyTimer) (seconds : ℕ) : (t.start seconds).Due := .inl rfl

/-! ### The timer -/

namespace RetryTimer

variable {t : RetryTimer} {n : ℕ}

/-- The timer after `n` runs of its handler since the wait for a response began; with none it is stopped. -/
def Counts : Option ℕ → RetryTimer → Prop
  | none, t => t.stopped = true ∧ t.retransmissionIndex = 0 ∧ t.timer.waiting = false
  | some n, t => t.stopped = false ∧ t.retransmissionIndex = min n 8 ∧
    (t.timer.waiting = true ∧ t.timer.seconds = 15 + 2 ^ min n 8 ∨
      t.timer.waiting = false ∧ 0 < t.timer.queued)

theorem Counts.stopped {w : Option ℕ} (h : Counts w t) : t.stopped = w.isNone := by
  cases w <;> exact h.1

theorem Counts.start (h : Counts none t) : Counts (some 0) t.start := by
  have hseconds : t.getExpire = 15 + 2 ^ min 0 8 := by rw [getExpire, h.2.1]; rfl
  exact ⟨rfl, h.2.1, .inl ⟨rfl, hseconds⟩⟩

theorem counts_stop (t : RetryTimer) : Counts none t.stop := ⟨rfl, rfl, rfl⟩

theorem Counts.expire {w : Option ℕ} (h : Counts w t) (hwaiting : t.timer.waiting = true) :
    Counts w { t with timer := t.timer.expire } := by
  cases w with
  | none => exact absurd (h.2.2.symm.trans hwaiting) (by decide)
  | some n => exact ⟨h.1, h.2.1, .inr ⟨rfl, Nat.succ_pos _⟩⟩

theorem Counts.take (h : Counts none t) : Counts none { t with timer := t.timer.take } := h

theorem Counts.again (hstopped : t.stopped = false) (hindex : t.retransmissionIndex = min n 8) :
    Counts (some (n + 1)) t.again := by
  have hnext : t.increment.retransmissionIndex = min (n + 1) 8 := by
    change min (t.retransmissionIndex + 1) 8 = _
    omega
  refine ⟨hstopped, hnext, .inl ⟨rfl, ?_⟩⟩
  change 15 + 2 ^ t.increment.retransmissionIndex = _
  rw [hnext]

end RetryTimer

namespace UdpTracker

variable {s t u : UdpTracker}

/-! ### Waits and retransmissions -/

/-- The runs of the retry handler since the wait for a response began, if one is awaited, after an event. -/
def waitedAfter (w : Option ℕ) : Event → Option ℕ
  | .sendDone => w <|> some 0
  | .received _ _ => none
  | .retry => w.map (· + 1)
  | _ => w

def waited (es : List Event) : Option ℕ := es.foldl waitedAfter none

/-- A send, where it succeeds. -/
structure Transmits (s t : UdpTracker) : Prop extends Sends s t where
  retryTimer : t.retryTimer = s.retryTimer
  connectTimer : t.connectTimer = s.connectTimer
  sending : t.sending = s.sending + 1
  requests : t.requests.length = s.requests.length

theorem transmits_sendRequest (s : UdpTracker) :
    Post (Transmits s) (fun _ => True) s.sendRequest := by
  unfold sendRequest
  dsimp only
  split
  · trivial
  · split
    · trivial
    · split
      · trivial
      · exact ⟨⟨rfl, rfl, rfl, rfl, rfl⟩, rfl, rfl, rfl, List.length_modify ..⟩

/-- A response is awaited, with one receive, exactly while the retransmissions for it are counted. -/
structure Backoff (w : Option ℕ) (s : UdpTracker) : Prop where
  reqSent : s.reqSent = w.isSome
  receiving : s.receiving = if w.isSome then 1 else 0
  timer : RetryTimer.Counts w s.retryTimer

/-- The requests in the queue are known, and if there is none, a timer will bring one. -/
structure Supplied (s : UdpTracker) : Prop where
  announce : ∀ i, s.reqQueue.announce = some i → i < s.requests.length
  connect : ∀ i, s.reqQueue.connect = some i → i < s.requests.length
  timed : s.reqQueue.empty = true → s.connectTimer.Due ∨ s.announceTimer.Due

/-- A request that is in the queue is being sent, or a response is awaited. -/
structure Moving (s : UdpTracker) : Prop extends Supplied s where
  sending : s.reqSent = false → s.reqQueue.empty = false → 0 < s.sending

namespace Backoff

variable {w : Option ℕ}

theorem transmits (h : Backoff w s) (ht : Transmits s t) : Backoff w t :=
  ⟨ht.reqSent.trans h.reqSent, ht.receiving.trans h.receiving, ht.retryTimer ▸ h.timer⟩

theorem sendIfIdle (h : Backoff w s) : Post (Backoff w) (fun _ => True) s.sendIfIdle := by
  apply post_sendIfIdle
  · exact fun _ => h
  · exact (transmits_sendRequest s).mono (fun _ => h.transmits) fun _ => id

theorem handled {datagram : List UInt8} {accepted : Bool} {o : Outcome}
    (h : Handled s datagram accepted o) :
    Post (fun t => t.receiving = s.receiving ∧ t.retryTimer = s.retryTimer) (fun _ => True) o := by
  cases h with
  | ended | connectFailed | announceFailed | refused => trivial
  | ignored | connected | announced | rejected => exact ⟨rfl, rfl⟩

theorem handle (h : Backoff w s) (hl : Listening s) {ev : Event} (hen : s.Enabled ev) :
    Post (Backoff (waitedAfter w ev)) (fun _ => True) (s.handle ev) := by
  cases ev with
  | sendDone =>
    apply post_sendHandler
    · intro hsent
      rw [h.reqSent] at hsent
      obtain ⟨n, rfl⟩ := Option.isSome_iff_exists.1 hsent
      exact ⟨h.reqSent, h.receiving, h.timer⟩
    · intro hsent
      rw [h.reqSent] at hsent
      obtain rfl := Option.not_isSome_iff_eq_none.1 (by simpa using hsent)
      exact ⟨rfl, congrArg (· + 1) h.receiving, h.timer.start⟩
  | received datagram accepted =>
    apply post_receiveHandler (P := fun t =>
      t.receiving = 0 ∧ RetryTimer.Counts none t.retryTimer) (hl.buffered hen)
    · intro o ho
      have hnone : (s.arrived datagram).receiving = 0 := Nat.sub_eq_zero_of_le hl.receiving_le
      apply (handled ho).mono
      · exact fun t ht => ⟨ht.1.trans hnone, ht.2 ▸ RetryTimer.counts_stop _⟩
      · exact fun _ => id
    · exact fun t ht _ => ⟨rfl, ht.1, ht.2⟩
    · intro t ht _
      have hidle : Backoff none t.idle := ⟨rfl, ht.1, ht.2⟩
      exact (transmits_sendRequest _).mono (fun _ => hidle.transmits) fun _ => id
  | retryExpires => exact ⟨h.reqSent, h.receiving, h.timer.expire hen⟩
  | connectExpires | announceExpires => exact ⟨h.reqSent, h.receiving, h.timer⟩
  | retry =>
    cases w with
    | none =>
      apply post_retryHandler (P := fun _ => False)
      · exact fun _ => ⟨h.reqSent, h.receiving, h.timer.take⟩
      · exact fun hf => absurd (h.timer.1.symm.trans hf) (by decide)
      · exact fun _ => False.elim
    | some n =>
      apply post_retryHandler (P := Transmits s.retried)
      · exact fun hstopped => absurd (h.timer.1.symm.trans hstopped) (by decide)
      · exact fun _ => transmits_sendRequest s.retried
      · intro t ht
        refine ⟨ht.reqSent.trans h.reqSent, ht.receiving.trans h.receiving, ?_⟩
        rw [ht.retryTimer]
        exact .again h.timer.1 h.timer.2.1
  | connect tid =>
    apply sendIfIdle
    exact ⟨h.reqSent, h.receiving, h.timer⟩
  | announce tid =>
    apply sendIfIdle
    exact ⟨h.reqSent, h.receiving, h.timer⟩

theorem step (h : Backoff w s) (hl : Listening s) {ev : Event} (hs : s.step ev = .ok t)
    (ht : t.ended = false) : Backoff (waitedAfter w ev) t := by
  obtain ⟨-, hen, -⟩ := step_eq_ok.1 hs
  have hpost := (h.handle hl hen).mono (fun _ ht => And.intro trivial ht) fun _ => id
  exact (step_of_post (P := fun _ => True) (fun _ _ => trivial) hpost hs).2 ht

end Backoff

namespace Supplied

theorem top_lt (h : Supplied s) {i : ℕ} (hi : s.reqQueue.top = some i) : i < s.requests.length := by
  rw [RequestQueue.top] at hi
  rcases hconnect : s.reqQueue.connect with _ | j
  · rw [hconnect] at hi
    exact h.announce i hi
  · rw [hconnect] at hi
    cases hi
    exact h.connect _ hconnect

theorem transmits (h : Supplied s) (ht : Transmits s t) : Moving t := by
  refine ⟨⟨?_, ?_, ?_⟩, ?_⟩
  · rw [ht.reqQueue, ht.requests]
    exact h.announce
  · rw [ht.reqQueue, ht.requests]
    exact h.connect
  · rw [ht.reqQueue, ht.connectTimer, ht.announceTimer]
    exact h.timed
  · intro _ _
    rw [ht.sending]
    exact Nat.succ_pos _

theorem sendRequest (h : Supplied s) : Post Moving (fun _ => True) s.sendRequest :=
  (transmits_sendRequest s).mono (fun _ => h.transmits) fun _ => id

theorem sendIfIdle (h : Supplied s) : Post Moving (fun _ => True) s.sendIfIdle := by
  apply post_sendIfIdle
  · exact fun hsent => ⟨h, fun hidle => absurd (hsent.symm.trans hidle) (by decide)⟩
  · exact h.sendRequest

/-- Whenever a response takes a request out of the queue, a timer is started. -/
theorem handled (h : Supplied s) {datagram : List UInt8} {accepted : Bool} {o : Outcome}
    (ho : Handled s datagram accepted o) : Post Supplied (fun _ => True) o := by
  have hannounce : ∀ i j, (s.reqQueue.remove i).announce = some j → j < s.requests.length :=
    fun i j hj => h.announce j (RequestQueue.of_remove.1 hj)
  have hconnect : ∀ i j, (s.reqQueue.remove i).connect = some j → j < s.requests.length :=
    fun i j hj => h.connect j (RequestQueue.of_remove.2 hj)
  cases ho with
  | ended | connectFailed | announceFailed | refused => trivial
  | ignored => exact ⟨h.announce, h.connect, h.timed⟩
  | connected => exact ⟨hannounce _, hconnect _, fun _ => .inl (SteadyTimer.due_start _ _)⟩
  | announced => exact ⟨hannounce _, hconnect _, fun _ => .inr (SteadyTimer.due_start _ _)⟩
  | rejected => exact ⟨hannounce _, hconnect _, fun _ => .inl (SteadyTimer.due_start _ _)⟩

end Supplied

theorem supplied_insertConnectRequest (tid : UInt32)
    (hannounce : ∀ i, s.reqQueue.announce = some i → i < s.requests.length) :
    Supplied (s.insertConnectRequest tid) := by
  refine ⟨fun i hi => known_append (hannounce i hi) _, ?_, ?_⟩
  · intro i hi
    cases hi
    change s.requests.length < (s.requests ++ [_]).length
    simp
  · simp [insertConnectRequest, RequestQueue.empty]

theorem supplied_insertAnnounceRequest (tid : UInt32)
    (hconnect : ∀ i, s.reqQueue.connect = some i → i < s.requests.length) :
    Supplied (s.insertAnnounceRequest tid) := by
  refine ⟨?_, fun i hi => known_append (hconnect i hi) _, ?_⟩
  · intro i hi
    cases hi
    change s.requests.length < (s.requests ++ [_]).length
    simp
  · simp [insertAnnounceRequest, RequestQueue.empty]

namespace Moving

theorem handle (h : Moving s) (hl : Listening s) {ev : Event} (hen : s.Enabled ev) :
    Post Moving (fun _ => True) (s.handle ev) := by
  cases ev with
  | sendDone =>
    apply post_sendHandler
    · exact fun hsent => ⟨⟨h.announce, h.connect, h.timed⟩,
        fun hidle => absurd (hsent.symm.trans hidle) (by decide)⟩
    · exact fun _ => ⟨⟨h.announce, h.connect, h.timed⟩, nofun⟩
  | received datagram accepted =>
    have harrived : Supplied (s.arrived datagram) := ⟨h.announce, h.connect, h.timed⟩
    apply post_receiveHandler (P := Supplied) (hl.buffered hen)
    · exact fun o ho => harrived.handled ho
    · exact fun t ht hq => ⟨⟨ht.announce, ht.connect, ht.timed⟩,
        fun _ hq' => absurd (hq.symm.trans hq') (by decide)⟩
    · intro t ht _
      have hidle : Supplied t.idle := ⟨ht.announce, ht.connect, ht.timed⟩
      exact hidle.sendRequest
  | retryExpires => exact ⟨⟨h.announce, h.connect, h.timed⟩, h.sending⟩
  | connectExpires =>
    exact ⟨⟨h.announce, h.connect, fun _ => .inl .expire⟩, h.sending⟩
  | announceExpires =>
    exact ⟨⟨h.announce, h.connect, fun _ => .inr .expire⟩, h.sending⟩
  | retry =>
    have hretried : Moving s.retried := ⟨⟨h.announce, h.connect, h.timed⟩, h.sending⟩
    apply post_retryHandler (P := Moving)
    · exact fun _ => hretried
    · exact fun _ => hretried.sendRequest
    · exact fun t ht => ⟨⟨ht.announce, ht.connect, ht.timed⟩, ht.sending⟩
  | connect tid =>
    apply Supplied.sendIfIdle
    exact supplied_insertConnectRequest tid h.announce
  | announce tid =>
    apply Supplied.sendIfIdle
    exact supplied_insertAnnounceRequest tid h.connect

theorem step (h : Moving s) (hl : Listening s) {ev : Event} (hs : s.step ev = .ok t)
    (ht : t.ended = false) : Moving t := by
  obtain ⟨-, hen, -⟩ := step_eq_ok.1 hs
  have hpost := (h.handle hl hen).mono (fun _ ht => And.intro trivial ht) fun _ => id
  exact (step_of_post (P := fun _ => True) (fun _ _ => trivial) hpost hs).2 ht

end Moving

/-! ### Every run -/

/-- What holds of a tracker that runs, after `w` retransmissions. -/
structure RetryInv (w : Option ℕ) (s : UdpTracker) : Prop where
  listening : Listening s
  backoff : s.ended = false → Backoff w s
  moving : s.ended = false → Moving s

theorem RetryInv.step {w : Option ℕ} (h : RetryInv w s) {ev : Event} (hs : s.step ev = .ok t) :
    RetryInv (waitedAfter w ev) t := by
  have hended := (step_eq_ok.1 hs).1
  exact ⟨h.listening.step hs, (h.backoff hended).step h.listening hs,
    (h.moving hended).step h.listening hs⟩

theorem retryInv_settle_sendRequest (hb : Backoff none s) (hq : Supplied s) :
    RetryInv none (settle s.sendRequest) := by
  have hpost := (transmits_sendRequest s).mono
    (fun t ht => And.intro trivial (And.intro (hb.transmits ht) (hq.transmits ht))) fun _ => id
  have h := (settle_of_post (P := fun _ => True) (fun _ _ => trivial) hpost).2
  exact ⟨.settle_sendRequest hb.receiving, fun hended => (h hended).1, fun hended => (h hended).2⟩

theorem retryInv_init (base : Tracker) (interval connectTid announceTid : UInt32) :
    RetryInv none (init base interval connectTid announceTid) := by
  rw [init, run]
  apply retryInv_settle_sendRequest
  · exact ⟨rfl, rfl, rfl, rfl, rfl⟩
  · apply supplied_insertAnnounceRequest
    intro i hi
    cases hi
    exact Nat.one_pos

theorem RetryInv.of_run {base : Tracker} {interval connectTid announceTid : UInt32} {es : List Event}
    (hr : Run (StepOf UdpTracker.step) (init base interval connectTid announceTid) es s) :
    RetryInv (waited es) s := by
  induction hr using Run.snoc_induction with
  | nil => exact retryInv_init ..
  | snoc es t ev u _ hs ih =>
    rw [waited, List.foldl_append]
    exact ih.step hs

/-- The retry timer runs exactly while a response is awaited.  After `n` runs of its handler its wait is
pending, of 15 seconds and a power of two that grows up to the eighth, or its handler is queued. -/
theorem backs_off {base : Tracker} {interval connectTid announceTid : UInt32} {es : List Event}
    (hr : Run (StepOf UdpTracker.step) (init base interval connectTid announceTid) es s)
    (hs : s.ended = false) : Backoff (waited es) s :=
  (RetryInv.of_run hr).backoff hs

/-- The connect request is sent again twice. -/
def silence : List Event := [.sendDone, .retryExpires, .retry, .sendDone, .retryExpires, .retry]

/-- The third wait is of 19 seconds. -/
theorem backs_off_silence : ∃ s, Run (StepOf UdpTracker.step) (init someTracker 0 1 2) silence s ∧
    s.retryTimer.timer = { waiting := true, queued := 0, seconds := 19, starts := 3 } ∧
      Backoff (some 2) s := by
  obtain ⟨s, hr, hs, htimer⟩ : ∃ s, Run (StepOf UdpTracker.step) (init someTracker 0 1 2) silence s ∧
      s.ended = false ∧ s.retryTimer.timer = ⟨true, 0, 19, 3⟩ := exists_run (by decide +kernel)
  exact ⟨s, hr, htimer, backs_off hr hs⟩


/-! ### A further request -/

/-- No datagram; a request that is made has the transaction id `tid`. -/
def Event.Own (tid : UInt32) : Event → Prop
  | .received _ _ => False
  | .connect t | .announce t => t = tid
  | _ => True

/-- At most `k` events, none of which is a datagram, lead to a request that is sent. -/
def SendsWithin (tid : UInt32) (k : ℕ) (s : UdpTracker) : Prop :=
  ∃ es t r log, es.length ≤ k ∧ (∀ ev ∈ es, Event.Own tid ev) ∧ Run (StepOf step) s es t ∧
    t.ended = false ∧ t.log = .sent r :: log ∧ s.log <:+ log

variable {tid : UInt32} {w : Option ℕ}

theorem SendsWithin.mono {k l : ℕ} (h : SendsWithin tid k s) (hkl : k ≤ l) : SendsWithin tid l s := by
  obtain ⟨es, t, r, log, hlen, h⟩ := h
  exact ⟨es, t, r, log, hlen.trans hkl, h⟩

theorem SendsWithin.cons {k : ℕ} {ev : Event} (hs : s.step ev = .ok t) (hev : Event.Own tid ev)
    (hlog : s.log <:+ t.log) (h : SendsWithin tid k t) : SendsWithin tid (k + 1) s := by
  obtain ⟨es, u, r, log, hlen, hes, hr, hended, hu, hsuffix⟩ := h
  refine ⟨ev :: es, u, r, log, Nat.succ_le_succ hlen, ?_, .cons hs hr, hended, hu, ?_⟩
  · exact List.forall_mem_cons.2 ⟨hev, hes⟩
  · exact hlog.trans hsuffix

/-- A step that sends the request `r`. -/
theorem SendsWithin.single {ev : Event} {i : ℕ} {r : Request} (hs : s.step ev = .ok t)
    (hev : Event.Own tid ev) (hended : t.ended = false)
    (ht : t.log = .sent r :: .sendRequest (some i) :: u.log) (hlog : s.log <:+ u.log) :
    SendsWithin tid 1 s :=
  ⟨[ev], t, r, _, le_rfl, List.forall_mem_singleton.2 hev, .single hs, hended, ht,
    hlog.trans (List.suffix_cons _ _)⟩

theorem Supplied.sends (h : Supplied s) (hq : s.reqQueue.empty = false) :
    ∃ i r bytes, s.sendRequest = .ok (s.sentFrom i r bytes) := by
  rcases htop : s.reqQueue.top with _ | i
  · rw [RequestQueue.top_eq_none, hq] at htop
    cases htop
  · obtain ⟨bytes, hsend⟩ := sendRequest_of_top htop (List.getElem?_eq_getElem (h.top_lt htop))
    exact ⟨i, _, bytes, hsend⟩

/-- A handler that returns. -/
theorem step_of_handle {ev : Event} (hended : s.ended = false) (hen : s.Enabled ev)
    (hhandle : s.handle ev = .ok t) : s.step ev = .ok t :=
  step_eq_ok.2 ⟨hended, hen, (congrArg settle hhandle).symm⟩

theorem sendsWithin_retry (h : Supplied s) (hended : s.ended = false)
    (hq : s.reqQueue.empty = false) (hstopped : s.retryTimer.stopped = false)
    (hqueued : 0 < s.retryTimer.timer.queued) : SendsWithin tid 1 s := by
  obtain ⟨i, r, bytes, hsend⟩ : ∃ i r bytes, s.retried.sendRequest = .ok (s.retried.sentFrom i r bytes) :=
    Supplied.sends (s := s.retried) ⟨h.announce, h.connect, h.timed⟩ hq
  have hhandle : s.handle .retry = .ok { s.retried.sentFrom i r bytes with
      retryTimer := s.retried.retryTimer.again } := by
    change s.retryHandler = _
    unfold retryHandler
    dsimp only
    rw [if_neg (by simpa using hstopped)]
    exact bind_eq_ok.2 ⟨_, hsend, rfl⟩
  have hs : s.step .retry = .ok _ := step_of_handle hended hqueued hhandle
  exact .single hs trivial hended rfl List.suffix_rfl

/-- While a response is awaited, the retry timer sends again. -/
theorem sendsWithin_awaited {n : ℕ} (hb : Backoff (some n) s) (h : Supplied s)
    (hended : s.ended = false) (hq : s.reqQueue.empty = false) : SendsWithin tid 2 s := by
  obtain ⟨hstopped, -, ⟨hwaiting, -⟩ | ⟨-, hqueued⟩⟩ := hb.timer
  · have hs : s.step .retryExpires = .ok _ := step_of_handle hended hwaiting rfl
    refine .cons hs trivial List.suffix_rfl ?_
    exact sendsWithin_retry ⟨h.announce, h.connect, h.timed⟩ hended hq hstopped (Nat.succ_pos _)
  · exact (sendsWithin_retry h hended hq hstopped hqueued).mono (Nat.le_succ 1)

/-- The request whose send is under way is sent again when the response does not come. -/
theorem sendsWithin_sent (h : RetryInv none s) (hended : s.ended = false)
    (hq : s.reqQueue.empty = false) : SendsWithin tid 3 s := by
  have hidle : s.reqSent = false := (h.backoff hended).reqSent
  have hhandle : s.handle .sendDone = .ok s.awaiting := by
    change s.sendHandler = _
    unfold sendHandler
    dsimp only
    rw [if_neg (by simpa using hidle)]
    rfl
  have hs : s.step .sendDone = .ok s.awaiting :=
    step_of_handle hended ((h.moving hended).sending hidle hq) hhandle
  have hawaiting := h.step hs
  refine .cons hs trivial List.suffix_rfl ?_
  exact sendsWithin_awaited (hawaiting.backoff hended) (hawaiting.moving hended).toSupplied hended hq

/-- A request that is put into the queue is sent, at once or by the retry timer. -/
theorem sendsWithin_inserted (h : RetryInv w s) {ev : Event}
    (hs : s.step ev = .ok (settle u.sendIfIdle)) (hev : Event.Own tid ev) (hu : Supplied u)
    (hended : u.ended = false) (hq : u.reqQueue.empty = false) (hlog : s.log <:+ u.log) :
    SendsWithin tid 3 s := by
  cases hsent : u.reqSent with
  | true =>
    have hsend : u.sendIfIdle = .ok u := if_pos hsent
    rw [hsend] at hs
    change s.step ev = .ok u at hs
    have hinv := h.step hs
    have hw := (hinv.backoff hended).reqSent
    rw [hsent] at hw
    obtain ⟨n, hn⟩ := Option.isSome_iff_exists.1 hw.symm
    exact .cons hs hev hlog (sendsWithin_awaited (hn ▸ hinv.backoff hended) hu hended hq)
  | false =>
    obtain ⟨i, r, bytes, hsend⟩ := hu.sends hq
    rw [sendIfIdle, if_neg (by simpa using hsent), hsend] at hs
    exact (SendsWithin.single hs hev hended rfl hlog).mono (by decide)

theorem sendsWithin_connect (h : RetryInv w s) (hended : s.ended = false)
    (hqueued : 0 < s.connectTimer.queued) : SendsWithin tid 3 s := by
  have hs : s.step (.connect tid) = .ok (settle (s.connectHandler tid)) :=
    step_eq_ok.2 ⟨hended, hqueued, rfl⟩
  refine sendsWithin_inserted h hs rfl ?_ hended ?_ (List.suffix_cons _ _)
  · exact supplied_insertConnectRequest tid (h.moving hended).announce
  · exact Bool.and_false _

theorem sendsWithin_announce (h : RetryInv w s) (hended : s.ended = false)
    (hqueued : 0 < s.announceTimer.queued) : SendsWithin tid 3 s := by
  have hs : s.step (.announce tid) = .ok (settle (s.announceHandler tid)) :=
    step_eq_ok.2 ⟨hended, hqueued, rfl⟩
  refine sendsWithin_inserted h hs rfl ?_ hended ?_ List.suffix_rfl
  · exact supplied_insertAnnounceRequest tid (h.moving hended).connect
  · exact Bool.false_and _

/-- As long as the tracker runs, some four events or fewer lead to a further request, none of them a
datagram. -/
theorem sends_again {base : Tracker} {interval connectTid announceTid : UInt32} {es : List Event}
    (hr : Run (StepOf step) (init base interval connectTid announceTid) es s)
    (hs : s.ended = false) (tid : UInt32) : SendsWithin tid 4 s := by
  have h := RetryInv.of_run hr
  cases hq : s.reqQueue.empty with
  | false =>
    cases hw : waited es with
    | none => exact (sendsWithin_sent (hw ▸ h) hs hq).mono (by decide)
    | some n =>
      exact (sendsWithin_awaited (hw ▸ h.backoff hs) (h.moving hs).toSupplied hs hq).mono (by decide)
  | true =>
    obtain (hwaiting | hqueued) | (hwaiting | hqueued) := (h.moving hs).timed hq
    · have hexpires : s.step .connectExpires = .ok _ := step_of_handle hs hwaiting rfl
      refine .cons hexpires trivial List.suffix_rfl ?_
      exact sendsWithin_connect (h.step hexpires) hs (Nat.succ_pos _)
    · exact (sendsWithin_connect h hs hqueued).mono (by decide)
    · have hexpires : s.step .announceExpires = .ok _ := step_of_handle hs hwaiting rfl
      refine .cons hexpires trivial List.suffix_rfl ?_
      exact sendsWithin_announce (h.step hexpires) hs (Nat.succ_pos _)
    · exact (sendsWithin_announce h hs hqueued).mono (by decide)

/-- After the connect request has been answered with a datagram that is no response to it. -/
theorem sends_again_mismatch : ∃ s,
    Run (StepOf step) (init someTracker 0 1 2) [.sendDone, .received [] true] s ∧
      SendsWithin 7 4 s := by
  obtain ⟨s, hr, hs⟩ : ∃ s, Run (StepOf step) (init someTracker 0 1 2)
      [.sendDone, .received [] true] s ∧ s.ended = false := exists_run (by decide +kernel)
  exact ⟨s, hr, sends_again hr hs 7⟩

end UdpTracker

end FTorrent
