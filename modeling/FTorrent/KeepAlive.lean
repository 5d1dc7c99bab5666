import FTorrent.Link

/-!
# Keeping a connection alive

`PeerConnection` with its `KeepAliveTimer`, which is restarted when a write is done and only then.  With
the timer a connection does nothing that it could not do without it (`refines`), a keep-alive is always on
its way until a write fails (`keepAlive_due`), and each has a write of its own that was done before it
(`count_keepAlive_le`).
-/

namespace FTorrent

open Lib

/-- `PeerConnection` with its timer.  `failed` are the writes that have ended with an error. -/
structure TimedConnection where
  connection : Connection
  keepAliveTimer : SteadyTimer := {}
  failed : List ℕ := []

/-- What it goes through: a step of the connection, the end of the pending wait, the handler of a wait
that has ended, and the handler of the `i`-th `async_write` with an error. -/
inductive TimedEvent where
  | connection (ev : ConnectionEvent)
  | expires
  | keepAlive
  | failed (i : ℕ)
  deriving DecidableEq

/-- The step of the connection in it. -/
def TimedEvent.calls : TimedEvent → List ConnectionEvent
  | connection ev => [ev]
  | expires => []
  | keepAlive => [.send .keepAlive]
  | failed _ => []

namespace TimedConnection

/-- `KeepAliveTimer::reset`; the interval is two minutes. -/
def reset (t : TimedConnection) : TimedConnection :=
  { t with keepAliveTimer := t.keepAliveTimer.start (2 * 60) }

def created (infoHash : Hash) (peerId : Vector UInt8 20) (stale : UInt8 → UInt8) : TimedConnection :=
  reset { connection := .created infoHash peerId stale }

/-- `KeepAliveTimer::handler` without an error. -/
def handler (t : TimedConnection) : Except Fault TimedConnection := do
  let connection ← t.connection.send (.message .keepAlive)
  return { t with connection }

/-- The handler of a write resets the timer before it runs the handler it was given. -/
def connectionStep (t : TimedConnection) (ev : ConnectionEvent) : Except Fault TimedConnection := do
  let connection ← t.connection.step ev
  match ev with
  | .written _ _ => return { t.reset with connection }
  | _ => return { t with connection }

/-- The event is one of a write that has failed and is over. -/
def isOver (t : TimedConnection) : ConnectionEvent → Bool
  | .transfer i _ | .written i _ => decide (i ∈ t.failed)
  | _ => false

/-- The handler of a write that has failed returns before it erases the buffer and resets the timer. -/
def step (t : TimedConnection) : TimedEvent → Except Fault TimedConnection
  | .connection ev => if t.isOver ev then .error .notEnabled else t.connectionStep ev
  | .expires =>
    if t.keepAliveTimer.waiting then .ok { t with keepAliveTimer := t.keepAliveTimer.expire }
    else .error .notEnabled
  | .keepAlive =>
    if 0 < t.keepAliveTimer.queued then
      { t with keepAliveTimer := t.keepAliveTimer.take }.handler
    else .error .notEnabled
  | .failed i =>
    if i ∈ t.connection.sendBuffers ∧ i ∉ t.failed then .ok { t with failed := i :: t.failed }
    else .error .notEnabled

/-! ### The steps -/

variable {hash : Hash} {id : Vector UInt8 20} {stale : UInt8 → UInt8} {h : History}
  {t u : TimedConnection}

/-- What a step does to the connection and to the timer. -/
theorem step_cases {ev : TimedEvent} (hs : t.step ev = .ok u) :
    (∃ i sends, ev = .connection (.written i sends) ∧
        t.connection.step (.written i sends) = .ok u.connection ∧
        u.keepAliveTimer = t.keepAliveTimer.start (2 * 60) ∧ u.failed = t.failed) ∨
      (∃ e, ev = .connection e ∧ (∀ i sends, e ≠ .written i sends) ∧
        t.connection.step e = .ok u.connection ∧ u.keepAliveTimer = t.keepAliveTimer ∧
        u.failed = t.failed) ∨
      (ev = .expires ∧ t.keepAliveTimer.waiting = true ∧ u.connection = t.connection ∧
        u.keepAliveTimer = t.keepAliveTimer.expire ∧ u.failed = t.failed) ∨
      (ev = .keepAlive ∧ 0 < t.keepAliveTimer.queued ∧
        t.connection.step (.send .keepAlive) = .ok u.connection ∧
        u.keepAliveTimer = t.keepAliveTimer.take ∧ u.failed = t.failed) ∨
      ∃ i, ev = .failed i ∧ u.connection = t.connection ∧ u.keepAliveTimer = t.keepAliveTimer ∧
        u.failed = i :: t.failed := by
  cases ev with
  | connection e =>
    simp only [step] at hs
    split_ifs at hs
    obtain ⟨c, hc, hu⟩ := bind_eq_ok.1 hs
    cases e with
    | written i sends =>
      cases hu
      exact .inl ⟨i, sends, rfl, hc, rfl, rfl⟩
    | start | send | transfer | read =>
      cases hu
      exact .inr (.inl ⟨_, rfl, nofun, hc, rfl, rfl⟩)
  | expires =>
    simp only [step] at hs
    split_ifs at hs with hwaiting
    cases hs
    exact .inr (.inr (.inl ⟨rfl, hwaiting, rfl, rfl, rfl⟩))
  | keepAlive =>
    simp only [step] at hs
    split_ifs at hs with hqueued
    obtain ⟨c, hc, hu⟩ := bind_eq_ok.1 hs
    cases hu
    exact .inr (.inr (.inr (.inl ⟨rfl, hqueued, hc, rfl, rfl⟩)))
  | failed i =>
    simp only [step] at hs
    split_ifs at hs
    cases hs
    exact .inr (.inr (.inr (.inr ⟨i, rfl, rfl, rfl, rfl⟩)))

/-- A step is one of the connection, or it leaves the connection alone. -/
theorem refines_step {ev : TimedEvent} (hs : t.step ev = .ok u) :
    Run (StepOf Connection.step) t.connection ev.calls u.connection := by
  obtain ⟨i, sends, rfl, hc, -⟩ | ⟨e, rfl, -, hc, -⟩ | ⟨rfl, -, hc, -⟩ | ⟨rfl, -, hc, -⟩ |
    ⟨i, rfl, hc, -⟩ := step_cases hs
  · exact .single hc
  · exact .single hc
  · rw [hc]
    exact .nil _
  · exact .single hc
  · rw [hc]
    exact .nil _

/-- A connection with its timer is a connection to whose `send` keep-alives are passed. -/
theorem refines {es : List TimedEvent} (hr : Run (StepOf step) (created hash id stale) es t) :
    Run (StepOf Connection.step) (.created hash id stale) (es.flatMap TimedEvent.calls) t.connection := by
  induction hr using Run.snoc_induction with
  | nil => exact .nil _
  | snoc es t ev u _ hs ih =>
    rw [List.flatMap_append, List.flatMap_singleton]
    exact ih.append (refines_step hs)

/-! ### A keep-alive is on its way -/

/-- The wait is pending or its handler is queued, a write is under way, whose handler will reset the timer,
or a keep-alive waits for the handshakes. -/
def Due (t : TimedConnection) : Prop :=
  t.keepAliveTimer.waiting = true ∧ t.keepAliveTimer.seconds = 2 * 60 ∨
    0 < t.keepAliveTimer.queued ∨ (∃ i ∈ t.connection.sendBuffers, i ∉ t.failed) ∨
    t.connection.handshakeState.complete = false ∧
      .message .keepAlive ∈ t.connection.pendingSendMsgs

end TimedConnection

namespace Connection

variable {hash : Hash} {id : Vector UInt8 20} {stale : UInt8 → UInt8} {h : History} {c d : Connection}

/-- A message that waits goes on waiting, or the handshakes are complete and it is being written. -/
theorem Gated.waiting_step (hg : Gated hash id stale h c) (hc : c.handshakeState.complete = false)
    {m : Message} (hm : .message m ∈ c.pendingSendMsgs) {ev : ConnectionEvent}
    (hs : c.step ev = .ok d) (hev : ∀ i sends, ev ≠ .written i sends) :
    d.sendBuffers ≠ [] ∨ d.handshakeState.complete = false ∧ .message m ∈ d.pendingSendMsgs := by
  have hg' := hg.step hs
  obtain ⟨hwritten, hpending, -⟩ := hg.waiting hc
  have hpassed : m ∈ (h.add ev).passed := by
    rw [hpending] at hm
    obtain ⟨m', hm', heq⟩ := List.mem_map.1 hm
    cases heq
    rw [h.passed_add]
    exact List.mem_append_left _ hm'
  cases hd : d.handshakeState.complete with
  | false =>
    refine .inr ⟨rfl, ?_⟩
    rw [(hg'.waiting hd).2.1]
    exact List.mem_map_of_mem hpassed
  | true =>
    have hlen : 2 ≤ d.written.length := by
      rw [(hg'.complete hd).1, List.length_cons, List.length_map]
      have := List.length_pos_of_mem hpassed
      omega
    have hone : c.written.length ≤ 1 := by
      rw [hwritten]
      split_ifs <;> simp
    obtain ⟨i, n, w, rfl, -, rfl⟩ | ⟨i, sends, rfl, -⟩ | ⟨-, -, adds, -, hadd, hbuffers, -⟩ :=
      added_step hs
    · exact absurd (hlen.trans hone) (by decide)
    · exact absurd rfl (hev i sends)
    · left
      rw [hadd, List.length_append, List.length_map] at hlen
      rw [hbuffers]
      refine List.append_ne_nil_of_right_ne_nil _ (List.ne_nil_of_length_pos ?_)
      rw [List.length_range']
      omega

/-- Writes that are under way stay so until their handlers run. -/
theorem sendBuffers_ne_nil_step (hb : c.sendBuffers ≠ []) {ev : ConnectionEvent}
    (hs : c.step ev = .ok d) (hev : ∀ i sends, ev ≠ .written i sends) : d.sendBuffers ≠ [] := by
  obtain ⟨i, n, w, rfl, -, rfl⟩ | ⟨i, sends, rfl, -⟩ | ⟨-, -, adds, -, -, hbuffers, -⟩ := added_step hs
  · exact hb
  · exact absurd rfl (hev i sends)
  · rw [hbuffers]
    exact List.append_ne_nil_of_left_ne_nil hb _

end Connection

namespace TimedConnection

variable {hash : Hash} {id : Vector UInt8 20} {stale : UInt8 → UInt8} {h : History}
  {t u : TimedConnection}

/-- Without failures every write that is under way will reset the timer. -/
theorem exists_under_way (hb : t.connection.sendBuffers ≠ []) (hfailed : t.failed = []) :
    ∃ i ∈ t.connection.sendBuffers, i ∉ t.failed := by
  obtain ⟨i, hi⟩ := List.exists_mem_of_ne_nil _ hb
  rw [hfailed]
  exact ⟨i, hi, List.not_mem_nil⟩

theorem Due.step (hdue : t.Due) (hg : Connection.Gated hash id stale h t.connection) {ev : TimedEvent}
    (hs : t.step ev = .ok u) (hfailed : u.failed = []) : u.Due := by
  obtain ⟨i, sends, -, -, htimer, -⟩ | ⟨e, -, hne, hc, htimer, -⟩ | ⟨-, -, -, htimer, -⟩ |
    ⟨-, -, hc, htimer, -⟩ | ⟨i, -, -, -, hmore⟩ := step_cases hs
  · left
    rw [htimer]
    exact ⟨rfl, rfl⟩
  · obtain hwaiting | hqueued | ⟨i, hi, -⟩ | ⟨hcomplete, hm⟩ := hdue
    · exact .inl (htimer ▸ hwaiting)
    · exact .inr (.inl (htimer ▸ hqueued))
    · have hb := Connection.sendBuffers_ne_nil_step (List.ne_nil_of_mem hi) hc hne
      exact .inr (.inr (.inl (exists_under_way hb hfailed)))
    · have hwaiting := hg.waiting_step hcomplete hm hc hne
      exact .inr (.inr (hwaiting.imp_left fun hb => exists_under_way hb hfailed))
  · right; left
    rw [htimer]
    exact Nat.succ_pos _
  · right; right
    cases hcomplete : t.connection.handshakeState.complete with
    | false =>
      rw [Connection.step, Connection.send_message_eq hcomplete] at hc
      rw [← Except.ok.inj hc]
      exact .inr ⟨hcomplete, List.mem_append_right _ (List.mem_singleton_self _)⟩
    | true =>
      left
      apply exists_under_way _ hfailed
      rw [(Connection.handed_send (.inl hcomplete) hc).buffers]
      exact List.append_ne_nil_of_right_ne_nil _ (by simp)
  · rw [hmore] at hfailed
    cases hfailed

theorem due_created : (created hash id stale).Due := .inl ⟨rfl, rfl⟩

/-- A failure is not taken back. -/
theorem failed_eq_nil_of_step {ev : TimedEvent} (hs : t.step ev = .ok u) (hfailed : u.failed = []) :
    t.failed = [] := by
  obtain ⟨_, _, -, -, -, hsame⟩ | ⟨_, -, -, -, -, hsame⟩ | ⟨-, -, -, -, hsame⟩ |
    ⟨-, -, -, -, hsame⟩ | ⟨_, -, -, -, hsame⟩ := step_cases hs
  · exact hsame.symm.trans hfailed
  · exact hsame.symm.trans hfailed
  · exact hsame.symm.trans hfailed
  · exact hsame.symm.trans hfailed
  · rw [hsame] at hfailed
    cases hfailed

/-- As long as a connection lives and no write has failed, its next keep-alive is on its way. -/
theorem keepAlive_due {es : List TimedEvent} (hr : Run (StepOf step) (created hash id stale) es t)
    (hfailed : t.failed = []) : t.Due := by
  induction hr using Run.snoc_induction with
  | nil => exact due_created
  | snoc es t ev u hr hs ih =>
    have hbefore := ih (failed_eq_nil_of_step hs hfailed)
    exact hbefore.step (Connection.gated_run (refines hr)) hs hfailed

/-- Two waits end before the other side answers: one from the making of the connection, one from the write
of the own handshake. -/
def waitingEvents : List TimedEvent :=
  [.expires, .keepAlive, .connection .start, .connection (.transfer 0 68), .connection (.written 0 []),
    .expires, .keepAlive]

/-- The handshake of the other side comes in, and both keep-alives are handed over. -/
def answeredEvents : List TimedEvent :=
  waitingEvents ++ [.connection (.read [19] []),
    .connection (.read PeerConnection.sampleHandshake.body [])]

theorem keepAlive_due_sample : ∃ t,
    Run (StepOf step) (created Connection.sampleHash (.replicate 20 1) fun b => b) answeredEvents t ∧
      t.keepAliveTimer.waiting = false ∧ t.connection.sendBuffers = [1, 2] ∧ t.Due := by
  obtain ⟨t, hr, hwaiting, hbuffers, hfailed⟩ : ∃ t,
      Run (StepOf step) (created Connection.sampleHash (.replicate 20 1) fun b => b) answeredEvents t ∧
      t.keepAliveTimer.waiting = false ∧ t.connection.sendBuffers = [1, 2] ∧ t.failed = [] :=
    exists_run (by decide +kernel)
  exact ⟨t, hr, hwaiting, hbuffers, keepAlive_due hr hfailed⟩

/-! ### No more keep-alives than writes -/

/-- What the timer has spent and can still spend. -/
def spent (t : TimedConnection) (es : List TimedEvent) : ℕ :=
  es.count .keepAlive + t.keepAliveTimer.queued + t.keepAliveTimer.waiting.toNat

theorem count_snoc_of_ne (es : List TimedEvent) (ev : TimedEvent) (hne : ev ≠ .keepAlive) :
    (es ++ [ev]).count .keepAlive = es.count .keepAlive := by
  simp [hne]

/-- Messages that are handed over are being written. -/
theorem length_added {c d : Connection} (hadd : c.Added d) :
    d.sendBuffers.length + c.written.length = c.sendBuffers.length + d.written.length := by
  obtain ⟨adds, -, hwritten, hbuffers, -⟩ := hadd
  rw [hwritten, hbuffers, List.length_append, List.length_append, List.length_map, List.length_range']
  omega

/-- What a step that is not the end of a write leaves under way. -/
theorem length_sendBuffers {c d : Connection} {ev : ConnectionEvent} (hs : c.step ev = .ok d)
    (hev : ∀ i sends, ev ≠ .written i sends) :
    d.sendBuffers.length + c.written.length = c.sendBuffers.length + d.written.length := by
  obtain ⟨i, n, w, rfl, -, rfl⟩ | ⟨i, sends, rfl, -⟩ | ⟨-, -, hadd⟩ := Connection.added_step hs
  · rfl
  · exact absurd rfl (hev i sends)
  · exact length_added hadd

theorem spent_step {es : List TimedEvent} {ev : TimedEvent} (hs : t.step ev = .ok u)
    (hspent : t.spent es + t.connection.sendBuffers.length ≤ t.connection.written.length + 1) :
    u.spent (es ++ [ev]) + u.connection.sendBuffers.length ≤ u.connection.written.length + 1 := by
  unfold spent at hspent ⊢
  obtain ⟨i, sends, rfl, hc, htimer, -⟩ | ⟨e, rfl, hne, hc, htimer, -⟩ |
    ⟨rfl, hwaiting, hc, htimer, -⟩ | ⟨rfl, hqueued, hc, htimer, -⟩ | ⟨i, rfl, hc, htimer, -⟩ :=
      step_cases hs
  · obtain ⟨hi, hadd⟩ := Connection.added_writeDone hc
    have hlen := length_added hadd
    have herase := List.length_erase_of_mem hi
    have hpos := List.length_pos_of_mem hi
    rw [count_snoc_of_ne es (.connection _) nofun, htimer]
    simp only [SteadyTimer.start, Bool.toNat_true] at hspent hlen ⊢
    have hwaiting := t.keepAliveTimer.waiting.toNat_le
    omega
  · have hlen := length_sendBuffers hc hne
    rw [count_snoc_of_ne es (.connection e) nofun, htimer]
    omega
  · rw [count_snoc_of_ne es .expires nofun, htimer, hc]
    simp only [SteadyTimer.expire, hwaiting, Bool.toNat_true, Bool.toNat_false] at hspent ⊢
    omega
  · have hlen := length_sendBuffers hc nofun
    rw [List.count_append, List.count_singleton_self, htimer]
    simp only [SteadyTimer.take]
    omega
  · rw [count_snoc_of_ne es (.failed i) nofun, htimer, hc]
    exact hspent

/-- The timer passes no more keep-alives to `send` than writes are done, and one; at most two before the
handshakes are complete. -/
theorem count_keepAlive_le {es : List TimedEvent} (hr : Run (StepOf step) (created hash id stale) es t) :
    es.count .keepAlive + t.connection.sendBuffers.length ≤ t.connection.written.length + 1 ∧
      (t.connection.handshakeState.complete = false → es.count .keepAlive ≤ 2) := by
  have hspent : t.spent es + t.connection.sendBuffers.length ≤ t.connection.written.length + 1 := by
    induction hr using Run.snoc_induction with
    | nil => exact le_rfl
    | snoc es t ev u _ hs ih => exact spent_step hs ih
  unfold spent at hspent
  refine ⟨by omega, fun hc => ?_⟩
  have hwritten := ((Connection.gated_run (refines hr)).waiting hc).1
  have hone : t.connection.written.length ≤ 1 := by
    rw [hwritten]
    split_ifs <;> simp
  omega

theorem count_keepAlive_le_sample : ∃ t,
    Run (StepOf step) (created Connection.sampleHash (.replicate 20 1) fun b => b) waitingEvents t ∧
      t.connection.pendingSendMsgs = [.message .keepAlive, .message .keepAlive] ∧
      waitingEvents.count .keepAlive ≤ 2 := by
  obtain ⟨t, hr, hc, hpending⟩ : ∃ t,
      Run (StepOf step) (created Connection.sampleHash (.replicate 20 1) fun b => b) waitingEvents t ∧
      t.connection.handshakeState.complete = false ∧
      t.connection.pendingSendMsgs = [.message .keepAlive, .message .keepAlive] :=
    exists_run (by decide +kernel)
  exact ⟨t, hr, hpending, (count_keepAlive_le hr).2 hc⟩

end TimedConnection

end FTorrent
