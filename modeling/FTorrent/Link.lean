import FTorrent.Delivery

/-!
# Two connected clients

Two connections for the same torrent whose streams are each other's input, with all handlers and all
partial transfers of both sides in any order.  As long as each socket serves its writes in order, every
message that one side passes to `send` is handled by the other, once and in order
(`handles_in_order`), and nothing can get stuck: whatever is scheduled, after a bounded number of steps
everything has arrived (`delivers`).
-/

namespace FTorrent

open Lib

inductive Side where
  | left
  | right
  deriving DecidableEq

def Side.other : Side → Side
  | left => right
  | right => left

@[simp] theorem Side.other_other (s : Side) : s.other.other = s := by
  cases s <;> rfl

theorem Side.eq_or_eq_other (s t : Side) : t = s ∨ t = s.other := by
  cases s <;> cases t <;> decide

/-- One end: a connection and what has happened to it. -/
structure End where
  connection : Connection
  history : History := {}

/-- What the end has taken off the stream of the other. -/
def End.taken (e : End) : List UInt8 := e.history.reads.flatten

structure Link where
  left : End
  right : End

namespace Link

/-- The end at a side. -/
def side (l : Link) : Side → End
  | .left => l.left
  | .right => l.right

def setSide (l : Link) (s : Side) (e : End) : Link :=
  match s with
  | .left => { l with left := e }
  | .right => { l with right := e }

@[simp] theorem side_setSide (l : Link) (s : Side) (e : End) : (l.setSide s e).side s = e := by
  cases s <;> rfl

@[simp] theorem side_setSide_other (l : Link) (s : Side) (e : End) :
    (l.setSide s e).side s.other = l.side s.other := by
  cases s <;> rfl

/-- Two connections that have been made, for the same torrent.  Each will find the length of the
protocol name where it was. -/
def init (infoHash : Hash) (peerId : Side → Vector UInt8 20) : Link where
  left := ⟨.created infoHash (peerId .left) id, {}⟩
  right := ⟨.created infoHash (peerId .right) id, {}⟩

/-- What is read are the next bytes of the other stream. -/
def Arrived (l : Link) (s : Side) : ConnectionEvent → Prop
  | .read recvBuffer _ =>
    (l.side s).taken ++ recvBuffer <+: (l.side s.other).connection.wire.out
  | _ => True

instance (l : Link) (s : Side) : ∀ ev, Decidable (l.Arrived s ev)
  | .read _ _ => inferInstanceAs (Decidable (_ <+: _))
  | .start => inferInstanceAs (Decidable True)
  | .send _ => inferInstanceAs (Decidable True)
  | .transfer _ _ => inferInstanceAs (Decidable True)
  | .written _ _ => inferInstanceAs (Decidable True)

/-- One side takes a step. -/
def step (l : Link) (ev : Side × ConnectionEvent) : Except Fault Link :=
  if l.Arrived ev.1 ev.2 then do
    let connection ← (l.side ev.1).connection.step ev.2
    return l.setSide ev.1 ⟨connection, (l.side ev.1).history.add ev.2⟩
  else .error .notEnabled

end Link

/-- The messages that an event passes to `send`. -/
def ConnectionEvent.passes : ConnectionEvent → List Message
  | .send m => [m]
  | .written _ sends => sends
  | .read _ sends => sends
  | .start | .transfer _ _ => []

/-- The bytes that an event takes off the stream. -/
def ConnectionEvent.takes : ConnectionEvent → List (List UInt8)
  | .read recvBuffer _ => [recvBuffer]
  | _ => []

theorem History.passed_add (h : History) (ev : ConnectionEvent) :
    (h.add ev).passed = h.passed ++ ev.passes := by
  cases ev <;> simp [History.add, ConnectionEvent.passes]

theorem History.reads_add (h : History) (ev : ConnectionEvent) :
    (h.add ev).reads = h.reads ++ ev.takes := by
  cases ev <;> simp [History.add, ConnectionEvent.takes]

namespace Link

variable {hash : Hash} {peerId : Side → Vector UInt8 20} {l l' : Link}

/-- The socket serves the writes in order, and the messages can be written. -/
def Orderly (l : Link) (ev : Side × ConnectionEvent) : Prop :=
  (l.side ev.1).connection.InOrder ev.2 ∧ ∀ m ∈ ev.2.passes, m.frame.length < 2 ^ 28

instance (l : Link) (ev : Side × ConnectionEvent) : Decidable (l.Orderly ev) :=
  inferInstanceAs (Decidable (_ ∧ _))

theorem step_eq_ok {ev : Side × ConnectionEvent} : l.step ev = .ok l' ↔ l.Arrived ev.1 ev.2 ∧
    ∃ c, (l.side ev.1).connection.step ev.2 = .ok c ∧
      l' = l.setSide ev.1 ⟨c, (l.side ev.1).history.add ev.2⟩ := by
  unfold step
  split_ifs with h
  · simp only [h, true_and, bind_eq_ok]
    refine exists_congr fun c => and_congr_right fun _ => ?_
    exact ⟨fun heq => (Except.ok.inj heq).symm, fun heq => congrArg Except.ok heq.symm⟩
  · exact ⟨fun heq => (by cases heq), fun h' => absurd h'.1 h⟩

end Link

/-! ### What has been said -/

/-- The message, if it is one. -/
def Outgoing.message? : Outgoing → Option Message
  | handshake _ => none
  | message m => some m

/-- The messages that have been handed over. -/
def Connection.said (c : Connection) : List Message := c.written.filterMap Outgoing.message?

/-- The handshake that a connection sends. -/
def handshakeOf (hash : Hash) (id : Vector UInt8 20) : Handshake := ⟨protocolName, hash, id⟩

namespace Connection

variable {hash : Hash} {id : Vector UInt8 20} {stale : UInt8 → UInt8} {h : History} {c d : Connection}

theorem said_of_written {ms : List Message}
    (hw : c.written = ownHandshake hash id :: ms.map .message) : c.said = ms := by
  rw [said, hw, ownHandshake, List.filterMap_cons, Outgoing.message?, List.filterMap_map]
  exact List.filterMap_some

/-- What has been handed over is nothing, or the own handshake and messages. -/
theorem Gated.written_said (hg : Gated hash id stale h c) :
    c.written = [] ∧ c.said = [] ∨ c.written = ownHandshake hash id :: c.said.map .message := by
  rcases hg.written_eq with hw | ⟨ms, hw⟩
  · exact .inl ⟨hw, by rw [said, hw, List.filterMap_nil]⟩
  · exact .inr (by rw [said_of_written hw, hw])

/-- Nothing is handed over before the start. -/
theorem Gated.started (hg : Gated hash id stale h c) (hp : c.pending = .nothing) (hw : c.written ≠ []) :
    h.started = true := by
  by_contra hnot
  cases hc : c.handshakeState.complete with
  | false => exact hw (by rw [(hg.waiting hc).1, if_neg hnot])
  | true =>
    have hreading := hg.reading
    rw [hp] at hreading
    have hreads : h.reads = [] := (if_neg hnot).mp hreading
    rw [HandshakeState.complete, Bool.and_eq_true] at hc
    have htwo := hg.two_le_reads hc.2
    simp [hreads] at htwo

theorem Gated.not_started (hg : Gated hash id stale h c) (hw : c.written = []) : h.started = false := by
  have hc : c.handshakeState.complete = false := by
    by_contra hc
    simpa [hw] using (hg.complete (Bool.not_eq_false _ ▸ hc)).1
  have hwritten := (hg.waiting hc).1
  by_contra hstarted
  rw [Bool.not_eq_false] at hstarted
  rw [hw, if_pos hstarted] at hwritten
  cases hwritten

/-- What has been said has been passed to `send`. -/
theorem Gated.said_prefix (hg : Gated hash id stale h c) : c.said <+: h.passed := by
  cases hc : c.handshakeState.complete with
  | true =>
    rw [said_of_written (hg.complete hc).1]
  | false =>
    have hw := (hg.waiting hc).1
    split_ifs at hw
    · have hsaid : c.said = [] := said_of_written hw
      rw [hsaid]
      exact List.nil_prefix
    · rw [said, hw]
      exact List.nil_prefix

/-- The messages that wait have been passed to `send`. -/
theorem Gated.fits_pending (hg : Gated hash id stale h c) (hc : c.handshakeState.complete = false)
    (hfit : ∀ m ∈ h.passed, m.frame.length < 2 ^ 28) : ∀ msg ∈ c.pendingSendMsgs, msg.Fits := by
  rw [(hg.waiting hc).2.1]
  intro msg hmsg
  obtain ⟨m, hm, rfl⟩ := List.mem_map.1 hmsg
  exact hfit m hm

theorem Gated.fits_written (hg : Gated hash id stale h c) (hfit : ∀ m ∈ h.passed, m.frame.length < 2 ^ 28) :
    ∀ msg ∈ c.written, msg.Fits := by
  rcases hg.written_said with ⟨hw, -⟩ | hw
  · rw [hw]
    exact fun _ hmsg => absurd hmsg List.not_mem_nil
  · rw [hw]
    intro msg hmsg
    rcases List.mem_cons.1 hmsg with rfl | hmsg
    · show protocolName.length ≤ 255
      decide
    · obtain ⟨m, hm, rfl⟩ := List.mem_map.1 hmsg
      exact hfit m (hg.said_prefix.subset hm)

/-- The frames of what has been handed over. -/
theorem flatMap_frame (hw : c.written = ownHandshake hash id :: c.said.map .message) :
    c.written.flatMap Outgoing.frame =
      (handshakeOf hash id).frame ++ c.said.flatMap Message.frame := by
  rw [hw, List.flatMap_cons, List.flatMap_map]
  rfl

/-- The stream is a beginning of the handshake and the messages. -/
theorem InLine.out_said (hline : c.InLine) (hg : Gated hash id stale h c)
    (hfit : ∀ m ∈ h.passed, m.frame.length < 2 ^ 28) :
    c.wire.out <+: (handshakeOf hash id).frame ++ c.said.flatMap Message.frame := by
  have hout := hline.out_prefix (hg.fits_written hfit)
  rcases hg.written_said with ⟨hw, -⟩ | hw
  · rw [hw, List.flatMap_nil, List.prefix_nil] at hout
    rw [hout]
    exact List.nil_prefix
  · rwa [flatMap_frame hw] at hout

/-- A step takes nothing back. -/
theorem grows_step {ev : ConnectionEvent} (hs : c.step ev = .ok d) :
    c.said <+: d.said ∧ c.wire.out <+: d.wire.out := by
  have hadded : ∀ {c : Connection}, c.Added d → c.said <+: d.said ∧ c.wire.out <+: d.wire.out := by
    rintro c ⟨adds, -, hwritten, -, hwire⟩
    refine ⟨?_, ?_⟩
    · rw [said, said, hwritten, List.filterMap_append]
      exact List.prefix_append _ _
    · rw [hwire, Wire.out_foldl_submit]
  obtain ⟨i, n, w, rfl, hw, rfl⟩ | ⟨i, sends, rfl, -, hadd⟩ | ⟨-, -, hadd⟩ := added_step hs
  · refine ⟨List.prefix_rfl, ?_⟩
    obtain ⟨j, -, -, -, rfl⟩ := Wire.transfer_eq_some.1 hw
    exact List.prefix_append _ _
  · have hgrows := hadded hadd
    exact hgrows
  · exact hadded hadd

/-- A read takes something. -/
theorem ne_nil_of_takes {ev : ConnectionEvent} (hs : c.step ev = .ok d) {bytes : List UInt8}
    (hbytes : bytes ∈ ev.takes) : bytes ≠ [] := by
  cases ev with
  | read recvBuffer sends =>
    rw [List.mem_singleton.1 hbytes]
    rintro rfl
    have hdone : c.readDone [] sends = .ok d := hs
    unfold readDone at hdone
    split_ifs at hdone with hbytes
    exact absurd (PeerConnection.intake.pos_of_wants _ _ hbytes) (lt_irrefl 0)
  | start | send | transfer | written => cases hbytes

/-- What a connection has heard after a step. -/
theorem heard_step {hs : Handshake} {said : List Message} (hg : Gated hash id stale h c)
    (hheard : PeerConnection.Heard hs said h.reads.flatten c.toPeerConnection)
    (hfound : ∀ b, c.stale b = b) (hpstr : hs.pstr.length ≤ 255)
    (hfit : ∀ m ∈ said, m.frame.length < 2 ^ 28)
    {ev : ConnectionEvent} (hstep : c.step ev = .ok d)
    (hpre : h.reads.flatten ++ ev.takes.flatten <+: hs.frame ++ said.flatMap Message.frame) :
    PeerConnection.Heard hs said (h.add ev).reads.flatten d.toPeerConnection := by
  have hg' := hg.step hstep
  rw [h.reads_add, List.flatten_append]
  cases ev with
  | start =>
    have hreading := hg'.reading
    have hnot := hg'.not_recieved
    simp only [Connection.step] at hstep
    split_ifs at hstep
    obtain ⟨e, he, hd⟩ := bind_eq_ok.1 hstep
    cases hd
    have hreads : h.reads = [] := hreading.2
    have hrec : e.handshakeState.recieved = false := hnot (by simp [History.add, hreads])
    have hcomplete : e.handshakeState.complete = false := by
      rw [HandshakeState.complete, hrec, Bool.and_false]
    exact ⟨(hg'.waiting hcomplete).2.2.1, by rw [hreads]; rfl⟩
  | send m =>
    have hm : c.sendMessages [m] = .ok d := by
      rw [sendMessages, sendAll, List.map_singleton, List.foldlM_cons]
      exact bind_eq_ok.2 ⟨d, hstep, rfl⟩
    rw [sendMessages_toPeerConnection hm]
    simpa [ConnectionEvent.takes] using hheard
  | transfer i n =>
    obtain ⟨i, n, w, -, -, rfl⟩ | ⟨i, sends, heq, -⟩ | ⟨hne, -⟩ := added_step hstep
    · simpa [ConnectionEvent.takes] using hheard
    · cases heq
    · exact absurd rfl (hne i n)
  | written i sends =>
    have hdone := heard_writeDone hg hheard hstep
    simpa [ConnectionEvent.takes] using hdone
  | read recvBuffer sends =>
    have hlen : c.pending.bytes = some recvBuffer.length := by
      have hdone : c.readDone recvBuffer sends = .ok d := hstep
      unfold readDone at hdone
      split_ifs at hdone with hbytes
      exact hbytes
    obtain ⟨p, hp, hheard'⟩ := hheard.read hfound hpstr hfit hlen
      (by simpa [ConnectionEvent.takes] using hpre)
    have hd := (readDone_toPeerConnection hstep).symm.trans hp
    rw [Except.ok.inj hd]
    simpa [ConnectionEvent.takes] using hheard'

end Connection

/-! ### The invariant -/

/-- What holds of each end by itself. -/
structure End.Speaks (hash : Hash) (peerId : Vector UInt8 20) (e : End) : Prop where
  gated : Connection.Gated hash peerId id e.history e.connection
  line : e.connection.InLine
  fits : ∀ m ∈ e.history.passed, m.frame.length < 2 ^ 28
  nonempty : ∀ bytes ∈ e.history.reads, bytes ≠ []
  settled : e.connection.written = [] ∨ 0 ∈ e.connection.sendBuffers ∨
    e.connection.handshakeState.sent = true

/-- What holds of the two ends. -/
structure Link.Joined (hash : Hash) (peerId : Side → Vector UInt8 20) (l : Link) : Prop where
  speaks : ∀ s, (l.side s).Speaks hash (peerId s)
  heard : ∀ s, PeerConnection.Heard (handshakeOf hash (peerId s.other))
    (l.side s.other).connection.said (l.side s).taken (l.side s).connection.toPeerConnection
  taken : ∀ s, (l.side s).taken <+: (l.side s.other).connection.wire.out

namespace Connection

variable {hash : Hash} {id : Vector UInt8 20} {stale : UInt8 → UInt8} {h : History} {c d : Connection}

theorem settled_step (hg : Gated hash id stale h c)
    (hsettled : c.written = [] ∨ 0 ∈ c.sendBuffers ∨ c.handshakeState.sent = true)
    {ev : ConnectionEvent} (hs : c.step ev = .ok d) :
    d.written = [] ∨ 0 ∈ d.sendBuffers ∨ d.handshakeState.sent = true := by
  have hg' := hg.step hs
  -- once the handshake is out it stays so
  have hsent : c.handshakeState.sent = true → d.handshakeState.sent = true := by
    rw [hg.sent, hg'.sent]
    cases ev <;> simp +contextual [History.add]
  obtain ⟨i, n, w, rfl, hw, rfl⟩ | ⟨i, sends, rfl, hi, adds, -, -, hbuffers, -⟩ |
    ⟨-, -, adds, -, hwritten, hbuffers, -⟩ := added_step hs
  · exact hsettled
  · by_cases hi0 : i = 0
    · refine .inr (.inr ?_)
      rw [hg'.sent]
      simp [History.add, hi0]
    · have herase : 0 ∈ c.sendBuffers → 0 ∈ d.sendBuffers := by
        intro h0
        rw [hbuffers]
        exact List.mem_append_left _ ((List.mem_erase_of_ne (Ne.symm hi0)).2 h0)
      rcases hsettled with hnil | h0 | hsettled
      · have := hg.bound i hi
        simp [hnil] at this
      · exact .inr (.inl (herase h0))
      · exact .inr (.inr (hsent hsettled))
  · rcases hsettled with hnil | h0 | hsettled
    · cases adds with
      | nil =>
        refine .inl ?_
        rw [hwritten, hnil]
        rfl
      | cons a adds =>
        refine .inr (.inl ?_)
        rw [hbuffers, hnil]
        simp [List.range'_succ]
    · refine .inr (.inl ?_)
      rw [hbuffers]
      exact List.mem_append_left _ h0
    · exact .inr (.inr (hsent hsettled))

end Connection

namespace Link

variable {hash : Hash} {peerId : Side → Vector UInt8 20} {l l' : Link}

theorem joined_init : (init hash peerId).Joined hash peerId where
  speaks s := by
    cases s <;> exact ⟨Connection.gated_created, Connection.inLine_created _ _ _,
      fun _ hm => absurd hm List.not_mem_nil, fun _ hm => absurd hm List.not_mem_nil, .inl rfl⟩
  heard s := by
    cases s <;> exact ⟨rfl, .inl ⟨rfl, rfl⟩⟩
  taken s := by
    cases s <;> exact List.prefix_rfl

theorem handshakeOf_pstr (hash : Hash) (id : Vector UInt8 20) :
    (handshakeOf hash id).pstr.length ≤ 255 := by
  show protocolName.length ≤ 255
  decide

theorem Joined.fits_said (h : l.Joined hash peerId) (s : Side) :
    ∀ m ∈ (l.side s).connection.said, m.frame.length < 2 ^ 28 :=
  fun m hm => (h.speaks s).fits m ((h.speaks s).gated.said_prefix.subset hm)

/-- The stream of a side. -/
theorem Joined.out_said (h : l.Joined hash peerId) (s : Side) : (l.side s).connection.wire.out <+:
    (handshakeOf hash (peerId s)).frame ++ (l.side s).connection.said.flatMap Message.frame :=
  (h.speaks s).line.out_said (h.speaks s).gated (h.speaks s).fits

theorem Joined.step (h : l.Joined hash peerId) {ev : Side × ConnectionEvent}
    (hs : l.step ev = .ok l') (horder : l.Orderly ev) : l'.Joined hash peerId := by
  obtain ⟨s, ev⟩ := ev
  obtain ⟨harrived, c, hc, rfl⟩ := step_eq_ok.1 hs
  obtain ⟨hline, hfits⟩ := horder
  dsimp only at harrived hc hline hfits ⊢
  have hspeaks := h.speaks s
  obtain ⟨hsaid, hout⟩ := Connection.grows_step hc
  have htaken : (l.side s).taken ++ ev.takes.flatten <+: (l.side s.other).connection.wire.out := by
    cases ev with
    | read recvBuffer sends =>
      rw [ConnectionEvent.takes, List.flatten_singleton]
      exact harrived
    | start | send | transfer | written => simpa [ConnectionEvent.takes] using h.taken s
  have htaken' : End.taken ⟨c, (l.side s).history.add ev⟩ = (l.side s).taken ++ ev.takes.flatten := by
    rw [End.taken, History.reads_add, List.flatten_append, End.taken]
  refine ⟨fun t => ?_, fun t => ?_, fun t => ?_⟩
  · rcases Side.eq_or_eq_other s t with rfl | rfl
    · rw [side_setSide]
      refine ⟨hspeaks.gated.step hc, hspeaks.line.step hc hline, ?_, ?_,
        Connection.settled_step hspeaks.gated hspeaks.settled hc⟩
      · rw [History.passed_add]
        intro m hm
        exact (List.mem_append.1 hm).elim (hspeaks.fits m) (hfits m)
      · rw [History.reads_add]
        intro bytes hbytes
        rcases List.mem_append.1 hbytes with hbytes | hbytes
        · exact hspeaks.nonempty bytes hbytes
        · exact Connection.ne_nil_of_takes hc hbytes
    · rw [side_setSide_other]
      exact h.speaks s.other
  · rcases Side.eq_or_eq_other s t with rfl | rfl
    · rw [side_setSide, side_setSide_other]
      exact Connection.heard_step hspeaks.gated (h.heard t) (congrFun hspeaks.gated.found)
        (handshakeOf_pstr _ _)
        (h.fits_said t.other) hc (htaken.trans (h.out_said t.other))
    · rw [side_setSide_other, Side.other_other, side_setSide]
      have hheard := h.heard s.other
      rw [Side.other_other] at hheard
      exact hheard.mono hsaid
  · rcases Side.eq_or_eq_other s t with rfl | rfl
    · rw [side_setSide, side_setSide_other, htaken']
      exact htaken
    · rw [side_setSide_other, Side.other_other, side_setSide]
      have htaken := h.taken s.other
      rw [Side.other_other] at htaken
      exact htaken.trans hout

theorem joined_run {es : List (Side × ConnectionEvent)}
    (hr : Run (Along (StepOf step) Orderly) (init hash peerId) es l) : l.Joined hash peerId :=
  hr.invariant (J := (·.Joined hash peerId)) (fun _ _ _ h hs => h.step hs.1 hs.2) joined_init

/-- At every moment each side has handled a beginning of the messages that the other side has passed to
`send`: each of them once, in order, and with its contents. -/
theorem handles_in_order {es : List (Side × ConnectionEvent)}
    (hr : Run (Along (StepOf step) Orderly) (init hash peerId) es l) (s : Side) :
    ∃ ms, ms <+: (l.side s.other).history.passed ∧
      (l.side s).connection.handled = ms.flatMap Message.handledAs := by
  have h := joined_run hr
  obtain ⟨ms, hms, hhandled⟩ := (h.heard s).handled
  exact ⟨ms, hms.trans (h.speaks s.other).gated.said_prefix, hhandled⟩

def sampleIds : Side → Vector UInt8 20
  | .left => .replicate 20 1
  | .right => .replicate 20 2

/-- The left side sends a message and has handled the first of two, of which the second is halfway. -/
def sampleEvents : List (Side × ConnectionEvent) :=
  [(.left, .send .interested), (.left, .start), (.right, .start), (.right, .transfer 0 68),
    (.left, .transfer 0 30), (.left, .read [19] []), (.left, .transfer 0 38), (.right, .read [19] []),
    (.left, .read (handshakeOf Connection.sampleHash (sampleIds .right)).body []),
    (.right, .read (handshakeOf Connection.sampleHash (sampleIds .left)).body []),
    (.right, .written 0 []), (.left, .written 0 []), (.right, .send .unchoke),
    (.right, .send (.haveMsg 3)), (.right, .transfer 1 5), (.right, .transfer 2 6),
    (.left, .read [0, 0, 0, 1] []), (.left, .read [1] [])]

theorem handles_in_order_sample : ∃ l,
    Run (Along (StepOf step) Orderly) (init Connection.sampleHash sampleIds) sampleEvents l ∧
      (l.side .right).history.passed = [.unchoke, .haveMsg 3] ∧
      (l.side .left).connection.handled = [some Message.unchoke.object] ∧
      ∃ ms, ms <+: (l.side .right).history.passed ∧
        (l.side .left).connection.handled = ms.flatMap Message.handledAs := by
  have hcheck : (checkRun step Orderly (init Connection.sampleHash sampleIds) sampleEvents).any
      (fun l => decide ((l.side .right).history.passed = [.unchoke, .haveMsg 3] ∧
        (l.side .left).connection.handled = [some Message.unchoke.object])) = true := by
    decide +kernel
  obtain ⟨l, hr, hpassed, hhandled⟩ := exists_run_along hcheck
  exact ⟨l, hr, hpassed, hhandled, handles_in_order hr .left⟩

/-! ### Everything arrives -/

/-- A step that passes nothing to `send`. -/
def Quiet (l : Link) (ev : Side × ConnectionEvent) : Prop := l.Orderly ev ∧ ev.2.passes = []

/-- A state in which nothing can happen unless something is sent. -/
def Still (l : Link) : Prop := ∀ ev l', ¬ Along (StepOf step) Quiet l ev l'

theorem Still.step_ne (hstill : l.Still) (s : Side) (ev : ConnectionEvent) (hpasses : ev.passes = [])
    (horder : (l.side s).connection.InOrder ev) (harrived : l.Arrived s ev) (c : Connection) :
    (l.side s).connection.step ev ≠ .ok c := by
  intro hc
  refine hstill (s, ev) _ ⟨step_eq_ok.2 ⟨harrived, c, hc, rfl⟩, ⟨horder, ?_⟩, hpasses⟩
  dsimp only
  rw [hpasses]
  exact fun m hm => absurd hm List.not_mem_nil

/-- Where nothing can happen, each side has started. -/
theorem Still.started (h : l.Joined hash peerId) (hstill : l.Still) (s : Side) :
    (l.side s).connection.written = Connection.ownHandshake hash (peerId s) ::
      (l.side s).connection.said.map .message := by
  refine (h.speaks s).gated.written_said.resolve_left ?_
  rintro ⟨hw, -⟩
  obtain ⟨d, hd⟩ := (l.side s).connection.start_ok
  refine hstill.step_ne s .start rfl trivial trivial d ?_
  rw [Connection.step, if_pos hw, hd]

/-- Each side has moved all its buffers. -/
theorem Still.moved (hstill : l.Still) (s : Side) :
    ∀ j ∈ (l.side s).connection.wire.jobs, j.left = [] := by
  by_contra hleft
  push Not at hleft
  obtain ⟨i, hfirst, w, hw⟩ := Wire.exists_transfer hleft
  refine hstill.step_ne s (.transfer i 1) rfl hfirst trivial
    { (l.side s).connection with wire := w } ?_
  simp only [Connection.step, hw]

/-- Each side has sent everything that it has handed over. -/
theorem Still.out_eq (h : l.Joined hash peerId) (hstill : l.Still) (s : Side) :
    (l.side s).connection.wire.out = (handshakeOf hash (peerId s)).frame ++
      (l.side s).connection.said.flatMap Message.frame := by
  have hspeaks := h.speaks s
  rw [hspeaks.line.ordered.out_of_finished (hstill.moved s),
    hspeaks.line.flatMap_buffer (hspeaks.gated.fits_written hspeaks.fits),
    Connection.flatMap_frame (hstill.started h s)]

/-- All handlers of writes have run. -/
theorem Still.sendBuffers (h : l.Joined hash peerId) (hstill : l.Still) (s : Side) :
    (l.side s).connection.sendBuffers = [] := by
  have hspeaks := h.speaks s
  by_contra hne
  obtain ⟨i, hi⟩ := List.exists_mem_of_ne_nil _ hne
  have hlt := hspeaks.gated.bound i hi
  have hfin : (l.side s).connection.wire.finished i = true := by
    have hjobs : i < (l.side s).connection.wire.jobs.length := by
      have := hspeaks.line.bytes.length_eq
      rw [List.length_map] at this
      omega
    exact Wire.finished_iff.2 ⟨_, List.getElem?_eq_getElem hjobs,
      hstill.moved s _ (List.getElem_mem hjobs)⟩
  obtain ⟨d, hd⟩ := Connection.writeDone_ok hi hfin hlt fun own hown => by
    obtain rfl := hspeaks.gated.written_handshake hown
    refine hspeaks.gated.fits_pending ?_ hspeaks.fits
    have hsent : (l.side s).connection.handshakeState.sent = false := by
      by_contra hsent
      exact (hspeaks.gated.unsent (Bool.not_eq_false _ ▸ hsent)).2 hi
    rw [HandshakeState.complete, hsent, Bool.false_and]
  exact hstill.step_ne s (.written i []) rfl trivial trivial d hd

/-- No more can be read. -/
theorem Still.exhausted (h : l.Joined hash peerId) (hstill : l.Still) (s : Side)
    {recvBuffer : List UInt8} (hlen : (l.side s).connection.pending.bytes = some recvBuffer.length) :
    ¬ (l.side s).taken ++ recvBuffer <+: (handshakeOf hash (peerId s.other)).frame ++
      (l.side s.other).connection.said.flatMap Message.frame := by
  intro hpre
  have hspeaks := h.speaks s
  obtain ⟨p, hp, -⟩ := (h.heard s).read (congrFun hspeaks.gated.found) (handshakeOf_pstr _ _)
    (h.fits_said s.other) hlen hpre
  obtain ⟨d, hd⟩ := Connection.readDone_ok hlen hp fun pstrlen hpending => by
    refine hspeaks.gated.fits_pending ?_ hspeaks.fits
    have hreading := hspeaks.gated.reading
    rw [hpending] at hreading
    rw [HandshakeState.complete, hspeaks.gated.not_recieved (by simp [hreading.2]), Bool.and_false]
  rw [← hstill.out_eq h s.other] at hpre
  exact hstill.step_ne s (.read recvBuffer []) rfl trivial hpre d hd

/-- Each side waits for a message, and has handled all that the other has said. -/
theorem Still.handled (h : l.Joined hash peerId) (hstill : l.Still) (s : Side) :
    (l.side s).connection.handshakeState.complete = true ∧ (l.side s).connection.handled =
      (l.side s.other).connection.said.flatMap Message.handledAs := by
  have hspeaks := h.speaks s
  have hreading := hspeaks.gated.reading
  rcases (h.heard s).exhausted (h.fits_said s.other) (handshakeOf_pstr _ _)
    (fun _ => hstill.exhausted h s) with hp | ⟨hp, hhandled⟩
  · -- a connection that waits for the end of its own handshake would go on
    have hsent : (l.side s).connection.handshakeState.sent = true := by
      refine (hspeaks.settled.resolve_left ?_).resolve_left ?_
      · rw [hstill.started h s]
        exact List.cons_ne_nil _ _
      · rw [hstill.sendBuffers h s]
        exact List.not_mem_nil
    have hheard := h.heard s
    unfold PeerConnection.Heard at hheard
    rw [hp] at hheard hreading
    have hstarted := hspeaks.gated.started hp (by rw [hstill.started h s]; exact List.cons_ne_nil _ _)
    obtain ⟨htwo, hc⟩ := (if_pos hstarted).mp hreading
    rcases hheard.2 with ⟨hnil, -⟩ | ⟨-, hrec⟩
    · obtain ⟨bytes, hbytes⟩ := List.exists_mem_of_length_pos (by omega : 0 < (l.side s).history.reads.length)
      exact absurd (List.flatten_eq_nil_iff.1 hnil bytes hbytes) (hspeaks.nonempty bytes hbytes)
    · rw [HandshakeState.complete, hsent, hrec hspeaks.gated.infoHash] at hc
      cases hc
  · rw [hp] at hreading
    exact ⟨hreading.2, hhandled⟩

end Link

/-! ### The work that is left -/

namespace Connection

variable {hash : Hash} {id : Vector UInt8 20} {stale : UInt8 → UInt8} {h : History} {c d : Connection}

theorem Gated.length_sendBuffers (hg : Gated hash id stale h c) :
    c.sendBuffers.length ≤ c.written.length := by
  have hsub : c.sendBuffers ⊆ List.range c.written.length :=
    fun i hi => List.mem_range.2 (hg.bound i hi)
  have hlen := (hg.nodup.subperm hsub).length_le
  rwa [List.length_range] at hlen

/-- The writes whose handler has run. -/
def completed (c : Connection) : ℕ := c.written.length - c.sendBuffers.length

theorem Added.completed (h : c.Added d) : d.completed = c.completed := by
  obtain ⟨adds, -, hwritten, hbuffers, -⟩ := h
  rw [Connection.completed, hwritten, hbuffers, List.length_append, List.length_append, List.length_map,
    List.length_range', Nat.add_sub_add_right]
  rfl

theorem completed_step (hg : Gated hash id stale h c) {ev : ConnectionEvent} (hs : c.step ev = .ok d) :
    c.completed ≤ d.completed ∧ ∀ i sends, ev = .written i sends → c.completed < d.completed := by
  obtain ⟨i, n, w, rfl, -, rfl⟩ | ⟨i, sends, rfl, hi, hadd⟩ | ⟨-, hne, hadd⟩ := added_step hs
  · exact ⟨le_rfl, nofun⟩
  · have hlt : c.completed < d.completed := by
      have hle := hg.length_sendBuffers
      have hpos := List.length_pos_of_mem hi
      rw [hadd.completed, completed, completed, List.length_erase_of_mem hi]
      dsimp only
      omega
    exact ⟨hlt.le, fun _ _ _ => hlt⟩
  · exact ⟨hadd.completed.ge, fun i sends heq => absurd heq (hne i sends)⟩

end Connection

namespace End

variable {hash : Hash} {id : Vector UInt8 20} {stale : UInt8 → UInt8} {e : End} {c : Connection}

/-- How far an end has come. -/
def progress (e : End) : ℕ :=
  e.history.started.toNat + e.connection.wire.out.length + e.taken.length + e.connection.completed

/-- The bytes of the handshake and of what has been passed to `send`. -/
def bytes (e : End) : ℕ := 68 + (e.history.passed.flatMap Message.frame).length

/-- A step that sends nothing makes progress. -/
theorem progress_step (hg : Connection.Gated hash id stale e.history e.connection) {ev : ConnectionEvent}
    (hs : e.connection.step ev = .ok c) (hpasses : ev.passes = []) :
    e.progress < progress ⟨c, e.history.add ev⟩ := by
  have hout := (Connection.grows_step hs).2.length_le
  obtain ⟨hcompleted, hwritten⟩ := Connection.completed_step hg hs
  have htaken : taken ⟨c, e.history.add ev⟩ = e.taken ++ ev.takes.flatten := by
    rw [taken, History.reads_add, List.flatten_append, taken]
  have hstarted : e.history.started.toNat ≤ (e.history.add ev).started.toNat := by
    cases ev with
    | start => exact Bool.toNat_le _
    | send | transfer | written | read => exact le_rfl
  unfold progress
  rw [htaken, List.length_append]
  dsimp only
  cases ev with
  | start =>
    have hw : e.connection.written = [] := by
      by_contra hne
      rw [Connection.step, if_neg hne] at hs
      cases hs
    have hlt : e.history.started.toNat < (e.history.add .start).started.toNat := by
      rw [hg.not_started hw]
      exact Nat.one_pos
    omega
  | send m => cases hpasses
  | transfer i n =>
    obtain ⟨i, n, w, -, hw, rfl⟩ | ⟨i, sends, heq, -⟩ | ⟨hne, -⟩ := Connection.added_step hs
    · obtain ⟨j, -, hn, hle, rfl⟩ := Wire.transfer_eq_some.1 hw
      have hlen : (e.connection.wire.out ++ j.left.take n).length = e.connection.wire.out.length + n := by
        rw [List.length_append, List.length_take, min_eq_left hle]
      dsimp only
      omega
    · cases heq
    · exact absurd rfl (hne i n)
  | written i sends =>
    have := hwritten i sends rfl
    omega
  | read recvBuffer sends =>
    have hne := Connection.ne_nil_of_takes hs (List.mem_singleton_self recvBuffer)
    have := List.length_pos_iff.2 hne
    rw [ConnectionEvent.takes, List.flatten_singleton]
    omega

end End

namespace Link

variable {hash : Hash} {peerId : Side → Vector UInt8 20} {l l' : Link}

def progress (l : Link) : ℕ := l.left.progress + l.right.progress

/-- A bound on the steps that can be taken before something new is sent. -/
def work (l : Link) : ℕ :=
  2 * (l.left.bytes + l.right.bytes) + l.left.history.passed.length + l.right.history.passed.length + 4

theorem progress_le_work (h : l.Joined hash peerId) : l.progress ≤ l.work := by
  have hend : ∀ s, (l.side s).progress ≤
      (l.side s).bytes + (l.side s.other).bytes + (l.side s).history.passed.length + 2 := by
    have hout : ∀ s, (l.side s).connection.wire.out.length ≤ (l.side s).bytes := by
      intro s
      have hsaid := (h.speaks s).gated.said_prefix
      have hlen := (h.out_said s).length_le
      have hframes : ((l.side s).connection.said.flatMap Message.frame).length ≤
          ((l.side s).history.passed.flatMap Message.frame).length := by
        obtain ⟨rest, hrest⟩ := hsaid
        rw [← hrest, List.flatMap_append, List.length_append]
        exact Nat.le_add_right _ _
      have hhandshake : (handshakeOf hash (peerId s)).frame.length = 68 := by
        rw [Handshake.frame, List.length_cons, Handshake.body_length]
        rfl
      rw [List.length_append, hhandshake] at hlen
      unfold End.bytes
      omega
    intro s
    have hstarted := Bool.toNat_le (l.side s).history.started
    have htaken := (h.taken s).length_le.trans (hout s.other)
    have hcompleted : (l.side s).connection.completed ≤ (l.side s).history.passed.length + 1 := by
      have hsaid := (h.speaks s).gated.said_prefix.length_le
      have hwritten : (l.side s).connection.written.length ≤ (l.side s).connection.said.length + 1 := by
        rcases (h.speaks s).gated.written_said with ⟨hw, -⟩ | hw
        · rw [hw]
          exact Nat.zero_le _
        · rw [hw, List.length_cons, List.length_map]
      unfold Connection.completed
      omega
    have := hout s
    unfold End.progress
    omega
  have hleft := hend .left
  have hright := hend .right
  simp only [side, Side.other] at hleft hright
  unfold progress work
  omega

theorem progress_step (h : l.Joined hash peerId) {ev : Side × ConnectionEvent} (hs : l.step ev = .ok l')
    (hpasses : ev.2.passes = []) :
    l.progress < l'.progress ∧ ∀ s, (l'.side s).history.passed = (l.side s).history.passed := by
  obtain ⟨s, ev⟩ := ev
  obtain ⟨-, c, hc, rfl⟩ := step_eq_ok.1 hs
  dsimp only at hc hpasses ⊢
  have hlt := End.progress_step (h.speaks s).gated hc hpasses
  refine ⟨?_, fun t => ?_⟩
  · cases s with
    | left => exact Nat.add_lt_add_right hlt _
    | right => exact Nat.add_lt_add_left hlt _
  · rcases Side.eq_or_eq_other s t with rfl | rfl
    · rw [side_setSide, History.passed_add, hpasses, List.append_nil]
    · rw [side_setSide_other]

/-- Steps that send nothing come to an end. -/
theorem length_of_quiet (h : l.Joined hash peerId) {es : List (Side × ConnectionEvent)}
    (hr : Run (Along (StepOf step) Quiet) l es l') : l'.Joined hash peerId ∧
      l.progress + es.length ≤ l'.progress ∧
      ∀ s, (l'.side s).history.passed = (l.side s).history.passed := by
  induction hr with
  | nil => exact ⟨h, le_rfl, fun _ => rfl⟩
  | cons hs _ ih =>
    obtain ⟨hstep, horder, hpasses⟩ := hs
    obtain ⟨hlt, hpassed⟩ := progress_step h hstep hpasses
    obtain ⟨h', hle, hpassed'⟩ := ih (h.step hstep horder)
    refine ⟨h', ?_, fun s => (hpassed' s).trans (hpassed s)⟩
    rw [List.length_cons]
    omega

theorem work_congr (hpassed : ∀ s, (l'.side s).history.passed = (l.side s).history.passed) :
    l'.work = l.work := by
  have hleft := hpassed .left
  have hright := hpassed .right
  simp only [side] at hleft hright
  simp only [work, End.bytes, hleft, hright]

/-- They end where nothing can happen. -/
theorem exists_still (h : l.Joined hash peerId) :
    ∃ fs l', Run (Along (StepOf step) Quiet) l fs l' ∧ l'.Still := by
  induction hn : l.work - l.progress using Nat.strong_induction_on generalizing l with
  | _ n ih =>
    by_cases hstill : l.Still
    · exact ⟨[], l, .nil l, hstill⟩
    · unfold Still at hstill
      push Not at hstill
      obtain ⟨ev, l₁, hs⟩ := hstill
      obtain ⟨hlt, hpassed⟩ := progress_step h hs.1 hs.2.2
      have h₁ := h.step hs.1 hs.2.1
      have hwork := work_congr hpassed
      have hbound := progress_le_work h₁
      obtain ⟨fs, l', hr, hstill'⟩ := ih (l₁.work - l₁.progress) (by omega) h₁ rfl
      exact ⟨ev :: fs, l', .cons hs hr, hstill'⟩

/-- From every state that can be reached, the steps that send nothing come to an end, whatever is
scheduled, and where they end each side has handled exactly what the other has ever passed to `send`. -/
theorem delivers {es fs : List (Side × ConnectionEvent)}
    (hr : Run (Along (StepOf step) Orderly) (init hash peerId) es l)
    (hquiet : Run (Along (StepOf step) Quiet) l fs l') : fs.length ≤ l.work ∧
      (l'.Still → ∀ s, (l'.side s).connection.handled =
        (l.side s.other).history.passed.flatMap Message.handledAs) := by
  have h := joined_run hr
  obtain ⟨h', hle, hpassed⟩ := length_of_quiet h hquiet
  refine ⟨?_, fun hstill s => ?_⟩
  · have hbound := progress_le_work h'
    rw [work_congr hpassed] at hbound
    omega
  · obtain ⟨hcomplete, -⟩ := hstill.handled h' s.other
    rw [(hstill.handled h' s).2, ← hpassed,
      Connection.said_of_written ((h'.speaks s.other).gated.complete hcomplete).1]

theorem delivers_sample : ∃ l fs l',
    Run (Along (StepOf step) Orderly) (init Connection.sampleHash sampleIds) sampleEvents l ∧
      Run (Along (StepOf step) Quiet) l fs l' ∧ l'.Still ∧ fs.length ≤ l.work ∧
      (l'.side .left).connection.handled =
        [some Message.unchoke.object, some (Message.haveMsg 3).object] := by
  have hcheck : (checkRun step Orderly (init Connection.sampleHash sampleIds) sampleEvents).any
      (fun l => decide ((l.side .right).history.passed = [.unchoke, .haveMsg 3])) = true := by
    decide +kernel
  obtain ⟨l, hr, hpassed⟩ := exists_run_along hcheck
  obtain ⟨fs, l', hquiet, hstill⟩ := exists_still (joined_run hr)
  obtain ⟨hlen, harrived⟩ := delivers hr hquiet
  have hhandled := harrived hstill .left
  rw [Side.other, hpassed] at hhandled
  exact ⟨l, fs, l', hr, hquiet, hstill, hlen, hhandled⟩

end Link

end FTorrent
