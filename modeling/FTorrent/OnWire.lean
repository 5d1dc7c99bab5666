import FTorrent.Connection

/-!
# Frames on the wire

`send` starts a write whether or not an earlier one is under way, so the socket may take a part of one
message in the middle of another (`interleaved`).  As long as it never does, the stream is a sequence
of whole messages and at most one beginning of a message (`framed_of_uninterrupted`).
-/

namespace FTorrent

open Lib

namespace Connection

/-- The bytes of a message that has been handed to `async_write`. -/
def IsFrame (c : Connection) (b : List UInt8) : Prop :=
  ∃ msg ∈ c.written, serialized msg.serialize = .ok b

/-- The socket takes no part of a message while another message is halfway. -/
def Uninterrupted (c : Connection) : ConnectionEvent → Prop
  | .transfer i _ => c.wire.Free i
  | _ => True

instance (c : Connection) : ∀ ev, Decidable (c.Uninterrupted ev)
  | .transfer i _ => inferInstanceAs (Decidable (c.wire.Free i))
  | .start => inferInstanceAs (Decidable True)
  | .send _ => inferInstanceAs (Decidable True)
  | .written _ _ => inferInstanceAs (Decidable True)
  | .read _ _ => inferInstanceAs (Decidable True)

/-- A step adds writes, and does nothing else to the wire. -/
def Submitted (c d : Connection) : Prop :=
  ∃ msgs bufs, d.written = c.written ++ msgs ∧ Buffers msgs bufs ∧
    d.wire = bufs.foldl Wire.submit c.wire

variable {c d : Connection}

theorem submitted_of_eq (hw : d.written = c.written) (hwire : d.wire = c.wire) : c.Submitted d :=
  ⟨[], [], by rw [hw, List.append_nil], fun _ hb => absurd hb List.not_mem_nil, hwire⟩

theorem Handed.submitted {msgs : List Outgoing} (h : c.Handed msgs d) : c.Submitted d := by
  obtain ⟨bufs, hbufs, hwire⟩ := h.wire
  exact ⟨msgs, bufs, h.written, hbufs, hwire⟩

theorem submitted_sendMessages {ms : List Message} (h : c.sendMessages ms = .ok d) :
    c.Submitted d := by
  cases hc : c.handshakeState.complete with
  | false =>
    rw [sendMessages_eq hc] at h
    cases h
    exact submitted_of_eq rfl rfl
  | true => exact (handed_sendAll hc h).submitted

theorem submitted_handshakeComplete (h : c.handshakeComplete = .ok d)
    (hc : c.handshakeState.complete = true) : c.Submitted d :=
  (handed_handshakeComplete hc h).submitted

theorem submitted_receiving {r : Except Fault PeerConnection} (h : c.receiving r = .ok d) :
    c.Submitted d := by
  obtain ⟨p, -, hd⟩ := bind_eq_ok.1 h
  cases hd
  exact submitted_of_eq rfl rfl

theorem submitted_handshakeRestRead {pstrlen : UInt8} {recvBuffer : List UInt8}
    (h : c.handshakeRestRead pstrlen recvBuffer = .ok d) : c.Submitted d := by
  obtain ⟨handshake, t, -, hd⟩ := handshakeRestRead_eq_ok h
  split_ifs at hd with hinfo
  · exact hd ▸ submitted_of_eq rfl rfl
  · dsimp only at hd
    split_ifs at hd with hc
    · have hs := submitted_handshakeComplete hd hc
      exact hs
    · cases hd
      exact submitted_of_eq rfl rfl

theorem submitted_readDone {recvBuffer : List UInt8} {sends : List Message}
    (h : c.readDone recvBuffer sends = .ok d) : c.Submitted d := by
  unfold readDone at h
  split_ifs at h
  split at h
  · exact submitted_receiving h
  · exact submitted_handshakeRestRead h
  · exact submitted_receiving h
  · obtain ⟨e, he, hd⟩ := bind_eq_ok.1 h
    obtain ⟨p, -, he⟩ := bind_eq_ok.1 he
    cases he
    have hs := submitted_sendMessages hd
    exact hs
  · cases h

theorem submitted_writeDone {i : ℕ} {sends : List Message} (h : c.writeDone i sends = .ok d) :
    c.Submitted d := by
  obtain ⟨-, ⟨hs, -, -, hd⟩ | ⟨m, -, hd⟩⟩ := writeDone_eq_ok h
  · unfold handshakeSent at hd
    dsimp only at hd
    split_ifs at hd with hc
    · have hs := submitted_handshakeComplete hd hc
      exact hs
    · cases hd
      exact submitted_of_eq rfl rfl
  · have hs := submitted_sendMessages hd
    exact hs

theorem step_transfer {i n : ℕ} (h : c.step (.transfer i n) = .ok d) :
    ∃ w, c.wire.transfer i n = some w ∧ d = { c with wire := w } := by
  unfold step at h
  cases hw : c.wire.transfer i n with
  | none => simp [hw] at h
  | some w =>
    simp only [hw] at h
    exact ⟨w, rfl, (Except.ok.inj h).symm⟩

/-- A step moves a part of a buffer, or it adds writes. -/
theorem step_cases {ev : ConnectionEvent} (h : c.step ev = .ok d) :
    (∃ i n w, ev = .transfer i n ∧ c.wire.transfer i n = some w ∧ d = { c with wire := w }) ∨
      c.Submitted d := by
  cases ev with
  | start =>
    refine .inr ?_
    unfold step at h
    split_ifs at h
    obtain ⟨e, he, hd⟩ := bind_eq_ok.1 h
    cases hd
    exact (handed_send (.inr rfl) he).submitted
  | send m =>
    have hm : c.sendMessages [m] = .ok d := by
      rw [sendMessages, sendAll, List.map_singleton, List.foldlM_cons]
      exact bind_eq_ok.2 ⟨d, h, rfl⟩
    exact .inr (submitted_sendMessages hm)
  | transfer i n =>
    obtain ⟨w, hw, hd⟩ := step_transfer h
    exact .inl ⟨i, n, w, rfl, hw, hd⟩
  | written i sends => exact .inr (submitted_writeDone h)
  | read recvBuffer sends => exact .inr (submitted_readDone h)

/-! ### The stream -/

theorem Submitted.contiguous (h : c.Submitted d) (hc : c.wire.Contiguous c.IsFrame) :
    d.wire.Contiguous d.IsFrame := by
  obtain ⟨msgs, bufs, hwritten, hbufs, hwire⟩ := h
  have hmono : ∀ b, c.IsFrame b → d.IsFrame b := by
    rintro b ⟨msg, hmsg, hb⟩
    refine ⟨msg, ?_, hb⟩
    rw [hwritten]
    exact List.mem_append_left _ hmsg
  have hnew : ∀ b ∈ bufs, d.IsFrame b := by
    intro b hb
    obtain ⟨msg, hmsg, hser⟩ := hbufs b hb
    refine ⟨msg, ?_, hser⟩
    rw [hwritten]
    exact List.mem_append_right _ hmsg
  rw [hwire]
  exact (hc.mono hmono).foldl_submit hnew

theorem contiguous_step {ev : ConnectionEvent} (hc : c.wire.Contiguous c.IsFrame)
    (h : c.step ev = .ok d) (hfree : c.Uninterrupted ev) : d.wire.Contiguous d.IsFrame := by
  rcases step_cases h with ⟨i, n, w, rfl, hw, rfl⟩ | hs
  · exact hc.transfer hw hfree
  · exact hs.contiguous hc

theorem contiguous_run {infoHash : Hash} {peerId : Vector UInt8 20} {stale : UInt8 → UInt8}
    {es : List ConnectionEvent}
    (h : Run (Along (StepOf step) Uninterrupted) (created infoHash peerId stale) es c) :
    c.wire.Contiguous c.IsFrame :=
  h.invariant (J := fun c => c.wire.Contiguous c.IsFrame)
    (fun _ _ _ hc hs => contiguous_step hc hs.1 hs.2) Wire.contiguous_empty

/-- If the socket never takes a part of a message in the middle of another, what it has taken are
whole messages and at most one beginning of a message. -/
theorem framed_of_uninterrupted {infoHash : Hash} {peerId : Vector UInt8 20} {stale : UInt8 → UInt8}
    {es : List ConnectionEvent}
    (h : Run (Along (StepOf step) Uninterrupted) (created infoHash peerId stale) es c) :
    Framed c.IsFrame c.wire.out :=
  (contiguous_run h).framed

/-- In particular if no two writes are ever under way at a time. -/
theorem framed_of_single {infoHash : Hash} {peerId : Vector UInt8 20} {stale : UInt8 → UInt8}
    {es : List ConnectionEvent}
    (h : Run (Along (StepOf step) fun c _ => c.wire.Single) (created infoHash peerId stale) es c) :
    Framed c.IsFrame c.wire.out := by
  have hmono : ∀ (c : Connection) (ev : ConnectionEvent) (d : Connection),
      Along (StepOf step) (fun c _ => c.wire.Single) c ev d →
        Along (StepOf step) Uninterrupted c ev d := by
    rintro c ev d ⟨hs, hsingle⟩
    refine ⟨hs, ?_⟩
    cases ev with
    | transfer i n =>
      obtain ⟨w, hw, -⟩ := step_transfer hs
      exact hsingle.free hw
    | start => trivial
    | send => trivial
    | written => trivial
    | read => trivial
  exact (contiguous_run (h.mono hmono)).framed

/-- Two messages are sent at once after the handshakes, and the socket takes the first byte of one
before it takes the other. -/
def overlappingEvents : List ConnectionEvent :=
  [.start, .transfer 0 68, .read [19] [], .read PeerConnection.sampleHandshake.body [],
    .written 0 [], .send .choke, .send .unchoke, .transfer 1 1, .transfer 2 5]

def overlapping : Connection := created (.replicate 20 7) (.replicate 20 2) id

def overlappingHandshake : Outgoing := ownHandshake (.replicate 20 7) (.replicate 20 2)

/-- The first byte of `choke` stands before the bytes of `unchoke`. -/
theorem not_framed_overlapping (hw : c.written =
      [overlappingHandshake, .message .choke, .message .unchoke])
    (hout : c.wire.out = overlappingHandshake.frame ++ [0, 0, 0, 0, 1, 1]) :
    ¬ Framed c.IsFrame c.wire.out := by
  have hframe : ∀ b, c.IsFrame b →
      b = overlappingHandshake.frame ∨ b = [0, 0, 0, 1, 0] ∨ b = [0, 0, 0, 1, 1] := by
    rintro b ⟨msg, hmsg, hser⟩
    rw [hw] at hmsg
    simp only [List.mem_cons, List.not_mem_nil, or_false] at hmsg
    rcases hmsg with rfl | rfl | rfl
    · rw [Outgoing.serialized_eq (by show _ ≤ _; decide)] at hser
      exact .inl (Except.ok.inj hser).symm
    · rw [Outgoing.serialized_eq (by show _ < _; decide)] at hser
      exact .inr (.inl (Except.ok.inj hser).symm)
    · rw [Outgoing.serialized_eq (by show _ < _; decide)] at hser
      exact .inr (.inr (Except.ok.inj hser).symm)
  have hlen : overlappingHandshake.frame.length = 68 := by decide
  intro h
  rw [hout] at h
  rcases h.cases with h | ⟨b, hb, hpre⟩ | ⟨b, rest, hb, heq, hrest⟩
  · simp at h
  · have := hpre.length_le
    rcases hframe b hb with rfl | rfl | rfl <;> simp [hlen] at this
  · have hpre : b <+: overlappingHandshake.frame ++ [0, 0, 0, 0, 1, 1] := ⟨rest, heq.symm⟩
    rcases hframe b hb with rfl | rfl | rfl
    · obtain rfl := List.append_cancel_left heq
      rcases hrest.cases with h | ⟨b, hb, hpre⟩ | ⟨b, rest, hb, heq, -⟩
      · cases h
      · rcases hframe b hb with rfl | rfl | rfl <;> revert hpre <;> decide
      · have hpre : b <+: [0, 0, 0, 0, 1, 1] := ⟨rest, heq.symm⟩
        rcases hframe b hb with rfl | rfl | rfl <;> revert hpre <;> decide
    · revert hpre
      decide
    · revert hpre
      decide

theorem interleaved : ∃ c, Run (StepOf step) overlapping overlappingEvents c ∧
    ¬ Framed c.IsFrame c.wire.out := by
  have hcheck : (checkRun step (fun _ _ => True) overlapping overlappingEvents).any (fun c =>
      decide (c.written = [overlappingHandshake, .message .choke, .message .unchoke] ∧
        c.wire.out = overlappingHandshake.frame ++ [0, 0, 0, 0, 1, 1])) = true := by
    decide +kernel
  obtain ⟨c, hr, hw, hout⟩ := exists_run hcheck
  exact ⟨c, hr, not_framed_overlapping hw hout⟩

/-- The same messages, where the socket takes one after the other. -/
def orderlyEvents : List ConnectionEvent :=
  [.start, .transfer 0 68, .read [19] [], .read PeerConnection.sampleHandshake.body [],
    .written 0 [], .send .choke, .send .unchoke, .transfer 1 1, .transfer 1 4, .transfer 2 3]

theorem framed_of_uninterrupted_sample :
    ∃ c, Run (Along (StepOf step) Uninterrupted) overlapping orderlyEvents c ∧
      Framed c.IsFrame c.wire.out := by
  have hcheck : (checkRun step Uninterrupted overlapping orderlyEvents).any
      (fun _ => decide True) = true := by
    decide +kernel
  obtain ⟨c, hr, -⟩ := exists_run_along hcheck
  exact ⟨c, hr, framed_of_uninterrupted hr⟩

end Connection

end FTorrent
