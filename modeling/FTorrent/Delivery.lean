import FTorrent.Handshaking
import FTorrent.Lib.ListCount

/-!
# From one connection to the other

The two halves of a delivery.  The writes of a connection are the bytes of what it has handed over, and if
the socket serves them in order, the stream is a beginning of these bytes (`InLine`).  A connection that
has taken a beginning of such a stream has handled the messages in it (`Heard`), and its next read does
not fail (`Heard.read`).
-/

namespace FTorrent

open Lib

namespace Connection

variable {c d e : Connection}

/-! ### What is handed over -/

/-- Messages have been handed over, each with its bytes. -/
def Added (c d : Connection) : Prop :=
  ∃ adds : List (Outgoing × List UInt8), (∀ a ∈ adds, serialized a.1.serialize = .ok a.2) ∧
    d.written = c.written ++ adds.map Prod.fst ∧
    d.sendBuffers = c.sendBuffers ++ List.range' c.written.length adds.length ∧
    d.wire = (adds.map Prod.snd).foldl Wire.submit c.wire

theorem Added.of_eq (hwritten : d.written = c.written) (hbuffers : d.sendBuffers = c.sendBuffers)
    (hwire : d.wire = c.wire) : c.Added d := by
  refine ⟨[], fun _ ha => absurd ha List.not_mem_nil, ?_, ?_, hwire⟩
  · rw [hwritten, List.map_nil, List.append_nil]
  · rw [hbuffers, List.length_nil, List.range'_zero, List.append_nil]

theorem Added.trans (h : c.Added d) (h' : d.Added e) : c.Added e := by
  obtain ⟨adds, hadds, hwritten, hbuffers, hwire⟩ := h
  obtain ⟨adds', hadds', hwritten', hbuffers', hwire'⟩ := h'
  refine ⟨adds ++ adds', fun a ha => ?_, ?_, ?_, ?_⟩
  · exact (List.mem_append.1 ha).elim (hadds a) (hadds' a)
  · rw [hwritten', hwritten, List.map_append, List.append_assoc]
  · rw [hbuffers', hbuffers, hwritten, List.append_assoc, List.length_append, List.length_append,
      List.length_map, List.range'_append_1]
  · rw [hwire', hwire, List.map_append, List.foldl_append]

theorem added_send {msg : Outgoing} (h : c.send msg = .ok d) : c.Added d := by
  unfold send at h
  split_ifs at h
  · cases h
    exact .of_eq rfl rfl rfl
  · obtain ⟨buf, hbuf, h⟩ := bind_eq_ok.1 h
    cases h
    refine ⟨[(msg, buf)], fun a ha => ?_, rfl, rfl, rfl⟩
    rw [List.mem_singleton.1 ha]
    exact hbuf

theorem added_sendAll {c : Connection} {msgs : List Outgoing} (h : c.sendAll msgs = .ok d) :
    c.Added d := by
  induction msgs generalizing c with
  | nil =>
    cases h
    exact .of_eq rfl rfl rfl
  | cons msg msgs ih =>
    rw [sendAll, List.foldlM_cons] at h
    obtain ⟨e, he, h⟩ := bind_eq_ok.1 h
    exact (added_send he).trans (ih h)

theorem added_handshakeComplete (h : c.handshakeComplete = .ok d) : c.Added d := by
  obtain ⟨e, he, h⟩ := bind_eq_ok.1 h
  cases h
  have hadded := added_sendAll he
  exact hadded

theorem added_handshakeRestRead {pstrlen : UInt8} {recvBuffer : List UInt8}
    (h : c.handshakeRestRead pstrlen recvBuffer = .ok d) : c.Added d := by
  obtain ⟨handshake, t, -, h⟩ := handshakeRestRead_eq_ok h
  split_ifs at h with hinfo
  · exact h ▸ .of_eq rfl rfl rfl
  · dsimp only at h
    split_ifs at h with hc
    · have hadded := added_handshakeComplete h
      exact hadded
    · cases h
      exact .of_eq rfl rfl rfl

theorem added_receiving {r : Except Fault PeerConnection} (h : c.receiving r = .ok d) : c.Added d := by
  obtain ⟨p, -, h⟩ := bind_eq_ok.1 h
  cases h
  exact .of_eq rfl rfl rfl

theorem added_readDone {recvBuffer : List UInt8} {sends : List Message}
    (h : c.readDone recvBuffer sends = .ok d) : c.Added d := by
  unfold readDone at h
  split_ifs at h
  split at h
  · exact added_receiving h
  · exact added_handshakeRestRead h
  · exact added_receiving h
  · obtain ⟨e, he, h⟩ := bind_eq_ok.1 h
    exact (added_receiving he).trans (added_sendAll h)
  · cases h

theorem added_writeDone {i : ℕ} {sends : List Message} (h : c.writeDone i sends = .ok d) :
    i ∈ c.sendBuffers ∧ Added { c with sendBuffers := c.sendBuffers.erase i } d := by
  obtain ⟨hi, ⟨hs, -, -, h⟩ | ⟨m, -, h⟩⟩ := writeDone_eq_ok h
  · refine ⟨hi, ?_⟩
    unfold handshakeSent at h
    dsimp only at h
    split_ifs at h with hc
    · have hadded := added_handshakeComplete h
      exact hadded
    · cases h
      exact .of_eq rfl rfl rfl
  · exact ⟨hi, added_sendAll h⟩

/-- A step moves a part of a buffer, or it hands messages over, maybe after the end of a write. -/
theorem added_step {ev : ConnectionEvent} (h : c.step ev = .ok d) :
    (∃ i n w, ev = .transfer i n ∧ c.wire.transfer i n = some w ∧ d = { c with wire := w }) ∨
      (∃ i sends, ev = .written i sends ∧ i ∈ c.sendBuffers ∧
        Added { c with sendBuffers := c.sendBuffers.erase i } d) ∨
      (∀ i n, ev ≠ .transfer i n) ∧ (∀ i sends, ev ≠ .written i sends) ∧ c.Added d := by
  cases ev with
  | start =>
    unfold step at h
    split_ifs at h
    obtain ⟨e, he, h⟩ := bind_eq_ok.1 h
    cases h
    have hadded := added_send he
    exact .inr (.inr ⟨nofun, nofun, hadded⟩)
  | send m => exact .inr (.inr ⟨nofun, nofun, added_send h⟩)
  | transfer i n =>
    unfold step at h
    cases hw : c.wire.transfer i n with
    | none => simp [hw] at h
    | some w =>
      simp only [hw] at h
      exact .inl ⟨i, n, w, rfl, hw, (Except.ok.inj h).symm⟩
  | written i sends => exact .inr (.inl ⟨i, sends, rfl, added_writeDone h⟩)
  | read recvBuffer sends => exact .inr (.inr ⟨nofun, nofun, added_readDone h⟩)

/-! ### The stream of a connection -/

/-- The socket serves the writes in the order in which they were submitted. -/
def InOrder (c : Connection) : ConnectionEvent → Prop
  | .transfer i _ => c.wire.First i
  | _ => True

instance (c : Connection) : ∀ ev, Decidable (c.InOrder ev)
  | .transfer i _ => inferInstanceAs (Decidable (c.wire.First i))
  | .start => inferInstanceAs (Decidable True)
  | .send _ => inferInstanceAs (Decidable True)
  | .written _ _ => inferInstanceAs (Decidable True)
  | .read _ _ => inferInstanceAs (Decidable True)

/-- The writes are the bytes of what has been handed over, and are served in order. -/
structure InLine (c : Connection) : Prop where
  bytes : List.Forall₂ (fun msg buf => serialized msg.serialize = .ok buf) c.written
    (c.wire.jobs.map Job.buffer)
  ordered : c.wire.Ordered

theorem inLine_created (infoHash : Hash) (peerId : Vector UInt8 20) (stale : UInt8 → UInt8) :
    (created infoHash peerId stale).InLine :=
  ⟨.nil, Wire.ordered_empty⟩

theorem map_buffer_foldl_submit (w : Wire UInt8) (bufs : List (List UInt8)) :
    (bufs.foldl Wire.submit w).jobs.map Job.buffer = w.jobs.map Job.buffer ++ bufs := by
  induction bufs generalizing w with
  | nil => rw [List.foldl_nil, List.append_nil]
  | cons buf bufs ih =>
    rw [List.foldl_cons, ih, Wire.submit, List.map_append, List.append_assoc]
    rfl

theorem InLine.added (h : c.InLine) (hadd : c.Added d) : d.InLine := by
  obtain ⟨adds, hadds, hwritten, -, hwire⟩ := hadd
  refine ⟨?_, ?_⟩
  · rw [hwritten, hwire, map_buffer_foldl_submit]
    refine List.rel_append h.bytes ?_
    rw [List.forall₂_map_left_iff, List.forall₂_map_right_iff, List.forall₂_same]
    exact hadds
  · rw [hwire]
    exact h.ordered.foldl_submit _

theorem InLine.step (h : c.InLine) {ev : ConnectionEvent} (hs : c.step ev = .ok d)
    (horder : c.InOrder ev) : d.InLine := by
  obtain ⟨i, n, w, rfl, hw, rfl⟩ | ⟨i, sends, rfl, -, hadd⟩ | ⟨-, -, hadd⟩ := added_step hs
  · refine ⟨?_, h.ordered.transfer hw horder⟩
    obtain ⟨j, hj, -, -, rfl⟩ := Wire.transfer_eq_some.1 hw
    show List.Forall₂ _ c.written ((c.wire.jobs.set i (j.advance n)).map Job.buffer)
    rw [map_set_eq hj (j.buffer_advance n)]
    exact h.bytes
  · exact InLine.added (c := { c with sendBuffers := c.sendBuffers.erase i }) ⟨h.bytes, h.ordered⟩ hadd
  · exact h.added hadd

/-- The buffers are the frames. -/
theorem InLine.flatMap_buffer (h : c.InLine) (hfit : ∀ msg ∈ c.written, msg.Fits) :
    c.wire.jobs.flatMap Job.buffer = c.written.flatMap Outgoing.frame := by
  have hframes : List.Forall₂ (· = ·) (c.written.map Outgoing.frame) (c.wire.jobs.map Job.buffer) := by
    refine List.forall₂_map_left_iff.2 (((List.forall₂_and_left _ _).2 ⟨hfit, h.bytes⟩).imp ?_)
    rintro msg buf ⟨hmsg, hser⟩
    exact Except.ok.inj ((msg.serialized_eq hmsg).symm.trans hser)
  rw [List.forall₂_eq_eq_eq] at hframes
  rw [List.flatMap_def, ← hframes, List.flatMap_def]

/-- The stream is a beginning of the frames. -/
theorem InLine.out_prefix (h : c.InLine) (hfit : ∀ msg ∈ c.written, msg.Fits) :
    c.wire.out <+: c.written.flatMap Outgoing.frame := by
  rw [← h.flatMap_buffer hfit]
  exact h.ordered.prefix

end Connection

/-! ### What a connection has heard -/

theorem eq_of_prefix_append {α : Type} {a b c : List α} (h : a <+: b ++ c)
    (hlen : a.length = b.length) : a = b :=
  (List.prefix_of_prefix_length_le h (List.prefix_append b c) hlen.le).eq_of_length hlen

/-- Only a keep-alive has no length. -/
theorem Message.eq_keepAlive (m : Message) (h : m.frame.length < 2 ^ 28) (hzero : m.object.len = 0) :
    m = .keepAlive := by
  by_contra hm
  have hlen := m.len_toNat h
  rw [hzero, Message.body, if_neg hm] at hlen
  cases hlen

namespace PeerConnection

/-- What a connection has made of the bytes `taken` of a stream that consists of the handshake `hs` and
the messages `said`. -/
def Heard (hs : Handshake) (said : List Message) (taken : List UInt8) (c : PeerConnection) : Prop :=
  match c.pending with
  | .nothing => c.handled = [] ∧ (taken = [] ∧ c.handshakeState.recieved = false ∨
      taken = hs.frame ∧ (c.infoHash = hs.infoHash → c.handshakeState.recieved = true))
  | .handshakeLength => c.handled = [] ∧ taken = []
  | .handshakeRest pstrlen => c.handled = [] ∧ taken = [pstrlen] ∧ pstrlen = .ofNat hs.pstr.length
  | .messageLength => ∃ ms, ms <+: said ∧ c.handled = ms.flatMap Message.handledAs ∧
      taken = hs.frame ++ ms.flatMap Message.frame
  | .messageBody len lenBytes _ => ∃ ms m, ms ++ [m] <+: said ∧
      c.handled = ms.flatMap Message.handledAs ∧ len = m.object.len ∧ lenBytes = bigEndian len ∧
      taken = hs.frame ++ ms.flatMap Message.frame ++ bigEndian len

variable {hs : Handshake} {said said' : List Message} {taken recvBuffer : List UInt8} {c : PeerConnection}

/-- More may be said. -/
theorem Heard.mono (h : Heard hs said taken c) (hsaid : said <+: said') : Heard hs said' taken c := by
  unfold Heard at h ⊢
  cases hp : c.pending with
  | nothing | handshakeLength | handshakeRest =>
    rw [hp] at h
    exact h
  | messageLength =>
    rw [hp] at h
    obtain ⟨ms, hms, h⟩ := h
    exact ⟨ms, hms.trans hsaid, h⟩
  | messageBody =>
    rw [hp] at h
    obtain ⟨ms, m, hms, h⟩ := h
    exact ⟨ms, m, hms.trans hsaid, h⟩

/-- The messages that have been handled are a beginning of what has been said. -/
theorem Heard.handled (h : Heard hs said taken c) :
    ∃ ms, ms <+: said ∧ c.handled = ms.flatMap Message.handledAs := by
  unfold Heard at h
  cases hp : c.pending with
  | nothing | handshakeLength | handshakeRest =>
    rw [hp] at h
    exact ⟨[], List.nil_prefix, h.1⟩
  | messageLength =>
    rw [hp] at h
    obtain ⟨ms, hms, hhandled, -⟩ := h
    exact ⟨ms, hms, hhandled⟩
  | messageBody =>
    rw [hp] at h
    obtain ⟨ms, m, hms, hhandled, -⟩ := h
    exact ⟨ms, (List.prefix_append ms [m]).trans hms, hhandled⟩

/-- The handshake is read to its end. -/
theorem Heard.handshakeRest (h : Heard hs said taken c) {pstrlen : UInt8}
    (hp : c.pending = .handshakeRest pstrlen) (hfound : c.stale pstrlen = pstrlen)
    (hpstr : hs.pstr.length ≤ 255)
    (hlen : c.pending.bytes = some recvBuffer.length)
    (hpre : taken ++ recvBuffer <+: hs.frame ++ said.flatMap Message.frame) :
    ∃ d, c.readDone recvBuffer = .ok d ∧ Heard hs said (taken ++ recvBuffer) d := by
  unfold Heard at h
  rw [hp] at h hlen
  obtain ⟨hhandled, rfl, rfl⟩ := h
  have hbody : recvBuffer = hs.body := by
    rw [Handshake.frame, List.cons_append, List.cons_append, List.cons_prefix_cons] at hpre
    refine eq_of_prefix_append hpre.2 ?_
    have hnum : (UInt8.ofNat hs.pstr.length).toNat = hs.pstr.length :=
      UInt8.toNat_ofNat_of_lt' (by show _ < 2 ^ 8; omega)
    rw [Pending.bytes, hnum] at hlen
    rw [hs.body_length, ← Option.some.inj hlen]
  subst hbody
  obtain ⟨t, ht⟩ := reads_all (Handshake.reads_frame hpstr)
    (by rw [Handshake.frame, List.length_cons, hs.body_length]; omega)
  have hread : c.readDone hs.body = c.handshakeRestRead (.ofNat hs.pstr.length) hs.body := by
    rw [readDone, hp]
  rw [hread, handshakeRestRead, hfound, ← Handshake.frame, ht]
  by_cases hinfo : c.infoHash ≠ hs.infoHash
  · refine ⟨_, if_pos hinfo, hhandled, .inr ⟨rfl, fun heq => absurd heq hinfo⟩⟩
  · refine ⟨_, if_neg hinfo, ?_⟩
    dsimp only
    split_ifs
    · refine ⟨[], List.nil_prefix, hhandled, ?_⟩
      rw [List.flatMap_nil, List.append_nil]
      rfl
    · exact ⟨hhandled, .inr ⟨rfl, fun _ => rfl⟩⟩

/-- A length is read: that of the next message. -/
theorem Heard.messageLength (h : Heard hs said taken c) (hp : c.pending = .messageLength)
    (hfit : ∀ m ∈ said, m.frame.length < 2 ^ 28)
    (hlen : c.pending.bytes = some recvBuffer.length)
    (hpre : taken ++ recvBuffer <+: hs.frame ++ said.flatMap Message.frame) :
    ∃ d, c.readDone recvBuffer = .ok d ∧ Heard hs said (taken ++ recvBuffer) d := by
  unfold Heard at h
  rw [hp] at h hlen
  obtain ⟨ms, ⟨rest, rfl⟩, hhandled, rfl⟩ := h
  have hfour : recvBuffer.length = 4 := (Option.some.inj hlen).symm
  rw [List.flatMap_append, List.append_assoc, List.prefix_append_right_inj,
    List.prefix_append_right_inj] at hpre
  cases rest with
  | nil =>
    rw [List.flatMap_nil, List.prefix_nil] at hpre
    rw [hpre] at hfour
    cases hfour
  | cons m rest =>
    have hnum : recvBuffer = bigEndian m.object.len := by
      rw [List.flatMap_cons, Message.frame, List.append_assoc] at hpre
      exact eq_of_prefix_append hpre (by rw [bigEndian_length, hfour])
    subst hnum
    have hread : c.readDone (bigEndian m.object.len) = c.messageLengthRead (bigEndian m.object.len) := by
      rw [readDone, hp]
    rw [hread, messageLengthRead_bigEndian]
    refine ⟨_, rfl, ?_⟩
    split_ifs with hzero
    · exact ⟨ms, m, ⟨rest, (List.append_cons ms m rest).symm⟩, hhandled, rfl, rfl, rfl⟩
    · have hm : m = .keepAlive :=
        m.eq_keepAlive (hfit m (List.mem_append_right ms List.mem_cons_self)) (not_not.1 hzero)
      subst hm
      refine ⟨ms ++ [.keepAlive], ⟨rest, (List.append_cons ms _ rest).symm⟩, ?_, ?_⟩
      · rw [List.flatMap_append, List.flatMap_singleton, Message.handledAs, if_pos rfl, List.append_nil]
        exact hhandled
      · rw [List.flatMap_append, List.flatMap_singleton, List.append_assoc]
        rfl

/-- The rest of the message is read, and the message is handled. -/
theorem Heard.messageBody (h : Heard hs said taken c) {len : UInt32} {lenBytes : List UInt8}
    {nonzero : len ≠ 0} (hp : c.pending = .messageBody len lenBytes nonzero)
    (hfit : ∀ m ∈ said, m.frame.length < 2 ^ 28)
    (hlen : c.pending.bytes = some recvBuffer.length)
    (hpre : taken ++ recvBuffer <+: hs.frame ++ said.flatMap Message.frame) :
    ∃ d, c.readDone recvBuffer = .ok d ∧ Heard hs said (taken ++ recvBuffer) d := by
  unfold Heard at h
  rw [hp] at h hlen
  obtain ⟨ms, m, ⟨rest, rfl⟩, hhandled, rfl, rfl, rfl⟩ := h
  have hm := hfit m (by simp)
  have hne : m ≠ .keepAlive := by
    rintro rfl
    exact nonzero rfl
  have hbody : recvBuffer = m.body := by
    rw [List.flatMap_append, List.flatMap_append, List.flatMap_singleton, Message.frame] at hpre
    simp only [List.append_assoc, List.prefix_append_right_inj] at hpre
    exact eq_of_prefix_append hpre ((Option.some.inj hlen).symm.trans (m.len_toNat hm))
  subst hbody
  have hread : c.readDone m.body = c.messageBodyRead m.object.len (bigEndian m.object.len) m.body := by
    rw [readDone, hp]
  rw [hread, messageBodyRead_frame c hm hne]
  refine ⟨_, rfl, ms ++ [m], List.prefix_append _ _, ?_, ?_⟩
  · show c.handled ++ [some m.padded.object] = _
    rw [List.flatMap_append, List.flatMap_singleton, Message.handledAs, if_neg hne, hhandled]
  · rw [List.flatMap_append, List.flatMap_singleton, Message.frame]
    simp only [List.append_assoc]

/-- A read of the next bytes of the stream does not fail. -/
theorem Heard.read (h : Heard hs said taken c) (hfound : ∀ b, c.stale b = b)
    (hpstr : hs.pstr.length ≤ 255)
    (hfit : ∀ m ∈ said, m.frame.length < 2 ^ 28) (hlen : c.pending.bytes = some recvBuffer.length)
    (hpre : taken ++ recvBuffer <+: hs.frame ++ said.flatMap Message.frame) :
    ∃ d, c.readDone recvBuffer = .ok d ∧ Heard hs said (taken ++ recvBuffer) d := by
  cases hp : c.pending with
  | nothing =>
    rw [hp] at hlen
    cases hlen
  | handshakeLength =>
    unfold Heard at h
    rw [hp] at h hlen
    obtain ⟨hhandled, rfl⟩ := h
    have hone : recvBuffer.length = 1 := (Option.some.inj hlen).symm
    obtain ⟨b, rfl⟩ := List.length_eq_one_iff.1 hone
    rw [Handshake.frame, List.nil_append, List.cons_append, List.cons_prefix_cons] at hpre
    have hread : c.readDone [b] = c.handshakeLengthRead [b] := by
      rw [readDone, hp]
    rw [hread]
    exact ⟨_, rfl, hhandled, rfl, hpre.1⟩
  | handshakeRest pstrlen => exact h.handshakeRest hp (hfound pstrlen) hpstr hlen hpre
  | messageLength => exact h.messageLength hp hfit hlen hpre
  | messageBody len lenBytes nonzero => exact h.messageBody hp hfit hlen hpre

/-- A connection for the same torrent that can read no more of the stream waits for the end of its own
handshake, or has handled everything. -/
theorem Heard.exhausted (h : Heard hs said taken c) (hfit : ∀ m ∈ said, m.frame.length < 2 ^ 28)
    (hpstr : hs.pstr.length ≤ 255)
    (hend : ∀ recvBuffer : List UInt8, c.pending.bytes = some recvBuffer.length →
      ¬ taken ++ recvBuffer <+: hs.frame ++ said.flatMap Message.frame) :
    c.pending = .nothing ∨
      c.pending = .messageLength ∧ c.handled = said.flatMap Message.handledAs := by
  unfold Heard at h
  cases hp : c.pending with
  | nothing => exact .inl rfl
  | handshakeLength =>
    rw [hp] at h hend
    obtain ⟨-, rfl⟩ := h
    exact absurd (List.prefix_append [_] _) (hend [.ofNat hs.pstr.length] rfl)
  | handshakeRest pstrlen =>
    rw [hp] at h hend
    obtain ⟨-, rfl, rfl⟩ := h
    have hnum : (UInt8.ofNat hs.pstr.length).toNat = hs.pstr.length :=
      UInt8.toNat_ofNat_of_lt' (by show _ < 2 ^ 8; omega)
    refine absurd (List.prefix_append hs.frame _) (hend hs.body ?_)
    rw [Pending.bytes, hnum, hs.body_length]
  | messageLength =>
    rw [hp] at h hend
    obtain ⟨ms, ⟨rest, rfl⟩, hhandled, rfl⟩ := h
    cases rest with
    | nil =>
      rw [List.append_nil]
      exact .inr ⟨rfl, hhandled⟩
    | cons m rest =>
      refine absurd ?_ (hend (bigEndian m.object.len) (by rw [bigEndian_length]; rfl))
      refine ⟨m.body ++ rest.flatMap Message.frame, ?_⟩
      rw [List.flatMap_append, List.flatMap_cons, Message.frame]
      simp only [List.append_assoc]
  | messageBody len lenBytes nonzero =>
    rw [hp] at h hend
    obtain ⟨ms, m, ⟨rest, rfl⟩, hhandled, rfl, rfl, rfl⟩ := h
    refine absurd ?_ (hend m.body (congrArg some (m.len_toNat (hfit m (by simp)))))
    refine ⟨rest.flatMap Message.frame, ?_⟩
    rw [List.flatMap_append, List.flatMap_append, List.flatMap_singleton, Message.frame]
    simp only [List.append_assoc]

end PeerConnection

namespace Connection

open PeerConnection (Heard)

variable {hash : Hash} {id : Vector UInt8 20} {stale : UInt8 → UInt8} {h : History} {c d : Connection}
  {hs : Handshake} {said : List Message} {taken : List UInt8}

/-- The end of a write takes nothing off the stream; that of the handshake may start the loop. -/
theorem heard_writeDone (hg : Gated hash id stale h c) (hheard : Heard hs said taken c.toPeerConnection)
    {i : ℕ} {sends : List Message} (hd : c.writeDone i sends = .ok d) :
    Heard hs said taken d.toPeerConnection := by
  obtain ⟨hi, ⟨own, hw, -, hd⟩ | ⟨m, -, hd⟩⟩ := writeDone_eq_ok hd
  · obtain rfl := hg.written_handshake hw
    have hsent : c.handshakeState.sent = false := by
      by_contra hsent
      exact (hg.unsent (Bool.not_eq_false _ ▸ hsent)).2 hi
    have hc : c.handshakeState.complete = false := by
      rw [HandshakeState.complete, hsent, Bool.false_and]
    unfold handshakeSent at hd
    dsimp only at hd
    split_ifs at hd with hcomplete
    · have hrec : c.handshakeState.recieved = true := by
        rw [HandshakeState.complete, Bool.true_and] at hcomplete
        exact hcomplete
      rw [(handed_handshakeComplete hcomplete hd).receiving]
      have htwo := hg.two_le_reads hrec
      have hreading := hg.reading
      rw [hc] at hreading
      unfold Heard at hheard
      cases hp : c.pending with
      | nothing =>
        rw [hp] at hheard
        obtain ⟨hhandled, ⟨-, hnot⟩ | ⟨rfl, -⟩⟩ := hheard
        · exact absurd (hrec.symm.trans hnot) (by decide)
        · refine ⟨[], List.nil_prefix, hhandled, ?_⟩
          rw [List.flatMap_nil, List.append_nil]
      | handshakeLength =>
        rw [hp] at hreading
        simp [hreading.2] at htwo
      | handshakeRest =>
        rw [hp] at hreading
        simp [hreading.2] at htwo
      | messageLength | messageBody =>
        rw [hp] at hreading
        exact absurd hreading.2 (by decide)
    · cases hd
      exact hheard
  · rwa [sendMessages_toPeerConnection hd]

/-- `start` does not fail. -/
theorem start_ok (c : Connection) : ∃ d, c.start = .ok d := by
  have hser : serialized (ownHandshake c.infoHash c.peerId).serialize =
      .ok (ownHandshake c.infoHash c.peerId).frame :=
    Outgoing.serialized_eq (show protocolName.length ≤ 255 by decide)
  have hsend : ∃ e, c.send (ownHandshake c.infoHash c.peerId) = .ok e := by
    unfold send
    rw [hser]
    split_ifs
    · exact ⟨_, rfl⟩
    · exact ⟨_, rfl⟩
  obtain ⟨e, he⟩ := hsend
  exact ⟨_, bind_eq_ok.2 ⟨e, he, rfl⟩⟩

/-- The handler of a read that sends nothing fails only if reading does. -/
theorem readDone_ok {recvBuffer : List UInt8} {p : PeerConnection}
    (hlen : c.pending.bytes = some recvBuffer.length)
    (hp : c.toPeerConnection.readDone recvBuffer = .ok p)
    (hfit : ∀ pstrlen, c.pending = .handshakeRest pstrlen → ∀ msg ∈ c.pendingSendMsgs, msg.Fits) :
    ∃ d, c.readDone recvBuffer [] = .ok d := by
  have hreceiving : ∀ {r : Except Fault PeerConnection}, r = .ok p → ∃ d, c.receiving r = .ok d := by
    rintro _ rfl
    exact ⟨_, rfl⟩
  unfold PeerConnection.readDone at hp
  unfold readDone
  rw [if_pos hlen]
  cases hpending : c.pending with
  | nothing =>
    rw [hpending] at hp
    cases hp
  | handshakeLength =>
    rw [hpending] at hp
    exact hreceiving hp
  | handshakeRest pstrlen =>
    rw [hpending] at hp
    obtain ⟨⟨handshake, t⟩, hdes, -⟩ := bind_eq_ok.1 hp
    dsimp only
    rw [handshakeRestRead, hdes]
    by_cases hinfo : c.infoHash ≠ handshake.infoHash
    · exact ⟨_, if_pos hinfo⟩
    · let c' : Connection := { c with
        handshakeState := { c.handshakeState with recieved := true }, pending := .nothing }
      obtain ⟨e, he⟩ := sendAll_ok (c := c') (hfit pstrlen hpending)
      have hcomplete : c'.handshakeComplete = .ok { e with
          toPeerConnection := e.toPeerConnection.recieveMessage, loops := e.loops + 1 } :=
        bind_eq_ok.2 ⟨e, he, rfl⟩
      by_cases hc : c'.handshakeState.complete = true
      · exact ⟨_, (if_neg hinfo).trans ((if_pos hc).trans hcomplete)⟩
      · exact ⟨_, (if_neg hinfo).trans (if_neg hc)⟩
  | messageLength =>
    rw [hpending] at hp
    exact hreceiving hp
  | messageBody len lenBytes nonzero =>
    rw [hpending] at hp
    obtain ⟨d, hd⟩ := hreceiving hp
    exact ⟨d, bind_eq_ok.2 ⟨d, hd, rfl⟩⟩

/-- The handler of a finished write fails only if something that waits cannot be written. -/
theorem writeDone_ok {i : ℕ} (hi : i ∈ c.sendBuffers) (hfin : c.wire.finished i = true)
    (hlt : i < c.written.length)
    (hfit : ∀ own, c.written[i]? = some (.handshake own) → ∀ msg ∈ c.pendingSendMsgs, msg.Fits) :
    ∃ d, c.writeDone i [] = .ok d := by
  unfold writeDone
  rw [if_pos ⟨hi, hfin⟩]
  dsimp only
  rw [List.getElem?_eq_getElem hlt] at hfit ⊢
  cases hw : c.written[i] with
  | message m => exact ⟨_, rfl⟩
  | handshake own =>
    let c' : Connection := { c with
      sendBuffers := c.sendBuffers.erase i
      handshakeState := { c.handshakeState with sent := true } }
    obtain ⟨e, he⟩ := sendAll_ok (c := c') (hfit own (congrArg some hw))
    have hcomplete : c'.handshakeComplete = .ok { e with
        toPeerConnection := e.toPeerConnection.recieveMessage, loops := e.loops + 1 } :=
      bind_eq_ok.2 ⟨e, he, rfl⟩
    by_cases hc : c'.handshakeState.complete = true
    · exact ⟨_, (if_pos hc).trans hcomplete⟩
    · exact ⟨_, if_neg hc⟩

end Connection

end FTorrent
