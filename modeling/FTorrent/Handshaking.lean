import FTorrent.Connection

/-!
# The handshakes come first

Nothing but the own handshake is handed to `async_write`, and no message is handled, until the own
handshake is out and an equal one has come in.  From then on everything that was ever passed to `send`
has been handed over, in order (`handshakes_first`).
-/

namespace FTorrent

open Lib

/-! ### The history of a connection -/

/-- What has happened to a connection. -/
structure History where
  started : Bool := false
  handshakeWritten : Bool := false
  reads : List (List UInt8) := []
  passed : List Message := []

namespace History

/-- The own handshake is the first write. -/
def add (h : History) : ConnectionEvent → History
  | .start => { h with started := true }
  | .send m => { h with passed := h.passed ++ [m] }
  | .transfer _ _ => h
  | .written i sends => { h with
      handshakeWritten := h.handshakeWritten || decide (i = 0)
      passed := h.passed ++ sends }
  | .read recvBuffer sends => { h with
      reads := h.reads ++ [recvBuffer]
      passed := h.passed ++ sends }

def ofEvents (es : List ConnectionEvent) : History := es.foldl add {}

/-- The handshake of the other side: the bytes of the first two reads. -/
def handshakeRead (h : History) : Option Handshake :=
  match h.reads with
  | first :: second :: _ =>
    match deserializeHandshake ⟨first ++ second, 0⟩ with
    | .ok (handshake, _) => some handshake
    | .error _ => none
  | _ => none

/-- What the inner handler of `recieve_handshake` makes of these bytes. -/
def handshakeFound (h : History) (stale : UInt8 → UInt8) : Option Handshake :=
  match h.reads with
  | first :: second :: _ =>
    match deserializeHandshake ⟨first.map stale ++ second, 0⟩ with
    | .ok (handshake, _) => some handshake
    | .error _ => none
  | _ => none

/-- The own handshake is out, and one for the same torrent has come in. -/
def Complete (h : History) (infoHash : Hash) : Prop :=
  h.handshakeWritten = true ∧ h.handshakeRead.map Handshake.infoHash = some infoHash

instance (h : History) (infoHash : Hash) : Decidable (h.Complete infoHash) :=
  inferInstanceAs (Decidable (_ ∧ _))

variable {h : History} {infoHash : Hash} {stale : UInt8 → UInt8}

theorem ofEvents_append_singleton (es : List ConnectionEvent) (e : ConnectionEvent) :
    ofEvents (es ++ [e]) = (ofEvents es).add e := by
  rw [ofEvents, List.foldl_append]
  rfl

/-- What is made of the handshake stays the same. -/
theorem handshakeFound_append {reads : List (List UInt8)} (hr : 2 ≤ h.reads.length) :
    { h with reads := h.reads ++ reads }.handshakeFound stale = h.handshakeFound stale := by
  rcases hreads : h.reads with _ | ⟨a, _ | ⟨b, rest⟩⟩
  · simp [hreads] at hr
  · simp [hreads] at hr
  · unfold handshakeFound
    rw [hreads]
    rfl

theorem handshakeFound_of_length (hr : h.reads.length < 2) : h.handshakeFound stale = none := by
  rcases hreads : h.reads with _ | ⟨a, _ | ⟨b, rest⟩⟩
  · rw [handshakeFound, hreads]
  · rw [handshakeFound, hreads]
  · simp [hreads] at hr

/-- It is the handshake that has come in if the first read is found as it was. -/
theorem handshakeFound_eq (hfirst : ∀ first second rest, h.reads = first :: second :: rest →
    first.map stale = first) : h.handshakeFound stale = h.handshakeRead := by
  rcases hreads : h.reads with _ | ⟨a, _ | ⟨b, rest⟩⟩
  · rw [handshakeFound, hreads, handshakeRead, hreads]
  · rw [handshakeFound, hreads, handshakeRead, hreads]
  · rw [handshakeFound, hreads, handshakeRead, hreads]
    dsimp only
    rw [hfirst a b rest hreads]

end History

namespace Connection

/-! ### The invariant -/

/-- How far the reading has come. -/
def Reading (h : History) (complete : Bool) : Pending → Prop
  | .nothing =>
    if h.started then 2 ≤ h.reads.length ∧ complete = false else h.reads = []
  | .handshakeLength => h.started = true ∧ h.reads = []
  | .handshakeRest pstrlen => h.started = true ∧ h.reads = [[pstrlen]]
  | .messageLength | .messageBody .. => 2 ≤ h.reads.length ∧ complete = true

/-- A connection after the events of a history. -/
structure Gated (hash : Hash) (id : Vector UInt8 20) (stale : UInt8 → UInt8) (h : History)
    (c : Connection) : Prop where
  infoHash : c.infoHash = hash
  peerId : c.peerId = id
  found : c.stale = stale
  sent : c.handshakeState.sent = h.handshakeWritten
  recieved : c.handshakeState.recieved = true ↔
    (h.handshakeFound stale).map Handshake.infoHash = some hash
  reading : Reading h c.handshakeState.complete c.pending
  unsent : c.handshakeState.sent = true → c.written ≠ [] ∧ 0 ∉ c.sendBuffers
  nodup : c.sendBuffers.Nodup
  bound : ∀ i ∈ c.sendBuffers, i < c.written.length
  waiting : c.handshakeState.complete = false →
    c.written = (if h.started then [ownHandshake hash id] else []) ∧
      c.pendingSendMsgs = h.passed.map .message ∧ c.handled = [] ∧ c.loops = 0
  complete : c.handshakeState.complete = true →
    c.written = ownHandshake hash id :: h.passed.map .message ∧ c.loops = 1

variable {hash : Hash} {id : Vector UInt8 20} {stale : UInt8 → UInt8} {h : History} {c d : Connection}

theorem gated_created : Gated hash id stale {} (created hash id stale) where
  infoHash := rfl
  peerId := rfl
  found := rfl
  sent := rfl
  recieved := by simp [created, History.handshakeFound]
  reading := rfl
  unsent h := by cases h
  nodup := .nil
  bound _ hi := absurd hi List.not_mem_nil
  waiting _ := ⟨rfl, rfl, rfl, rfl⟩
  complete h := by cases h

/-- The buffers after messages have been handed over. -/
theorem Handed.buffers_spec {msgs : List Outgoing} (hh : c.Handed msgs d)
    (hnodup : c.sendBuffers.Nodup) (hbound : ∀ i ∈ c.sendBuffers, i < c.written.length) :
    d.sendBuffers.Nodup ∧ (∀ i ∈ d.sendBuffers, i < d.written.length) ∧
      (c.written ≠ [] → 0 ∉ c.sendBuffers → 0 ∉ d.sendBuffers) := by
  rw [hh.buffers, hh.written]
  refine ⟨?_, ?_, ?_⟩
  · refine List.nodup_append.2 ⟨hnodup, List.nodup_range', fun i hi j hj => ?_⟩
    have := hbound i hi
    have := (List.mem_range'_1.1 hj).1
    omega
  · intro i hi
    rw [List.length_append]
    rcases List.mem_append.1 hi with hi | hi
    · have := hbound i hi
      omega
    · exact (List.mem_range'_1.1 hi).2
  · intro hne h0 hi
    have := List.length_pos_iff.2 hne
    rcases List.mem_append.1 hi with hi | hi
    · exact h0 hi
    · have := (List.mem_range'_1.1 hi).1
      omega

/-- Messages that are handed over after the handshakes. -/
theorem Gated.handed (hg : Gated hash id stale h c) (hc : c.handshakeState.complete = true)
    {ms : List Message} (hh : c.Handed (ms.map .message) d) :
    Gated hash id stale { h with passed := h.passed ++ ms } d := by
  obtain ⟨hnodup, hbound, hunsent⟩ := hh.buffers_spec hg.nodup hg.bound
  obtain ⟨hw, hl⟩ := hg.complete hc
  have hreading := hg.reading
  have hrecieved := hg.recieved
  have hun := hg.unsent
  have hcd : d.handshakeState.complete = true := by rw [hh.receiving, hc]
  refine ⟨?_, ?_, ?_, ?_, ?_, ?_, ?_, hnodup, hbound, fun h => ?_, fun _ => ⟨?_, ?_⟩⟩
  · rw [hh.receiving, hg.infoHash]
  · rw [hh.peerId, hg.peerId]
  · rw [hh.receiving, hg.found]
  · rw [hh.receiving, hg.sent]
  · rw [hh.receiving]
    exact hrecieved
  · rw [hh.receiving]
    exact hreading
  · rw [hh.receiving, hh.written]
    intro h
    exact ⟨List.append_ne_nil_of_left_ne_nil (hun h).1 _, hunsent (hun h).1 (hun h).2⟩
  · exact absurd (hcd.symm.trans h) (by decide)
  · rw [hh.written, hw, List.map_append, List.cons_append]
  · rw [hh.loops, hl]

/-- Messages that are passed to `send` wait or are handed over. -/
theorem Gated.sendMessages (hg : Gated hash id stale h c) {ms : List Message}
    (hs : c.sendMessages ms = .ok d) : Gated hash id stale { h with passed := h.passed ++ ms } d := by
  cases hc : c.handshakeState.complete with
  | true => exact hg.handed hc (handed_sendAll hc hs)
  | false =>
    rw [sendMessages_eq hc] at hs
    cases hs
    obtain ⟨hw, hp, hh, hl⟩ := hg.waiting hc
    refine { hg with waiting := fun _ => ⟨hw, ?_, hh, hl⟩, complete := fun h => ?_ }
    · rw [hp, List.map_append]
    · exact absurd (hc.symm.trans h) (by decide)

theorem Gated.two_le_reads (hg : Gated hash id stale h c) (hr : c.handshakeState.recieved = true) :
    2 ≤ h.reads.length := by
  by_contra hlt
  have := hg.recieved.1 hr
  rw [History.handshakeFound_of_length (by omega)] at this
  cases this

/-- Both handshakes are there, and nothing has been handed over since. -/
theorem Gated.handshakeComplete {hw : Bool} {reads : List (List UInt8)}
    (hg : Gated hash id stale { h with handshakeWritten := hw, reads := reads, passed := [] }
      { c with toPeerConnection := c.toPeerConnection.recieveMessage, loops := c.loops + 1 })
    (hc : c.handshakeState.complete = true) (hp : c.pendingSendMsgs = h.passed.map .message)
    (hs : c.handshakeComplete = .ok d) :
    Gated hash id stale { h with handshakeWritten := hw, reads := reads } d := by
  apply hg.handed hc
  rw [← hp]
  exact handed_handshakeComplete hc hs

/-- Only the first write is a handshake. -/
theorem Gated.written_eq (hg : Gated hash id stale h c) :
    c.written = [] ∨ ∃ ms : List Message, c.written = ownHandshake hash id :: ms.map .message := by
  cases hc : c.handshakeState.complete with
  | true => exact .inr ⟨h.passed, (hg.complete hc).1⟩
  | false =>
    have hw := (hg.waiting hc).1
    by_cases hs : h.started = true
    · exact .inr ⟨[], by rw [hw, if_pos hs]; rfl⟩
    · exact .inl (by rw [hw, if_neg hs])

theorem Gated.written_handshake (hg : Gated hash id stale h c) {i : ℕ} {hs : Handshake}
    (hi : c.written[i]? = some (.handshake hs)) : i = 0 := by
  rcases hg.written_eq with hw | ⟨ms, hw⟩
  · simp [hw] at hi
  · cases i with
    | zero => rfl
    | succ i => simp [hw] at hi

theorem Gated.written_message (hg : Gated hash id stale h c) {i : ℕ} {m : Message}
    (hi : c.written[i]? = some (.message m)) : i ≠ 0 := by
  rintro rfl
  rcases hg.written_eq with hw | ⟨ms, hw⟩
  · simp [hw] at hi
  · simp [hw, ownHandshake] at hi

/-! ### The steps -/

theorem Gated.start (hg : Gated hash id stale h c) (hw : c.written = []) (hs : c.start = .ok d) :
    Gated hash id stale { h with started := true } d := by
  have hc : c.handshakeState.complete = false := by
    by_contra hc
    simpa [hw] using (hg.complete (Bool.not_eq_false _ ▸ hc)).1
  have hsent : c.handshakeState.sent = false := by
    by_contra hsent
    exact (hg.unsent (Bool.not_eq_false _ ▸ hsent)).1 hw
  obtain ⟨hwritten, hp, hh, hl⟩ := hg.waiting hc
  have hstarted : ¬ h.started = true := by
    intro hstarted
    simp [hw, hstarted] at hwritten
  have hnothing : h.reads = [] := by
    have := hg.reading
    cases hp : c.pending <;> simp [hp, Reading, hstarted, hc] at this
    exact this
  obtain ⟨e, he, hd⟩ := bind_eq_ok.1 hs
  cases hd
  have hhanded := handed_send (.inr rfl) he
  obtain ⟨hnodup, hbound, -⟩ := hhanded.buffers_spec hg.nodup hg.bound
  have hr := hhanded.receiving
  have hec : e.handshakeState.complete = false := by rw [hr, hc]
  refine ⟨?_, ?_, ?_, ?_, ?_, ⟨rfl, hnothing⟩, fun h => ?_, hnodup, hbound,
    fun _ => ⟨?_, ?_, ?_, ?_⟩, fun h => ?_⟩
  · show e.infoHash = hash
    rw [hr, hg.infoHash]
  · show e.peerId = id
    rw [hhanded.peerId, hg.peerId]
  · show e.stale = stale
    rw [hr, hg.found]
  · show e.handshakeState.sent = h.handshakeWritten
    rw [hr, hg.sent]
  · show e.handshakeState.recieved = true ↔ _
    rw [hr]
    exact hg.recieved
  · have : e.handshakeState.sent = true := h
    rw [hr, hsent] at this
    cases this
  · show e.written = _
    rw [hhanded.written, hw, if_pos rfl, hg.infoHash, hg.peerId, List.nil_append]
  · show e.pendingSendMsgs = _
    rw [hhanded.pending, hp]
  · show e.handled = []
    rw [hr, hh]
  · show e.loops = 0
    rw [hhanded.loops, hl]
  · exact absurd (hec.symm.trans h) (by decide)

/-- The own handshake is out. -/
theorem Gated.handshakeSent (hg : Gated hash id stale h c) {hs : Handshake} {i : ℕ}
    (hi : i ∈ c.sendBuffers) (hw : c.written[i]? = some (.handshake hs))
    (hd : { c with sendBuffers := c.sendBuffers.erase i }.handshakeSent = .ok d) :
    Gated hash id stale { h with handshakeWritten := true } d := by
  obtain rfl := hg.written_handshake hw
  have hsent : c.handshakeState.sent = false := by
    by_contra hsent
    exact (hg.unsent (Bool.not_eq_false _ ▸ hsent)).2 hi
  have hc : c.handshakeState.complete = false := by
    rw [HandshakeState.complete, hsent, Bool.false_and]
  obtain ⟨hwritten, hp, hh, hl⟩ := hg.waiting hc
  have hne : c.written ≠ [] := by
    rintro h
    simp [h] at hw
  have hstarted : h.started = true := by
    by_contra hs
    rw [if_neg hs] at hwritten
    exact hne hwritten
  have hnodup := hg.nodup.erase 0
  have hbound : ∀ i ∈ c.sendBuffers.erase 0, i < c.written.length :=
    fun i hi => hg.bound i (List.mem_of_mem_erase hi)
  have h0 : 0 ∉ c.sendBuffers.erase 0 := hg.nodup.not_mem_erase
  cases hr : c.handshakeState.recieved with
  | false =>
    have hcond : ¬ ({ c.handshakeState with sent := true } : HandshakeState).complete = true := by
      simp [HandshakeState.complete, hr]
    rw [Connection.handshakeSent, if_neg hcond] at hd
    cases hd
    refine ⟨hg.infoHash, hg.peerId, hg.found, rfl, hg.recieved, ?_, fun _ => ⟨hne, h0⟩, hnodup, hbound,
      fun _ => ⟨hwritten, hp, hh, hl⟩, fun h => absurd h hcond⟩
    have := hg.reading
    rw [hc] at this
    rw [Bool.not_eq_true] at hcond
    show Reading h ({ c.handshakeState with sent := true } : HandshakeState).complete c.pending
    rw [hcond]
    exact this
  | true =>
    have hcond : ({ c.handshakeState with sent := true } : HandshakeState).complete = true := by
      simp [HandshakeState.complete, hr]
    rw [Connection.handshakeSent, if_pos hcond] at hd
    let c' : Connection := { c with
      sendBuffers := c.sendBuffers.erase 0
      handshakeState := { c.handshakeState with sent := true } }
    refine Gated.handshakeComplete (c := c') ?_ hcond hp hd
    refine ⟨hg.infoHash, hg.peerId, hg.found, rfl, hg.recieved, ⟨hg.two_le_reads hr, hcond⟩,
      fun _ => ⟨hne, h0⟩, hnodup, hbound, fun h => absurd (hcond.symm.trans h) (by decide),
      fun _ => ⟨?_, ?_⟩⟩
    · show c.written = _
      rw [hwritten, if_pos hstarted]
      rfl
    · show c.loops + 1 = 1
      rw [hl]

theorem Gated.writeDone (hg : Gated hash id stale h c) {i : ℕ} {sends : List Message}
    (h' : c.writeDone i sends = .ok d) : Gated hash id stale (h.add (.written i sends)) d := by
  obtain ⟨hi, ⟨hs, hw, rfl, hd⟩ | ⟨m, hw, hd⟩⟩ := writeDone_eq_ok h'
  · have hg' := hg.handshakeSent hi hw hd
    obtain rfl := hg.written_handshake hw
    simpa [History.add] using hg'
  · have hi0 := hg.written_message hw
    have herase : Gated hash id stale h { c with sendBuffers := c.sendBuffers.erase i } :=
      { hg with
        unsent := fun h => ⟨(hg.unsent h).1, fun h0 => (hg.unsent h).2 (List.mem_of_mem_erase h0)⟩
        nodup := hg.nodup.erase i
        bound := fun i hi => hg.bound i (List.mem_of_mem_erase hi) }
    simpa [History.add, hi0] using herase.sendMessages hd

/-- A read after the handshakes. -/
theorem Gated.received (hg : Gated hash id stale h c) (hc : c.handshakeState.complete = true)
    (reads : List (List UInt8)) {p : PeerConnection} (hinfo : p.infoHash = c.infoHash)
    (hfound : p.stale = c.stale) (hstate : p.handshakeState = c.handshakeState)
    (hp : Reading { h with reads := h.reads ++ reads } true p.pending) :
    Gated hash id stale { h with reads := h.reads ++ reads } { c with toPeerConnection := p } := by
  have hpc : p.handshakeState.complete = true := by rw [hstate, hc]
  have hr : c.handshakeState.recieved = true := by
    rw [HandshakeState.complete, Bool.and_eq_true] at hc
    exact hc.2
  refine ⟨hinfo.trans hg.infoHash, hg.peerId, hfound.trans hg.found, ?_, ?_, ?_, ?_, hg.nodup, hg.bound,
    fun h => absurd (hpc.symm.trans h) (by decide), fun _ => hg.complete hc⟩
  · show p.handshakeState.sent = h.handshakeWritten
    rw [hstate, hg.sent]
  · show p.handshakeState.recieved = true ↔ _
    rw [hstate, History.handshakeFound_append (hg.two_le_reads hr)]
    exact hg.recieved
  · show Reading _ p.handshakeState.complete p.pending
    rw [hpc]
    exact hp
  · show p.handshakeState.sent = true → _
    rw [hstate]
    exact hg.unsent

theorem Gated.not_recieved (hg : Gated hash id stale h c) (hr : h.reads.length < 2) :
    c.handshakeState.recieved = false := by
  by_contra hrec
  have := hg.two_le_reads (Bool.not_eq_false _ ▸ hrec)
  omega

theorem Gated.handshakeLengthRead (hg : Gated hash id stale h c) (hp : c.pending = .handshakeLength)
    {recvBuffer : List UInt8} (hlen : recvBuffer.length = 1)
    (hd : c.receiving (c.toPeerConnection.handshakeLengthRead recvBuffer) = .ok d) :
    Gated hash id stale { h with reads := h.reads ++ [recvBuffer] } d := by
  obtain ⟨pstrlen, rfl⟩ := List.length_eq_one_iff.1 hlen
  have hreading := hg.reading
  rw [hp] at hreading
  obtain ⟨hstarted, hreads⟩ := hreading
  have hrec := hg.not_recieved (by simp [hreads])
  have hnone : History.handshakeFound { h with reads := h.reads ++ [[pstrlen]] } stale = none :=
    History.handshakeFound_of_length (by simp [hreads])
  cases hd
  refine { hg with recieved := ?_, reading := ⟨hstarted, by simp [hreads]⟩ }
  show c.handshakeState.recieved = true ↔ _
  rw [hnone, hrec]
  simp

theorem Gated.handshakeRestRead (hg : Gated hash id stale h c) {pstrlen : UInt8}
    (hp : c.pending = .handshakeRest pstrlen) {recvBuffer : List UInt8}
    (hd : c.handshakeRestRead pstrlen recvBuffer = .ok d) :
    Gated hash id stale { h with reads := h.reads ++ [recvBuffer] } d := by
  have hreading := hg.reading
  rw [hp] at hreading
  obtain ⟨hstarted, hreads⟩ := hreading
  have hrec := hg.not_recieved (by simp [hreads])
  have hc : c.handshakeState.complete = false := by
    rw [HandshakeState.complete, hrec, Bool.and_false]
  obtain ⟨hwritten, hpending, hh, hl⟩ := hg.waiting hc
  have htwo : 2 ≤ (h.reads ++ [recvBuffer]).length := by simp [hreads]
  obtain ⟨handshake, t, hdes, hd⟩ := handshakeRestRead_eq_ok hd
  have hread : History.handshakeFound { h with reads := h.reads ++ [recvBuffer] } stale =
      some handshake := by
    rw [hg.found] at hdes
    unfold History.handshakeFound
    simp only [hreads, List.singleton_append, List.map_singleton, hdes]
  by_cases hinfo : c.infoHash ≠ handshake.infoHash
  · rw [if_pos hinfo] at hd
    cases hd
    refine { hg with recieved := ?_, reading := ?_ }
    · show c.handshakeState.recieved = true ↔ _
      rw [hrec, hread]
      simpa [← hg.infoHash] using hinfo.symm
    · show (if h.started then _ else _)
      rw [if_pos hstarted]
      exact ⟨htwo, hc⟩
  · rw [if_neg hinfo] at hd
    have hmatch : (some handshake).map Handshake.infoHash = some hash := by
      rw [Option.map_some, ← not_not.1 hinfo, hg.infoHash]
    let c' : Connection := { c with
      handshakeState := { c.handshakeState with recieved := true }, pending := .nothing }
    have hrec' : c'.handshakeState.recieved = true ↔
        (History.handshakeFound { h with reads := h.reads ++ [recvBuffer] } stale).map
          Handshake.infoHash = some hash :=
      iff_of_true rfl (by rw [hread, hmatch])
    have hd' : (if c'.handshakeState.complete then c'.handshakeComplete else .ok c') = .ok d := hd
    by_cases hcomplete : c'.handshakeState.complete = true
    · rw [if_pos hcomplete] at hd'
      refine Gated.handshakeComplete (c := c') ?_ hcomplete hpending hd'
      refine ⟨hg.infoHash, hg.peerId, hg.found, hg.sent, hrec', ⟨htwo, hcomplete⟩, hg.unsent, hg.nodup,
        hg.bound, fun h => absurd (hcomplete.symm.trans h) (by decide), fun _ => ⟨?_, ?_⟩⟩
      · show c.written = _
        rw [hwritten, if_pos hstarted]
        rfl
      · show c.loops + 1 = 1
        rw [hl]
    · rw [if_neg hcomplete] at hd'
      rw [← Except.ok.inj hd']
      refine ⟨hg.infoHash, hg.peerId, hg.found, hg.sent, hrec', ?_, hg.unsent, hg.nodup, hg.bound,
        fun _ => ⟨hwritten, hpending, hh, hl⟩, fun h => absurd h hcomplete⟩
      show (if h.started then _ else _)
      rw [if_pos hstarted]
      exact ⟨htwo, Bool.not_eq_true _ ▸ hcomplete⟩

/-- The loop goes on reading. -/
theorem Reading.read {complete : Bool} (reads : List (List UInt8))
    (hr : 2 ≤ h.reads.length ∧ complete = true) :
    2 ≤ (h.reads ++ reads).length ∧ true = true := by
  refine ⟨?_, rfl⟩
  rw [List.length_append]
  omega

theorem Gated.messageLengthRead (hg : Gated hash id stale h c) (hp : c.pending = .messageLength)
    {recvBuffer : List UInt8}
    (hd : c.receiving (c.toPeerConnection.messageLengthRead recvBuffer) = .ok d) :
    Gated hash id stale { h with reads := h.reads ++ [recvBuffer] } d := by
  have hreading := hg.reading
  rw [hp] at hreading
  obtain ⟨p, hp, hd⟩ := bind_eq_ok.1 hd
  cases hd
  have hnext := Reading.read [recvBuffer] hreading
  rcases PeerConnection.messageLengthRead_eq_ok hp with rfl | ⟨len, nonzero, rfl⟩
  · exact hg.received hreading.2 [recvBuffer] rfl rfl rfl hnext
  · exact hg.received hreading.2 [recvBuffer] rfl rfl rfl hnext

/-- A message has been read and handled. -/
theorem Gated.messageBodyRead (hg : Gated hash id stale h c) {len : UInt32} {lenBytes : List UInt8}
    {nonzero : len ≠ 0} (hp : c.pending = .messageBody len lenBytes nonzero)
    {recvBuffer : List UInt8} {sends : List Message}
    (hd : c.messageBodyRead len lenBytes recvBuffer sends = .ok d) :
    Gated hash id stale { h with reads := h.reads ++ [recvBuffer], passed := h.passed ++ sends } d := by
  have hreading := hg.reading
  rw [hp] at hreading
  obtain ⟨e, he, hd⟩ := bind_eq_ok.1 hd
  obtain ⟨p, hp, he⟩ := bind_eq_ok.1 he
  cases he
  obtain ⟨result, rfl⟩ := PeerConnection.messageBodyRead_eq_ok hp
  have hnext := Reading.read [recvBuffer] hreading
  let p : PeerConnection :=
    { c.toPeerConnection with handled := c.handled ++ [result] }.recieveMessage
  have hg' := hg.received hreading.2 [recvBuffer] (p := p) rfl rfl rfl hnext
  exact hg'.sendMessages hd

theorem Gated.readDone (hg : Gated hash id stale h c) {recvBuffer : List UInt8} {sends : List Message}
    (h' : c.readDone recvBuffer sends = .ok d) :
    Gated hash id stale (h.add (.read recvBuffer sends)) d := by
  unfold Connection.readDone at h'
  split_ifs at h' with hbytes
  have hpassed : History.add h (.read recvBuffer []) =
      { h with reads := h.reads ++ [recvBuffer] } := by
    simp [History.add]
  cases hp : c.pending with
  | nothing => simp [hp] at h'
  | handshakeLength =>
    rw [hp] at h' hbytes
    cases sends with
    | cons => cases h'
    | nil =>
      rw [hpassed]
      exact hg.handshakeLengthRead hp (Option.some.inj hbytes).symm h'
  | handshakeRest pstrlen =>
    rw [hp] at h'
    cases sends with
    | cons => cases h'
    | nil =>
      rw [hpassed]
      exact hg.handshakeRestRead hp h'
  | messageLength =>
    rw [hp] at h'
    cases sends with
    | cons => cases h'
    | nil =>
      rw [hpassed]
      exact hg.messageLengthRead hp h'
  | messageBody len lenBytes nonzero =>
    rw [hp] at h'
    exact hg.messageBodyRead hp h'

theorem Gated.step (hg : Gated hash id stale h c) {ev : ConnectionEvent}
    (hs : c.step ev = .ok d) : Gated hash id stale (h.add ev) d := by
  cases ev with
  | start =>
    by_cases hw : c.written = []
    · exact hg.start hw (by simpa [Connection.step, hw] using hs)
    · simp [Connection.step, hw] at hs
  | send m =>
    have hm : c.sendMessages [m] = c.send (.message m) := by
      simp [Connection.sendMessages, sendAll]
    exact hg.sendMessages (hm.trans hs)
  | transfer i n =>
    cases hw : c.wire.transfer i n with
    | none => simp [Connection.step, hw] at hs
    | some w =>
      simp only [Connection.step, hw] at hs
      cases hs
      exact { hg with }
  | written i sends => exact hg.writeDone hs
  | read recvBuffer sends => exact hg.readDone hs

theorem gated_run {es : List ConnectionEvent} (hr : Run (StepOf step) (created hash id stale) es c) :
    Gated hash id stale (.ofEvents es) c := by
  induction hr using Run.snoc_induction with
  | nil => exact gated_created
  | snoc es t e u _ hs ih =>
    rw [History.ofEvents_append_singleton]
    exact ih.step hs

/-! ### The byte that the inner handler finds -/

/-- When the inner handler of `recieve_handshake` runs, it finds the byte that was received. -/
def Retains (c : Connection) : ConnectionEvent → Prop
  | .read _ _ => ∀ pstrlen, c.pending = .handshakeRest pstrlen → c.stale pstrlen = pstrlen
  | _ => True

/-- After one read the rest of the handshake is waited for. -/
theorem Gated.pending_of_reads (hg : Gated hash id stale h c) {first : List UInt8}
    (hreads : h.reads = [first]) : ∃ pstrlen, c.pending = .handshakeRest pstrlen ∧ first = [pstrlen] := by
  have hreading := hg.reading
  cases hp : c.pending with
  | nothing =>
    rw [hp, Reading] at hreading
    split_ifs at hreading
    · simp [hreads] at hreading
    · simp [hreads] at hreading
  | handshakeRest pstrlen =>
    rw [hp] at hreading
    exact ⟨pstrlen, rfl, by simpa [hreads] using hreading.2⟩
  | handshakeLength | messageLength | messageBody =>
    rw [hp] at hreading
    simp [Reading, hreads] at hreading

/-- The first read is found as it was once the second is there. -/
theorem retained_run {es : List ConnectionEvent}
    (hr : Run (Along (StepOf step) Retains) (created hash id stale) es c) :
    ∀ first second rest, (History.ofEvents es).reads = first :: second :: rest →
      first.map stale = first := by
  induction hr using Run.snoc_induction with
  | nil => exact fun first second rest h => by cases h
  | snoc es t ev u hr hs ih =>
    intro first second rest hreads
    rw [History.ofEvents_append_singleton] at hreads
    have hg := gated_run (hr.mono fun _ _ _ hs => hs.1)
    cases ev with
    | start | send | transfer | written => exact ih first second rest hreads
    | read recvBuffer sends =>
      change (History.ofEvents es).reads ++ [recvBuffer] = _ at hreads
      rcases hbefore : (History.ofEvents es).reads with _ | ⟨a, _ | ⟨b, more⟩⟩
      · simp [hbefore] at hreads
      · obtain ⟨pstrlen, hp, rfl⟩ := hg.pending_of_reads hbefore
        have hfound : t.stale pstrlen = pstrlen := hs.2 pstrlen hp
        rw [hbefore, List.singleton_append, List.cons.injEq] at hreads
        rw [← hreads.1, List.map_singleton, ← hg.found, hfound]
      · rw [hbefore, List.cons_append, List.cons.injEq] at hreads
        rw [← hreads.1]
        exact ih a b more hbefore

/-- Until both handshakes are there, the own handshake is all that is sent, and nothing is handled;
then all messages that were ever passed to `send` follow it, and the loop has been started once. -/
def HandshakesFirst (hash : Hash) (id : Vector UInt8 20) (h : History) (c : Connection) : Prop :=
  (h.Complete hash → c.written = ownHandshake hash id :: h.passed.map .message ∧ c.loops = 1) ∧
    (¬ h.Complete hash →
      c.written = (if h.started then [ownHandshake hash id] else []) ∧ c.handled = [] ∧ c.loops = 0)

/-- The handshakes come first where the inner handler finds the byte that was received. -/
theorem handshakes_first {es : List ConnectionEvent}
    (hr : Run (Along (StepOf step) Retains) (created hash id stale) es c) :
    HandshakesFirst hash id (.ofEvents es) c := by
  have hg := gated_run (hr.mono fun _ _ _ hs => hs.1)
  have hrecieved := hg.recieved
  rw [History.handshakeFound_eq (retained_run hr)] at hrecieved
  have hiff : c.handshakeState.complete = true ↔ (History.ofEvents es).Complete hash := by
    rw [HandshakeState.complete, Bool.and_eq_true, hg.sent, hrecieved, History.Complete]
  constructor
  · intro hc
    exact hg.complete (hiff.2 hc)
  · intro hc
    obtain ⟨hw, -, hh, hl⟩ := hg.waiting (Bool.not_eq_true _ ▸ mt hiff.1 hc)
    exact ⟨hw, hh, hl⟩

def sampleHash : Hash := .replicate 20 7

/-- A message is passed to `send` before, one between and one after the completions. -/
def sampleEvents : List ConnectionEvent :=
  [.send (.bitField [true]), .start, .transfer 0 60, .read [19] [],
    .read PeerConnection.sampleHandshake.body [], .send .interested, .transfer 0 8, .written 0 [],
    .send (.haveMsg 3)]

instance (c : Connection) : ∀ ev, Decidable (c.Retains ev)
  | .read _ _ =>
    match h : c.pending with
    | .handshakeRest b => decidable_of_iff (c.stale b = b)
        ⟨fun heq pstrlen hp => by cases h.symm.trans hp; exact heq, fun hall => hall b h⟩
    | .nothing | .handshakeLength | .messageLength | .messageBody .. =>
      .isTrue fun pstrlen hp => by cases h.symm.trans hp
  | .start | .send _ | .transfer _ _ | .written _ _ => .isTrue trivial

theorem handshakes_first_sample : ∃ c,
    Run (StepOf step) (created sampleHash (.replicate 20 1) fun b => b) sampleEvents c ∧
      c.written = [ownHandshake sampleHash (.replicate 20 1), .message (.bitField [true]),
        .message .interested, .message (.haveMsg 3)] ∧ c.loops = 1 := by
  obtain ⟨c, hr, -⟩ : ∃ c, Run (Along (StepOf step) Retains)
      (created sampleHash (.replicate 20 1) fun b => b) sampleEvents c ∧ True :=
    exists_run_along (by decide +kernel)
  have hcomplete : (History.ofEvents sampleEvents).Complete sampleHash := by
    decide +kernel
  exact ⟨c, hr.mono fun _ _ _ hs => hs.1, (handshakes_first hr).1 hcomplete⟩

/-- The inner handler finds another byte, takes the info hash from other bytes, and gives up. -/
theorem not_handshakesFirst_staleByte :
    ¬ ∀ (hash : Hash) (id : Vector UInt8 20) (stale : UInt8 → UInt8) (es : List ConnectionEvent)
      (c : Connection), Run (StepOf step) (created hash id stale) es c →
        HandshakesFirst hash id (.ofEvents es) c := by
  intro h
  obtain ⟨c, hr, hloops⟩ : ∃ c, Run (StepOf step)
      (created sampleHash (.replicate 20 1) fun _ => 0) sampleEvents c ∧ c.loops = 0 :=
    exists_run (by decide +kernel)
  have hcomplete : (History.ofEvents sampleEvents).Complete sampleHash := by
    decide +kernel
  have hone := ((h _ _ _ _ _ hr).1 hcomplete).2
  rw [hloops] at hone
  cases hone

end Connection

end FTorrent
