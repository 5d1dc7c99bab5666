import FTorrent.Sound

/-!
# When and with what the pipeline is refilled

Of the handlers of messages only those of UNCHOKE, PIECE and HAVE call `request_blocks`, the last only
while the download channel is not choked (`refills_of_handleMessage`).  It comes to no piece if the queue
is full without the block that the message delivers (`comesTo_of_staysFull`), and otherwise only to
pieces that the peer has or the message announces (`mem_onOffer_of_candidate`).
-/

namespace FTorrent

open Lib

/-- The message says that its sender has the piece. -/
def Message.announces : Message → ℕ → Bool
  | .haveMsg index, j => index.toNat == j
  | .bitField bitfield, j => bitfield[j]?.getD false
  | _, _ => false

/-- The number of blocks that the message delivers. -/
def Message.blocks : Message → ℕ
  | .piece _ _ _ => 1
  | _ => 0

/-- What the message leaves of a queue of so many blocks. -/
def Message.leaves : Message → ℕ → ℕ
  | .piece _ _ _, b => u32 (b + 2 ^ 32 - 1)
  | _, b => b

theorem Message.blocksInQueue_effect (msg : Message) (q : Peer) :
    (msg.effect q).blocksInQueue = msg.leaves q.blocksInQueue := by
  cases msg with
  | piece i o d => rw [effect_piece, Peer.setQueue_blocksInQueue, leaves]
  | _ => rfl

namespace Client

variable {c c' : Client} {p : ℕ}

/-- The download channel of the peer is there and not choked. -/
def letsUs (c : Client) (k : ℕ) : Bool :=
  ((c.peerCore k).map fun q => !q.download.choked).getD false

theorem letsUs_of_getElem? {k : ℕ} {q : Peer} (h : c.peers[k]? = some q) :
    c.letsUs k = !q.download.choked := by
  rw [letsUs, peerCore_of_getElem? h]
  rfl

/-- The peer is known to have the piece. -/
def has (c : Client) (k j : ℕ) : Bool := ((c.peers[k]?.bind (·.piecePresent[j]?))).getD false

theorem has_eq_peerCore (c : Client) (k j : ℕ) :
    c.has k j = ((c.peerCore k).bind (·.piecePresent[j]?)).getD false := by
  rw [has, peerCore]
  cases c.peers[k]? with
  | none => rfl
  | some q => rfl

/-- The message is one whose handler calls `request_blocks`. -/
def refills (c : Client) (p : ℕ) : Message → Bool
  | .unchoke | .piece _ _ _ => true
  | .haveMsg _ => c.letsUs p
  | _ => false

/-- The queue of the peer is full, also without the block that the message delivers. -/
def StaysFull (c : Client) (p : ℕ) (msg : Message) : Prop :=
  ∀ q ∈ c.peers[p]?, blockPipelineSize ≤ msg.leaves q.blocksInQueue

instance (c : Client) (p : ℕ) (msg : Message) : Decidable (c.StaysFull p msg) :=
  inferInstanceAs (Decidable (∀ q ∈ c.peers[p]?, blockPipelineSize ≤ msg.leaves q.blocksInQueue))

/-- The pieces that the peer has or the message announces. -/
def onOffer (c : Client) (p : ℕ) (msg : Message) : List ℕ :=
  (List.range c.torrent.pieces.length).filter fun r => c.has p r || msg.announces r

/-! ### What a handler finds -/

theorem letsUs_handleMessage {msg : Message} {b : Bool} (h : c.handleMessage p msg = .ok (c', b))
    (hmsg : ∀ q, (msg.effect q).download.choked = q.download.choked) : c'.letsUs p = c.letsUs p := by
  rw [letsUs, peerCore_handleMessage h, Option.map_map, letsUs]
  congr 2
  funext q
  simp only [Function.comp_apply, if_true, hmsg]

/-- The handlers that call `request_blocks`. -/
theorem refills_of_handleMessage {msg : Message} (h : c.handleMessage p msg = .ok (c', true)) :
    c.refills p msg = true := by
  cases msg with
  | unchoke | piece => rfl
  | haveMsg i =>
    have hlets : c'.letsUs p = c.letsUs p := letsUs_handleMessage h fun _ => rfl
    obtain ⟨c₁, h₁, h⟩ := bind_eq_ok.1 h
    obtain ⟨q, hq, h⟩ := bind_eq_ok.1 h
    obtain ⟨rfl, hasks⟩ := Prod.mk.inj (Except.ok.inj h)
    rw [refills, ← hlets, letsUs_of_getElem? (vectorAt_eq_ok.1 hq)]
    exact (Bool.and_eq_true_iff.1 hasks).2
  | bitField bits =>
    obtain ⟨c₁, h₁, h⟩ := bind_eq_ok.1 h
    cases h
  | keepAlive | choke | interested | notInterested | request | cancel => cases h

/-- The queue that the handler finds when it calls `request_blocks`. -/
theorem blocksInQueue_handleMessage {msg : Message} {b : Bool} {q' : Peer}
    (h : c.handleMessage p msg = .ok (c', b)) (hq' : c'.peers[p]? = some q') :
    ∃ q, c.peers[p]? = some q ∧ q'.blocksInQueue = msg.leaves q.blocksInQueue := by
  have hcore := peerCore_handleMessage h p
  rw [peerCore_of_getElem? hq', eq_comm, Option.map_eq_some_iff] at hcore
  obtain ⟨q₀, hq₀, hcore⟩ := hcore
  obtain ⟨q, hq, rfl⟩ := peerCore_eq_some.1 hq₀
  rw [if_pos rfl] at hcore
  have hqueue := congrArg Peer.blocksInQueue hcore
  rw [Message.blocksInQueue_effect] at hqueue
  exact ⟨q, hq, hqueue.symm⟩

/-- With a queue that stays full `request_blocks` comes to no piece. -/
theorem comesTo_of_staysFull {msg : Message} {b : Bool} (ch : SortChoice)
    (h : c.handleMessage p msg = .ok (c', b)) (hfull : c.StaysFull p msg) : comesTo ch p c' = [] := by
  apply comesTo_of_full
  rcases hq' : c'.peers[p]? with _ | q'
  · rw [roomFor, hq', Option.any_none]
  · obtain ⟨q, hq, hqueue⟩ := blocksInQueue_handleMessage h hq'
    have hle : blockPipelineSize ≤ q'.blocksInQueue := by
      rw [hqueue]
      exact hfull q hq
    simp [roomFor, hq', hle]

theorem has_eq_true {r : ℕ} :
    c.has p r = true ↔ ∃ q, c.peers[p]? = some q ∧ q.piecePresent[r]? = some true := by
  rw [has]
  rcases hq : c.peers[p]? with _ | q
  · simp
  · rcases hr : q.piecePresent[r]? with _ | b <;> simp [hr]

/-- A handler learns of the pieces that its message announces. -/
theorem has_or_announces {msg : Message} {b : Bool} (h : c.handleMessage p msg = .ok (c', b)) {r : ℕ}
    (hhas : c'.has p r = true) : c.has p r = true ∨ msg.announces r = true := by
  rw [has_eq_peerCore, peerCore_handleMessage h] at hhas
  rw [has_eq_peerCore]
  generalize c.peerCore p = o at hhas ⊢
  cases o with
  | none => cases hhas
  | some q =>
    simp only [Option.map_some, if_true, Option.bind_some] at hhas ⊢
    cases msg with
    | haveMsg i =>
      by_cases hi : i.toNat = r
      · exact .inr (by simpa [Message.announces] using hi)
      · left
        simpa [Message.effect, List.getElem?_set_ne hi] using hhas
    | bitField bits =>
      simp only [Message.effect, List.getElem?_zipWith] at hhas
      rcases hq : q.piecePresent[r]? with _ | a
      · simp [hq] at hhas
      · rcases hb : bits[r]? with _ | d
        · simp [hq, hb] at hhas
        · simpa [hq, hb, Message.announces] using hhas
    | piece i o d =>
      rw [Message.effect_piece, Peer.setQueue_piecePresent] at hhas
      exact .inl hhas
    | _ => exact .inl hhas

theorem mem_of_mem_visited {rs : List ℕ} {r : ℕ} (h : r ∈ visited p rs c) : r ∈ rs := by
  induction rs generalizing c with
  | nil => exact h
  | cons s rs ih =>
    unfold visited at h
    split_ifs at h
    · rcases List.mem_cons.1 h with rfl | h
      · exact List.mem_cons_self
      · exact List.mem_cons_of_mem s (ih h)
    · cases h

/-- `request_blocks` comes to candidates of the picker. -/
theorem candidate_of_mem_comesTo {ch : SortChoice} {r : ℕ} (h : r ∈ comesTo ch p c) :
    ∃ q, c.peers[p]? = some q ∧
      RarestFirstPicker.candidate c.torrent.pieces q.hasPiece r = true := by
  unfold comesTo at h
  split at h
  · next q pk hq _ => exact ⟨q, hq, (List.mem_filter.1 (mem_of_mem_visited h)).2⟩
  · cases h

/-- A candidate of the picker is a piece that the peer has. -/
theorem has_of_candidate {m : Metainfo} (hl : Torrent.LaidOut m c.torrent) {q : Peer}
    (hq : c.peers[p]? = some q) {r : ℕ}
    (hr : RarestFirstPicker.candidate c.torrent.pieces q.hasPiece r = true) :
    r < c.torrent.pieces.length ∧ c.has p r = true := by
  unfold RarestFirstPicker.candidate at hr
  rcases hpiece : c.torrent.pieces[r]? with _ | piece
  · simp [hpiece] at hr
  · obtain ⟨-, hidx, -⟩ := hl.piece hpiece
    refine ⟨(List.getElem?_eq_some_iff.1 hpiece).1, has_eq_true.2 ⟨q, hq, ?_⟩⟩
    simp only [hpiece, Bool.and_eq_true, hidx] at hr
    rcases hb : q.hasPiece r with f | b
    · simp [hb] at hr
    · rw [vectorAt_eq_ok.1 hb]
      simpa [hb] using hr.2

theorem mem_onOffer_of_candidate {m : Metainfo} (hl : Torrent.LaidOut m c'.torrent) {msg : Message}
    {b : Bool} (h : c.handleMessage p msg = .ok (c', b))
    (hlen : c'.torrent.pieces.length = c.torrent.pieces.length) {q : Peer}
    (hq : c'.peers[p]? = some q) {r : ℕ}
    (hr : RarestFirstPicker.candidate c'.torrent.pieces q.hasPiece r = true) :
    r ∈ c.onOffer p msg := by
  obtain ⟨hlt, hhas⟩ := has_of_candidate hl hq hr
  rw [hlen] at hlt
  simpa [onOffer, hlt] using has_or_announces h hhas

/-- A torrent of one piece of eleven blocks. -/
def elevenBlocks : Metainfo :=
  ⟨2 ^ 18, [Vector.replicate 20 3], 10 * 2 ^ 14 + 1, by decide, by decide, by decide⟩

/-- A peer that has the piece lets us ask for it. -/
def firstUnchoke : List Event :=
  [.addPeer, .message ⟨.reverseTies, .still ℕ⟩ 0 (.haveMsg 0),
    .message ⟨.reverseTies, .still ℕ⟩ 0 .unchoke]

end Client

end FTorrent
