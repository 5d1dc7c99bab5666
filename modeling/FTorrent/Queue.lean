import FTorrent.Refill

/-!
# The counter of a peer's queue

`request_blocks` raises `blocks_in_queue` by the REQUESTs it sends, a PIECE lowers it by one, and
nothing else moves it.  A number read off the log that moves the same way (`Tally`) is therefore what
the counter holds, as long as it counts every PIECE that arrives (`QueueInv.step`).
-/

namespace FTorrent

open Lib

/-- A number read off the log for each peer that a REQUEST to the peer raises by one and otherwise
only the messages received change. -/
structure Tally (f : ℕ → List Note → ℕ) : Prop where
  nil : ∀ k, f k [] = 0
  request : ∀ p i o l k log, f k (.sent p (.request i o l) :: log) = f k log + if p = k then 1 else 0
  aside : ∀ {n : Note}, n.Aside → ∀ k log, f k (n :: log) = f k log
  removed : ∀ p k log, f k (.removed p :: log) = f k log

theorem Tally.requests {f : ℕ → List Note → ℕ} (hf : Tally f) (piece : Piece) (bs : List Block)
    (p k : ℕ) (log : List Note) :
    f k ((bs.map fun b => .sent p (piece.requestFor b)).reverse ++ log) =
      f k log + if p = k then bs.length else 0 := by
  induction bs generalizing log with
  | nil => simp
  | cons b bs ih =>
    have hsent : f k (.sent p (piece.requestFor b) :: log) = f k log + if p = k then 1 else 0 :=
      hf.request p _ _ _ k log
    simp only [List.map_cons, List.reverse_cons, List.append_assoc, List.singleton_append]
    rw [ih, hsent]
    split_ifs
    · simp only [List.length_cons]
      omega
    · rfl

namespace Client

variable {sha1 : List UInt8 → Hash} {m : Metainfo} {content : ℕ → UInt8} {c c' : Client} {p : ℕ}

/-- The counter of a peer, zero for one that has not joined yet. -/
def queueOf (c : Client) (k : ℕ) : ℕ := ((c.peerCore k).map (·.blocksInQueue)).getD 0

theorem queueOf_of_getElem? {k : ℕ} {q : Peer} (h : c.peers[k]? = some q) :
    c.queueOf k = q.blocksInQueue := by
  rw [queueOf, peerCore_of_getElem? h]
  rfl

theorem queueOf_map {f : Peer → Peer} {k : ℕ} (h : c'.peerCore k = (c.peerCore k).map f)
    (hf : ∀ q, (f q).blocksInQueue = q.blocksInQueue) : c'.queueOf k = c.queueOf k := by
  rw [queueOf, h, Option.map_map, queueOf]
  congr 2
  funext q
  exact hf q

/-- Asking for a piece adds its free blocks to the counter. -/
theorem queueOf_requestPiece {r : ℕ} {piece : Piece} (hr : c.torrent.pieces[r]? = some piece)
    (hp : (c.peerCore p).isSome) :
    (c.requestPiece p r).queueOf p = u32 (c.queueOf p + piece.freeBlocks.length) := by
  obtain ⟨q, hq⟩ := Option.isSome_iff_exists.1 hp
  simp [queueOf, peerCore_requestPiece hr, hq]

theorem queueOf_requestPiece_of_ne (c : Client) (r : ℕ) {k : ℕ} (hk : p ≠ k) :
    (c.requestPiece p r).queueOf k = c.queueOf k := by
  rcases hr : c.torrent.pieces[r]? with _ | piece
  · rw [requestPiece_of_none hr]
  · simp [queueOf, peerCore_requestPiece hr, hk]

theorem tally_requestPiece {f : ℕ → List Note → ℕ} (hf : Tally f) {r : ℕ} {piece : Piece}
    (hr : c.torrent.pieces[r]? = some piece) (p k : ℕ) :
    f k (c.requestPiece p r).log = f k c.log + if p = k then piece.freeBlocks.length else 0 := by
  rw [log_requestPiece hr, hf.requests]

theorem roomFor_iff : c.roomFor p = true ↔ (c.peerCore p).isSome ∧ c.queueOf p < blockPipelineSize := by
  rw [roomFor, queueOf, peerCore]
  cases c.peers[p]? with
  | none => simp
  | some q => simp [Peer.core]

/-- A piece has at most 2^18 blocks. -/
theorem length_freeBlocks_le (hl : Torrent.LaidOut m c.torrent) {r : ℕ} {piece : Piece}
    (hr : c.torrent.pieces[r]? = some piece) : piece.freeBlocks.length ≤ 2 ^ 18 := by
  obtain ⟨-, -, -, -, hlen, -⟩ := hl.piece hr
  have hfree : piece.freeBlocks.length ≤ piece.blocks.length := List.length_filter_le _ _
  have hlt := m.pieceSize_lt r
  unfold Piece.numBlocks Piece.nominalBlockSize at hlen
  omega

/-- While there is room the counter does not overflow. -/
theorem queueOf_requestPiece_of_room (hl : Torrent.LaidOut m c.torrent) {r : ℕ} {piece : Piece}
    (hr : c.torrent.pieces[r]? = some piece) (hroom : c.roomFor p = true) :
    (c.requestPiece p r).queueOf p = c.queueOf p + piece.freeBlocks.length := by
  obtain ⟨hp, hlt⟩ := roomFor_iff.1 hroom
  have hfree := length_freeBlocks_le hl hr
  unfold blockPipelineSize at hlt
  rw [queueOf_requestPiece hr hp]
  apply u32_of_lt
  omega

/-- A PIECE takes one off the counter of its sender. -/
theorem queueOf_piece {i o : UInt32} {d : List UInt8} {b : Bool}
    (h : c.handleMessage p (.piece i o d) = .ok (c', b)) (hp : (c.peerCore p).isSome) :
    c'.queueOf p = u32 (c.queueOf p + 2 ^ 32 - 1) := by
  obtain ⟨q, hq⟩ := Option.isSome_iff_exists.1 hp
  rw [queueOf, peerCore_handleMessage h, hq, Option.map_some, if_pos rfl, Message.effect_piece,
    queueOf, hq, Option.map_some, Option.map_some, Option.getD_some, Option.getD_some,
    Peer.setQueue_blocksInQueue]

/-- No other message moves it. -/
theorem queueOf_handleMessage {msg : Message} {b : Bool} (h : c.handleMessage p msg = .ok (c', b))
    {k : ℕ} (hk : p = k → ∀ i o d, msg ≠ .piece i o d) : c'.queueOf k = c.queueOf k := by
  apply queueOf_map (peerCore_handleMessage h k)
  intro q
  split_ifs with hpk
  · cases msg with
    | piece i o d => exact absurd rfl (hk hpk i o d)
    | _ => rfl
  · rfl

theorem queueOf_addPeer (c : Client) (k : ℕ) : c.addPeer.queueOf k = c.queueOf k := by
  apply addPeer_unseen fun q => (q.map (·.blocksInQueue)).getD 0
  rfl

/-- Every counter, of peers that have joined and of those to come, holds what the log says. -/
structure QueueInv (f : ℕ → List Note → ℕ) (m : Metainfo) (c : Client) : Prop where
  sound : Sound m c
  exact : ∀ k, c.queueOf k = f k c.log

namespace QueueInv

variable {f : ℕ → List Note → ℕ}

theorem init (hf : Tally f) : QueueInv f m (init m content) := ⟨.init, fun k => (hf.nil k).symm⟩

theorem setPicker (h : QueueInv f m c) {pk : RarestFirstPicker} (hpk : pk.Whole m.pieces.length) :
    QueueInv f m { c with picker := pk } :=
  ⟨h.sound.setPicker hpk, h.exact⟩

theorem requestPiece (hf : Tally f) (h : QueueInv f m c) {r : ℕ} (hroom : c.roomFor p = true) :
    QueueInv f m (c.requestPiece p r) := by
  rcases hr : c.torrent.pieces[r]? with _ | piece
  · rwa [requestPiece_of_none hr]
  · refine ⟨h.sound.requestPiece p r, fun k => ?_⟩
    rw [tally_requestPiece hf hr, ← h.exact]
    by_cases hk : p = k
    · subst hk
      rw [queueOf_requestPiece_of_room h.sound.laidOut hr hroom, if_pos rfl]
    · rw [queueOf_requestPiece_of_ne c r hk, if_neg hk, Nat.add_zero]

/-- The message counts as many blocks as it delivers. -/
theorem handleMessage (hf : Tally f) (h : QueueInv f m c) {msg : Message} {b : Bool}
    (hc : c.handleMessage p msg = .ok (c', b)) (hp : p ∈ c.registered)
    (hC : ∀ k, f k (.received p msg :: c.log) + (if p = k then msg.blocks else 0) = f k c.log) :
    QueueInv f m c' := by
  obtain ⟨ns, hns, hA⟩ := log_handleMessage hc
  refine ⟨h.sound.handleMessage hc, fun k => ?_⟩
  rw [hns, history_append fun n hn log => hf.aside (hA n hn) k log]
  have hexact := h.exact k
  have hcount := hC k
  by_cases hpiece : p = k ∧ ∃ i o d, msg = .piece i o d
  · obtain ⟨rfl, i, o, d, rfl⟩ := hpiece
    have hjoined := h.sound.registered p hp
    obtain ⟨q, hq⟩ := exists_peer hjoined
    have hlt := h.sound.blocksInQueue hq
    rw [← queueOf_of_getElem? hq] at hlt
    rw [if_pos rfl, Message.blocks] at hcount
    rw [queueOf_piece hc hjoined, u32]
    omega
  · rw [queueOf_handleMessage hc, hexact, ← hcount]
    · split_ifs with hk
      · cases msg with
        | piece i o d => exact absurd ⟨hk, i, o, d, rfl⟩ hpiece
        | _ => rfl
      · rfl
    · intro hk i o d he
      exact hpiece ⟨hk, i, o, d, he⟩

theorem of_background (hf : Tally f) (h : QueueInv f m c) (hb : Background c c')
    (hl : Torrent.LaidOut m c'.torrent) : QueueInv f m c' := by
  obtain ⟨ns, hns, hA⟩ := hb.log
  refine ⟨h.sound.of_background hb hl, fun k => ?_⟩
  rw [hns, history_append fun n hn log => hf.aside (hA n hn) k log, ← h.exact, queueOf, hb.peers,
    queueOf]

theorem step (hf : Tally f) {ev : Event} (h : QueueInv f m c) (hs : c.step sha1 ev = .ok c')
    (hC : ∀ ch p msg, ev = .message ch p msg →
      ∀ k, f k (.received p msg :: c.log) + (if p = k then msg.blocks else 0) = f k c.log) :
    QueueInv f m c' := by
  have hsound := h.sound.step hs
  cases kind_of_step hs with
  | join =>
    refine ⟨hsound, fun k => ?_⟩
    have hlog : f k c.addPeer.log = f k c.log :=
      hf.aside (n := .sent c.peers.length (.bitField c.picker.getHaveBitfield)) trivial k c.log
    rw [queueOf_addPeer, hlog, h.exact]
  | removal p hp => exact ⟨hsound, fun k => (h.exact k).trans (hf.removed p k c.log).symm⟩
  | absent p hp => exact h
  | message ch p msg hp hmsg =>
    apply messageHandler_induction hmsg
    · exact fun c₁ b h₁ => h.handleMessage hf h₁ hp (hC ch p msg rfl)
    · exact fun c pk hpk h => h.setPicker (h.sound.picker.refresh hpk).1
    · exact fun c r h hroom => h.requestPiece hf hroom
  | background _ hb => exact h.of_background hf hb hsound.laidOut

end QueueInv

end Client

end FTorrent
