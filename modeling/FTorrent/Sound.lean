import FTorrent.Peers

/-!
# What holds in every state of the client

The peers that are registered exist, each has an entry of `piece_present` for every piece and a counter
that fits a `uint32_t`, and the picker and its buckets hold every piece once (`sound_run`).
-/

namespace FTorrent

open Lib

/-- The peer has an entry for each of `n` pieces, and its counter fits 32 bits. -/
def Peer.Fits (n : ℕ) (q : Peer) : Prop := q.piecePresent.length = n ∧ q.blocksInQueue < 2 ^ 32

theorem Peer.Fits.setQueue {n : ℕ} {q : Peer} (h : q.Fits n) (b : ℕ) :
    Peer.Fits n (q.setQueue (u32 b)) :=
  ⟨h.1, u32_lt b⟩

/-- The picker has a bit for each of `n` pieces, its vector holds each of them once, and so do the
buckets unless they are stale. -/
structure RarestFirstPicker.Whole (n : ℕ) (pk : RarestFirstPicker) : Prop where
  bitfield : pk.pieceBitfield.length = n
  pieces : pk.pieces.Perm (List.range n)
  buckets : pk.dirty = false → pk.availabilityBuckets.flatten.Perm (List.range n)

theorem RarestFirstPicker.length_bitfield_create (ps : List Piece) :
    (RarestFirstPicker.create ps).pieceBitfield.length = ps.length := by
  have hfold : ∀ (qs : List Piece) (bits : List Bool),
      (qs.foldl (fun bits p => if p.complete then bits.set p.index true else bits) bits).length =
        bits.length := by
    intro qs
    induction qs with
    | nil => exact fun _ => rfl
    | cons q qs ih =>
      intro bits
      rw [List.foldl_cons, ih]
      split_ifs
      · exact List.length_set ..
      · rfl
  rw [RarestFirstPicker.create, hfold, List.length_replicate]

namespace RarestFirstPicker.Whole

variable {n : ℕ} {pk pk' : RarestFirstPicker}

theorem dirty (h : pk.Whole n) : Whole n { pk with dirty := true } := by
  refine ⟨h.bitfield, h.pieces, fun hd => ?_⟩
  cases hd

theorem refresh (h : pk.Whole n) {ch : SortChoice} {ps : List Piece}
    (hpk : pk.refresh ch ps = .ok pk') : pk'.Whole n ∧ pk'.dirty = false := by
  unfold RarestFirstPicker.refresh at hpk
  split_ifs at hpk with hd
  · obtain ⟨first, -, rfl⟩ := sortPieces_eq_ok.1 hpk
    have hsorted := (ch.std.perm (availabilityOf ps) pk.pieces).trans h.pieces
    exact ⟨⟨h.bitfield, hsorted, fun _ => (flatten_fillBuckets _ _ _ _ _).trans hsorted⟩, rfl⟩
  · cases hpk
    exact ⟨h, by simpa using hd⟩

end RarestFirstPicker.Whole

namespace Client

variable {sha1 : List UInt8 → Hash} {m : Metainfo} {content : ℕ → UInt8} {c c' : Client} {p : ℕ}

/-- The standing facts. -/
structure Sound (m : Metainfo) (c : Client) : Prop where
  laidOut : Torrent.LaidOut m c.torrent
  registered : ∀ p ∈ c.registered, (c.peerCore p).isSome
  nodup : c.registered.Nodup
  peers : ∀ k q, c.peerCore k = some q → q.Fits m.pieces.length
  picker : c.picker.Whole m.pieces.length

theorem length_pieces (h : Torrent.LaidOut m c.torrent) :
    c.torrent.pieces.length = m.pieces.length := by
  have := congrArg List.length h.shapes
  simpa using this

/-- A handler can make the picker dirty, and changes nothing else in it. -/
theorem picker_handleMessage {msg : Message} {b : Bool} (h : c.handleMessage p msg = .ok (c', b)) :
    c'.picker = c.picker ∨ c'.picker = { c.picker with dirty := true } := by
  cases msg with
  | haveMsg i =>
    obtain ⟨q, ps, -, -, -, h₁⟩ := haveReceived_eq_ok (haveReceived_of_handleMessage h)
    exact .inr (refreshDownloadInterest_rest h₁).2.1
  | bitField bits =>
    obtain ⟨q, c₁, ps, -, -, -, -, rfl⟩ :=
      bitfieldReceived_eq_ok (bitfieldReceived_of_handleMessage h)
    exact .inr rfl
  | piece i o d =>
    obtain ⟨r, piece, block, t, -, -, -, -, rfl⟩ :=
      pieceReceived_eq_ok (pieceReceived_of_handleMessage h)
    exact .inl rfl
  | keepAlive | choke | unchoke | interested | notInterested | request | cancel =>
    cases h
    exact .inl rfl

/-- A bitfield is handled only if it is long enough. -/
theorem length_le_of_bitField {bits : List Bool} {b : Bool}
    (h : c.handleMessage p (.bitField bits) = .ok (c', b)) :
    ∃ q, c.peers[p]? = some q ∧ q.piecePresent.length ≤ bits.length := by
  obtain ⟨q, -, -, hq, hlen, -⟩ := bitfieldReceived_eq_ok (bitfieldReceived_of_handleMessage h)
  exact ⟨q, hq, hlen⟩

theorem peerCore_eq_some {k : ℕ} {q : Peer} :
    c.peerCore k = some q ↔ ∃ q', c.peers[k]? = some q' ∧ q'.core = q :=
  Option.map_eq_some_iff

theorem peerCore_of_getElem? {k : ℕ} {q : Peer} (h : c.peers[k]? = some q) :
    c.peerCore k = some q.core :=
  peerCore_eq_some.2 ⟨q, h, rfl⟩

theorem exists_peer (h : (c.peerCore p).isSome) : ∃ q, c.peers[p]? = some q := by
  obtain ⟨q, hq⟩ := Option.isSome_iff_exists.1 h
  obtain ⟨q, hq, -⟩ := peerCore_eq_some.1 hq
  exact ⟨q, hq⟩

theorem isSome_peerCore_requestPiece (c : Client) (p r k : ℕ) :
    ((c.requestPiece p r).peerCore k).isSome = (c.peerCore k).isSome := by
  rcases hr : c.torrent.pieces[r]? with _ | piece
  · rw [requestPiece_of_none hr]
  · rw [peerCore_requestPiece hr, Option.isSome_map]

theorem isSome_peerCore_handleMessage {msg : Message} {b : Bool}
    (h : c.handleMessage p msg = .ok (c', b)) (k : ℕ) :
    (c'.peerCore k).isSome = (c.peerCore k).isSome := by
  rw [peerCore_handleMessage h, Option.isSome_map]

namespace Sound

theorem init : Sound m (init m content) := by
  refine ⟨Torrent.LaidOut.init m content, fun p hp => absurd hp List.not_mem_nil, List.nodup_nil,
    fun k q hq => ?_, ⟨?_, ?_, fun hd => ?_⟩⟩
  · simp [Client.init, peerCore] at hq
  · rw [Client.init, RarestFirstPicker.length_bitfield_create, Metainfo.length_generatePieces]
  · simp [Client.init, RarestFirstPicker.create]
  · cases hd

theorem piecePresent (h : Sound m c) {k : ℕ} {q : Peer} (hq : c.peers[k]? = some q) :
    q.piecePresent.length = m.pieces.length :=
  (h.peers k _ (peerCore_of_getElem? hq)).1

theorem blocksInQueue (h : Sound m c) {k : ℕ} {q : Peer} (hq : c.peers[k]? = some q) :
    q.blocksInQueue < 2 ^ 32 :=
  (h.peers k _ (peerCore_of_getElem? hq)).2

theorem of_background (h : Sound m c) (hb : Background c c') (hl : Torrent.LaidOut m c'.torrent) :
    Sound m c' := by
  refine ⟨hl, fun p hp => ?_, hb.registered ▸ h.nodup, fun k q hq => ?_, hb.picker ▸ h.picker⟩
  · rw [hb.peers]
    exact h.registered p (hb.registered ▸ hp)
  · rw [hb.peers] at hq
    exact h.peers k q hq

theorem addPeer (h : Sound m c) : Sound m c.addPeer := by
  refine ⟨⟨h.laidOut.nominal, h.laidOut.shapes⟩, fun p hp => ?_, ?_, fun k q hq => ?_, h.picker⟩
  · rw [peerCore_addPeer]
    rcases List.mem_append.1 hp with hp | hp
    · split_ifs
      · rfl
      · exact h.registered p hp
    · rw [if_pos (List.mem_singleton.1 hp)]
      rfl
  · refine List.nodup_append.2 ⟨h.nodup, List.nodup_singleton _, fun a ha b hb => ?_⟩
    rw [List.mem_singleton.1 hb]
    rintro rfl
    obtain ⟨q, hq⟩ := exists_peer (h.registered _ ha)
    exact absurd (List.getElem?_eq_some_iff.1 hq).1 (lt_irrefl _)
  · rw [peerCore_addPeer] at hq
    split_ifs at hq
    · cases hq
      exact ⟨by simp [newCore, Peer.core, length_pieces h.laidOut], Nat.two_pow_pos 32⟩
    · exact h.peers k q hq

/-- A message leaves the peer with its entries. -/
theorem fits_effect {msg : Message} {q : Peer} {n : ℕ} (h : q.Fits n)
    (hbits : ∀ bits, msg = .bitField bits → n ≤ bits.length) : (msg.effect q).Fits n := by
  cases msg with
  | haveMsg i => exact ⟨(List.length_set ..).trans h.1, h.2⟩
  | bitField bits =>
    have := hbits bits rfl
    refine ⟨?_, h.2⟩
    simp only [Message.effect, List.length_zipWith, h.1]
    omega
  | piece i o d => exact h.setQueue _
  | keepAlive | choke | unchoke | interested | notInterested | request | cancel => exact h

theorem handleMessage (h : Sound m c) {msg : Message} {b : Bool}
    (hc : c.handleMessage p msg = .ok (c', b)) : Sound m c' := by
  have hf := frame_handleMessage hc
  refine ⟨h.laidOut.of_shapes hf.nominal hf.shapes, fun k hk => ?_, hf.registered ▸ h.nodup,
    fun k q hq => ?_, ?_⟩
  · rw [isSome_peerCore_handleMessage hc]
    exact h.registered k (hf.registered ▸ hk)
  · rw [peerCore_handleMessage hc] at hq
    obtain ⟨q₀, hq₀, rfl⟩ := Option.map_eq_some_iff.1 hq
    have hfits := h.peers k q₀ hq₀
    split_ifs with hk
    · apply fits_effect hfits
      rintro bits rfl
      obtain ⟨q, hq, hlen⟩ := length_le_of_bitField hc
      rwa [h.piecePresent hq] at hlen
    · exact hfits
  · rcases picker_handleMessage hc with hpk | hpk
    · exact hpk ▸ h.picker
    · exact hpk ▸ h.picker.dirty

theorem setPicker (h : Sound m c) {pk : RarestFirstPicker} (hpk : pk.Whole m.pieces.length) :
    Sound m { c with picker := pk } :=
  ⟨⟨h.laidOut.nominal, h.laidOut.shapes⟩, h.registered, h.nodup, h.peers, hpk⟩

theorem requestPiece (h : Sound m c) (p r : ℕ) : Sound m (c.requestPiece p r) := by
  rcases hr : c.torrent.pieces[r]? with _ | piece
  · rwa [requestPiece_of_none hr]
  · have hf := frame_requestPiece c p r
    refine ⟨h.laidOut.of_shapes hf.nominal hf.shapes, fun k hk => ?_, hf.registered ▸ h.nodup,
      fun k q hq => ?_, ?_⟩
    · rw [isSome_peerCore_requestPiece]
      exact h.registered k (hf.registered ▸ hk)
    · rw [peerCore_requestPiece hr] at hq
      obtain ⟨q₀, hq₀, rfl⟩ := Option.map_eq_some_iff.1 hq
      have hfits := h.peers k q₀ hq₀
      split_ifs
      · exact hfits.setQueue _
      · exact hfits
    · rw [picker_requestPiece]
      exact h.picker

theorem messageHandler (h : Sound m c) {ch : SortChoice} {msg : Message}
    (hc : c.messageHandler ch p msg = .ok c') : Sound m c' :=
  messageHandler_induction hc (fun _ _ h₁ => h.handleMessage h₁)
    (fun _ _ hpk h₁ => h₁.setPicker (h₁.picker.refresh hpk).1) fun _ r h₁ _ => h₁.requestPiece p r

theorem step (h : Sound m c) {ev : Event} (hs : c.step sha1 ev = .ok c') : Sound m c' := by
  have hl := laidOut_step h.laidOut hs
  cases kind_of_step hs with
  | join => exact h.addPeer
  | removal p hp =>
    exact ⟨hl, fun q hq => h.registered q (List.mem_of_mem_erase hq), h.nodup.erase p, h.peers,
      h.picker⟩
  | absent p hp => exact h
  | message ch p msg hp hmsg => exact h.messageHandler hmsg
  | background _ hb => exact h.of_background hb hl

end Sound

theorem sound_run {es : List Event} (hr : Run (StepOf (step sha1)) (init m content) es c) :
    Sound m c :=
  hr.invariant (fun _ _ _ h hs => h.step hs) Sound.init

end Client

end FTorrent
