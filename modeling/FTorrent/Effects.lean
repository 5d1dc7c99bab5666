import FTorrent.Client

/-!
# What the handlers do

A handler of a peer message works in two parts.  The first part is `Quiet` for every message but
PIECE and REQUEST: it changes availabilities, the picker and the peers, and sends at most an
INTERESTED or NOT_INTERESTED.  The second part, `request_blocks`, asks for the free blocks of the
pieces it comes to, one piece after the other (`requestBlocks_eq_ok`).
-/

namespace FTorrent

open Lib

/-! ### Pieces up to their availability -/

/-- The piece but for its availability. -/
def Piece.core (p : Piece) : Piece := p.setAvailability 0

@[simp] theorem Piece.core_setAvailability (p : Piece) (a : ℕ) : (p.setAvailability a).core = p.core :=
  rfl

/-- The two lists of pieces differ in availabilities only. -/
def SameCore (ps ps' : List Piece) : Prop := ps'.map Piece.core = ps.map Piece.core

namespace SameCore

variable {ps ps' : List Piece}

theorem modify (h : SameCore ps ps') (r : ℕ) (a : Piece → ℕ) :
    SameCore ps (ps'.modify r fun p => p.setAvailability (a p)) := by
  rw [SameCore, ← h]
  apply List.ext_getElem? fun j => ?_
  simp only [List.getElem?_map, List.getElem?_modify]
  split_ifs <;> simp [Function.comp_def]

theorem shapes (h : SameCore ps ps') : ps'.map Piece.shape = ps.map Piece.shape := by
  have := congrArg (List.map Piece.shape) h
  simpa [Function.comp_def, Piece.core] using this

end SameCore

namespace RarestFirstPicker

theorem sameCore_increment {pk : RarestFirstPicker} {ps ps' : List Piece} {i : ℕ}
    (h : pk.incrementPieceAvailability ps i = .ok ps') : SameCore ps ps' := by
  obtain ⟨r, rfl⟩ := incrementPieceAvailability_eq_ok h
  exact SameCore.modify rfl r _

theorem sameCore_incrementAll {pk : RarestFirstPicker} {ps ps' : List Piece} {bits : List Bool}
    (h : pk.incrementAll bits 0 ps = .ok ps') : SameCore ps ps' :=
  incrementAll_induction (P := SameCore ps) (fun _ r a hp => hp.modify r a) h rfl

theorem refresh_eq_ok {pk pk' : RarestFirstPicker} {ch : SortChoice} {ps : List Piece}
    (h : pk.refresh ch ps = .ok pk') :
    pk'.pieceBitfield = pk.pieceBitfield ∧ pk'.dirty = false ∧
      pk'.availabilityBuckets.flatten.length ≤
        pk.pieces.length + pk.availabilityBuckets.flatten.length := by
  unfold refresh at h
  split_ifs at h with hd
  · obtain ⟨first, -, rfl⟩ := sortPieces_eq_ok.1 h
    refine ⟨rfl, rfl, ?_⟩
    change (fillBuckets _ _ _ _ _).flatten.length ≤ _
    rw [(flatten_fillBuckets _ _ _ _ _).length_eq, List.nil_append,
      (ch.std.perm _ _).length_eq]
    omega
  · cases h
    exact ⟨rfl, by simpa using hd, by omega⟩

end RarestFirstPicker

/-! ### Quiet changes -/

/-- A message sent that neither announces a piece nor asks for a block or carries one. -/
def Note.Control : Note → Prop
  | .sent _ .interested | .sent _ .notInterested | .sent _ .choke | .sent _ .unchoke => True
  | _ => False

/-- A message sent that neither asks for a block nor carries one. -/
def Note.Notice (n : Note) : Prop := n.Control ∨ ∃ p i, n = .sent p (.haveMsg i)

/-- Nothing changes but availabilities, the order in the picker, the peers' flags and the log, where
the new entries satisfy `A`. -/
structure Quiet (A : Note → Prop) (c c' : Client) : Prop where
  pieces : SameCore c.torrent.pieces c'.torrent.pieces
  torrent : c'.torrent = { c.torrent with pieces := c'.torrent.pieces }
  pieceBitfield : c'.picker.pieceBitfield = c.picker.pieceBitfield
  registered : c'.registered = c.registered
  log : ∃ ns, c'.log = ns ++ c.log ∧ ∀ n ∈ ns, A n

namespace Quiet

variable {A B : Note → Prop} {c c₁ c₂ : Client}

theorem refl (A : Note → Prop) (c : Client) : Quiet A c c := ⟨rfl, rfl, rfl, rfl, [], rfl, by simp⟩

theorem trans (h₁ : Quiet A c c₁) (h₂ : Quiet A c₁ c₂) : Quiet A c c₂ := by
  obtain ⟨ns, hns, hA⟩ := h₁.log
  obtain ⟨ms, hms, hA'⟩ := h₂.log
  refine ⟨h₂.pieces.trans h₁.pieces, ?_, h₂.pieceBitfield.trans h₁.pieceBitfield,
    h₂.registered.trans h₁.registered, ms ++ ns, by rw [hms, hns, List.append_assoc], ?_⟩
  · rw [h₂.torrent, h₁.torrent]
  · intro n hn
    rcases List.mem_append.1 hn with hn | hn
    · exact hA' n hn
    · exact hA n hn

theorem mono (h : Quiet A c c₁) (hAB : ∀ n, A n → B n) : Quiet B c c₁ := by
  obtain ⟨ns, hns, hA⟩ := h.log
  exact ⟨h.pieces, h.torrent, h.pieceBitfield, h.registered, ns, hns, fun n hn => hAB n (hA n hn)⟩

end Quiet

namespace Client

variable {A : Note → Prop} {c c' : Client} {p : ℕ}

theorem quiet_modifyPeer (A : Note → Prop) (c : Client) (p : ℕ) (f : Peer → Peer) :
    Quiet A c (c.modifyPeer p f) :=
  ⟨rfl, rfl, rfl, rfl, [], rfl, by simp⟩

theorem quiet_send {msg : Message} (c : Client) (p : ℕ) (h : A (.sent p msg)) :
    Quiet A c (c.send p msg) :=
  ⟨rfl, rfl, rfl, rfl, [.sent p msg], rfl, by simpa using h⟩

theorem quiet_setPieces (A : Note → Prop) {ps : List Piece} {pk : RarestFirstPicker}
    (hps : SameCore c.torrent.pieces ps) (hpk : pk.pieceBitfield = c.picker.pieceBitfield) :
    Quiet A c { c.setPieces ps with picker := pk } :=
  ⟨hps, rfl, hpk, rfl, [], rfl, by simp⟩

theorem quiet_refreshDownloadInterest (hA : ∀ n : Note, n.Control → A n)
    (h : c.refreshDownloadInterest p = .ok c') : Quiet A c c' := by
  obtain ⟨q, -, h⟩ := bind_eq_ok.1 h
  dsimp only at h
  split_ifs at h
  · cases h
    exact (quiet_send c p (hA (.sent p .interested) trivial)).trans (quiet_modifyPeer A _ p _)
  · cases h
    exact (quiet_modifyPeer A c p _).trans (quiet_send _ p (hA (.sent p .notInterested) trivial))
  · cases h
    exact .refl A c

theorem refreshDownloadInterest_rest (h : c.refreshDownloadInterest p = .ok c') :
    c'.torrent = c.torrent ∧ c'.picker = c.picker ∧ c'.peers.length = c.peers.length := by
  obtain ⟨q, -, h⟩ := bind_eq_ok.1 h
  dsimp only at h
  split_ifs at h
  · cases h
    exact ⟨rfl, rfl, List.length_modify _ _ _⟩
  · cases h
    exact ⟨rfl, rfl, List.length_modify _ _ _⟩
  · cases h
    exact ⟨rfl, rfl, rfl⟩

/-- The first part of the handler of HAVE. -/
theorem haveReceived_eq_ok {i : UInt32} (h : c.haveReceived p i = .ok c') :
    ∃ q ps, c.peers[p]? = some q ∧ i.toNat < q.piecePresent.length ∧
      c.picker.incrementPieceAvailability c.torrent.pieces i.toNat = .ok ps ∧
      refreshDownloadInterest { (c.modifyPeer p fun q =>
        { q with piecePresent := q.piecePresent.set i.toNat true }).setPieces ps with
          picker := { c.picker with dirty := true } } p = .ok c' := by
  obtain ⟨q, hq, h⟩ := bind_eq_ok.1 h
  obtain ⟨b, hb, h⟩ := bind_eq_ok.1 h
  obtain ⟨⟨pk, ps⟩, hpk, h⟩ := bind_eq_ok.1 h
  obtain ⟨hps, rfl⟩ := RarestFirstPicker.onHave_eq_ok.1 hpk
  have hlt := (List.getElem?_eq_some_iff.1 (vectorAt_eq_ok.1 hb)).1
  exact ⟨q, ps, vectorAt_eq_ok.1 hq, hlt, hps, h⟩

/-- The handler of BITFIELD. -/
theorem bitfieldReceived_eq_ok {bits : List Bool} (h : c.bitfieldReceived p bits = .ok c') :
    ∃ q c₁ ps, c.peers[p]? = some q ∧ q.piecePresent.length ≤ bits.length ∧
      (c.modifyPeer p fun q =>
        { q with piecePresent := List.zipWith (· || ·) q.piecePresent bits }).refreshDownloadInterest p
          = .ok c₁ ∧
      c.picker.incrementAll bits 0 c.torrent.pieces = .ok ps ∧
      c' = { c₁.setPieces ps with picker := { c.picker with dirty := true } } := by
  obtain ⟨q, hq, h⟩ := bind_eq_ok.1 h
  split_ifs at h with hlen
  obtain ⟨c₁, h₁, h⟩ := bind_eq_ok.1 h
  obtain ⟨⟨pk, ps⟩, hpk, h⟩ := bind_eq_ok.1 h
  cases h
  obtain ⟨hps, rfl⟩ := RarestFirstPicker.onBitfield_eq_ok.1 hpk
  obtain ⟨htorrent, hpicker, -⟩ := refreshDownloadInterest_rest h₁
  rw [htorrent, hpicker] at hps
  rw [hpicker]
  exact ⟨q, c₁, ps, vectorAt_eq_ok.1 hq, not_lt.1 hlen, h₁, hps, rfl⟩

theorem quiet_haveReceived {i : UInt32} (h : c.haveReceived p i = .ok c') :
    Quiet Note.Control c c' := by
  obtain ⟨q, ps, -, -, hps, h⟩ := haveReceived_eq_ok h
  have hset : Quiet Note.Control c { c.setPieces ps with picker := { c.picker with dirty := true } } :=
    quiet_setPieces _ (RarestFirstPicker.sameCore_increment hps) rfl
  exact hset.trans ((quiet_modifyPeer _ _ p _).trans (quiet_refreshDownloadInterest (fun _ hn => hn) h))

theorem quiet_bitfieldReceived {bits : List Bool} (h : c.bitfieldReceived p bits = .ok c') :
    Quiet Note.Control c c' := by
  obtain ⟨q, c₁, ps, -, -, h₁, hps, rfl⟩ := bitfieldReceived_eq_ok h
  obtain ⟨htorrent, hpicker, -⟩ := refreshDownloadInterest_rest h₁
  have hsame : SameCore c₁.torrent.pieces ps :=
    htorrent ▸ RarestFirstPicker.sameCore_incrementAll hps
  have hbits : c.picker.pieceBitfield = c₁.picker.pieceBitfield := by
    rw [hpicker]
    rfl
  exact ((quiet_modifyPeer _ c p _).trans (quiet_refreshDownloadInterest (fun _ hn => hn) h₁)).trans
    (quiet_setPieces _ hsame hbits)

theorem quiet_chokeUpload (h : c.chokeUpload p = .ok c') : Quiet Note.Control c c' := by
  obtain ⟨q, -, h⟩ := bind_eq_ok.1 h
  split_ifs at h
  · cases h
    exact .refl _ c
  · cases h
    exact (quiet_modifyPeer _ c p _).trans (quiet_send _ p trivial)

theorem quiet_unchokeUpload (h : c.unchokeUpload p = .ok c') : Quiet Note.Control c c' := by
  obtain ⟨q, -, h⟩ := bind_eq_ok.1 h
  split_ifs at h
  · cases h
    exact (quiet_modifyPeer _ c p _).trans (quiet_send _ p trivial)
  · cases h
    exact .refl _ c

/-- A report to the peers sends HAVE and changes the interest. -/
theorem quiet_pieceComplete {i : ℕ} (h : c.pieceComplete i = .ok c') :
    Quiet Note.Notice c c' := by
  unfold pieceComplete at h
  generalize c.registered = ps at h
  induction ps generalizing c with
  | nil =>
    cases h
    exact .refl _ _
  | cons q ps ih =>
    rw [List.foldlM_cons] at h
    obtain ⟨c₁, h₁, h⟩ := bind_eq_ok.1 h
    have hrefresh := quiet_refreshDownloadInterest (A := Note.Notice) (fun _ hn => .inl hn) h₁
    exact ((quiet_send _ q (.inr ⟨q, .ofNat i, rfl⟩)).trans hrefresh).trans (ih h)

theorem haveReceived_of_handleMessage {i : UInt32} {b : Bool}
    (h : c.handleMessage p (.haveMsg i) = .ok (c', b)) :
    (c.note (.received p (.haveMsg i))).haveReceived p i = .ok c' := by
  obtain ⟨c₁, h₁, h⟩ := bind_eq_ok.1 h
  obtain ⟨q, -, h⟩ := bind_eq_ok.1 h
  cases h
  exact h₁

theorem bitfieldReceived_of_handleMessage {bits : List Bool} {b : Bool}
    (h : c.handleMessage p (.bitField bits) = .ok (c', b)) :
    (c.note (.received p (.bitField bits))).bitfieldReceived p bits = .ok c' := by
  obtain ⟨c₁, h₁, h⟩ := bind_eq_ok.1 h
  cases h
  exact h₁

theorem pieceReceived_of_handleMessage {i o : UInt32} {d : List UInt8} {b : Bool}
    (h : c.handleMessage p (.piece i o d) = .ok (c', b)) :
    (c.note (.received p (.piece i o d))).pieceReceived p i o d = .ok c' := by
  obtain ⟨c₁, h₁, h⟩ := bind_eq_ok.1 h
  cases h
  exact h₁

/-- The first part of a message handler, but for REQUEST and PIECE. -/
theorem quiet_handleMessage {msg : Message} {b : Bool} (h : c.handleMessage p msg = .ok (c', b))
    (hreq : ∀ i o l, msg ≠ .request i o l) (hpiece : ∀ i o d, msg ≠ .piece i o d) :
    Quiet Note.Control (c.note (.received p msg)) c' := by
  cases msg with
  | keepAlive =>
    cases h
    exact .refl _ _
  | choke =>
    cases h
    exact quiet_modifyPeer _ _ p _
  | unchoke =>
    cases h
    exact quiet_modifyPeer _ _ p _
  | interested =>
    cases h
    exact quiet_modifyPeer _ _ p _
  | notInterested =>
    cases h
    exact quiet_modifyPeer _ _ p _
  | haveMsg i => exact quiet_haveReceived (haveReceived_of_handleMessage h)
  | bitField bits => exact quiet_bitfieldReceived (bitfieldReceived_of_handleMessage h)
  | request i o l => exact absurd rfl (hreq i o l)
  | piece i o d => exact absurd rfl (hpiece i o d)
  | cancel i o l =>
    cases h
    exact .refl _ _

/-- The first part of the handler of PIECE. -/
theorem pieceReceived_eq_ok {i o : UInt32} {d : List UInt8} (h : c.pieceReceived p i o d = .ok c') :
    ∃ r piece block t, c.picker.getPiece i.toNat = .ok r ∧ c.torrent.pieces[r]? = some piece ∧
      piece.blocks[o.toNat / Piece.nominalBlockSize]? = some block ∧
      (c.setPieces (c.torrent.pieces.set r
        (piece.modifyBlock o.toNat (Block.setRequested · false)))).torrent.writeBlock
          i.toNat o.toNat d = .ok t ∧
      c' = { c with
        torrent := t
        peers := c.peers.modify p fun q =>
          { q with blocksInQueue := u32 (q.blocksInQueue + 2 ^ 32 - 1) } } := by
  obtain ⟨r, hr, h⟩ := bind_eq_ok.1 h
  obtain ⟨piece, hpiece, h⟩ := bind_eq_ok.1 h
  obtain ⟨block, hblock, h⟩ := bind_eq_ok.1 h
  obtain ⟨t, ht, h⟩ := bind_eq_ok.1 h
  cases h
  exact ⟨r, piece, block, t, hr, vectorAt_eq_ok.1 hpiece, Piece.getBlockByOffset_eq_ok.1 hblock, ht,
    rfl⟩

/-! ### `request_blocks` -/

/-- The condition of the loop of `request_blocks`. -/
def roomFor (c : Client) (p : ℕ) : Bool := c.peers[p]?.any (·.blocksInQueue < blockPipelineSize)

/-- The candidates that the loop comes to before it has no room for more. -/
def visited (p : ℕ) : List ℕ → Client → List ℕ
  | [], _ => []
  | r :: rs, c => if c.roomFor p then r :: visited p rs (c.requestPiece p r) else []

/-- The pieces that `request_blocks` comes to. -/
def comesTo (ch : SortChoice) (p : ℕ) (c : Client) : List ℕ :=
  match c.peers[p]?, c.picker.refresh ch c.torrent.pieces with
  | some q, .ok pk => visited p (pk.candidates c.torrent.pieces q.hasPiece) { c with picker := pk }
  | _, _ => []

/-- With a full queue `request_blocks` comes to no piece. -/
theorem comesTo_of_full {ch : SortChoice} (h : c.roomFor p = false) : comesTo ch p c = [] := by
  unfold comesTo
  split
  · next pk _ _ =>
    rcases pk.candidates c.torrent.pieces _ with _ | ⟨r, rs⟩
    · rfl
    · rw [visited, if_neg (by simpa [roomFor] using h)]
  · rfl

/-- Ask for the free blocks of several pieces. -/
def requestPieces (p : ℕ) (rs : List ℕ) (c : Client) : Client :=
  rs.foldl (fun c r => c.requestPiece p r) c

@[simp] theorem picker_requestPiece (c : Client) (p r : ℕ) :
    (c.requestPiece p r).picker = c.picker := by
  unfold requestPiece
  split <;> rfl

theorem piecePresent_requestPiece (c : Client) (p r : ℕ) :
    (c.requestPiece p r).peers.map (·.piecePresent) = c.peers.map (·.piecePresent) := by
  unfold requestPiece
  split
  · rfl
  · apply List.ext_getElem? fun j => ?_
    simp only [List.getElem?_map, List.getElem?_modify]
    split_ifs <;> simp [Function.comp_def]

theorem hasPiece_requestPiece {q q' : Peer} {r : ℕ} (hq : c.peers[p]? = some q)
    (hq' : (c.requestPiece p r).peers[p]? = some q') : q'.hasPiece = q.hasPiece := by
  have := congrArg (·[p]?) (piecePresent_requestPiece c p r)
  simp only [List.getElem?_map, hq, hq', Option.map_some, Option.some.injEq] at this
  funext i
  rw [Peer.hasPiece, this, Peer.hasPiece]

/-- Asking for blocks changes no candidate. -/
theorem candidate_requestPiece (c : Client) (r : ℕ) (hasPiece : ℕ → Except Fault Bool) :
    RarestFirstPicker.candidate (c.requestPiece p r).torrent.pieces hasPiece =
      RarestFirstPicker.candidate c.torrent.pieces hasPiece := by
  funext s
  unfold requestPiece
  rcases hr : c.torrent.pieces[r]? with _ | piece
  · rfl
  · simp only [setPieces, RarestFirstPicker.candidate, getElem?_set_of_some hr]
    split_ifs with hs
    · subst hs
      simp [hr, Piece.complete, Piece.requestFree]
    · rfl

theorem candidates_requestPiece (c : Client) (r : ℕ) (pk : RarestFirstPicker)
    (hasPiece : ℕ → Except Fault Bool) :
    pk.candidates (c.requestPiece p r).torrent.pieces hasPiece =
      pk.candidates c.torrent.pieces hasPiece := by
  rw [RarestFirstPicker.candidates, candidate_requestPiece, RarestFirstPicker.candidates]

/-- With a picker that is not dirty, the loop asks for the blocks of the candidates from number `k`
on, as long as there is room. -/
theorem requestLoop_eq_ok {ch : SortChoice} {fuel k : ℕ} {q : Peer} (hd : c.picker.dirty = false)
    (hq : c.peers[p]? = some q)
    (hfuel : (c.picker.candidates c.torrent.pieces q.hasPiece).length < fuel + k)
    (h : requestLoop ch p fuel k c = .ok c') :
    c' = requestPieces p
      (visited p ((c.picker.candidates c.torrent.pieces q.hasPiece).drop k) c) c := by
  induction fuel generalizing c k q with
  | zero =>
    rw [List.drop_eq_nil_of_le (by omega)]
    exact (Except.ok.inj h).symm
  | succ fuel ih =>
    obtain ⟨q', hq', h⟩ := bind_eq_ok.1 h
    obtain rfl : q = q' := Option.some.inj (hq.symm.trans (vectorAt_eq_ok.1 hq'))
    by_cases hroom : q.blocksInQueue < blockPipelineSize
    · have hr : c.roomFor p = true := by simp [roomFor, hq, hroom]
      rw [if_pos hroom] at h
      obtain ⟨⟨pk, res⟩, hnext, h⟩ := bind_eq_ok.1 h
      obtain ⟨hpk, rfl⟩ := RarestFirstPicker.next_eq_ok hnext
      obtain rfl : c.picker = pk := by
        rw [RarestFirstPicker.refresh, if_neg (by simp [hd])] at hpk
        exact Except.ok.inj hpk
      rcases hk : (c.picker.candidates c.torrent.pieces q.hasPiece)[k]? with _ | r
      · rw [hk] at h
        rw [List.drop_eq_nil_of_le (by simpa using hk)]
        exact (Except.ok.inj h).symm
      · rw [hk] at h
        obtain ⟨hlt, hget⟩ := List.getElem?_eq_some_iff.1 hk
        obtain ⟨q', hq'⟩ : ∃ q', (c.requestPiece p r).peers[p]? = some q' := by
          have := congrArg (·[p]?) (piecePresent_requestPiece c p r)
          simp only [List.getElem?_map, hq, Option.map_some] at this
          obtain ⟨q', hq', -⟩ := Option.map_eq_some_iff.1 this
          exact ⟨q', hq'⟩
        have hsame : (c.requestPiece p r).picker.candidates (c.requestPiece p r).torrent.pieces
            q'.hasPiece = c.picker.candidates c.torrent.pieces q.hasPiece := by
          rw [hasPiece_requestPiece hq hq', picker_requestPiece, candidates_requestPiece]
        have := ih (by rwa [picker_requestPiece]) hq' (by rw [hsame]; omega) h
        rw [hsame] at this
        rw [List.drop_eq_getElem_cons hlt, hget, visited, if_pos hr]
        exact this
    · rw [if_neg hroom] at h
      have hr : c.roomFor p = false := by simp [roomFor, hq, hroom]
      rw [← Except.ok.inj h]
      rcases (c.picker.candidates c.torrent.pieces q.hasPiece).drop k with _ | ⟨r, rs⟩
      · rfl
      · rw [visited, hr]
        rfl

/-- With room in the pipeline, the first round refreshes the picker and nothing else depends on
whether it was dirty. -/
theorem requestLoop_refresh {ch : SortChoice} {fuel : ℕ} {q : Peer} (hq : c.peers[p]? = some q)
    (hroom : q.blocksInQueue < blockPipelineSize)
    (h : requestLoop ch p (fuel + 1) 0 c = .ok c') :
    ∃ pk, c.picker.refresh ch c.torrent.pieces = .ok pk ∧
      requestLoop ch p (fuel + 1) 0 { c with picker := pk } = .ok c' := by
  obtain ⟨q', hq', h⟩ := bind_eq_ok.1 h
  obtain rfl : q = q' := Option.some.inj (hq.symm.trans (vectorAt_eq_ok.1 hq'))
  rw [if_pos hroom] at h
  obtain ⟨⟨pk, res⟩, hnext, h⟩ := bind_eq_ok.1 h
  obtain ⟨pk', hpk, hscan⟩ := bind_eq_ok.1 hnext
  obtain ⟨res', hres, hscan⟩ := bind_eq_ok.1 hscan
  cases hscan
  refine ⟨pk, hpk, bind_eq_ok.2 ⟨q, hq', ?_⟩⟩
  rw [if_pos hroom]
  refine bind_eq_ok.2 ⟨(pk, res), bind_eq_ok.2 ⟨pk, ?_, bind_eq_ok.2 ⟨res, hres, rfl⟩⟩, h⟩
  rw [RarestFirstPicker.refresh, if_neg (by simp [(RarestFirstPicker.refresh_eq_ok hpk).2.1])]

/-- `request_blocks` asks for the free blocks of the pieces it comes to; the picker may be sorted
before, and nothing else changes. -/
theorem requestBlocks_refreshed {ch : SortChoice} (h : requestBlocks ch p c = .ok c') :
    (∃ q, c.peers[p]? = some q) ∧
      ∃ pk, (c.picker.refresh ch c.torrent.pieces = .ok pk ∨ pk = c.picker) ∧
        c' = requestPieces p (comesTo ch p c) { c with picker := pk } := by
  obtain ⟨q, hq, -⟩ := bind_eq_ok.1 h
  rw [vectorAt_eq_ok] at hq
  refine ⟨⟨q, hq⟩, ?_⟩
  by_cases hroom : q.blocksInQueue < blockPipelineSize
  · obtain ⟨pk, hpk, h⟩ := requestLoop_refresh hq hroom h
    obtain ⟨hbits, hd, hlen⟩ := RarestFirstPicker.refresh_eq_ok hpk
    refine ⟨pk, .inl hpk, ?_⟩
    rw [requestLoop_eq_ok (c := { c with picker := pk }) hd hq ?_ h, comesTo, hq, hpk]
    · rfl
    · have : (pk.candidates c.torrent.pieces q.hasPiece).length ≤ _ := List.length_filter_le _ _
      dsimp only
      omega
  · have hnone : comesTo ch p c = [] := comesTo_of_full (by simp [roomFor, hq, hroom])
    refine ⟨c.picker, .inr rfl, ?_⟩
    obtain ⟨q', hq', h⟩ := bind_eq_ok.1 h
    obtain rfl : q = q' := Option.some.inj (hq.symm.trans (vectorAt_eq_ok.1 hq'))
    rw [if_neg hroom] at h
    rw [hnone, ← Except.ok.inj h]
    rfl

theorem requestBlocks_eq_ok {ch : SortChoice} (h : requestBlocks ch p c = .ok c') :
    ∃ pk : RarestFirstPicker, pk.pieceBitfield = c.picker.pieceBitfield ∧
      c' = requestPieces p (comesTo ch p c) { c with picker := pk } := by
  obtain ⟨-, pk, hpk | rfl, hc⟩ := requestBlocks_refreshed h
  · exact ⟨pk, (RarestFirstPicker.refresh_eq_ok hpk).1, hc⟩
  · exact ⟨c.picker, rfl, hc⟩

end Client

end FTorrent
