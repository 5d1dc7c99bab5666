import FTorrent.Requests

/-!
# No block is lost to the download

A set requested flag keeps a block from being asked for again, so for a block that is not complete and
not being written it must not outlive the REQUEST behind it.  CHOKE and the removal of a peer end
REQUESTs and release nothing.  A PIECE releases a flag, that of the block which the picker's lookup
finds; where this is another block, the flag of its own one stays set, which does no harm until a
validation of the piece fails.  As long as none of these takes the last live REQUEST from a set flag that
matters, every such flag has one (`Covered`), and no block is lost.
-/

namespace FTorrent

open Lib

namespace Client

/-- Every block that is not complete and not being written can be asked for or has been asked for, of
a registered peer that has not choked us since. -/
def NotLost (c : Client) : Prop :=
  ∀ i j b, c.torrent.blockAt i j = some b → b.complete = false →
    (∀ op ∈ c.torrent.writes,
      ¬ (op.pieceIndex = i ∧ op.blockOffset / Piece.nominalBlockSize = j)) →
    b.requested = false ∨ ∃ p ∈ c.registered, (p, i, b.offset) ∈ live c.log

/-- Nothing is being written to the block. -/
def NotWritten (c : Client) (i j : ℕ) : Prop :=
  ∀ op ∈ c.torrent.writes, ¬ (op.pieceIndex = i ∧ op.blockOffset / Piece.nominalBlockSize = j)

/-- One of the keys is that of a REQUEST for the block at a registered peer. -/
def AskedOf (registered : List ℕ) (keys : List RequestKey) (i j : ℕ) : Prop :=
  ∃ p ∈ registered, (p, i, j * Piece.nominalBlockSize) ∈ keys

/-- The set flag of a block that is not complete and not being written has a live REQUEST behind it among
`keys`, at a registered peer. -/
def CoveredBy (c : Client) (registered : List ℕ) (keys : List RequestKey) : Prop :=
  ∀ i j b, c.torrent.blockAt i j = some b → b.requested = true → b.complete = false →
    c.NotWritten i j → AskedOf registered keys i j

/-- The event does not leave a set flag that matters without a live REQUEST: a peer that chokes us or
leaves is not the only one behind it, and a validation that fails finds one behind each set flag of its
piece, except for blocks that are being written again. -/
def Releases (sha1 : List UInt8 → Hash) (c : Client) : Event → Prop
  | .message _ p .choke | .removePeer p =>
      c.CoveredBy c.registered ((live c.log).filter (·.1 ≠ p))
  | .validated op => ∀ piece, c.torrent.pieces[op.pieceIndex]? = some piece →
      hashValid sha1 op.buffer piece.hash = false → ∀ j b, piece.blocks[j]? = some b →
        b.requested = true → c.NotWritten op.pieceIndex j →
          AskedOf c.registered (live c.log) op.pieceIndex j
  | _ => True

/-- Every set flag that matters has a live REQUEST behind it. -/
structure Covered (m : Metainfo) (c : Client) : Prop where
  laidOut : Torrent.LaidOut m c.torrent
  offsets : ∀ op ∈ c.torrent.writes, op.blockOffset < 2 ^ 32
  live : c.CoveredBy c.registered (live c.log)

namespace Covered

variable {sha1 : List UInt8 → Hash} {m : Metainfo} {content : ℕ → UInt8} {c c' : Client} {p : ℕ}

theorem notLost (h : Covered m c) : c.NotLost := by
  intro i j b hb hc hw
  by_cases hreq : b.requested = true
  · obtain ⟨p, hp, hmem⟩ := h.live i j b hb hreq hc hw
    rw [(h.laidOut.blockAt hb).2.1]
    exact .inr ⟨p, hp, hmem⟩
  · exact .inl (by simpa using hreq)

theorem init : Covered m (init m content) := by
  refine ⟨Torrent.LaidOut.init m content, nofun, fun i j b hb hreq => ?_⟩
  obtain ⟨piece, hp, hb⟩ := Torrent.blockAt_eq_some.1 hb
  obtain ⟨-, hash, -, rfl⟩ := Metainfo.getElem?_generatePieces hp
  obtain ⟨-, rfl⟩ := Piece.getElem?_make_blocks hb
  cases hreq

/-- A step after which every set flag that matters mattered before, and that keeps the live requests. -/
theorem of_flags (h : Covered m c) (hl : Torrent.LaidOut m c'.torrent)
    (hoff : ∀ op ∈ c'.torrent.writes, op.blockOffset < 2 ^ 32)
    (hflags : ∀ i j b', c'.torrent.blockAt i j = some b' → b'.requested = true → b'.complete = false →
      c'.NotWritten i j → ∃ b, c.torrent.blockAt i j = some b ∧ b.requested = true ∧
        b.complete = false ∧ c.NotWritten i j)
    (hreg : ∀ p ∈ c.registered, p ∈ c'.registered) (hlive : FTorrent.live c'.log = FTorrent.live c.log) :
    Covered m c' := by
  refine ⟨hl, hoff, fun i j b' hb' hreq hc hw => ?_⟩
  obtain ⟨b, hb, hreq, hc, hw⟩ := hflags i j b' hb' hreq hc hw
  obtain ⟨p, hp, hmem⟩ := h.live i j b hb hreq hc hw
  exact ⟨p, hreg p hp, hlive ▸ hmem⟩

theorem of_quiet {A : Note → Prop} (h : Covered m c) (hq : Quiet A c c')
    (hA : ∀ n, A n → n.Neutral) : Covered m c' := by
  obtain ⟨ns, hns, hns'⟩ := hq.log
  have hwrites : c'.torrent.writes = c.torrent.writes := by rw [hq.torrent]
  refine h.of_flags (h.laidOut.of_shapes (by rw [hq.torrent]) hq.pieces.shapes)
    (hwrites ▸ h.offsets) (fun i j b hb hreq hc hw => ⟨b, ?_, hreq, hc, ?_⟩)
    (fun p hp => hq.registered ▸ hp) ?_
  · rwa [Torrent.blockAt_sameCore hq.pieces] at hb
  · rwa [NotWritten, hwrites] at hw
  · rw [hns]
    exact history_append fun n hn => (hA n (hns' n hn)).live

/-- A step of the torrent that leaves the pieces and the writes alone. -/
theorem of_torrent (h : Covered m c) {t : Torrent} (hn : t.nominalPieceSize = c.torrent.nominalPieceSize)
    (hp : t.pieces = c.torrent.pieces) (hw : t.writes = c.torrent.writes) :
    Covered m { c with torrent := t } := by
  refine h.of_flags (h.laidOut.of_shapes hn (by rw [hp])) (hw ▸ h.offsets)
    (fun i j b hb hreq hc hwritten => ⟨b, ?_, hreq, hc, ?_⟩) (fun p hp => hp) rfl
  · rwa [Torrent.blockAt, hp] at hb
  · rwa [NotWritten, hw] at hwritten

/-- A step of the torrent in which a write takes the place of one of the same block. -/
theorem replace (h : Covered m c) {op op' : WriteOp} {t : Torrent} (hop : op ∈ c.torrent.writes)
    (hn : t.nominalPieceSize = c.torrent.nominalPieceSize) (hp : t.pieces = c.torrent.pieces)
    (hw : t.writes = op' :: c.torrent.writes.erase op) (hindex : op'.pieceIndex = op.pieceIndex)
    (hoffset : op'.blockOffset = op.blockOffset) : Covered m { c with torrent := t } := by
  refine h.of_flags (h.laidOut.of_shapes hn (by rw [hp])) ?_
    (fun i j b hb hreq hc hwritten => ⟨b, ?_, hreq, hc, fun v hv => ?_⟩) (fun p hp => hp) rfl
  · change ∀ v ∈ t.writes, v.blockOffset < 2 ^ 32
    rw [hw]
    exact forall_mem_replace h.offsets (hoffset ▸ h.offsets op hop)
  · rwa [Torrent.blockAt, hp] at hb
  · change ∀ v ∈ t.writes, _ at hwritten
    rw [hw] at hwritten
    by_cases hvop : v = op
    · rw [hvop, ← hindex, ← hoffset]
      exact hwritten op' List.mem_cons_self
    · exact hwritten v (List.mem_cons_of_mem _ ((List.mem_erase_of_ne hvop).2 hv))

/-- Asking a registered peer for the free blocks of a piece. -/
theorem requestPiece (h : Covered m c) (hp : p ∈ c.registered) (r : ℕ) :
    Covered m (c.requestPiece p r) := by
  have hf := frame_requestPiece c p r
  refine ⟨h.laidOut.of_shapes hf.nominal hf.shapes, by rw [writes_requestPiece]; exact h.offsets,
    fun i j b' hb' hreq hc hw => ?_⟩
  rw [history_requestPiece recordsRequests_live h.laidOut, hf.registered]
  rw [NotWritten, writes_requestPiece] at hw
  rw [blockAt_requestPiece] at hb'
  obtain ⟨b, hb, rfl⟩ := Option.map_eq_some_iff.1 hb'
  by_cases hnew : r = i ∧ b.free = true
  · obtain ⟨rfl, hfree⟩ := hnew
    exact ⟨p, hp, List.mem_append_left _ ((mem_newKeys h.laidOut).2 ⟨j, b, hb, hfree, rfl⟩)⟩
  · have hsame : (if r = i then if b.free = true then b.setRequested true else b else b) = b := by
      split_ifs with hi hfree
      · exact absurd ⟨hi, hfree⟩ hnew
      · rfl
      · rfl
    rw [hsame] at hreq hc
    obtain ⟨q, hq, hmem⟩ := h.live i j b hb hreq hc hw
    exact ⟨q, hq, List.mem_append_right _ hmem⟩

theorem requestPieces (h : Covered m c) (hp : p ∈ c.registered) (rs : List ℕ) :
    Covered m (requestPieces p rs c) := by
  induction rs generalizing c with
  | nil => exact h
  | cons r rs ih =>
    refine ih (h.requestPiece hp r) ?_
    rw [(frame_requestPiece c p r).registered]
    exact hp

/-- The first part of the handler of PIECE: the block whose REQUEST it answers is being written now. -/
theorem pieceReceived (h : Covered m c) {i o : UInt32} {d : List UInt8}
    (hc : (c.note (.received p (.piece i o d))).pieceReceived p i o d = .ok c') : Covered m c' := by
  have hf := frame_pieceReceived hc
  obtain ⟨r, -, -, -, hat, hwrites, hlog, hreg⟩ := blockAt_pieceReceived hc
  change c'.torrent.writes = c.torrent.writes ++ _ at hwrites
  refine ⟨h.laidOut.of_shapes hf.nominal hf.shapes, ?_, fun k j b' hb' hreq hcomp hw => ?_⟩
  · rw [hwrites, List.forall_mem_append, List.forall_mem_singleton]
    exact ⟨h.offsets, o.toNat_lt⟩
  · rw [NotWritten, hwrites, List.forall_mem_append, List.forall_mem_singleton] at hw
    rw [hreg, hlog]
    change ∃ q ∈ c.registered, _ ∈ (FTorrent.live c.log).erase (p, i.toNat, o.toNat)
    rw [hat] at hb'
    obtain ⟨b, hb, rfl⟩ := Option.map_eq_some_iff.1 hb'
    change c.torrent.blockAt k j = some b at hb
    have hold : b.requested = true ∧ b.complete = false := by
      split_ifs at hreq hcomp
      · cases hreq
      · exact ⟨hreq, hcomp⟩
      · exact ⟨hreq, hcomp⟩
    obtain ⟨q, hq, hmem⟩ := h.live k j b hb hold.1 hold.2 hw.1
    refine ⟨q, hq, (List.mem_erase_of_ne fun heq => hw.2 ?_).2 hmem⟩
    simp only [Prod.mk.injEq] at heq
    refine ⟨heq.2.1.symm, ?_⟩
    show o.toNat / Piece.nominalBlockSize = j
    rw [← heq.2.2, Nat.mul_div_cancel _ (by decide)]

/-- The first part of a message handler. -/
theorem handleMessage (h : Covered m c) {ch : SortChoice} {msg : Message} {b : Bool}
    (hc : c.handleMessage p msg = .ok (c', b)) (hC : c.Releases sha1 (.message ch p msg)) :
    Covered m c' := by
  by_cases hpiece : ∃ i o d, msg = .piece i o d
  · obtain ⟨i, o, d, rfl⟩ := hpiece
    exact h.pieceReceived (pieceReceived_of_handleMessage hc)
  · by_cases hreq : ∃ i o l, msg = .request i o l
    · obtain ⟨i, o, l, rfl⟩ := hreq
      cases hc
      exact ⟨⟨h.laidOut.nominal, h.laidOut.shapes⟩, h.offsets, h.live⟩
    · have hq := quiet_handleMessage hc (fun i o l he => hreq ⟨i, o, l, he⟩)
        fun i o d he => hpiece ⟨i, o, d, he⟩
      suffices hnote : Covered m (c.note (.received p msg)) from
        hnote.of_quiet hq fun n hn => Note.Notice.neutral (.inl hn)
      refine ⟨⟨h.laidOut.nominal, h.laidOut.shapes⟩, h.offsets, ?_⟩
      by_cases hchoke : msg = .choke
      · subst hchoke
        exact hC
      · have hn : (Note.received p msg).Neutral := by
          cases msg with
          | choke => exact absurd rfl hchoke
          | piece i o d => exact absurd ⟨i, o, d, rfl⟩ hpiece
          | _ => exact True.intro
        intro i j b hb hreq hcomp hw
        obtain ⟨q, hq, hmem⟩ := h.live i j b hb hreq hcomp hw
        exact ⟨q, hq, (hn.live c.log).symm ▸ hmem⟩

/-- A completed write makes its block complete. -/
theorem written (h : Covered m c) {op : WriteOp} {e : ErrorCode} {t : Torrent}
    (hl : Torrent.LaidOut m t) (ht : c.torrent.writeHandler op e = .ok t) :
    Covered m { c with torrent := t } := by
  have hat := Torrent.blockAt_written ht
  obtain ⟨hop, -, -, q, q', -, -, heq⟩ := Torrent.writeHandler_eq_ok.1 ht
  have hwrites : t.writes = c.torrent.writes.erase op := by rw [heq]
  rw [u32_of_lt (h.offsets op hop)] at hat
  refine h.of_flags hl (fun v hv => h.offsets v (List.mem_of_mem_erase (hwrites ▸ hv)))
    (fun i j b' hb' hreq hcomp hw => ?_) (fun p hp => hp) rfl
  change t.blockAt i j = some b' at hb'
  change ∀ v ∈ t.writes, _ at hw
  rw [hwrites] at hw
  rw [hat] at hb'
  obtain ⟨b, hb, rfl⟩ := Option.map_eq_some_iff.1 hb'
  have hother : ¬ (op.pieceIndex = i ∧ op.blockOffset / Piece.nominalBlockSize = j) := by
    rintro ⟨hi, hj⟩
    rw [if_pos hi, if_pos hj] at hcomp
    cases hcomp
  have hsame : (if op.pieceIndex = i then
      if op.blockOffset / Piece.nominalBlockSize = j then b.setComplete true else b else b) = b := by
    split_ifs with hi hj
    · exact absurd ⟨hi, hj⟩ hother
    · rfl
    · rfl
  rw [hsame] at hreq hcomp
  refine ⟨b, hb, hreq, hcomp, fun v hv => ?_⟩
  by_cases hvop : v = op
  · rw [hvop]
    exact hother
  · exact hw v ((List.mem_erase_of_ne hvop).2 hv)

/-- A failed validation makes the blocks of its piece incomplete. -/
theorem reset (h : Covered m c) {op : ValidateOp} {piece : Piece} {t : Torrent}
    (hl : Torrent.LaidOut m t) (hp : c.torrent.pieces[op.pieceIndex]? = some piece)
    (ht : c.torrent.validationHandler op false = .ok t)
    (hC : ∀ j b, piece.blocks[j]? = some b → b.requested = true → c.NotWritten op.pieceIndex j →
      AskedOf c.registered (FTorrent.live c.log) op.pieceIndex j) :
    Covered m ({ c with torrent := t }.note (.reset op.pieceIndex)) := by
  have hat := Torrent.blockAt_reset ht
  obtain ⟨-, q, -, ⟨hf, -⟩ | ⟨-, heq⟩⟩ := Torrent.validationHandler_eq_ok.1 ht
  · cases hf
  · have hwrites : t.writes = c.torrent.writes := by rw [heq]
    refine ⟨⟨hl.nominal, hl.shapes⟩, fun v hv => h.offsets v (hwrites ▸ hv),
      fun i j b' hb' hreq hcomp hw => ?_⟩
    change t.blockAt i j = some b' at hb'
    change ∀ v ∈ t.writes, _ at hw
    rw [hwrites] at hw
    rw [hat] at hb'
    obtain ⟨b, hb, rfl⟩ := Option.map_eq_some_iff.1 hb'
    by_cases hi : op.pieceIndex = i
    · subst hi
      obtain ⟨piece', hp', hget⟩ := Torrent.blockAt_eq_some.1 hb
      obtain rfl : piece = piece' := Option.some.inj (hp.symm.trans hp')
      rw [if_pos rfl] at hreq
      exact hC j b hget hreq hw
    · rw [if_neg hi] at hreq hcomp
      exact h.live i j b hb hreq hcomp hw

theorem step {ev : Event} (h : Covered m c) (hs : c.step sha1 ev = .ok c')
    (hC : c.Releases sha1 ev) : Covered m c' := by
  have hl := laidOut_step h.laidOut hs
  cases ev with
  | addPeer =>
    cases hs
    exact h.of_flags hl h.offsets (fun i j b hb hreq hc hw => ⟨b, hb, hreq, hc, hw⟩)
      (fun p hp => List.mem_append_left _ hp) rfl
  | removePeer p =>
    cases hs
    unfold removePeer
    split_ifs with hp
    · refine ⟨h.laidOut, h.offsets, fun i j b hb hreq hcomp hw => ?_⟩
      obtain ⟨q, hq, hmem⟩ := hC i j b hb hreq hcomp hw
      have hne : q ≠ p := by simpa using (List.mem_filter.1 hmem).2
      exact ⟨q, (List.mem_erase_of_ne hne).2 hq, hmem⟩
    · exact h
  | message ch p msg =>
    obtain ⟨hp, hs⟩ := message_eq_ok.1 hs
    obtain ⟨c₁, requests, h₁, hs⟩ := messageHandler_eq_ok hs
    have hcov := h.handleMessage h₁ hC
    cases requests with
    | false =>
      obtain rfl := hs
      exact hcov
    | true =>
      obtain ⟨pk, -, rfl⟩ := hs
      have hp₁ : p ∈ c₁.registered := by
        rw [(frame_handleMessage h₁).registered]
        exact hp
      have hpk : Covered m { c₁ with picker := pk } := ⟨hcov.laidOut, hcov.offsets, hcov.live⟩
      exact hpk.requestPieces hp₁ _
  | chokeUpload p => exact h.of_quiet (quiet_chokeUpload hs) fun n hn => Note.Notice.neutral (.inl hn)
  | unchokeUpload p =>
    exact h.of_quiet (quiet_unchokeUpload hs) fun n hn => Note.Notice.neutral (.inl hn)
  | transfer op n =>
    obtain ⟨t, ht, rfl⟩ := torrent_eq_ok hs
    obtain ⟨hop, -, rfl⟩ := Torrent.transfer_eq_ok.1 ht
    exact h.replace hop rfl rfl rfl rfl rfl
  | reuse op bytes =>
    obtain ⟨t, ht, rfl⟩ := torrent_eq_ok hs
    obtain ⟨hop, -, -, rfl⟩ := Torrent.reuse_eq_ok.1 ht
    exact h.replace hop rfl rfl rfl rfl rfl
  | written op e =>
    obtain ⟨t, ht, rfl⟩ := torrent_eq_ok hs
    exact h.written hl ht
  | fetch op n =>
    obtain ⟨t, ht, rfl⟩ := torrent_eq_ok hs
    obtain ⟨-, -, -, rfl⟩ := Torrent.fetchValidation_eq_ok.1 ht
    exact h.of_torrent rfl rfl rfl
  | validated op =>
    obtain ⟨piece, t, hp, ht, hc⟩ := validationDone_eq_ok hs
    split_ifs at hc with hv
    · rw [hv] at ht
      obtain ⟨-, q, -, ⟨-, ht⟩ | ⟨hf, -⟩⟩ := Torrent.validationHandler_eq_ok.1 ht
      · have hvalid : Covered m { c with torrent := t } :=
          h.of_torrent (by rw [ht]) (by rw [ht]) (by rw [ht])
        exact hvalid.of_quiet hc fun n hn => Note.Notice.neutral hn
      · cases hf
    · have hinvalid := Bool.eq_false_iff.2 hv
      rw [hinvalid] at ht
      have hlt : Torrent.LaidOut m t := by
        rw [hc] at hl
        exact hl
      rw [hc]
      exact h.reset hlt hp ht (hC piece hp hinvalid)
  | fetchRead op n =>
    obtain ⟨t, ht, rfl⟩ := torrent_eq_ok hs
    obtain ⟨-, -, -, rfl⟩ := Torrent.fetchRead_eq_ok.1 ht
    exact h.of_torrent rfl rfl rfl
  | readDone op e i o =>
    obtain ⟨-, -, rfl⟩ := readDone_eq_ok.1 hs
    exact ⟨hl, h.offsets, h.live⟩

end Covered

variable {sha1 : List UInt8 → Hash} {m : Metainfo} {content : ℕ → UInt8} {c : Client}

/-- In every run in which no step takes the last live REQUEST from a set flag that matters, no block is
lost to the download. -/
theorem notLost_of_releases {es : List Event}
    (hr : Run (Along (StepOf (step sha1)) (Releases sha1)) (init m content) es c) : c.NotLost := by
  have hcov : Covered m c := hr.invariant (fun _ _ _ h ⟨hs, hC⟩ => h.step hs hC) Covered.init
  exact hcov.notLost

/-- Two peers join; the first has the piece of a torrent of one byte and is asked for it. -/
def asked : List Event :=
  [.addPeer, .addPeer, .message ⟨.reverseTies, .still ℕ⟩ 0 (.haveMsg 0),
    .message ⟨.reverseTies, .still ℕ⟩ 0 .unchoke, .message ⟨.reverseTies, .still ℕ⟩ 1 .interested]

/-- The peer that was asked chokes us. -/
def askedThenChoked : List Event := asked ++ [.message ⟨.reverseTies, .still ℕ⟩ 0 .choke]

/-- Only the blocks that are there have to be looked at. -/
theorem coveredBy_iff {registered : List ℕ} {keys : List RequestKey} : c.CoveredBy registered keys ↔
    ∀ i < c.torrent.pieces.length, ∀ piece ∈ c.torrent.pieces[i]?, ∀ j < piece.blocks.length,
      ∀ b ∈ piece.blocks[j]?, b.requested = true → b.complete = false → c.NotWritten i j →
        AskedOf registered keys i j := by
  constructor
  · exact fun h i _ piece hpiece j _ b hb => h i j b (Torrent.blockAt_eq_some.2 ⟨piece, hpiece, hb⟩)
  · intro h i j b hb
    obtain ⟨piece, hpiece, hget⟩ := Torrent.blockAt_eq_some.1 hb
    exact h i (List.getElem?_eq_some_iff.1 hpiece).1 piece hpiece j
      (List.getElem?_eq_some_iff.1 hget).1 b hget

instance (c : Client) (i j : ℕ) : Decidable (c.NotWritten i j) :=
  inferInstanceAs (Decidable (∀ op ∈ c.torrent.writes,
    ¬ (op.pieceIndex = i ∧ op.blockOffset / Piece.nominalBlockSize = j)))

instance (registered : List ℕ) (keys : List RequestKey) (i j : ℕ) :
    Decidable (AskedOf registered keys i j) :=
  inferInstanceAs (Decidable (∃ p ∈ registered, (p, i, j * Piece.nominalBlockSize) ∈ keys))

instance (c : Client) (registered : List ℕ) (keys : List RequestKey) :
    Decidable (c.CoveredBy registered keys) :=
  decidable_of_iff _ coveredBy_iff.symm

/-- Only the blocks of the piece have to be looked at. -/
theorem releases_validated_iff {op : ValidateOp} : c.Releases sha1 (.validated op) ↔
    ∀ piece ∈ c.torrent.pieces[op.pieceIndex]?, hashValid sha1 op.buffer piece.hash = false →
      ∀ j < piece.blocks.length, ∀ b ∈ piece.blocks[j]?, b.requested = true →
        c.NotWritten op.pieceIndex j → AskedOf c.registered (live c.log) op.pieceIndex j := by
  constructor
  · exact fun h piece hpiece hv j _ b hb => h piece hpiece hv j b hb
  · exact fun h piece hpiece hv j b hb =>
      h piece hpiece hv j (List.getElem?_eq_some_iff.1 hb).1 b hb

instance (c : Client) : ∀ ev, Decidable (c.Releases sha1 ev)
  | .message _ p .choke | .removePeer p =>
    inferInstanceAs (Decidable (c.CoveredBy c.registered ((live c.log).filter (·.1 ≠ p))))
  | .validated _ => decidable_of_iff _ releases_validated_iff.symm
  | .message _ _ .keepAlive | .message _ _ .unchoke | .message _ _ .interested
  | .message _ _ .notInterested | .message _ _ (.haveMsg _) | .message _ _ (.bitField _)
  | .message _ _ (.request _ _ _) | .message _ _ (.piece _ _ _) | .message _ _ (.cancel _ _ _)
  | .addPeer | .chokeUpload _ | .unchokeUpload _ | .transfer _ _ | .reuse _ _ | .written _ _
  | .fetch _ _ | .fetchRead _ _ | .readDone _ _ _ _ => .isTrue trivial

/-- The peer that was not asked chokes us, the one that was asked answers and is asked again, the other
leaves, and the validation fails. -/
def askedAgain : List Event :=
  asked ++ [.message ⟨.reverseTies, .still ℕ⟩ 1 .choke,
    .message ⟨.reverseTies, .still ℕ⟩ 0 (.piece 0 0 [0]), .removePeer 1,
    .transfer ⟨0, 0, 0, [0], 1, 0⟩ 1, .written ⟨0, 0, 0, [0], 1, 1⟩ .success, .fetch ⟨0, 0, 1, []⟩ 1,
    .validated ⟨0, 0, 1, [0]⟩]

theorem notLost_of_releases_askedAgain : ∃ c : Client,
    Run (StepOf (step fun _ => Vector.replicate 20 1)) (init oneByte fun _ => 0) askedAgain c ∧
      c.registered = [0] ∧ c.torrent.blockAt 0 0 = some ⟨1, 0, false, true⟩ ∧
      live c.log = [(0, 0, 0)] ∧ c.NotLost := by
  obtain ⟨c, hr, hreg, hblock, hlive⟩ : ∃ c,
      Run (Along (StepOf (step fun _ => Vector.replicate 20 1)) (Releases fun _ => Vector.replicate 20 1))
        (init oneByte fun _ => 0) askedAgain c ∧
      c.registered = [0] ∧ c.torrent.blockAt 0 0 = some ⟨1, 0, false, true⟩ ∧
      live c.log = [(0, 0, 0)] :=
    exists_run_along (by decide +kernel)
  exact ⟨c, hr.mono fun _ _ _ hs => hs.1, hreg, hblock, hlive, notLost_of_releases hr⟩

theorem not_notLost_askedThenChoked :
    ¬ ∀ (sha1 : List UInt8 → Hash) (m : Metainfo) (content : ℕ → UInt8) (es : List Event) (c : Client),
      Run (StepOf (step sha1)) (init m content) es c → c.NotLost := by
  intro h
  have hr : Run (StepOf (step fun _ => Vector.replicate 20 0)) (init oneByte fun _ => 0)
      askedThenChoked _ := run_iff_foldlM.2 rfl
  rcases h _ _ _ _ _ hr 0 0 _ rfl rfl (fun op hop => by cases hop) with hflag | ⟨p, -, hlive⟩
  · cases hflag
  · cases hlive

end Client

end FTorrent
