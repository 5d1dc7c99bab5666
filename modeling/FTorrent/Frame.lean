import FTorrent.Effects

/-!
# What the handlers leave alone

No message handler touches the file, the validations, the reports, the registered peers or the
picker's bitfield.  `Frame` collects this for the handlers as a whole.  What is fixed when the pieces
are made stays so in every step of the client (`laidOut_run`).
-/

namespace FTorrent

open Lib

/-- What a message handler and a report leave alone; reads are only started.  The new entries of the
log satisfy `A`. -/
structure Frame (A : Note → Prop) (c c' : Client) : Prop where
  nominal : c'.torrent.nominalPieceSize = c.torrent.nominalPieceSize
  shapes : c'.torrent.pieces.map Piece.shape = c.torrent.pieces.map Piece.shape
  outFile : c'.torrent.outFile = c.torrent.outFile
  validations : c'.torrent.validations = c.torrent.validations
  reported : c'.torrent.reported = c.torrent.reported
  readCount : c.torrent.readCount ≤ c'.torrent.readCount
  reads : ∀ op ∈ c'.torrent.reads, op ∈ c.torrent.reads ∨
    c.torrent.readCount ≤ op.id ∧ op.id < c'.torrent.readCount
  pieceBitfield : c'.picker.pieceBitfield = c.picker.pieceBitfield
  registered : c'.registered = c.registered
  log : ∃ ns, c'.log = ns ++ c.log ∧ ∀ n ∈ ns, A n

/-- An entry of the log that neither announces nor carries data, and is not about a reset or a
removal. -/
def Note.Ordinary : Note → Prop
  | .sent _ msg =>
    match msg with
    | .haveMsg _ | .bitField _ | .piece _ _ _ => False
    | _ => True
  | .received _ _ => True
  | .reset _ | .removed _ => False

theorem Note.Control.ordinary {n : Note} (h : n.Control) : n.Ordinary := by
  cases n with
  | sent p msg => cases msg <;> trivial
  | _ => cases h

namespace Frame

variable {A B : Note → Prop} {c c₁ c₂ : Client}

theorem trans (h₁ : Frame A c c₁) (h₂ : Frame A c₁ c₂) : Frame A c c₂ := by
  obtain ⟨ns, hns, hA⟩ := h₁.log
  obtain ⟨ms, hms, hA'⟩ := h₂.log
  refine ⟨h₂.nominal.trans h₁.nominal, h₂.shapes.trans h₁.shapes, h₂.outFile.trans h₁.outFile,
    h₂.validations.trans h₁.validations, h₂.reported.trans h₁.reported,
    h₁.readCount.trans h₂.readCount, fun op hop => ?_, h₂.pieceBitfield.trans h₁.pieceBitfield,
    h₂.registered.trans h₁.registered, ms ++ ns, by rw [hms, hns, List.append_assoc], ?_⟩
  · have hle₁ := h₁.readCount
    have hle₂ := h₂.readCount
    rcases h₂.reads op hop with hop | hop
    · rcases h₁.reads op hop with hop | hop
      · exact .inl hop
      · exact .inr (by omega)
    · exact .inr (by omega)
  · intro n hn
    rcases List.mem_append.1 hn with hn | hn
    · exact hA' n hn
    · exact hA n hn

theorem of_quiet (h : Quiet A c c₁) : Frame A c c₁ := by
  have ht := h.torrent
  exact ⟨by rw [ht], h.pieces.shapes, by rw [ht], by rw [ht], by rw [ht], by rw [ht],
    fun op hop => .inl (by rwa [ht] at hop), h.pieceBitfield, h.registered, h.log⟩

end Frame

namespace Piece

@[simp] theorem shape_requestFree (p : Piece) : p.requestFree.shape = p.shape := by
  have : ∀ b : Block, (if b.free then b.setRequested true else b).size = b.size ∧
      (if b.free then b.setRequested true else b).offset = b.offset := by
    intro b
    split_ifs
    · exact ⟨rfl, rfl⟩
    · exact ⟨rfl, rfl⟩
  simp [shape, requestFree, Function.comp_def, this]

end Piece

namespace Client

variable {c c' : Client} {p : ℕ}

theorem frame_note {n : Note} (c : Client) (h : n.Ordinary) : Frame Note.Ordinary c (c.note n) :=
  ⟨rfl, rfl, rfl, rfl, rfl, le_rfl, fun _ hop => .inl hop, rfl, rfl, [n], rfl, by simpa using h⟩

theorem frame_requestPiece (c : Client) (p r : ℕ) : Frame Note.Ordinary c (c.requestPiece p r) := by
  unfold requestPiece
  split
  · exact .of_quiet (.refl _ c)
  · next piece hr =>
    refine ⟨rfl, map_set_eq hr piece.shape_requestFree, rfl, rfl, rfl, le_rfl, fun _ hop => .inl hop,
      rfl, rfl, _, rfl, fun n hn => ?_⟩
    obtain ⟨b, -, rfl⟩ := List.mem_map.1 (List.mem_reverse.1 hn)
    trivial

theorem frame_requestPieces (c : Client) (p : ℕ) (rs : List ℕ) :
    Frame Note.Ordinary c (requestPieces p rs c) := by
  induction rs generalizing c with
  | nil => exact .of_quiet (.refl _ c)
  | cons r rs ih => exact (frame_requestPiece c p r).trans (ih _)

theorem frame_pieceReceived {i o : UInt32} {d : List UInt8} (h : c.pieceReceived p i o d = .ok c') :
    Frame Note.Ordinary c c' := by
  obtain ⟨r, piece, block, t, -, hr, -, ht, rfl⟩ := pieceReceived_eq_ok h
  obtain ⟨q, b, -, -, rfl⟩ := Torrent.writeBlock_eq_ok.1 ht
  exact ⟨rfl, map_set_eq hr (Piece.shape_modifyBlock _ _ fun _ => ⟨rfl, rfl⟩), rfl, rfl, rfl, le_rfl,
    fun _ hop => .inl hop, rfl, rfl, [], rfl, by simp⟩

/-- A message handler as its two parts. -/
theorem messageHandler_eq_ok {ch : SortChoice} {msg : Message}
    (h : c.messageHandler ch p msg = .ok c') :
    ∃ c₁ requests, c.handleMessage p msg = .ok (c₁, requests) ∧
      if requests then ∃ pk : RarestFirstPicker, pk.pieceBitfield = c₁.picker.pieceBitfield ∧
        c' = requestPieces p (comesTo ch p c₁) { c₁ with picker := pk }
      else c' = c₁ := by
  obtain ⟨⟨c₁, requests⟩, h₁, h⟩ := bind_eq_ok.1 h
  refine ⟨c₁, requests, h₁, ?_⟩
  cases requests with
  | false => exact (Except.ok.inj h).symm
  | true => exact requestBlocks_eq_ok h

theorem frame_handleMessage {msg : Message} {b : Bool} (h : c.handleMessage p msg = .ok (c', b)) :
    Frame Note.Ordinary c c' := by
  have hnote := frame_note (n := .received p msg) c trivial
  by_cases hreq : ∃ i o l, msg = .request i o l
  · obtain ⟨i, o, l, rfl⟩ := hreq
    cases h
    refine hnote.trans ⟨rfl, rfl, rfl, rfl, rfl, Nat.le_succ _, fun op hop => ?_, rfl, rfl, [], rfl,
      by simp⟩
    rcases List.mem_append.1 hop with hop | hop
    · exact .inl hop
    · obtain rfl := List.mem_singleton.1 hop
      exact .inr ⟨le_rfl, Nat.lt_succ_self _⟩
  · by_cases hpiece : ∃ i o d, msg = .piece i o d
    · obtain ⟨i, o, d, rfl⟩ := hpiece
      obtain ⟨c₁, h₁, h⟩ := bind_eq_ok.1 h
      cases h
      exact hnote.trans (frame_pieceReceived h₁)
    · refine hnote.trans (.of_quiet ((quiet_handleMessage h ?_ ?_).mono fun _ => Note.Control.ordinary))
      · exact fun i o l he => hreq ⟨i, o, l, he⟩
      · exact fun i o d he => hpiece ⟨i, o, d, he⟩

/-- No message handler touches more than `Frame` allows. -/
theorem frame_messageHandler {ch : SortChoice} {msg : Message}
    (h : c.messageHandler ch p msg = .ok c') : Frame Note.Ordinary c c' := by
  obtain ⟨c₁, requests, h₁, h⟩ := messageHandler_eq_ok h
  cases requests with
  | false =>
    obtain rfl := h
    exact frame_handleMessage h₁
  | true =>
    obtain ⟨pk, hpk, rfl⟩ := h
    have hpicker : Frame Note.Ordinary c₁ { c₁ with picker := pk } :=
      .of_quiet ⟨rfl, rfl, hpk, rfl, [], rfl, by simp⟩
    exact ((frame_handleMessage h₁).trans hpicker).trans (frame_requestPieces _ p _)

/-! ### The events that are not messages -/

theorem message_eq_ok {sha1 : List UInt8 → Hash} {ch : SortChoice} {msg : Message} :
    c.step sha1 (.message ch p msg) = .ok c' ↔
      p ∈ c.registered ∧ c.messageHandler ch p msg = .ok c' := by
  simp only [step]
  split_ifs with h
  · simp [h]
  · simp [h]

/-- A validation ends: the piece is reported to the peers, or reset. -/
theorem validationDone_eq_ok {sha1 : List UInt8 → Hash} {op : ValidateOp}
    (h : c.validationDone sha1 op = .ok c') :
    ∃ piece t, c.torrent.pieces[op.pieceIndex]? = some piece ∧
      c.torrent.validationHandler op (hashValid sha1 op.buffer piece.hash) = .ok t ∧
      if hashValid sha1 op.buffer piece.hash then Quiet Note.Notice { c with torrent := t } c'
      else c' = { c with torrent := t }.note (.reset op.pieceIndex) := by
  obtain ⟨piece, hp, h⟩ := bind_eq_ok.1 h
  obtain ⟨t, ht, h⟩ := bind_eq_ok.1 h
  refine ⟨piece, t, vectorAt_eq_ok.1 hp, ht, ?_⟩
  dsimp only at h
  split_ifs at h ⊢
  · exact quiet_pieceComplete h
  · exact (Except.ok.inj h).symm

/-- The completion handler of a block read always sends. -/
theorem readDone_eq_ok {op : ReadOp} {e : ErrorCode} {i o : UInt32} :
    c.readDone op e i o = .ok c' ↔ op ∈ c.torrent.reads ∧ (e.value = 0 → op.buf.length = op.length) ∧
      c' = { c with
        torrent := { c.torrent with reads := c.torrent.reads.erase op }
        log := .sent op.peer (.piece i o op.buffer) :: c.log } := by
  unfold readDone Torrent.readHandler
  by_cases hc : op ∈ c.torrent.reads ∧ (e.value = 0 → op.buf.length = op.length)
  · rw [if_pos hc]
    exact ⟨fun h => ⟨hc.1, hc.2, (Except.ok.inj h).symm⟩, fun h => h.2.2 ▸ rfl⟩
  · rw [if_neg hc]
    exact ⟨fun h => (by cases h), fun h => absurd ⟨h.1, h.2.1⟩ hc⟩

/-- The steps of the disk operations of the torrent, without their completion handlers for reads. -/
theorem torrent_eq_ok {x : Except Fault Torrent}
    (h : (do let torrent ← x; return { c with torrent }) = (.ok c' : Except Fault Client)) :
    ∃ t, x = .ok t ∧ c' = { c with torrent := t } := by
  obtain ⟨t, ht, h⟩ := bind_eq_ok.1 h
  exact ⟨t, ht, (Except.ok.inj h).symm⟩

end Client

namespace Torrent

theorem fetchRead_eq_ok {t t' : Torrent} {op : ReadOp} {n : ℕ} :
    t.fetchRead op n = .ok t' ↔ op ∈ t.reads ∧ op.buf.length + n ≤ op.length ∧
      op.fileOffset + op.buf.length + n ≤ t.fileSize ∧
      t' = { t with reads :=
        { op with buf := op.buf ++ slice t.outFile (op.fileOffset + op.buf.length) n } ::
          t.reads.erase op } := by
  unfold fetchRead
  split_ifs with h
  · simp only [h.1, h.2.1, h.2.2, Except.ok.injEq, true_and]
    exact eq_comm
  · simp only [false_iff]
    exact fun h' => h ⟨h'.1, h'.2.1, h'.2.2.1⟩

theorem LaidOut.of_shapes {m : Metainfo} {t t' : Torrent} (h : LaidOut m t)
    (hn : t'.nominalPieceSize = t.nominalPieceSize)
    (hs : t'.pieces.map Piece.shape = t.pieces.map Piece.shape) : LaidOut m t' :=
  ⟨hn.trans h.nominal, hs.trans h.shapes⟩

end Torrent

namespace Client

variable {c c' : Client} {m : Metainfo} {sha1 : List UInt8 → Hash}

theorem laidOut_step {ev : Event} (h : Torrent.LaidOut m c.torrent) (hs : c.step sha1 ev = .ok c') :
    Torrent.LaidOut m c'.torrent := by
  cases ev with
  | addPeer =>
    cases hs
    exact h
  | removePeer p =>
    cases hs
    unfold removePeer
    split_ifs
    · exact h
    · exact h
  | message ch p msg =>
    have hf := frame_messageHandler (message_eq_ok.1 hs).2
    exact h.of_shapes hf.nominal hf.shapes
  | chokeUpload p =>
    have hf := Frame.of_quiet (quiet_chokeUpload hs)
    exact h.of_shapes hf.nominal hf.shapes
  | unchokeUpload p =>
    have hf := Frame.of_quiet (quiet_unchokeUpload hs)
    exact h.of_shapes hf.nominal hf.shapes
  | transfer op n =>
    obtain ⟨t, ht, rfl⟩ := torrent_eq_ok hs
    exact h.step (show c.torrent.step (.transfer op n) = .ok t from ht)
  | reuse op bytes =>
    obtain ⟨t, ht, rfl⟩ := torrent_eq_ok hs
    exact h.step (show c.torrent.step (.reuse op bytes) = .ok t from ht)
  | written op e =>
    obtain ⟨t, ht, rfl⟩ := torrent_eq_ok hs
    exact h.step (show c.torrent.step (.written op e) = .ok t from ht)
  | fetch op n =>
    obtain ⟨t, ht, rfl⟩ := torrent_eq_ok hs
    exact h.step (show c.torrent.step (.fetch op n) = .ok t from ht)
  | validated op =>
    obtain ⟨piece, t, -, ht, hc⟩ := validationDone_eq_ok hs
    have hl : Torrent.LaidOut m t := h.step (show c.torrent.step (.validated op _) = .ok t from ht)
    split_ifs at hc
    · have hf := Frame.of_quiet hc
      exact hl.of_shapes hf.nominal hf.shapes
    · subst hc
      exact hl
  | fetchRead op n =>
    obtain ⟨t, ht, rfl⟩ := torrent_eq_ok hs
    obtain ⟨-, -, -, rfl⟩ := Torrent.fetchRead_eq_ok.1 ht
    exact ⟨h.nominal, h.shapes⟩
  | readDone op e i o =>
    obtain ⟨-, -, rfl⟩ := readDone_eq_ok.1 hs
    exact ⟨h.nominal, h.shapes⟩

theorem laidOut_run {content : ℕ → UInt8} {es : List Event}
    (hr : Run (StepOf (step sha1)) (init m content) es c) : Torrent.LaidOut m c.torrent :=
  hr.invariant (fun _ _ _ h hs => laidOut_step h hs) (Torrent.LaidOut.init m content)

end Client

end FTorrent
