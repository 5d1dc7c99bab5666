import FTorrent.Frame

/-!
# Integrity of validated pieces

A validation hashes what it has read, and nothing keeps a later write away from a piece that has been
read or reported: `write_block` accepts every block of every PIECE.  In runs whose writes store
nothing new there, the bytes of a reported piece still have the piece's hash.  The invariant speaks
about both ends of a validation: what it has read so far is what the file holds
(`IntegrityInv.buffers`), and what it has reported hashes to the right value (`IntegrityInv.intact`).
-/

namespace FTorrent

open Lib

namespace Torrent

/-- The bytes of every reported piece hash to the hash of the piece. -/
def Integrity (sha1 : List UInt8 → Hash) (t : Torrent) : Prop :=
  ∀ i ∈ t.reported, ∃ p, t.pieces[i]? = some p ∧
    sha1 (slice t.outFile (i * t.nominalPieceSize) p.size) = p.hash

/-- The position belongs to a reported piece, or a validation in flight has read it. -/
def Guarded (t : Torrent) (x : ℕ) : Prop :=
  (∃ i ∈ t.reported, ∃ p, t.pieces[i]? = some p ∧
    i * t.nominalPieceSize ≤ x ∧ x < i * t.nominalPieceSize + p.size) ∨
  ∃ op ∈ t.validations, op.fileOffset ≤ x ∧ x < op.fileOffset + op.buf.length

/-- What links the file, the validations in flight and the reports in a torrent made from `m`. -/
structure IntegrityInv (sha1 : List UInt8 → Hash) (m : Metainfo) (t : Torrent) : Prop where
  laidOut : LaidOut m t
  intact : ∀ i ∈ t.reported, ∃ hash, m.pieces[i]? = some hash ∧
    sha1 (slice t.outFile (i * m.pieceLength) (m.pieceSize i)) = hash
  started : ∀ op ∈ t.validations, op.pieceIndex < m.pieces.length ∧
    op.fileOffset = u64 (op.pieceIndex * m.pieceLength) ∧ op.length = m.pieceSize op.pieceIndex
  buffers : ∀ op ∈ t.validations, op.buf = slice t.outFile op.fileOffset op.buf.length

namespace IntegrityInv

variable {sha1 : List UInt8 → Hash} {m : Metainfo} {t t' : Torrent}

theorem integrity (h : IntegrityInv sha1 m t) : t.Integrity sha1 := by
  intro i hi
  obtain ⟨hash, hhash, hsha⟩ := h.intact i hi
  have hlt : i < t.pieces.length := by
    have := congrArg List.length h.laidOut.shapes
    simp only [List.length_map, Metainfo.length_generatePieces] at this
    rw [this]
    exact (List.getElem?_eq_some_iff.1 hhash).1
  obtain ⟨-, -, hp, hsize, -⟩ := h.laidOut.piece (List.getElem?_eq_getElem hlt)
  refine ⟨t.pieces[i], List.getElem?_eq_getElem hlt, ?_⟩
  rw [h.laidOut.nominal, hsize, hsha]
  exact Option.some.inj (hhash.symm.trans hp)

theorem init (sha1 : List UInt8 → Hash) (m : Metainfo) (content : ℕ → UInt8) :
    IntegrityInv sha1 m (init m content) :=
  ⟨LaidOut.init m content, by simp [Torrent.init], by simp [Torrent.init], by simp [Torrent.init]⟩

/-- What leaves the file, the validations and the reports alone keeps the invariant. -/
theorem of_same (h : IntegrityInv sha1 m t) (hl : LaidOut m t') (hf : t'.outFile = t.outFile)
    (hv : t'.validations = t.validations) (hr : t'.reported = t.reported) :
    IntegrityInv sha1 m t' :=
  ⟨hl, by rw [hr, hf]; exact h.intact, by rw [hv]; exact h.started, by rw [hv, hf]; exact h.buffers⟩

/-- A write that stores nothing new at a guarded position. -/
theorem transfer (h : IntegrityInv sha1 m t) {op : WriteOp} {n : ℕ} (ht : t.transfer op n = .ok t')
    (hC : ∀ k b, op.written ≤ k → k < op.written + n → op.data[k]? = some b →
      t.Guarded (op.fileOffset + k) → b = t.outFile (op.fileOffset + k)) :
    IntegrityInv sha1 m t' := by
  have hl : LaidOut m t' := h.laidOut.step (show t.step (.transfer op n) = .ok t' from ht)
  obtain ⟨-, hlen, rfl⟩ := transfer_eq_ok.1 ht
  have hkeep : ∀ x, t.Guarded x →
      overwrite t.outFile (op.fileOffset + op.written) ((op.data.drop op.written).take n) x =
        t.outFile x := by
    intro x hx
    by_cases hin : op.fileOffset + op.written ≤ x ∧ x < op.fileOffset + op.written + n
    · obtain ⟨k, rfl⟩ : ∃ k, x = op.fileOffset + op.written + k :=
        ⟨x - (op.fileOffset + op.written), by omega⟩
      have hk : k < ((op.data.drop op.written).take n).length := by
        simp only [List.length_take, List.length_drop]
        omega
      rw [overwrite_inside hk, List.getElem_take, List.getElem_drop]
      have hget := List.getElem?_eq_getElem (l := op.data) (i := op.written + k) (by omega)
      rw [Nat.add_assoc] at hx ⊢
      exact hC (op.written + k) _ (by omega) (by omega) hget hx
    · apply overwrite_outside
      simp only [List.length_take, List.length_drop]
      omega
  refine ⟨hl, fun i hi => ?_, h.started, fun v hv => ?_⟩
  · obtain ⟨hash, hhash, hsha⟩ := h.intact i hi
    refine ⟨hash, hhash, ?_⟩
    rw [← hsha]
    refine congrArg sha1 (slice_congr fun x hx₁ hx₂ => hkeep x (.inl ?_))
    obtain ⟨p, hp, -⟩ := h.integrity i hi
    obtain ⟨-, -, -, hsize, -⟩ := h.laidOut.piece hp
    refine ⟨i, hi, p, hp, ?_⟩
    rw [h.laidOut.nominal, hsize]
    exact ⟨hx₁, hx₂⟩
  · rw [slice_congr fun x hx₁ hx₂ => hkeep x (.inr ⟨v, hv, hx₁, hx₂⟩)]
    exact h.buffers v hv

/-- A completed write may start a validation, which has read nothing. -/
theorem written (h : IntegrityInv sha1 m t) {op : WriteOp} {e : ErrorCode}
    (ht : t.writeHandler op e = .ok t') : IntegrityInv sha1 m t' := by
  have hl : LaidOut m t' := h.laidOut.step (show t.step (.written op e) = .ok t' from ht)
  obtain ⟨-, -, -, p, p', hp, hp', rfl⟩ := writeHandler_eq_ok.1 ht
  obtain ⟨hi, -, -, hsize, -⟩ := h.laidOut.piece hp
  have hsize' : p'.size = p.size := congrArg (·.2.2.1) (Piece.shape_blockWritten hp')
  refine ⟨hl, h.intact, fun v hv => ?_, fun v hv => ?_⟩
  · rcases List.mem_append.1 hv with hv | hv
    · exact h.started v hv
    · split_ifs at hv
      · obtain rfl := List.mem_singleton.1 hv
        exact ⟨hi, by rw [h.laidOut.nominal], hsize'.trans hsize⟩
      · cases hv
  · rcases List.mem_append.1 hv with hv | hv
    · exact h.buffers v hv
    · split_ifs at hv
      · obtain rfl := List.mem_singleton.1 hv
        rfl
      · cases hv

/-- A validation reads on. -/
theorem fetch (h : IntegrityInv sha1 m t) {op : ValidateOp} {n : ℕ}
    (ht : t.fetchValidation op n = .ok t') : IntegrityInv sha1 m t' := by
  have hl : LaidOut m t' := h.laidOut.step (show t.step (.fetch op n) = .ok t' from ht)
  obtain ⟨hop, -, -, rfl⟩ := fetchValidation_eq_ok.1 ht
  refine ⟨hl, h.intact, forall_mem_replace h.started (h.started op hop),
    forall_mem_replace h.buffers ?_⟩
  simp only [List.length_append, length_slice]
  rw [slice_add, ← h.buffers op hop]

/-- A validation that has read the whole piece ends. -/
theorem validated (h : IntegrityInv sha1 m t) {op : ValidateOp} {p : Piece}
    (hp : t.pieces[op.pieceIndex]? = some p)
    (ht : t.validationHandler op (hashValid sha1 op.buffer p.hash) = .ok t')
    (hfull : op.buf.length = op.length) (hfit : op.pieceIndex * m.pieceLength < 2 ^ 64) :
    IntegrityInv sha1 m t' := by
  have hl : LaidOut m t' := h.laidOut.step (show t.step (.validated op _) = .ok t' from ht)
  obtain ⟨hop, q, hq, ht⟩ := validationHandler_eq_ok.1 ht
  obtain ⟨hi, hoff, hlen⟩ := h.started op hop
  obtain ⟨-, -, hhash, -⟩ := h.laidOut.piece hp
  have hstarted : ∀ v ∈ t.validations.erase op, _ := fun v hv => h.started v (List.mem_of_mem_erase hv)
  have hbuffers : ∀ v ∈ t.validations.erase op, _ := fun v hv => h.buffers v (List.mem_of_mem_erase hv)
  rcases ht with ⟨hvalid, rfl⟩ | ⟨-, rfl⟩
  · refine ⟨hl, ?_, hstarted, hbuffers⟩
    rw [List.forall_mem_cons]
    refine ⟨?_, h.intact⟩
    rw [u32_of_lt (hi.trans m.pieces_lt)]
    refine ⟨p.hash, hhash, ?_⟩
    have hbuf : op.buffer = slice t.outFile (op.pieceIndex * m.pieceLength) (m.pieceSize op.pieceIndex) := by
      rw [ValidateOp.buffer, hfull, Nat.sub_self, List.replicate_zero, List.append_nil,
        h.buffers op hop, hfull, hoff, hlen, u64_of_lt hfit]
    rw [← hbuf]
    exact beq_iff_eq.1 hvalid
  · exact ⟨hl, h.intact, hstarted, hbuffers⟩

end IntegrityInv

end Torrent

namespace Client

/-- Reads are faithful: a validation ends when it has read the whole piece. -/
def FaithfulIO (_ : Client) : Event → Prop
  | .validated op => op.buf.length = op.length
  | _ => True

/-- A write stores nothing new at a position that belongs to a reported piece or that a validation in
flight has read; and the piece that a validation ends for starts below byte `2 ^ 64`. -/
def Undisturbed (c : Client) : Event → Prop
  | .transfer op n => ∀ k b, op.written ≤ k → k < op.written + n → op.data[k]? = some b →
      c.torrent.Guarded (op.fileOffset + k) → b = c.torrent.outFile (op.fileOffset + k)
  | .validated op => op.pieceIndex * c.torrent.nominalPieceSize < 2 ^ 64
  | _ => True

variable {sha1 : List UInt8 → Hash} {m : Metainfo} {content : ℕ → UInt8} {c c' : Client}

theorem integrityInv_step {ev : Event} (h : Torrent.IntegrityInv sha1 m c.torrent)
    (hs : c.step sha1 ev = .ok c') (hio : c.FaithfulIO ev) (hC : c.Undisturbed ev) :
    Torrent.IntegrityInv sha1 m c'.torrent := by
  have hl := laidOut_step h.laidOut hs
  cases ev with
  | addPeer =>
    cases hs
    exact h
  | removePeer p =>
    cases hs
    unfold removePeer
    split_ifs
    · exact h
    · exact h
  | message ch p msg =>
    have hf := frame_messageHandler (message_eq_ok.1 hs).2
    exact h.of_same hl hf.outFile hf.validations hf.reported
  | chokeUpload p =>
    have hf := Frame.of_quiet (quiet_chokeUpload hs)
    exact h.of_same hl hf.outFile hf.validations hf.reported
  | unchokeUpload p =>
    have hf := Frame.of_quiet (quiet_unchokeUpload hs)
    exact h.of_same hl hf.outFile hf.validations hf.reported
  | transfer op n =>
    obtain ⟨t, ht, rfl⟩ := torrent_eq_ok hs
    exact h.transfer ht hC
  | reuse op bytes =>
    obtain ⟨t, ht, rfl⟩ := torrent_eq_ok hs
    obtain ⟨-, -, -, rfl⟩ := Torrent.reuse_eq_ok.1 ht
    exact h.of_same hl rfl rfl rfl
  | written op e =>
    obtain ⟨t, ht, rfl⟩ := torrent_eq_ok hs
    exact h.written ht
  | fetch op n =>
    obtain ⟨t, ht, rfl⟩ := torrent_eq_ok hs
    exact h.fetch ht
  | validated op =>
    obtain ⟨piece, t, hp, ht, hc⟩ := validationDone_eq_ok hs
    have hfit : op.pieceIndex * m.pieceLength < 2 ^ 64 := by
      rw [← h.laidOut.nominal]
      exact hC
    have hinv := h.validated hp ht hio hfit
    split_ifs at hc
    · have hf := Frame.of_quiet hc
      exact hinv.of_same hl hf.outFile hf.validations hf.reported
    · subst hc
      exact hinv
  | fetchRead op n =>
    obtain ⟨t, ht, rfl⟩ := torrent_eq_ok hs
    obtain ⟨-, -, -, rfl⟩ := Torrent.fetchRead_eq_ok.1 ht
    exact h.of_same hl rfl rfl rfl
  | readDone op e i o =>
    obtain ⟨-, -, rfl⟩ := readDone_eq_ok.1 hs
    exact h.of_same hl rfl rfl rfl

/-- In every run with faithful reads whose writes do not disturb what was validated or is being
validated, the bytes of every reported piece hash to the piece's hash. -/
theorem integrity_of_undisturbed {es : List Event}
    (hr : Run (Along (Along (StepOf (step sha1)) FaithfulIO) Undisturbed) (init m content) es c) :
    c.torrent.Integrity sha1 := by
  have hinv : Torrent.IntegrityInv sha1 m c.torrent :=
    hr.invariant (fun _ _ _ h ⟨⟨hs, hio⟩, hC⟩ => integrityInv_step h hs hio hC)
      (Torrent.IntegrityInv.init sha1 m content)
  exact hinv.integrity

/-! ### A torrent of one byte -/

/-- A hash that shows the first byte. -/
def firstByte (data : List UInt8) : Hash := Vector.replicate 20 (data.headD 1)

/-- A sort and a shuffle that are allowed. -/
def someChoice : SortChoice := ⟨.reverseTies, .still ℕ⟩

/-- The piece is delivered, written, validated and reported. -/
def delivered : List Event :=
  [.addPeer, .message someChoice 0 (.piece 0 0 [0]), .transfer ⟨0, 0, 0, [0], 1, 0⟩ 1,
    .written ⟨0, 0, 0, [0], 1, 1⟩ .success, .fetch ⟨0, 0, 1, []⟩ 1, .validated ⟨0, 0, 1, [0]⟩]

/-- A late PIECE for the same block. -/
def deliveredAgain : List Event :=
  [.message someChoice 0 (.piece 0 0 [8]), .transfer ⟨0, 0, 0, [8], 3, 0⟩ 1]

theorem integrity_of_undisturbed_delivered : ∃ c : Client,
    Run (StepOf (step firstByte)) (init oneByte fun _ => 1) delivered c ∧
      c.torrent.reported = [0] ∧ c.torrent.Integrity firstByte := by
  have hr : Run (Along (Along (StepOf (step firstByte)) FaithfulIO) Undisturbed)
      (init oneByte fun _ => 1) delivered _ :=
    .cons ⟨⟨rfl, trivial⟩, trivial⟩ <| .cons ⟨⟨rfl, trivial⟩, trivial⟩ <|
      .cons ⟨⟨rfl, trivial⟩, fun _ _ _ _ _ h => by
        rcases h with ⟨i, hi, -⟩ | ⟨v, hv, -⟩
        · cases hi
        · cases hv⟩ <|
      .cons ⟨⟨rfl, trivial⟩, trivial⟩ <| .cons ⟨⟨rfl, trivial⟩, trivial⟩ <|
      .cons ⟨⟨rfl, rfl⟩, show 0 * 1 < 2 ^ 64 by decide⟩ <| .nil _
  exact ⟨_, hr.mono fun _ _ _ hs => hs.1.1, rfl, integrity_of_undisturbed hr⟩

theorem not_integrity_deliveredAgain :
    ¬ ∀ (sha1 : List UInt8 → Hash) (m : Metainfo) (content : ℕ → UInt8) (es : List Event) (c : Client),
      Run (Along (StepOf (step sha1)) FaithfulIO) (init m content) es c →
        c.torrent.Integrity sha1 := by
  intro h
  have hr : Run (Along (StepOf (step firstByte)) FaithfulIO) (init oneByte fun _ => 1)
      (delivered ++ deliveredAgain) _ :=
    .cons ⟨rfl, trivial⟩ <| .cons ⟨rfl, trivial⟩ <| .cons ⟨rfl, trivial⟩ <|
      .cons ⟨rfl, trivial⟩ <| .cons ⟨rfl, trivial⟩ <| .cons ⟨rfl, rfl⟩ <|
      .cons ⟨rfl, trivial⟩ <| .cons ⟨rfl, trivial⟩ <| .nil _
  obtain ⟨p, hp, hsha⟩ := h _ _ _ _ _ hr 0 List.mem_cons_self
  cases hp
  revert hsha
  decide

end Client

end FTorrent
