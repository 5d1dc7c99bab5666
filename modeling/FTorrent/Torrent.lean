import FTorrent.Layout
import FTorrent.Lib.Extent

/-!
# The torrent and its disk operations

`Torrent` owns the output file and starts asynchronous operations on it.  An operation that has been
started and whose completion handler has not run is kept in `writes`, `validations` or `reads`; it
transfers its bytes in any number of steps (`transfer`, `fetchValidation`, `fetchRead`), which
interleave freely with the handlers, and then its completion handler runs once.

A write does not own its bytes: it points into `write_buf` of its block, which the next `write_block`
for the block overwrites and `block_written` frees.  `bufferChanges` records both, and from then on a
write that was started before may find anything where its bytes were (`reuse`).

The pieces are shared by all parts of the program through pointers.  `Torrent::pieces` is never
reordered, so the position of a piece in it stands for the pointer.
-/

namespace FTorrent

open Lib

/-- An `async_write_at` started by `write_block`, with what its handler captured.  `data` is what the
memory it points to holds, and `version` the number of changes that `write_buf` of the block had seen
when the write was started. -/
structure WriteOp where
  pieceIndex : ℕ
  blockOffset : ℕ
  fileOffset : ℕ
  data : List UInt8
  version : ℕ
  written : ℕ := 0
  deriving DecidableEq

/-- The block that the write is for. -/
def WriteOp.block (op : WriteOp) : ℕ × ℕ := (op.pieceIndex, op.blockOffset / Piece.nominalBlockSize)

/-- An `async_read_at` started by `validate_piece`; `buf` is the part of `validation_buf` filled so
far. -/
structure ValidateOp where
  pieceIndex : ℕ
  fileOffset : ℕ
  length : ℕ
  buf : List UInt8 := []
  deriving DecidableEq

/-- An `async_read_at` started by `read_block`; `id` stands for its buffer, `peer` for what its
handler captured by value. -/
structure ReadOp where
  id : ℕ
  peer : ℕ
  fileOffset : ℕ
  length : ℕ
  buf : List UInt8 := []
  deriving DecidableEq

/-- What `validation_buf` holds when the read ends: `resize` filled it with zeros. -/
def ValidateOp.buffer (op : ValidateOp) : List UInt8 :=
  op.buf ++ List.replicate (op.length - op.buf.length) 0

/-- What the buffer of a read holds when the read ends. -/
def ReadOp.buffer (op : ReadOp) : List UInt8 :=
  op.buf ++ List.replicate (op.length - op.buf.length) 0

/-- `Torrent`.  `outFile` and `fileSize` are the contents and the length of `out_file`.  `bufferChanges`
and `reported` are history variables, latest first: the block of every change of a `write_buf`, and the
arguments of the calls of `piece_complete`. -/
structure Torrent where
  nominalPieceSize : ℕ
  pieces : List Piece
  outFile : ℕ → UInt8
  fileSize : ℕ
  downloaded : ℕ := 0
  validated : ℕ := 0
  writes : List WriteOp := []
  bufferChanges : List (ℕ × ℕ) := []
  validations : List ValidateOp := []
  reads : List ReadOp := []
  readCount : ℕ := 0
  reported : List ℕ := []

/-- `sha1::hashValid`, for an arbitrary hash function. -/
def hashValid (sha1 : List UInt8 → Hash) (data : List UInt8) (hash : Hash) : Bool :=
  sha1 data == hash

namespace Torrent

/-- `Torrent::Torrent`, on a file that may hold anything before. -/
def init (m : Metainfo) (content : ℕ → UInt8) : Torrent where
  nominalPieceSize := m.pieceLength
  pieces := m.generatePieces
  outFile := content
  fileSize := m.length

/-- The memory that the write points to is still the `write_buf` it was started with. -/
def Intact (t : Torrent) (op : WriteOp) : Prop := op.version = t.bufferChanges.count op.block

instance (t : Torrent) (op : WriteOp) : Decidable (t.Intact op) :=
  inferInstanceAs (Decidable (op.version = t.bufferChanges.count op.block))

/-- `Torrent::write_block`: the offset is computed in 64 bits and stored in a `uint32_t`, and the data
replaces what `write_buf` of the block held. -/
def writeBlock (t : Torrent) (pieceIndex blockOffset : ℕ) (data : List UInt8) :
    Except Fault Torrent := do
  let fileOffset := u32 (u64 (pieceIndex * t.nominalPieceSize + blockOffset))
  let piece ← vectorAt t.pieces pieceIndex
  let _ ← piece.getBlockByOffset blockOffset
  let block := (pieceIndex, blockOffset / Piece.nominalBlockSize)
  let version := t.bufferChanges.count block + 1
  return { t with
    writes := t.writes ++ [{ pieceIndex, blockOffset, fileOffset, data, version }]
    bufferChanges := block :: t.bufferChanges }

/-- An outstanding write stores its next `n` bytes. -/
def transfer (t : Torrent) (op : WriteOp) (n : ℕ) : Except Fault Torrent :=
  if op ∈ t.writes ∧ op.written + n ≤ op.data.length then
    .ok { t with
      outFile := overwrite t.outFile (op.fileOffset + op.written) ((op.data.drop op.written).take n)
      fileSize := max t.fileSize (op.fileOffset + op.written + n)
      writes := { op with written := op.written + n } :: t.writes.erase op }
  else .error .notEnabled

/-- The memory of an outstanding write whose buffer was overwritten or freed holds other bytes. -/
def reuse (t : Torrent) (op : WriteOp) (bytes : List UInt8) : Except Fault Torrent :=
  if op ∈ t.writes ∧ ¬ t.Intact op ∧ bytes.length = op.data.length then
    .ok { t with writes := { op with data := bytes } :: t.writes.erase op }
  else .error .notEnabled

/-- `Torrent::validate_piece`. -/
def validatePiece (t : Torrent) (pieceIndex : ℕ) : Except Fault Torrent := do
  let piece ← vectorAt t.pieces pieceIndex
  let fileOffset := u64 (pieceIndex * t.nominalPieceSize)
  return { t with
    validations := t.validations ++ [{ pieceIndex, fileOffset, length := piece.size }] }

/-- The completion handler of a write: `transfer_exactly` completes without an error only when all
bytes are stored.  `block_written` frees the `write_buf` of the block. -/
def writeHandler (t : Torrent) (op : WriteOp) (e : ErrorCode) : Except Fault Torrent :=
  if op ∈ t.writes ∧ (e.value = 0 → op.written = op.data.length) then do
    let piece ← vectorAt t.pieces op.pieceIndex
    let piece ← piece.blockWritten e (u32 op.blockOffset)
    let t := { t with
      pieces := t.pieces.set op.pieceIndex piece
      writes := t.writes.erase op
      bufferChanges := (op.pieceIndex, u32 op.blockOffset / Piece.nominalBlockSize) :: t.bufferChanges }
    if piece.complete then t.validatePiece op.pieceIndex else return t
  else .error .notEnabled

/-- An outstanding validation read fetches its next `n` bytes. -/
def fetchValidation (t : Torrent) (op : ValidateOp) (n : ℕ) : Except Fault Torrent :=
  if op ∈ t.validations ∧ op.buf.length + n ≤ op.length ∧
      op.fileOffset + op.buf.length + n ≤ t.fileSize then
    .ok { t with
      validations := { op with buf := op.buf ++ slice t.outFile (op.fileOffset + op.buf.length) n } ::
        t.validations.erase op }
  else .error .notEnabled

/-- The completion handler of a validation read, for either outcome of the hash check. -/
def validationHandler (t : Torrent) (op : ValidateOp) (valid : Bool) : Except Fault Torrent :=
  if op ∈ t.validations then do
    let piece ← vectorAt t.pieces op.pieceIndex
    let t := { t with validations := t.validations.erase op }
    if valid then
      return { t with
        downloaded := u64 (t.downloaded + piece.size)
        reported := u32 op.pieceIndex :: t.reported
        validated := u32 (t.validated + 1) }
    else return { t with pieces := t.pieces.set op.pieceIndex piece.reset }
  else .error .notEnabled

/-- `Torrent::read_block`; the parameters are `uint32_t`. -/
def readBlock (t : Torrent) (pieceIndex blockOffset length : ℕ) (peer : ℕ) : Torrent :=
  let fileOffset := u64 (u32 pieceIndex * t.nominalPieceSize + u32 blockOffset)
  { t with
    reads := t.reads ++ [{ id := t.readCount, peer, fileOffset, length := u32 length }]
    readCount := t.readCount + 1 }

/-- An outstanding read of a block fetches its next `n` bytes. -/
def fetchRead (t : Torrent) (op : ReadOp) (n : ℕ) : Except Fault Torrent :=
  if op ∈ t.reads ∧ op.buf.length + n ≤ op.length ∧
      op.fileOffset + op.buf.length + n ≤ t.fileSize then
    .ok { t with
      reads := { op with buf := op.buf ++ slice t.outFile (op.fileOffset + op.buf.length) n } ::
        t.reads.erase op }
  else .error .notEnabled

/-- The completion handler of a block read: it takes the error code and does not look at it.  The
result is the buffer it hands on. -/
def readHandler (t : Torrent) (op : ReadOp) (e : ErrorCode) : Except Fault (Torrent × List UInt8) :=
  if op ∈ t.reads ∧ (e.value = 0 → op.buf.length = op.length) then
    .ok ({ t with reads := t.reads.erase op }, op.buffer)
  else .error .notEnabled

/-! ### The torrent by itself -/

/-- What can happen to the torrent: a call of `write_block`, or a step of an outstanding write or
validation. -/
inductive Event where
  | writeBlock (pieceIndex blockOffset : ℕ) (data : List UInt8)
  | transfer (op : WriteOp) (n : ℕ)
  | reuse (op : WriteOp) (bytes : List UInt8)
  | written (op : WriteOp) (e : ErrorCode)
  | fetch (op : ValidateOp) (n : ℕ)
  | validated (op : ValidateOp) (valid : Bool)

def step (t : Torrent) : Event → Except Fault Torrent
  | .writeBlock i o d => t.writeBlock i o d
  | .transfer op n => t.transfer op n
  | .reuse op bytes => t.reuse op bytes
  | .written op e => t.writeHandler op e
  | .fetch op n => t.fetchValidation op n
  | .validated op valid => t.validationHandler op valid

/-! ### What each operation does -/

theorem writeBlock_eq_ok {t t' : Torrent} {i o : ℕ} {d : List UInt8} :
    t.writeBlock i o d = .ok t' ↔
      ∃ p b, t.pieces[i]? = some p ∧ p.blocks[o / Piece.nominalBlockSize]? = some b ∧
        t' = { t with
          writes := t.writes ++ [⟨i, o, u32 (u64 (i * t.nominalPieceSize + o)), d,
            t.bufferChanges.count (i, o / Piece.nominalBlockSize) + 1, 0⟩]
          bufferChanges := (i, o / Piece.nominalBlockSize) :: t.bufferChanges } := by
  simp only [writeBlock, bind_eq_ok, vectorAt_eq_ok, Piece.getBlockByOffset_eq_ok, pure,
    Except.pure, Except.ok.injEq]
  constructor
  · rintro ⟨p, hp, b, hb, h⟩
    exact ⟨p, b, hp, hb, h.symm⟩
  · rintro ⟨p, b, hp, hb, h⟩
    exact ⟨p, hp, b, hb, h.symm⟩

theorem transfer_eq_ok {t t' : Torrent} {op : WriteOp} {n : ℕ} :
    t.transfer op n = .ok t' ↔ op ∈ t.writes ∧ op.written + n ≤ op.data.length ∧
      t' = { t with
        outFile := overwrite t.outFile (op.fileOffset + op.written) ((op.data.drop op.written).take n)
        fileSize := max t.fileSize (op.fileOffset + op.written + n)
        writes := { op with written := op.written + n } :: t.writes.erase op } := by
  unfold transfer
  split_ifs with h
  · simp only [h.1, h.2, Except.ok.injEq, true_and]
    exact eq_comm
  · simp only [false_iff]
    exact fun h' => h ⟨h'.1, h'.2.1⟩

theorem reuse_eq_ok {t t' : Torrent} {op : WriteOp} {bytes : List UInt8} :
    t.reuse op bytes = .ok t' ↔ op ∈ t.writes ∧ ¬ t.Intact op ∧ bytes.length = op.data.length ∧
      t' = { t with writes := { op with data := bytes } :: t.writes.erase op } := by
  unfold reuse
  split_ifs with h
  · simp only [h.1, h.2.1, h.2.2, Except.ok.injEq, not_false_eq_true, true_and]
    exact eq_comm
  · simp only [false_iff]
    exact fun h' => h ⟨h'.1, h'.2.1, h'.2.2.1⟩

theorem validatePiece_eq_ok {t t' : Torrent} {i : ℕ} :
    t.validatePiece i = .ok t' ↔ ∃ p, t.pieces[i]? = some p ∧
      t' = { t with validations := t.validations ++
        [⟨i, u64 (i * t.nominalPieceSize), p.size, []⟩] } := by
  simp only [validatePiece, bind_eq_ok, vectorAt_eq_ok, pure, Except.pure, Except.ok.injEq]
  refine exists_congr fun p => and_congr_right fun _ => ?_
  exact eq_comm

/-- A write completes without an error: the block is marked, the counter advances, and a validation
starts if the counter has reached the number of blocks. -/
theorem writeHandler_eq_ok {t t' : Torrent} {op : WriteOp} {e : ErrorCode} :
    t.writeHandler op e = .ok t' ↔
      op ∈ t.writes ∧ e.value = 0 ∧ op.written = op.data.length ∧
      ∃ p p', t.pieces[op.pieceIndex]? = some p ∧ p.blockWritten e (u32 op.blockOffset) = .ok p' ∧
        t' = { t with
          pieces := t.pieces.set op.pieceIndex p'
          writes := t.writes.erase op
          bufferChanges :=
            (op.pieceIndex, u32 op.blockOffset / Piece.nominalBlockSize) :: t.bufferChanges
          validations := t.validations ++
            if p'.complete then [⟨op.pieceIndex, u64 (op.pieceIndex * t.nominalPieceSize), p'.size, []⟩]
            else [] } := by
  unfold writeHandler
  split_ifs with h
  · simp only [bind_eq_ok, vectorAt_eq_ok, h.1, true_and]
    constructor
    · rintro ⟨p, hp, p', hp', ht⟩
      have he := (Piece.blockWritten_eq_ok.1 hp').1
      refine ⟨he, h.2 he, p, p', hp, hp', ?_⟩
      split_ifs at ht ⊢ with hc
      · obtain ⟨q, hq, rfl⟩ := validatePiece_eq_ok.1 ht
        rw [getElem?_set_of_some hp, if_pos rfl] at hq
        obtain rfl := Option.some.inj hq
        rfl
      · rw [List.append_nil]
        exact (Except.ok.inj ht).symm
    · rintro ⟨-, -, p, p', hp, hp', rfl⟩
      refine ⟨p, hp, p', hp', ?_⟩
      split_ifs with hc
      · exact validatePiece_eq_ok.2 ⟨p', by rw [getElem?_set_of_some hp, if_pos rfl], rfl⟩
      · rw [List.append_nil]
        rfl
  · simp only [false_iff]
    exact fun h' => h ⟨h'.1, fun _ => h'.2.2.1⟩

theorem fetchValidation_eq_ok {t t' : Torrent} {op : ValidateOp} {n : ℕ} :
    t.fetchValidation op n = .ok t' ↔ op ∈ t.validations ∧ op.buf.length + n ≤ op.length ∧
      op.fileOffset + op.buf.length + n ≤ t.fileSize ∧
      t' = { t with validations :=
        { op with buf := op.buf ++ slice t.outFile (op.fileOffset + op.buf.length) n } ::
          t.validations.erase op } := by
  unfold fetchValidation
  split_ifs with h
  · simp only [h.1, h.2.1, h.2.2, Except.ok.injEq, true_and]
    exact eq_comm
  · simp only [false_iff]
    exact fun h' => h ⟨h'.1, h'.2.1, h'.2.2.1⟩

/-- A validation ends: the piece is reported and counted, or reset. -/
theorem validationHandler_eq_ok {t t' : Torrent} {op : ValidateOp} {valid : Bool} :
    t.validationHandler op valid = .ok t' ↔
      op ∈ t.validations ∧ ∃ p, t.pieces[op.pieceIndex]? = some p ∧
        ((valid = true ∧ t' = { t with
            validations := t.validations.erase op
            downloaded := u64 (t.downloaded + p.size)
            reported := u32 op.pieceIndex :: t.reported
            validated := u32 (t.validated + 1) }) ∨
          (valid = false ∧ t' = { t with
            validations := t.validations.erase op
            pieces := t.pieces.set op.pieceIndex p.reset })) := by
  unfold validationHandler
  by_cases h : op ∈ t.validations
  · simp only [h, if_true, bind_eq_ok, vectorAt_eq_ok, true_and]
    refine exists_congr fun p => and_congr_right fun _ => ?_
    cases valid <;> simp [pure, Except.pure, eq_comm]
  · simp [h]

/-! ### The layout never changes -/

/-- The torrent was made from `m`: its pieces are those of `m` in all that is fixed. -/
structure LaidOut (m : Metainfo) (t : Torrent) : Prop where
  nominal : t.nominalPieceSize = m.pieceLength
  shapes : t.pieces.map Piece.shape = m.generatePieces.map Piece.shape

namespace LaidOut

variable {m : Metainfo} {t t' : Torrent}

theorem init (m : Metainfo) (content : ℕ → UInt8) : LaidOut m (init m content) := ⟨rfl, rfl⟩

theorem set_piece (h : LaidOut m t) {i : ℕ} {p p' : Piece} (hp : t.pieces[i]? = some p)
    (hs : p'.shape = p.shape) : (t.pieces.set i p').map Piece.shape = m.generatePieces.map Piece.shape :=
  (map_set_eq hp hs).trans h.shapes

theorem step (h : LaidOut m t) {ev : Event} (hs : t.step ev = .ok t') : LaidOut m t' := by
  cases ev with
  | writeBlock i o d =>
    obtain ⟨p, b, -, -, rfl⟩ := writeBlock_eq_ok.1 hs
    exact ⟨h.nominal, h.shapes⟩
  | transfer op n =>
    obtain ⟨-, -, rfl⟩ := transfer_eq_ok.1 hs
    exact ⟨h.nominal, h.shapes⟩
  | reuse op bytes =>
    obtain ⟨-, -, -, rfl⟩ := reuse_eq_ok.1 hs
    exact ⟨h.nominal, h.shapes⟩
  | written op e =>
    obtain ⟨-, -, -, p, p', hp, hp', rfl⟩ := writeHandler_eq_ok.1 hs
    exact ⟨h.nominal, h.set_piece hp (Piece.shape_blockWritten hp')⟩
  | fetch op n =>
    obtain ⟨-, -, -, rfl⟩ := fetchValidation_eq_ok.1 hs
    exact ⟨h.nominal, h.shapes⟩
  | validated op valid =>
    obtain ⟨-, p, hp, ⟨-, rfl⟩ | ⟨-, rfl⟩⟩ := validationHandler_eq_ok.1 hs
    · exact ⟨h.nominal, h.shapes⟩
    · exact ⟨h.nominal, h.set_piece hp (Piece.shape_reset p)⟩

theorem run (hr : ∃ content es, Run (StepOf Torrent.step) (Torrent.init m content) es t) :
    LaidOut m t := by
  obtain ⟨content, es, hr⟩ := hr
  exact hr.invariant (fun _ _ _ h hs => h.step hs) (LaidOut.init m content)

/-- A piece of the torrent has the index, hash, size and block places that `generate_pieces` gave
it. -/
theorem piece (h : LaidOut m t) {i : ℕ} {p : Piece} (hp : t.pieces[i]? = some p) :
    i < m.pieces.length ∧ p.index = i ∧ m.pieces[i]? = some p.hash ∧ p.size = m.pieceSize i ∧
      p.blocks.length = Piece.numBlocks (m.pieceSize i) ∧
      ∀ (j : ℕ) (b : Block), p.blocks[j]? = some b →
        b.size = (Piece.makeBlock (m.pieceSize i) j).size ∧ b.offset = j * Piece.nominalBlockSize := by
  have hs := congrArg (·[i]?) h.shapes
  simp only [List.getElem?_map, hp, Option.map_some] at hs
  obtain ⟨q, hq, hshape⟩ := Option.map_eq_some_iff.1 hs.symm
  obtain ⟨hi, hash, hhash, rfl⟩ := Metainfo.getElem?_generatePieces hq
  simp only [Piece.shape, Prod.mk.injEq] at hshape
  obtain ⟨h₁, h₂, h₃, h₄⟩ := hshape
  refine ⟨hi, h₁.symm, ?_, h₃.symm, ?_, fun j b hb => ?_⟩
  · rw [hhash, ← h₂]
    rfl
  · have := congrArg List.length h₄
    simpa using this.symm
  · have := congrArg (·[j]?) h₄
    simp only [List.getElem?_map, hb, Option.map_some] at this
    obtain ⟨c, hc, hcb⟩ := Option.map_eq_some_iff.1 this
    obtain ⟨-, rfl⟩ := Piece.getElem?_make_blocks hc
    rw [Prod.mk.injEq] at hcb
    exact ⟨hcb.1.symm, hcb.2.symm⟩

end LaidOut

end Torrent

end FTorrent
