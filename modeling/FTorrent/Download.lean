import FTorrent.Counter
import FTorrent.Positions
import FTorrent.Requests
import FTorrent.Tiling

/-!
# A download that nothing disturbs

The blocks of a file are delivered in any order, each once and with the right bytes, while writes and
validations take any number of steps that interleave freely.  Then what is complete holds the bytes of the
file and every validation succeeds (`DownloadInv`), so when all blocks have been delivered and nothing is
outstanding, every piece has been reported and the output file is the file (`DownloadInv.finished`).
-/

namespace FTorrent

open Lib

/-- The hashes are those of the pieces of the file. -/
def Metainfo.Describes (m : Metainfo) (sha1 : List UInt8 → Hash) (file : ℕ → UInt8) : Prop :=
  ∀ (i : ℕ) (hash : Hash), m.pieces[i]? = some hash →
    sha1 (slice file (i * m.pieceLength) (m.pieceSize i)) = hash

namespace Torrent

variable {m : Metainfo} {sha1 : List UInt8 → Hash} {file content : ℕ → UInt8} {t t' : Torrent}

/-- The data are the bytes of a block that is neither complete nor being written. -/
def Brings (file : ℕ → UInt8) (t : Torrent) (i o : ℕ) (d : List UInt8) : Prop :=
  ∃ j b, t.blockAt i j = some b ∧ o = b.offset ∧ b.complete = false ∧
    d = slice file (i * t.nominalPieceSize + o) b.size ∧
    ∀ op ∈ t.writes, (op.pieceIndex, op.blockOffset) ≠ (i, o)

/-- A delivery brings a block that is missing, and a validation ends when it has read the whole piece and
checks the hash. -/
def Genuine (sha1 : List UInt8 → Hash) (file : ℕ → UInt8) (t : Torrent) : Event → Prop
  | .writeBlock i o d => t.Brings file i o d
  | .validated op valid => op.buf.length = op.length ∧
      ∃ p, t.pieces[op.pieceIndex]? = some p ∧ valid = hashValid sha1 op.buffer p.hash
  | _ => True

/-! ### The invariant -/

/-- The write is that of a block that is not complete, its buffer is its own, and what it has stored is
right. -/
structure Pending (m : Metainfo) (file : ℕ → UInt8) (t : Torrent) (op : WriteOp) : Prop where
  block : ∃ j b, t.blockAt op.pieceIndex j = some b ∧ op.blockOffset = b.offset ∧ b.complete = false ∧
    op.data = slice file op.fileOffset b.size
  fileOffset : op.fileOffset = op.pieceIndex * m.pieceLength + op.blockOffset
  intact : t.Intact op
  written_le : op.written ≤ op.data.length
  stored : ∀ k < op.written, t.outFile (op.fileOffset + k) = file (op.fileOffset + k)

/-- The validation has read what the file has there. -/
structure Reading (m : Metainfo) (file : ℕ → UInt8) (op : ValidateOp) : Prop where
  fileOffset : op.fileOffset = op.pieceIndex * m.pieceLength
  length : op.length = m.pieceSize op.pieceIndex
  buf_le : op.buf.length ≤ op.length
  buf : op.buf = slice file op.fileOffset op.buf.length

structure DownloadInv (m : Metainfo) (file : ℕ → UInt8) (t : Torrent) : Prop where
  laidOut : LaidOut m t
  counter : CounterInv t
  fileSize : m.length ≤ t.fileSize
  writes : ∀ op ∈ t.writes, Pending m file t op
  distinct : (t.writes.map fun op => (op.pieceIndex, op.blockOffset)).Nodup
  complete : ∀ (i j : ℕ) (b : Block), t.blockAt i j = some b → b.complete = true →
    ∀ k < b.size, t.outFile (i * m.pieceLength + b.offset + k) =
      file (i * m.pieceLength + b.offset + k)
  validations : ∀ op ∈ t.validations, Reading m file op

/-- A change of the buffer of another block. -/
theorem Intact.of_ne {op : WriteOp} {b : ℕ × ℕ} (h : t.Intact op) (hb : b ≠ op.block)
    (hchanges : t'.bufferChanges = b :: t.bufferChanges) : t'.Intact op := by
  rw [Intact, hchanges, List.count_cons_of_ne hb]
  exact h

/-- What an operation finds where the flags, the file and the place of a block are. -/
theorem Pending.of_same {op : WriteOp} (h : Pending m file t op) (hintact : t'.Intact op)
    (hblock : ∀ j b, t.blockAt op.pieceIndex j = some b → b.offset = op.blockOffset →
      b.complete = false → ∃ b', t'.blockAt op.pieceIndex j = some b' ∧ b'.offset = b.offset ∧
        b'.complete = false ∧ b'.size = b.size)
    (hfile : ∀ x, t.outFile x = file x → t'.outFile x = file x) : Pending m file t' op := by
  obtain ⟨j, b, hb, hoff, hc, hdata⟩ := h.block
  obtain ⟨b', hb', hoff', hc', hsize⟩ := hblock j b hb hoff.symm hc
  exact ⟨⟨j, b', hb', hoff.trans hoff'.symm, hc', hsize ▸ hdata⟩, h.fileOffset, hintact, h.written_le,
    fun k hk => hfile _ (h.stored k hk)⟩

namespace DownloadInv

theorem init (m : Metainfo) (file content : ℕ → UInt8) : DownloadInv m file (init m content) where
  laidOut := LaidOut.init m content
  counter := CounterInv.init m content
  fileSize := le_rfl
  writes := by simp [Torrent.init]
  distinct := List.nodup_nil
  complete i j b hb hc := by
    obtain ⟨p, hp, hb⟩ := blockAt_eq_some.1 hb
    obtain ⟨-, hash, -, rfl⟩ := Metainfo.getElem?_generatePieces hp
    obtain ⟨-, rfl⟩ := Piece.getElem?_make_blocks hb
    cases hc
  validations := by simp [Torrent.init]

/-- Where a piece is being validated or was reported, all its blocks are complete. -/
theorem complete_of_counted (h : DownloadInv m file t) {i : ℕ} (hi : 0 < t.inFlight i + t.reported.count i)
    {j : ℕ} {b : Block} (hb : t.blockAt i j = some b) : b.complete = true := by
  obtain ⟨p, hp, hb⟩ := blockAt_eq_some.1 hb
  obtain ⟨hexact, -⟩ := h.counter.exact_lt i p hp
  have honce := h.counter.validation.once i p hp
  have hle := p.completeCount_le
  rw [Piece.CounterExact] at hexact
  have hfull : p.completeCount = p.blocks.length := by
    split_ifs at honce <;> omega
  exact Piece.completeCount_eq_length.1 hfull b (List.mem_of_getElem? hb)

/-- Every byte of a piece is in one of its blocks. -/
theorem exists_block (h : LaidOut m t) {i : ℕ} (hi : i < m.pieces.length) {o : ℕ}
    (ho : o < m.pieceSize i) : ∃ j b, t.blockAt i j = some b ∧ b.offset ≤ o ∧ o < b.offset + b.size := by
  have hlen : t.pieces.length = m.pieces.length := by simpa using congrArg List.length h.shapes
  have hp := List.getElem?_eq_getElem (hlen ▸ hi)
  obtain ⟨-, -, -, -, hblocks, hat⟩ := h.piece hp
  have hj : o / Piece.nominalBlockSize < Piece.numBlocks (m.pieceSize i) :=
    div_lt_tileCount (by decide) ho
  have hb := List.getElem?_eq_getElem (hblocks ▸ hj)
  obtain ⟨hsize, hoff⟩ := hat _ _ hb
  have hmem := (div_eq_iff_mem_tile (by decide : 0 < Piece.nominalBlockSize) ho).1 rfl
  rw [← Piece.size_makeBlock hj] at hmem
  refine ⟨_, _, blockAt_eq_some.2 ⟨_, hp, hb⟩, ?_, ?_⟩
  · rw [hoff]
    exact hmem.1
  · rw [hoff, hsize]
    exact hmem.2

/-- A piece all of whose blocks are complete holds the bytes of the file. -/
theorem right (h : DownloadInv m file t) {i : ℕ} (hi : i < m.pieces.length)
    (hall : ∀ j b, t.blockAt i j = some b → b.complete = true) {x : ℕ} (hlow : i * m.pieceLength ≤ x)
    (hhigh : x < i * m.pieceLength + m.pieceSize i) : t.outFile x = file x := by
  obtain ⟨j, b, hb, hle, hlt⟩ := exists_block h.laidOut hi
    (show x - i * m.pieceLength < m.pieceSize i by omega)
  have hx := h.complete i j b hb (hall j b hb) (x - i * m.pieceLength - b.offset) (by omega)
  rwa [show i * m.pieceLength + b.offset + (x - i * m.pieceLength - b.offset) = x by omega] at hx

/-- A validation in flight reads the bytes of the file. -/
theorem right_of_validation (h : DownloadInv m file t) {op : ValidateOp} (hop : op ∈ t.validations) {x : ℕ}
    (hlow : op.fileOffset ≤ x) (hhigh : x < op.fileOffset + op.length) : t.outFile x = file x := by
  have hread := h.validations op hop
  have hlen : t.pieces.length = m.pieces.length := by simpa using congrArg List.length h.laidOut.shapes
  have hi := h.counter.validation.inFlight_lt op hop
  have hpos : 0 < t.inFlight op.pieceIndex := List.countP_pos_iff.2 ⟨op, hop, beq_self_eq_true _⟩
  rw [hread.fileOffset] at hlow hhigh
  rw [hread.length] at hhigh
  exact h.right (hlen ▸ hi) (fun j b hb => h.complete_of_counted (by omega) hb) hlow hhigh

/-! ### One step -/

/-- Where a pending write goes. -/
theorem place (h : DownloadInv m file t) {op : WriteOp} (hop : op ∈ t.writes) :
    ∃ j b, t.blockAt op.pieceIndex j = some b ∧ b.complete = false ∧ b.offset = op.blockOffset ∧
      op.blockOffset = j * Piece.nominalBlockSize ∧ u32 op.blockOffset / Piece.nominalBlockSize = j ∧
      op.data = slice file op.fileOffset b.size := by
  obtain ⟨j, b, hb, hoff, hc, hdata⟩ := (h.writes op hop).block
  obtain ⟨-, hj, hlt⟩ := h.laidOut.blockAt hb
  have hblock : op.blockOffset = j * Piece.nominalBlockSize := hoff.trans hj
  refine ⟨j, b, hb, hc, hoff.symm, hblock, ?_, hdata⟩
  rw [hblock, u32_of_lt hlt, Nat.mul_div_cancel _ (by decide)]

/-- Pending writes of different offsets are writes of different blocks. -/
theorem block_ne (h : DownloadInv m file t) {op : WriteOp} (hop : op ∈ t.writes) {i j : ℕ}
    (hne : (op.pieceIndex, op.blockOffset) ≠ (i, j * Piece.nominalBlockSize)) : (i, j) ≠ op.block := by
  obtain ⟨k, -, -, -, -, hk, -, -⟩ := h.place hop
  rintro heq
  rw [WriteOp.block, hk, Nat.mul_div_cancel _ (by decide), Prod.mk.injEq] at heq
  rw [hk, heq.1, heq.2] at hne
  exact hne rfl

theorem writeBlock (w : m.WellFormed) (hlen : m.length ≤ 2 ^ 32) (h : DownloadInv m file t) {i o : ℕ}
    {d : List UInt8} (hs : t.step (.writeBlock i o d) = .ok t')
    (hC : t.Genuine sha1 file (.writeBlock i o d)) : DownloadInv m file t' := by
  have hcounter := h.counter.step hs trivial
  have hlaid := h.laidOut.step hs
  obtain ⟨p, -, hp, -, rfl⟩ := writeBlock_eq_ok.1 hs
  obtain ⟨j, b, hb, rfl, hc, rfl, hnew⟩ := hC
  obtain ⟨q, hq, hbq⟩ := blockAt_eq_some.1 hb
  have hstart := start_lt_of_length_le w h.laidOut hlen hq hbq
  have hoff : u32 (u64 (i * t.nominalPieceSize + b.offset)) = i * m.pieceLength + b.offset := by
    rw [u32_u64, h.laidOut.nominal, u32_of_lt hstart]
  refine ⟨hlaid, hcounter, h.fileSize, fun op hop => ?_, ?_, h.complete, h.validations⟩
  · rcases List.mem_append.1 hop with hop | hop
    · have hold := h.writes op hop
      have hj : b.offset / Piece.nominalBlockSize * Piece.nominalBlockSize = b.offset := by
        rw [(h.laidOut.blockAt hb).2.1, Nat.mul_div_cancel _ (by decide)]
      refine ⟨hold.block, hold.fileOffset, hold.intact.of_ne (h.block_ne hop ?_) rfl,
        hold.written_le, hold.stored⟩
      rw [hj]
      exact hnew op hop
    · obtain rfl := List.mem_singleton.1 hop
      refine ⟨⟨j, b, hb, rfl, hc, ?_⟩, hoff, List.count_cons_self.symm, Nat.zero_le _, nofun⟩
      dsimp only
      rw [hoff, h.laidOut.nominal]
  · rw [List.map_append, List.map_singleton, List.nodup_append]
    refine ⟨h.distinct, List.nodup_singleton _, fun x hx y hy => ?_⟩
    obtain ⟨op, hop, rfl⟩ := List.mem_map.1 hx
    obtain rfl := List.mem_singleton.1 hy
    exact hnew op hop

theorem transfer (h : DownloadInv m file t) {op : WriteOp} {n : ℕ}
    (hs : t.step (.transfer op n) = .ok t') : DownloadInv m file t' := by
  have hcounter := h.counter.step hs trivial
  have hlaid := h.laidOut.step hs
  obtain ⟨hop, hn, rfl⟩ := transfer_eq_ok.1 hs
  obtain ⟨j, b, -, -, -, -, -, hdata⟩ := h.place hop
  rw [hdata, length_slice] at hn
  -- what is stored is what the file has there
  have hpart : (op.data.drop op.written).take n = slice file (op.fileOffset + op.written) n := by
    rw [hdata, drop_slice _ _ _ (by omega), take_slice _ _ _ (by omega)]
  have hkeep : ∀ x, t.outFile x = file x → overwrite t.outFile (op.fileOffset + op.written)
      ((op.data.drop op.written).take n) x = file x := by
    intro x hx
    rw [hpart, overwrite_slice]
    split_ifs
    · rfl
    · exact hx
  have hsame : ∀ v ∈ t.writes, Pending m file { t with
      outFile := overwrite t.outFile (op.fileOffset + op.written) ((op.data.drop op.written).take n)
      fileSize := max t.fileSize (op.fileOffset + op.written + n)
      writes := { op with written := op.written + n } :: t.writes.erase op } v :=
    fun v hv => (h.writes v hv).of_same (h.writes v hv).intact
      (fun _ b hb hoff hc => ⟨b, hb, rfl, hc, rfl⟩) hkeep
  refine ⟨hlaid, hcounter, h.fileSize.trans (le_max_left _ _), ?_, ?_,
    fun i j b hb hc k hk => hkeep _ (h.complete i j b hb hc k hk), h.validations⟩
  · refine forall_mem_replace hsame ?_
    have hnow := hsame op hop
    refine ⟨hnow.block, hnow.fileOffset, hnow.intact, ?_, fun k hk => ?_⟩
    · show op.written + n ≤ op.data.length
      rwa [hdata, length_slice]
    · rcases Nat.lt_or_ge k op.written with hk' | hk'
      · exact hnow.stored k hk'
      · show overwrite _ _ _ (op.fileOffset + k) = _
        have hk : k < op.written + n := hk
        rw [hpart, overwrite_slice, if_pos (by omega)]
  · have hperm := (List.perm_cons_erase hop).map fun op => (op.pieceIndex, op.blockOffset)
    exact hperm.nodup_iff.1 h.distinct

theorem written (w : m.WellFormed) (h : DownloadInv m file t) {op : WriteOp} {e : ErrorCode}
    (hs : t.step (.written op e) = .ok t') : DownloadInv m file t' := by
  have hlaid := h.laidOut.step hs
  have hat := blockAt_written hs
  obtain ⟨hop, -, hlen, p, p', hp, hp', rfl⟩ := writeHandler_eq_ok.1 hs
  obtain ⟨j, b, hb, hc, hoff, hblock, hj, hdata⟩ := h.place hop
  have hfresh : t.FreshWrite (.written op e) := by
    intro q hq b' hb'
    rw [hj] at hb'
    obtain rfl : b = b' := Option.some.inj (hb.symm.trans (blockAt_eq_some.2 ⟨q, hq, hb'⟩))
    exact hc
  refine ⟨hlaid, h.counter.step hs hfresh, h.fileSize, fun v hv => ?_, ?_, fun i k b' hb' hc' => ?_, ?_⟩
  · have hne := ne_of_mem_erase h.distinct hop hv
    have hv' := List.mem_of_mem_erase hv
    have hother : (op.pieceIndex, u32 op.blockOffset / Piece.nominalBlockSize) ≠ v.block :=
      h.block_ne hv' (by rwa [hj, ← hblock])
    refine (h.writes v hv').of_same ((h.writes v hv').intact.of_ne hother rfl)
      (fun k b' hb' hoff' hc' => ⟨b', ?_, rfl, hc', rfl⟩) fun _ hx => hx
    obtain ⟨-, hk, -⟩ := h.laidOut.blockAt hb'
    rw [hat, hb', Option.map_some]
    split_ifs with hi hk'
    · refine absurd (Prod.ext hi.symm ?_) hne
      show v.blockOffset = op.blockOffset
      rw [← hoff', hk, hblock, ← hk', hj]
    · rfl
    · rfl
  · exact ((List.erase_sublist (a := op) (l := t.writes)).map _).nodup h.distinct
  · rw [hat] at hb'
    obtain ⟨b₀, hb₀, rfl⟩ := Option.map_eq_some_iff.1 hb'
    by_cases hthis : op.pieceIndex = i ∧ u32 op.blockOffset / Piece.nominalBlockSize = k
    · -- the block that has just been written
      obtain ⟨rfl, hk⟩ := hthis
      obtain rfl : j = k := hj.symm.trans hk
      obtain rfl : b = b₀ := Option.some.inj (hb.symm.trans hb₀)
      have hpending := h.writes op hop
      rw [if_pos rfl, if_pos hk]
      intro l hl
      have hstored := hpending.stored l (by rw [hlen, hdata, length_slice]; exact hl)
      rwa [hpending.fileOffset, ← hoff] at hstored
    · have hsame : (if op.pieceIndex = i then
          if u32 op.blockOffset / Piece.nominalBlockSize = k then b₀.setComplete true else b₀
          else b₀) = b₀ := by
        split_ifs with hi hk
        · exact absurd ⟨hi, hk⟩ hthis
        · rfl
        · rfl
      rw [hsame] at hc' ⊢
      exact h.complete i k b₀ hb₀ hc'
  · intro v hv
    rcases List.mem_append.1 hv with hv | hv
    · exact h.validations v hv
    · split_ifs at hv
      · obtain rfl := List.mem_singleton.1 hv
        have hget : (t.pieces.set op.pieceIndex p')[op.pieceIndex]? = some p' := by
          rw [getElem?_set_of_some hp, if_pos rfl]
        obtain ⟨hi, -, -, hsize, -⟩ := hlaid.piece hget
        have hfile := m.length_lt
        have hend := (w.piece_end_le hi).1
        refine ⟨?_, hsize, Nat.zero_le _, rfl⟩
        show u64 (op.pieceIndex * t.nominalPieceSize) = op.pieceIndex * m.pieceLength
        rw [h.laidOut.nominal, u64_of_lt (by omega)]
      · cases hv

/-- A validation reads on. -/
theorem fetch (h : DownloadInv m file t) {op : ValidateOp} {n : ℕ}
    (hs : t.step (.fetch op n) = .ok t') : DownloadInv m file t' := by
  have hcounter := h.counter.step hs trivial
  have hlaid := h.laidOut.step hs
  obtain ⟨hop, hn, -, rfl⟩ := fetchValidation_eq_ok.1 hs
  have hread := h.validations op hop
  refine ⟨hlaid, hcounter, h.fileSize, fun v hv => ?_, h.distinct, h.complete,
    forall_mem_replace h.validations ⟨hread.fileOffset, hread.length, ?_, ?_⟩⟩
  · have hold := h.writes v hv
    exact ⟨hold.block, hold.fileOffset, hold.intact, hold.written_le, hold.stored⟩
  · simpa using hn
  · have hnext : slice t.outFile (op.fileOffset + op.buf.length) n =
        slice file (op.fileOffset + op.buf.length) n :=
      slice_congr fun x hlow hhigh => h.right_of_validation hop (by omega) (by omega)
    simp only [List.length_append, length_slice]
    rw [slice_add, ← hread.buf, hnext]

/-- A validation that has read the whole piece finds the right hash. -/
theorem hashValid_buffer (hm : m.Describes sha1 file) (h : DownloadInv m file t) {op : ValidateOp}
    (hop : op ∈ t.validations) (hfull : op.buf.length = op.length) {p : Piece}
    (hp : t.pieces[op.pieceIndex]? = some p) : hashValid sha1 op.buffer p.hash = true := by
  have hread := h.validations op hop
  obtain ⟨-, -, hhash, -⟩ := h.laidOut.piece hp
  have hbuffer : op.buffer = slice file (op.pieceIndex * m.pieceLength) (m.pieceSize op.pieceIndex) := by
    rw [ValidateOp.buffer, hfull, Nat.sub_self, List.replicate_zero, List.append_nil, hread.buf, hfull,
      hread.fileOffset, hread.length]
  rw [hashValid, hbuffer, hm _ _ hhash]
  exact beq_self_eq_true _

theorem validated (hm : m.Describes sha1 file) (h : DownloadInv m file t) {op : ValidateOp} {valid : Bool}
    (hs : t.step (.validated op valid) = .ok t') (hC : t.Genuine sha1 file (.validated op valid)) :
    DownloadInv m file t' := by
  have hcounter := h.counter.step hs trivial
  have hlaid := h.laidOut.step hs
  obtain ⟨hfull, q, hq, hvalid⟩ := hC
  obtain ⟨hop, p, hp, ⟨-, rfl⟩ | ⟨hfalse, -⟩⟩ := validationHandler_eq_ok.1 hs
  · refine ⟨hlaid, hcounter, h.fileSize, fun v hv => ?_, h.distinct, h.complete,
      fun v hv => h.validations v (List.mem_of_mem_erase hv)⟩
    have hold := h.writes v hv
    exact ⟨hold.block, hold.fileOffset, hold.intact, hold.written_le, hold.stored⟩
  · rw [h.hashValid_buffer hm hop hfull hq, hfalse] at hvalid
    cases hvalid

theorem step (w : m.WellFormed) (hlen : m.length ≤ 2 ^ 32) (hm : m.Describes sha1 file)
    (h : DownloadInv m file t) {ev : Event} (hs : t.step ev = .ok t') (hC : t.Genuine sha1 file ev) :
    DownloadInv m file t' := by
  cases ev with
  | writeBlock i o d => exact h.writeBlock w hlen hs hC
  | transfer op n => exact h.transfer hs
  | reuse op bytes =>
    obtain ⟨hop, hold, -⟩ := reuse_eq_ok.1 hs
    exact absurd (h.writes op hop).intact hold
  | written op e => exact h.written w hs
  | fetch op n => exact h.fetch hs
  | validated op valid => exact h.validated hm hs hC

end DownloadInv

/-! ### What has been delivered -/

/-- The block is being written or complete. -/
def Delivered (t : Torrent) (i j : ℕ) : Prop :=
  (∃ op ∈ t.writes, op.pieceIndex = i ∧ op.blockOffset = j * Piece.nominalBlockSize) ∨
    ∃ b, t.blockAt i j = some b ∧ b.complete = true

namespace DownloadInv

theorem run (w : m.WellFormed) (hlen : m.length ≤ 2 ^ 32) (hm : m.Describes sha1 file)
    (h : DownloadInv m file t) {es : List Event}
    (hr : Run (Along (StepOf Torrent.step) (Genuine sha1 file)) t es t') : DownloadInv m file t' :=
  hr.invariant (fun _ _ _ h hs => h.step w hlen hm hs.1 hs.2) h

end DownloadInv

/-! ### The end of the download -/

/-- Every piece has been reported, and the output file is the file. -/
structure Finished (m : Metainfo) (file : ℕ → UInt8) (t : Torrent) : Prop where
  reported : ∀ i, i ∈ t.reported ↔ i < m.pieces.length
  validated : t.validated = m.pieces.length
  downloaded : t.downloaded = m.length
  outFile : slice t.outFile 0 m.length = slice file 0 m.length

/-- When all blocks have been delivered and nothing is outstanding, the download is finished. -/
theorem DownloadInv.finished (w : m.WellFormed) (h : DownloadInv m file t)
    (hall : ∀ i < m.pieces.length, ∀ j < Piece.numBlocks (m.pieceSize i), t.Delivered i j)
    (hw : t.writes = []) (hv : t.validations = []) : Finished m file t := by
  have hlen : t.pieces.length = m.pieces.length := by simpa using congrArg List.length h.laidOut.shapes
  have hvalidation := h.counter.validation
  have hcomplete : ∀ i < m.pieces.length, ∀ j b, t.blockAt i j = some b → b.complete = true := by
    intro i hi j b hb
    obtain ⟨p, hp, hbp⟩ := blockAt_eq_some.1 hb
    obtain ⟨-, -, -, -, hblocks, -⟩ := h.laidOut.piece hp
    have hj := (List.getElem?_eq_some_iff.1 hbp).1
    rcases hall i hi j (hblocks ▸ hj) with ⟨op, hop, -⟩ | ⟨b', hb', hc⟩
    · rw [hw] at hop
      cases hop
    · obtain rfl : b = b' := Option.some.inj (hb.symm.trans hb')
      exact hc
  have hpos : ∀ i < m.pieces.length, 0 < m.pieceSize i := by
    intro i hi
    rw [w.pieceSize_eq hi]
    rw [w.length_pieces_eq, lt_tileCount_iff w.pieceLength_pos] at hi
    have := w.pieceLength_pos
    omega
  have hreported : ∀ i, i ∈ t.reported ↔ i < m.pieces.length := by
    refine fun i => ⟨fun hi => hlen ▸ hvalidation.reported_lt i hi, fun hi => ?_⟩
    have hp := List.getElem?_eq_getElem (hlen ▸ hi)
    obtain ⟨-, -, -, -, hblocks, -⟩ := h.laidOut.piece hp
    have hfull := Piece.completeCount_eq_length.2 fun b hb => by
      obtain ⟨j, hj⟩ := List.getElem?_of_mem hb
      exact hcomplete i hi j b (blockAt_eq_some.2 ⟨_, hp, hj⟩)
    have hexact := (h.counter.exact_lt i _ hp).1
    have hsome : 0 < Piece.numBlocks (m.pieceSize i) :=
      (lt_tileCount_iff (by decide)).2 (by rw [Nat.zero_mul]; exact hpos i hi)
    have honce := hvalidation.once i _ hp
    have hzero : t.inFlight i = 0 := by rw [inFlight, hv, List.countP_nil]
    rw [Piece.CounterExact] at hexact
    rw [hzero, if_pos (by omega)] at honce
    exact List.count_pos_iff.1 (by omega)
  have hperm : t.reported.Perm (List.range m.pieces.length) :=
    (List.perm_ext_iff_of_nodup hvalidation.nodup_reported List.nodup_range).2 fun i => by
      rw [hreported, List.mem_range]
  refine ⟨hreported, ?_, ?_, ?_⟩
  · rw [hvalidation.validated, hperm.length_eq, List.length_range]
  · have hsizes : (List.range m.pieces.length).map t.sizeOfPiece =
        (List.range (tileCount m.length m.pieceLength)).map (tileSize m.length m.pieceLength) := by
      rw [← w.length_pieces_eq]
      refine List.map_congr_left fun i hi => ?_
      rw [List.mem_range] at hi
      have hp := List.getElem?_eq_getElem (hlen ▸ hi)
      rw [sizeOfPiece, hp, Option.map_some, Option.getD_some, (h.laidOut.piece hp).2.2.2.1,
        w.pieceSize_eq_tileSize hi]
    rw [hvalidation.downloaded, (hperm.map t.sizeOfPiece).sum_eq, hsizes]
    exact sum_tileSize w.pieceLength_pos
  · refine slice_congr fun x _ hx => ?_
    rw [Nat.zero_add] at hx
    have hi : x / m.pieceLength < m.pieces.length := by
      rw [w.length_pieces_eq]
      exact div_lt_tileCount w.pieceLength_pos hx
    have hmem := (div_eq_iff_mem_tile w.pieceLength_pos hx).1 rfl
    rw [← w.pieceSize_eq_tileSize hi] at hmem
    exact h.right hi (hcomplete _ hi) hmem.1 hmem.2

/-! ### Nothing gets stuck -/

namespace DownloadInv

end DownloadInv

end Torrent

end FTorrent
