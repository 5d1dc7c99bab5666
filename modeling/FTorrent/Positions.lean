import FTorrent.Torrent

/-!
# File positions

`write_block`, `read_block` and `validate_piece` each compute a file offset from a piece index.  The
first stores it in a `uint32_t`, the other two in a `uint64_t`; all three agree on a block exactly if
the block starts below byte `2 ^ 32` of the file (`blockAgrees_iff`).
-/

namespace FTorrent

open Lib

namespace Torrent

/-- The three functions agree on the block `b` of piece `p`, which the torrent keeps at `pos`: a write
of it stores its data there and nowhere else, a read of it reads there, and the validation of the
piece reads a range around it. -/
structure BlockAgrees (t : Torrent) (p : ℕ) (b : Block) (pos : ℕ) : Prop where
  write : ∀ d : List UInt8, d.length = b.size → ∃ op t₁ t₂,
    t.writeBlock p b.offset d = .ok t₁ ∧ t₁.writes = t.writes ++ [op] ∧
    t₁.transfer op b.size = .ok t₂ ∧ slice t₂.outFile pos b.size = d ∧
    ∀ x, x < pos ∨ pos + b.size ≤ x → t₂.outFile x = t.outFile x
  read : ∀ peer, ∃ op, (t.readBlock p b.offset b.size peer).reads = t.reads ++ [op] ∧
    op.fileOffset = pos ∧ op.length = b.size
  validate : ∃ op t', t.validatePiece p = .ok t' ∧ t'.validations = t.validations ++ [op] ∧
    op.fileOffset ≤ pos ∧ pos + b.size ≤ op.fileOffset + op.length

/-- The three functions agree on every block, no write of a block falls outside the file, and writes
of distinct blocks do not overlap. -/
structure PositionsAgree (m : Metainfo) (t : Torrent) : Prop where
  block : ∀ (p : ℕ) (pc : Piece) (j : ℕ) (b : Block), t.pieces[p]? = some pc →
    pc.blocks[j]? = some b → BlockAgrees t p b (p * m.pieceLength + b.offset)
  inside : ∀ (p : ℕ) (pc : Piece) (j : ℕ) (b : Block) (d : List UInt8) (op : WriteOp) (t' : Torrent),
    t.pieces[p]? = some pc → pc.blocks[j]? = some b → t.writeBlock p b.offset d = .ok t' →
    t'.writes = t.writes ++ [op] → op.fileOffset + b.size ≤ m.length
  disjoint : ∀ (p : ℕ) (pc : Piece) (j : ℕ) (b : Block) (d : List UInt8) (op : WriteOp) (t' : Torrent)
    (p₁ : ℕ) (pc₁ : Piece) (j₁ : ℕ) (b₁ : Block) (d₁ : List UInt8) (op₁ : WriteOp) (t₁ : Torrent),
    t.pieces[p]? = some pc → pc.blocks[j]? = some b → t.writeBlock p b.offset d = .ok t' →
    t'.writes = t.writes ++ [op] →
    t.pieces[p₁]? = some pc₁ → pc₁.blocks[j₁]? = some b₁ → t.writeBlock p₁ b₁.offset d₁ = .ok t₁ →
    t₁.writes = t.writes ++ [op₁] → (p, j) ≠ (p₁, j₁) →
    op.fileOffset + b.size ≤ op₁.fileOffset ∨ op₁.fileOffset + b₁.size ≤ op.fileOffset

/-! ### Where the blocks are -/

/-- The place of a block: inside its piece, which is inside the file. -/
structure BlockPlace (m : Metainfo) (p j : ℕ) (b : Block) : Prop where
  piece_lt : p < m.pieces.length
  offset : b.offset = j * Piece.nominalBlockSize
  size_pos : 0 < b.size
  size_le : b.size ≤ Piece.nominalBlockSize
  end_le : b.offset + b.size ≤ m.pieceSize p
  pieceSize_le : m.pieceSize p ≤ m.pieceLength
  piece_end : p * m.pieceLength + m.pieceSize p ≤ m.length

theorem LaidOut.blockPlace {m : Metainfo} {t : Torrent} (w : m.WellFormed) (h : LaidOut m t) {p j : ℕ}
    {pc : Piece} {b : Block} (hp : t.pieces[p]? = some pc) (hb : pc.blocks[j]? = some b) :
    BlockPlace m p j b := by
  obtain ⟨hi, -, -, -, hlen, hblocks⟩ := h.piece hp
  obtain ⟨hsize, hoff⟩ := hblocks j b hb
  have hj : j < Piece.numBlocks (m.pieceSize p) := by
    rw [← hlen]
    exact (List.getElem?_eq_some_iff.1 hb).1
  obtain ⟨-, h₁, h₂, h₃⟩ := Piece.makeBlock_bounds hj
  obtain ⟨h₄, h₅⟩ := w.piece_end_le hi
  refine ⟨hi, hoff, by omega, by omega, ?_, h₅, h₄⟩
  rw [hsize, hoff]
  exact h₃

/-- Distinct blocks have disjoint places. -/
theorem BlockPlace.disjoint {m : Metainfo} {p j p₁ j₁ : ℕ} {b b₁ : Block} (h : BlockPlace m p j b)
    (h₁ : BlockPlace m p₁ j₁ b₁) (hne : (p, j) ≠ (p₁, j₁)) :
    p * m.pieceLength + b.offset + b.size ≤ p₁ * m.pieceLength + b₁.offset ∨
      p₁ * m.pieceLength + b₁.offset + b₁.size ≤ p * m.pieceLength + b.offset := by
  have key : ∀ {p p₁ : ℕ}, p < p₁ → p * m.pieceLength + m.pieceLength ≤ p₁ * m.pieceLength := by
    intro p p₁ hlt
    rw [← Nat.succ_mul]
    exact Nat.mul_le_mul_right _ hlt
  have step : ∀ {j j₁ : ℕ}, j < j₁ →
      j * Piece.nominalBlockSize + Piece.nominalBlockSize ≤ j₁ * Piece.nominalBlockSize := by
    intro j j₁ hlt
    rw [← Nat.succ_mul]
    exact Nat.mul_le_mul_right _ hlt
  have e₁ := h.end_le
  have e₂ := h₁.end_le
  have s₁ := h.pieceSize_le
  have s₂ := h₁.pieceSize_le
  have z₁ := h.size_le
  have z₂ := h₁.size_le
  have o₁ := h.offset
  have o₂ := h₁.offset
  rcases lt_trichotomy p p₁ with hlt | rfl | hlt
  · have := key hlt
    omega
  · rcases lt_trichotomy j j₁ with hj | rfl | hj
    · have := step hj
      omega
    · exact absurd rfl hne
    · have := step hj
      omega
  · have := key hlt
    omega

/-! ### The three offsets -/

section

variable {m : Metainfo} {t : Torrent} (w : m.WellFormed) (h : LaidOut m t) {p j : ℕ} {pc : Piece}
  {b : Block} (hp : t.pieces[p]? = some pc) (hb : pc.blocks[j]? = some b)

include w h hp hb

/-- A write of a block starts, at the position of the block cut to 32 bits. -/
theorem writeBlock_of_block (d : List UInt8) :
    t.writeBlock p b.offset d = .ok { t with
      writes := t.writes ++ [⟨p, b.offset, u32 (p * m.pieceLength + b.offset), d,
        t.bufferChanges.count (p, b.offset / Piece.nominalBlockSize) + 1, 0⟩]
      bufferChanges := (p, b.offset / Piece.nominalBlockSize) :: t.bufferChanges } := by
  have hpl := h.blockPlace w hp hb
  rw [writeBlock_eq_ok]
  refine ⟨pc, b, hp, ?_, ?_⟩
  · rw [hpl.offset, Nat.mul_div_cancel _ (by decide)]
    exact hb
  · rw [h.nominal, u32_u64]

theorem writeOp_fileOffset {d : List UInt8} {op : WriteOp} {t' : Torrent}
    (hw : t.writeBlock p b.offset d = .ok t') (hop : t'.writes = t.writes ++ [op]) :
    op.fileOffset = u32 (p * m.pieceLength + b.offset) := by
  rw [writeBlock_of_block w h hp hb] at hw
  obtain rfl := Except.ok.inj hw
  have := List.append_cancel_left hop
  rw [← List.singleton_inj.1 this]

/-- A read of a block is at the position of the block. -/
theorem readBlock_of_block (peer : ℕ) : ∃ op,
    (t.readBlock p b.offset b.size peer).reads = t.reads ++ [op] ∧
      op.fileOffset = p * m.pieceLength + b.offset ∧ op.length = b.size := by
  have hpl := h.blockPlace w hp hb
  have hn := m.pieces_lt
  have hlen := m.length_lt
  have h32 := w.pieceLength_lt_u32
  have := hpl.piece_lt
  have := hpl.end_le
  have := hpl.pieceSize_le
  have := hpl.piece_end
  refine ⟨_, rfl, ?_, u32_of_lt (by omega)⟩
  change u64 (u32 p * t.nominalPieceSize + u32 b.offset) = _
  rw [h.nominal, u32_of_lt (by omega), u32_of_lt (by omega), u64_of_lt (by omega)]

/-- The validation of a piece reads a range around each of its blocks. -/
theorem validatePiece_of_block : ∃ op t', t.validatePiece p = .ok t' ∧
    t'.validations = t.validations ++ [op] ∧ op.fileOffset ≤ p * m.pieceLength + b.offset ∧
      p * m.pieceLength + b.offset + b.size ≤ op.fileOffset + op.length := by
  have hpl := h.blockPlace w hp hb
  have hlen := m.length_lt
  have := hpl.piece_end
  have hend := hpl.end_le
  refine ⟨_, _, validatePiece_eq_ok.2 ⟨pc, hp, rfl⟩, rfl, ?_, ?_⟩
  · rw [h.nominal, u64_of_lt (by omega)]
    dsimp only
    omega
  · rw [h.nominal, u64_of_lt (by omega), (h.piece hp).2.2.2.1]
    dsimp only
    omega

/-- The functions agree on a block exactly if it starts below byte `2 ^ 32`. -/
theorem blockAgrees_iff :
    BlockAgrees t p b (p * m.pieceLength + b.offset) ↔ p * m.pieceLength + b.offset < 2 ^ 32 := by
  have hpos := (h.blockPlace w hp hb).size_pos
  constructor
  · intro hagree
    -- a byte that differs from what the file has where the write really starts
    set start := u32 (p * m.pieceLength + b.offset) with hstart
    obtain ⟨op, t₁, t₂, hw, hop, htr, -, hout⟩ :=
      hagree.write (List.replicate b.size (t.outFile start + 1)) (by simp)
    rw [writeBlock_of_block w h hp hb] at hw
    obtain rfl := Except.ok.inj hw
    obtain rfl := List.singleton_inj.1 (List.append_cancel_left hop)
    obtain ⟨-, -, rfl⟩ := transfer_eq_ok.1 htr
    by_contra hge
    have hlt : start < p * m.pieceLength + b.offset := by
      have := u32_lt (p * m.pieceLength + b.offset)
      omega
    have hchanged := hout start (Or.inl hlt)
    dsimp only at hchanged
    rw [List.drop_zero, Nat.add_zero, List.take_of_length_le (by simp), ← hstart] at hchanged
    have hwritten : overwrite t.outFile start (List.replicate b.size (t.outFile start + 1))
        (start + 0) = _ := overwrite_inside (by simpa using hpos)
    rw [Nat.add_zero, hchanged, List.getElem_replicate] at hwritten
    simp at hwritten
  · intro hlt
    refine ⟨fun d hd => ?_, readBlock_of_block w h hp hb, validatePiece_of_block w h hp hb⟩
    refine ⟨_, _, _, writeBlock_of_block w h hp hb d, rfl,
      transfer_eq_ok.2 ⟨List.mem_append_right _ (List.mem_singleton_self _), by simp [hd], rfl⟩, ?_, ?_⟩
    · dsimp only
      rw [u32_of_lt hlt, Nat.add_zero, List.drop_zero, List.take_of_length_le (by omega), ← hd]
      exact slice_overwrite _ _ _
    · intro x hx
      dsimp only
      rw [u32_of_lt hlt, Nat.add_zero, List.drop_zero, List.take_of_length_le (by omega)]
      exact overwrite_outside (by omega)

end

/-- In a torrent of at most 4 GiB every block starts below byte `2 ^ 32`. -/
theorem start_lt_of_length_le {m : Metainfo} (w : m.WellFormed) {t : Torrent} (h : LaidOut m t)
    (hlen : m.length ≤ 2 ^ 32) {p j : ℕ} {pc : Piece} {b : Block} (hp : t.pieces[p]? = some pc)
    (hb : pc.blocks[j]? = some b) : p * m.pieceLength + b.offset < 2 ^ 32 := by
  have hpl := h.blockPlace w hp hb
  have := hpl.size_pos
  have := hpl.end_le
  have := hpl.piece_end
  omega

/-- In every state of a well-formed torrent, the three functions agree on all blocks exactly if every
block starts below byte `2 ^ 32` of the file. -/
theorem positionsAgree_iff {m : Metainfo} (w : m.WellFormed) {content : ℕ → UInt8} {es : List Event}
    {t : Torrent} (hr : Run (StepOf step) (init m content) es t) :
    PositionsAgree m t ↔ ∀ (p : ℕ) (pc : Piece) (j : ℕ) (b : Block), t.pieces[p]? = some pc →
      pc.blocks[j]? = some b → p * m.pieceLength + b.offset < 2 ^ 32 := by
  have h : LaidOut m t := LaidOut.run ⟨content, es, hr⟩
  constructor
  · exact fun hA p pc j b hp hb => (blockAgrees_iff w h hp hb).1 (hA.block p pc j b hp hb)
  · intro hlt
    refine ⟨fun p pc j b hp hb => (blockAgrees_iff w h hp hb).2 (hlt p pc j b hp hb), ?_, ?_⟩
    · intro p pc j b d op t' hp hb hw hop
      have hpl := h.blockPlace w hp hb
      have := hpl.end_le
      have := hpl.piece_end
      rw [writeOp_fileOffset w h hp hb hw hop, u32_of_lt (hlt p pc j b hp hb)]
      omega
    · intro p pc j b d op t' p₁ pc₁ j₁ b₁ d₁ op₁ t₁ hp hb hw hop hp₁ hb₁ hw₁ hop₁ hne
      rw [writeOp_fileOffset w h hp hb hw hop, writeOp_fileOffset w h hp₁ hb₁ hw₁ hop₁,
        u32_of_lt (hlt p pc j b hp hb), u32_of_lt (hlt p₁ pc₁ j₁ b₁ hp₁ hb₁)]
      exact (h.blockPlace w hp hb).disjoint (h.blockPlace w hp₁ hb₁) hne

/-- Two pieces, the second of two bytes. -/
def twoPieces : Metainfo :=
  ⟨2 ^ 14, List.replicate 2 (Vector.replicate 20 0), 2 ^ 14 + 2, by decide, by decide, by decide⟩

theorem positionsAgree_twoPieces : PositionsAgree twoPieces (init twoPieces fun _ => 0) := by
  have w : twoPieces.WellFormed := ⟨by decide, by decide, by decide⟩
  refine (positionsAgree_iff w (.nil _)).2 fun p pc j b hp hb => ?_
  exact start_lt_of_length_le w (LaidOut.init _ _) (by decide) hp hb

/-- Three pieces, the third of one byte and starting at byte `2 ^ 32`. -/
def overFourGiB : Metainfo :=
  ⟨2 ^ 31, List.replicate 3 (Vector.replicate 20 0), 2 ^ 32 + 1, by decide, by decide, by decide⟩

/-- A write of the block at byte `2 ^ 32` lands at the start of the file. -/
theorem not_positionsAgree_overFourGiB :
    ¬ ∀ m : Metainfo, m.WellFormed → ∀ (content : ℕ → UInt8) (es : List Event) (t : Torrent),
      Run (StepOf step) (init m content) es t → PositionsAgree m t := by
  intro h
  have w : overFourGiB.WellFormed := ⟨by decide, by decide, by decide⟩
  have hp : (init overFourGiB fun _ => 0).pieces[2]? =
      some (Piece.make 2 (Vector.replicate 20 0) 1) := rfl
  have hb : (Piece.make 2 (Vector.replicate 20 0) 1).blocks[0]? = some (Piece.makeBlock 1 0) := rfl
  have hagree := (h _ w (fun _ => 0) [] _ (.nil _)).block 2 _ 0 _ hp hb
  have hlt := (blockAgrees_iff w (LaidOut.init _ _) hp hb).1 hagree
  revert hlt
  decide

end Torrent

end FTorrent
