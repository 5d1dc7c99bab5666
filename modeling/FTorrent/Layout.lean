import FTorrent.Piece

/-!
# The pieces of a torrent

`generatePieces` builds the pieces of a metainfo file.  The fields of `Metainfo` are bounded as the
program's are: two `uint64_t` numbers, and a piece count that is read into a `uint32_t`.  Nothing
in the program relates the three; a file for which the piece count is the length divided by the
piece length, rounded up, is `WellFormed`.
-/

namespace FTorrent

/-- The fields of `Metainfo` that the pieces and the torrent are built from. -/
structure Metainfo where
  pieceLength : ℕ
  pieces : List Hash
  length : ℕ
  pieceLength_lt : pieceLength < 2 ^ 64
  pieces_lt : pieces.length < 2 ^ 32
  length_lt : length < 2 ^ 64

namespace Metainfo

variable (m : Metainfo)

/-- The piece count fits the length, and a piece length fits a `uint32_t`. -/
structure WellFormed : Prop where
  pieceLength_pos : 0 < m.pieceLength
  pieceLength_lt_u32 : m.pieceLength < 2 ^ 32
  count : m.pieces.length = (m.length + m.pieceLength - 1) / m.pieceLength

/-- The size `generate_pieces` gives to the piece at position `i`: the last one takes what is left,
computed in 64 bits and stored in 32. -/
def pieceSize (i : ℕ) : ℕ :=
  if m.pieces.length - i = 1 then
    u32 (u64 (m.length + 2 ^ 64 - u64 ((m.pieces.length - 1) * m.pieceLength)))
  else u32 m.pieceLength

/-- `Manager::generate_pieces`. -/
def generatePieces : List Piece :=
  m.pieces.mapIdx fun i hash => Piece.make (u32 i) hash (m.pieceSize i)

@[simp] theorem length_generatePieces : m.generatePieces.length = m.pieces.length := by
  simp [generatePieces]

theorem pieceSize_lt (i : ℕ) : m.pieceSize i < 2 ^ 32 := by
  unfold pieceSize
  split_ifs <;> exact u32_lt _

variable {m}

theorem getElem?_generatePieces {i : ℕ} {p : Piece} (h : m.generatePieces[i]? = some p) :
    i < m.pieces.length ∧ ∃ hash, m.pieces[i]? = some hash ∧ p = Piece.make i hash (m.pieceSize i) := by
  have hi : i < m.pieces.length := by
    have := (List.getElem?_eq_some_iff.1 h).1
    simpa using this
  refine ⟨hi, ?_⟩
  simp only [generatePieces, List.getElem?_mapIdx, Option.map_eq_some_iff] at h
  obtain ⟨hash, hhash, rfl⟩ := h
  exact ⟨hash, hhash, by rw [u32_of_lt (by have := m.pieces_lt; omega)]⟩

end Metainfo

/-- A torrent of one piece of one byte. -/
def oneByte : Metainfo := ⟨1, [Vector.replicate 20 0], 1, by decide, by decide, by decide⟩

/-! ### Sizes in a well-formed torrent -/

namespace Metainfo.WellFormed

variable {m : Metainfo} (w : m.WellFormed)

include w

/-- All pieces but the last lie inside the file, and the last one ends it. -/
theorem last_start_lt (hn : 0 < m.pieces.length) :
    (m.pieces.length - 1) * m.pieceLength < m.length := by
  have hpos := w.pieceLength_pos
  have h : m.pieces.length * m.pieceLength ≤ m.length + m.pieceLength - 1 := by
    rw [w.count]
    exact Nat.div_mul_le_self _ _
  have : (m.pieces.length - 1) * m.pieceLength + m.pieceLength = m.pieces.length * m.pieceLength := by
    rw [← Nat.succ_mul, Nat.succ_eq_add_one, Nat.sub_add_cancel hn]
  omega

theorem length_le : m.length ≤ m.pieces.length * m.pieceLength := by
  have hpos := w.pieceLength_pos
  have h := Nat.lt_mul_div_succ (m.length + m.pieceLength - 1) hpos
  rw [← w.count, Nat.mul_add, Nat.mul_one, Nat.mul_comm] at h
  omega

/-- The size of a piece is what the file has left at its start, at most a piece length. -/
theorem pieceSize_eq {i : ℕ} (hi : i < m.pieces.length) :
    m.pieceSize i = min m.pieceLength (m.length - i * m.pieceLength) := by
  have hn : 0 < m.pieces.length := by omega
  have hlast := w.last_start_lt hn
  have hle := w.length_le
  have hlt := m.length_lt
  have h32 := w.pieceLength_lt_u32
  have hmul : m.pieces.length * m.pieceLength = (m.pieces.length - 1) * m.pieceLength + m.pieceLength := by
    rw [← Nat.succ_mul, Nat.succ_eq_add_one, Nat.sub_add_cancel hn]
  unfold pieceSize
  split_ifs with h
  · obtain rfl : i = m.pieces.length - 1 := by omega
    rw [u64_of_lt (by omega : (m.pieces.length - 1) * m.pieceLength < 2 ^ 64)]
    have : m.length + 2 ^ 64 - (m.pieces.length - 1) * m.pieceLength =
        (m.length - (m.pieces.length - 1) * m.pieceLength) + 2 ^ 64 := by omega
    rw [this, u64, Nat.add_mod_right, Nat.mod_eq_of_lt (by omega), u32_of_lt (by omega)]
    omega
  · have hstep : (i + 1) * m.pieceLength ≤ (m.pieces.length - 1) * m.pieceLength :=
      Nat.mul_le_mul_right _ (by omega)
    rw [Nat.add_mul, Nat.one_mul] at hstep
    rw [u32_of_lt h32]
    omega

/-- A piece ends inside the file and not after the start of the next piece. -/
theorem piece_end_le {i : ℕ} (hi : i < m.pieces.length) :
    i * m.pieceLength + m.pieceSize i ≤ m.length ∧ m.pieceSize i ≤ m.pieceLength := by
  have hstep : i * m.pieceLength ≤ (m.pieces.length - 1) * m.pieceLength :=
    Nat.mul_le_mul_right _ (by omega)
  have := w.last_start_lt (by omega)
  rw [w.pieceSize_eq hi]
  omega

end Metainfo.WellFormed

/-! ### Blocks of a piece -/

namespace Piece

theorem getElem?_make_blocks {i : ℕ} {h : Hash} {s j : ℕ} {b : Block}
    (hb : (make i h s).blocks[j]? = some b) : j < numBlocks s ∧ b = makeBlock s j := by
  simp only [make, List.getElem?_map, Option.map_eq_some_iff] at hb
  obtain ⟨k, hk, rfl⟩ := hb
  obtain ⟨hj, rfl⟩ := List.getElem?_eq_some_iff.1 hk
  rw [List.getElem_range]
  exact ⟨by simpa using hj, rfl⟩

/-- A block is non-empty, at most 16 kB long, ends inside the piece, and starts where its position
says. -/
theorem makeBlock_bounds {s j : ℕ} (hj : j < numBlocks s) :
    (makeBlock s j).offset = j * nominalBlockSize ∧ 0 < (makeBlock s j).size ∧
      (makeBlock s j).size ≤ nominalBlockSize ∧
      (makeBlock s j).offset + (makeBlock s j).size ≤ s := by
  refine ⟨rfl, ?_⟩
  unfold makeBlock numBlocks nominalBlockSize at *
  dsimp only
  split_ifs <;> omega

end Piece

end FTorrent
