import FTorrent.Layout
import FTorrent.Lib.Tiling

/-!
# The blocks tile the file

`generate_pieces` cuts the file into pieces, and `Piece::Piece` cuts each piece into blocks; both are a
cutting into tiles, the last of which takes what is left.  The blocks of all the pieces, each at the
place that its piece and its offset say, cover every byte of the file once (`tiled_generatePieces`).
-/

namespace FTorrent

open Lib

/-! ### The two cuttings -/

/-- The blocks of a piece are its tiles. -/
theorem Piece.size_makeBlock {s j : ℕ} (hj : j < numBlocks s) :
    (makeBlock s j).size = tileSize s nominalBlockSize j := by
  have hlt : j * nominalBlockSize < s := (lt_tileCount_iff (by decide)).1 hj
  have hnext := lt_tileCount_iff (n := s) (i := j + 1) (by decide : 0 < nominalBlockSize)
  rw [Nat.add_mul, Nat.one_mul] at hnext
  have hcount : tileCount s nominalBlockSize = numBlocks s := rfl
  rw [hcount] at hnext
  unfold makeBlock tileSize
  dsimp only
  split_ifs <;> omega

section

variable {m : Metainfo} (w : m.WellFormed)

include w

/-- The pieces are the tiles of the file. -/
theorem Metainfo.WellFormed.length_pieces_eq : m.pieces.length = tileCount m.length m.pieceLength :=
  w.count

theorem Metainfo.WellFormed.pieceSize_eq_tileSize {i : ℕ} (hi : i < m.pieces.length) :
    m.pieceSize i = tileSize m.length m.pieceLength i :=
  w.pieceSize_eq hi

end

/-! ### The blocks in the file -/

namespace Metainfo

/-- The block of the piece lies over the byte `x` of the file. -/
def Covers (m : Metainfo) (piece : Piece) (block : Block) (x : ℕ) : Prop :=
  piece.index * m.pieceLength + block.offset ≤ x ∧
    x < piece.index * m.pieceLength + block.offset + block.size

/-- The blocks of the pieces cover the file, each byte once, and an offset into a piece finds its
block. -/
structure Tiled (m : Metainfo) : Prop where
  size : ∀ pc ∈ m.generatePieces, ∀ b ∈ pc.blocks, 0 < b.size ∧ b.size ≤ Piece.nominalBlockSize
  inside : ∀ pc ∈ m.generatePieces, ∀ b ∈ pc.blocks, ∀ x, m.Covers pc b x → x < m.length
  covered : ∀ x < m.length, ∃ pc ∈ m.generatePieces, ∃ b ∈ pc.blocks, m.Covers pc b x
  disjoint : ∀ (p₁ p₂ j₁ j₂ : ℕ) (pc₁ pc₂ : Piece) (b₁ b₂ : Block),
    m.generatePieces[p₁]? = some pc₁ → pc₁.blocks[j₁]? = some b₁ →
    m.generatePieces[p₂]? = some pc₂ → pc₂.blocks[j₂]? = some b₂ →
    ∀ x, m.Covers pc₁ b₁ x → m.Covers pc₂ b₂ x → p₁ = p₂ ∧ j₁ = j₂
  sum : ∀ pc ∈ m.generatePieces, (pc.blocks.map (·.size)).sum = pc.size
  lookup : ∀ pc ∈ m.generatePieces, ∀ o < pc.size, ∃ b ∈ pc.blocks,
    pc.getBlockByOffset o = .ok b ∧ b.offset ≤ o ∧ o < b.offset + b.size

variable {m : Metainfo} (w : m.WellFormed) {p j x : ℕ} {pc : Piece} {b : Block}

/-- A byte of a block is in the tile of the block and in the tile of its piece. -/
theorem place_of_covers (hp : m.generatePieces[p]? = some pc) (hb : pc.blocks[j]? = some b)
    (hx : m.Covers pc b x) : ∃ o, x = p * m.pieceLength + o ∧ o < m.pieceSize p ∧
      o / Piece.nominalBlockSize = j := by
  obtain ⟨-, hash, -, rfl⟩ := getElem?_generatePieces hp
  obtain ⟨hj, rfl⟩ := Piece.getElem?_make_blocks hb
  have hend := tile_end_le (by decide) hj
  rw [← Piece.size_makeBlock hj] at hend
  have hlow : p * m.pieceLength + j * Piece.nominalBlockSize ≤ x := hx.1
  have hhigh : x < p * m.pieceLength + j * Piece.nominalBlockSize + _ := hx.2
  have ho : x - p * m.pieceLength < m.pieceSize p := by omega
  refine ⟨x - p * m.pieceLength, by omega, ho, ?_⟩
  rw [div_eq_iff_mem_tile (by decide) ho, ← Piece.size_makeBlock hj]
  omega

include w

theorem piece_of_covers (hp : m.generatePieces[p]? = some pc) (hb : pc.blocks[j]? = some b)
    (hx : m.Covers pc b x) : x < m.length ∧ x / m.pieceLength = p := by
  obtain ⟨o, rfl, ho, -⟩ := place_of_covers hp hb hx
  have hi := (getElem?_generatePieces hp).1
  rw [w.pieceSize_eq_tileSize hi] at ho
  rw [w.length_pieces_eq] at hi
  have hend := tile_end_le w.pieceLength_pos hi
  have hlt : p * m.pieceLength + o < m.length := by omega
  refine ⟨hlt, ?_⟩
  rw [div_eq_iff_mem_tile w.pieceLength_pos hlt]
  omega

omit w in
/-- The block that an offset into a piece finds. -/
theorem lookup_make {hash : Hash} {s o : ℕ} (ho : o < s) : ∃ b ∈ (Piece.make p hash s).blocks,
    (Piece.make p hash s).getBlockByOffset o = .ok b ∧ b.offset ≤ o ∧ o < b.offset + b.size := by
  have hj : o / Piece.nominalBlockSize < Piece.numBlocks s := div_lt_tileCount (by decide) ho
  have hmem := (div_eq_iff_mem_tile (by decide : 0 < Piece.nominalBlockSize) ho).1 rfl
  have hb : (Piece.make p hash s).blocks[o / Piece.nominalBlockSize]? =
      some (Piece.makeBlock s (o / Piece.nominalBlockSize)) := by
    simp [Piece.make, hj]
  refine ⟨_, List.mem_of_getElem? hb, Piece.getBlockByOffset_eq_ok.2 hb, hmem.1, ?_⟩
  rw [Piece.size_makeBlock hj]
  exact hmem.2

/-- Every byte of the file is in a block of the piece that the division by the piece length finds. -/
theorem exists_covers (hx : x < m.length) :
    ∃ pc ∈ m.generatePieces, ∃ b ∈ pc.blocks, m.Covers pc b x := by
  have hi : x / m.pieceLength < m.pieces.length := by
    rw [w.length_pieces_eq]
    exact div_lt_tileCount w.pieceLength_pos hx
  have hmem := (div_eq_iff_mem_tile w.pieceLength_pos hx).1 rfl
  rw [← w.pieceSize_eq_tileSize hi] at hmem
  obtain ⟨pc, hpc⟩ : ∃ pc, m.generatePieces[x / m.pieceLength]? = some pc :=
    ⟨_, List.getElem?_eq_getElem (by simpa using hi)⟩
  obtain ⟨-, hash, -, rfl⟩ := getElem?_generatePieces hpc
  have ho : x - x / m.pieceLength * m.pieceLength < m.pieceSize (x / m.pieceLength) := by omega
  obtain ⟨b, hb, -, hlow, hhigh⟩ := @lookup_make (x / m.pieceLength) hash _ _ ho
  refine ⟨_, List.mem_of_getElem? hpc, b, hb, ?_, ?_⟩
  · show x / m.pieceLength * m.pieceLength + b.offset ≤ x
    omega
  · show x < x / m.pieceLength * m.pieceLength + b.offset + b.size
    omega

/-- The blocks of the pieces tile the file. -/
theorem tiled_generatePieces : m.Tiled where
  size pc hpc b hb := by
    obtain ⟨p, hp⟩ := List.getElem?_of_mem hpc
    obtain ⟨-, hash, -, rfl⟩ := getElem?_generatePieces hp
    obtain ⟨j, hj⟩ := List.getElem?_of_mem hb
    obtain ⟨hlt, rfl⟩ := Piece.getElem?_make_blocks hj
    obtain ⟨-, hpos, hle, -⟩ := Piece.makeBlock_bounds hlt
    exact ⟨hpos, hle⟩
  inside pc hpc b hb x hx := by
    obtain ⟨p, hp⟩ := List.getElem?_of_mem hpc
    obtain ⟨j, hj⟩ := List.getElem?_of_mem hb
    exact (piece_of_covers w hp hj hx).1
  covered x hx := exists_covers w hx
  disjoint p₁ p₂ j₁ j₂ pc₁ pc₂ b₁ b₂ hp₁ hb₁ hp₂ hb₂ x hx₁ hx₂ := by
    obtain rfl : p₁ = p₂ :=
      (piece_of_covers w hp₁ hb₁ hx₁).2.symm.trans (piece_of_covers w hp₂ hb₂ hx₂).2
    obtain ⟨o₁, ho₁, -, hj₁⟩ := place_of_covers hp₁ hb₁ hx₁
    obtain ⟨o₂, ho₂, -, hj₂⟩ := place_of_covers hp₂ hb₂ hx₂
    obtain rfl : o₁ = o₂ := by omega
    exact ⟨rfl, hj₁.symm.trans hj₂⟩
  sum pc hpc := by
    obtain ⟨p, hp⟩ := List.getElem?_of_mem hpc
    obtain ⟨-, hash, -, rfl⟩ := getElem?_generatePieces hp
    have hsizes : (Piece.make p hash (m.pieceSize p)).blocks.map (·.size) =
        (List.range (tileCount (m.pieceSize p) Piece.nominalBlockSize)).map
          (tileSize (m.pieceSize p) Piece.nominalBlockSize) := by
      rw [Piece.make, List.map_map]
      exact List.map_congr_left fun j hj => Piece.size_makeBlock (List.mem_range.1 hj)
    rw [hsizes]
    exact sum_tileSize (by decide)
  lookup pc hpc o ho := by
    obtain ⟨p, hp⟩ := List.getElem?_of_mem hpc
    obtain ⟨-, hash, -, rfl⟩ := getElem?_generatePieces hp
    exact lookup_make ho

omit w in
/-- A file of two pieces of two blocks, where the last block of each piece is cut short, and the last
piece. -/
def unevenPieces : Metainfo :=
  ⟨3 * 2 ^ 13, [Vector.replicate 20 1, Vector.replicate 20 2], 5 * 2 ^ 13 + 1, by decide, by decide,
    by decide⟩

omit w in
theorem tiled_unevenPieces : unevenPieces.Tiled :=
  tiled_generatePieces ⟨by decide, by decide, by decide⟩

end Metainfo

end FTorrent
