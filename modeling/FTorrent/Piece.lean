import FTorrent.Basic
import FTorrent.Lib.ListCount

/-!
# Blocks and pieces

A piece owns its blocks, a counter of completed blocks and its availability.  The handlers of the
program run atomically in this model, so the block mutexes are free whenever a handler starts:
`Block::requested` and `Block::complete` read their flags and `try_lock` succeeds.

`blockWritten` counts a completion whether or not the block was complete before, so the counter is
exact as long as no completion repeats (`counterExact_step`).
-/

namespace FTorrent

open Lib

/-- `Block`: its place in the piece and its two flags. -/
structure Block where
  size : ℕ
  offset : ℕ
  complete : Bool := false
  requested : Bool := false
  deriving DecidableEq, Repr

def Block.setComplete (b : Block) (c : Bool) : Block := { b with complete := c }

def Block.setRequested (b : Block) (r : Bool) : Block := { b with requested := r }

/-- `Piece`. -/
structure Piece where
  index : ℕ
  hash : Hash
  size : ℕ
  blocks : List Block
  completeBlocks : ℕ := 0
  availability : ℕ := 0
  deriving DecidableEq

namespace Piece

/-- 16 kB. -/
def nominalBlockSize : ℕ := 2 ^ 14

/-- `ceil((size * 1.0) / nominal_block_size)`; a 32-bit size is exact as a `double`. -/
def numBlocks (size : ℕ) : ℕ := (size + nominalBlockSize - 1) / nominalBlockSize

/-- The block the constructor makes at position `i`: the last one takes what is left. -/
def makeBlock (size i : ℕ) : Block where
  size := if i = numBlocks size - 1 then size - i * nominalBlockSize else nominalBlockSize
  offset := i * nominalBlockSize

/-- `Piece::Piece`. -/
def make (index : ℕ) (hash : Hash) (size : ℕ) : Piece where
  index := index
  hash := hash
  size := size
  blocks := (List.range (numBlocks size)).map (makeBlock size)

/-- `Piece::complete`. -/
def complete (p : Piece) : Bool := p.completeBlocks == p.blocks.length

/-- `Piece::get_block_by_offset`. -/
def getBlockByOffset (p : Piece) (offset : ℕ) : Except Fault Block :=
  vectorAt p.blocks (offset / nominalBlockSize)

/-- Update the block that `getBlockByOffset offset` returns. -/
def modifyBlock (p : Piece) (offset : ℕ) (f : Block → Block) : Piece :=
  { p with blocks := p.blocks.modify (offset / nominalBlockSize) f }

/-- `Piece::block_written`. -/
def blockWritten (p : Piece) (e : ErrorCode) (offset : ℕ) : Except Fault Piece :=
  if e.value ≠ 0 then .error (.exception e.message)
  else do
    let _ ← p.getBlockByOffset offset
    return { p.modifyBlock offset (Block.setComplete · true) with
      completeBlocks := u32 (p.completeBlocks + 1) }

/-- `Piece::reset`. -/
def reset (p : Piece) : Piece :=
  { p with blocks := p.blocks.map (Block.setComplete · false), completeBlocks := 0 }

def setAvailability (p : Piece) (a : ℕ) : Piece := { p with availability := a }

/-- The number of blocks of the piece whose complete flag is set. -/
def completeCount (p : Piece) : ℕ := p.blocks.countP (·.complete)

@[simp] theorem length_make (i : ℕ) (h : Hash) (s : ℕ) :
    (make i h s).blocks.length = numBlocks s := by
  simp [make]

theorem getBlockByOffset_eq_ok {p : Piece} {offset : ℕ} {b : Block} :
    p.getBlockByOffset offset = .ok b ↔ p.blocks[offset / nominalBlockSize]? = some b :=
  vectorAt_eq_ok

@[simp] theorem length_modifyBlock (p : Piece) (offset : ℕ) (f : Block → Block) :
    (p.modifyBlock offset f).blocks.length = p.blocks.length := by
  simp [modifyBlock]

@[simp] theorem length_reset (p : Piece) : p.reset.blocks.length = p.blocks.length := by
  simp [reset]

@[simp] theorem completeCount_make (i : ℕ) (h : Hash) (s : ℕ) : (make i h s).completeCount = 0 := by
  simp [completeCount, make, List.countP_eq_zero, makeBlock]

@[simp] theorem completeCount_reset (p : Piece) : p.reset.completeCount = 0 := by
  simp [completeCount, reset, List.countP_eq_zero, Block.setComplete]

theorem completeCount_le (p : Piece) : p.completeCount ≤ p.blocks.length := List.countP_le_length

theorem completeCount_eq_length {p : Piece} :
    p.completeCount = p.blocks.length ↔ ∀ b ∈ p.blocks, b.complete = true :=
  List.countP_eq_length

/-- A successful `block_written` sets the flag of the addressed block and advances the counter,
whatever the flag was. -/
theorem blockWritten_eq_ok {p p' : Piece} {e : ErrorCode} {offset : ℕ} :
    p.blockWritten e offset = .ok p' ↔
      e.value = 0 ∧ ∃ b, p.blocks[offset / nominalBlockSize]? = some b ∧
        p' = { p.modifyBlock offset (Block.setComplete · true) with
          completeBlocks := u32 (p.completeBlocks + 1) } := by
  unfold blockWritten
  split_ifs with he
  · simp [he]
  · simp only [bind_eq_ok, getBlockByOffset_eq_ok, not_not.1 he, true_and]
    exact ⟨fun ⟨b, hb, h⟩ => ⟨b, hb, (Except.ok.inj h).symm⟩, fun ⟨b, hb, h⟩ => ⟨b, hb, h ▸ rfl⟩⟩

/-- Setting the flag of a block adds one to the count unless the flag was set. -/
theorem completeCount_modifyBlock {p : Piece} {offset : ℕ} {b : Block}
    (hb : p.blocks[offset / nominalBlockSize]? = some b) :
    (p.modifyBlock offset (Block.setComplete · true)).completeCount =
      p.completeCount + if b.complete then 0 else 1 := by
  have := countP_modify (·.complete) (Block.setComplete · true) hb
  simp only [Block.setComplete, if_true] at this
  simp only [completeCount, modifyBlock, Block.setComplete]
  split_ifs with hc
  · rw [if_pos hc] at this
    omega
  · rw [if_neg hc] at this
    omega

theorem completeCount_modifyBlock_le {p : Piece} {offset : ℕ} {b : Block}
    (hb : p.blocks[offset / nominalBlockSize]? = some b) :
    (p.modifyBlock offset (Block.setComplete · true)).completeCount ≤ p.completeCount + 1 := by
  rw [completeCount_modifyBlock hb]
  split_ifs <;> omega

/-! ### What never changes -/

/-- The part of a piece that is fixed when it is made. -/
def shape (p : Piece) : ℕ × Hash × ℕ × List (ℕ × ℕ) :=
  (p.index, p.hash, p.size, p.blocks.map fun b => (b.size, b.offset))

theorem shape_modifyBlock (p : Piece) (offset : ℕ) {f : Block → Block}
    (hf : ∀ b, (f b).size = b.size ∧ (f b).offset = b.offset) :
    (p.modifyBlock offset f).shape = p.shape := by
  have : (p.blocks.modify (offset / nominalBlockSize) f).map (fun b => (b.size, b.offset)) =
      p.blocks.map fun b => (b.size, b.offset) := by
    apply List.ext_getElem? fun j => ?_
    simp only [List.getElem?_map, List.getElem?_modify]
    split_ifs <;> simp [Function.comp_def, hf]
  simp only [shape, modifyBlock, this]

@[simp] theorem shape_reset (p : Piece) : p.reset.shape = p.shape := by
  simp [shape, reset, Block.setComplete]

@[simp] theorem shape_setAvailability (p : Piece) (a : ℕ) : (p.setAvailability a).shape = p.shape :=
  rfl

theorem shape_blockWritten {p p' : Piece} {e : ErrorCode} {offset : ℕ}
    (h : p.blockWritten e offset = .ok p') : p'.shape = p.shape := by
  obtain ⟨-, b, -, rfl⟩ := blockWritten_eq_ok.1 h
  exact shape_modifyBlock p offset fun _ => ⟨rfl, rfl⟩

/-! ### The completion counter -/

/-- What changes the flags and the counter of a piece: the completion of a write of one of its
blocks, and a reset. -/
inductive Event where
  | written (e : ErrorCode) (offset : ℕ)
  | reset

def step (p : Piece) : Event → Except Fault Piece
  | .written e offset => p.blockWritten e offset
  | .reset => .ok p.reset

/-- The counter equals the number of complete blocks. -/
def CounterExact (p : Piece) : Prop := p.completeBlocks = p.completeCount

instance (p : Piece) : Decidable p.CounterExact := inferInstanceAs (Decidable (_ = _))

/-- The event is not the completion of a write of a block that is complete already. -/
def FreshCompletion (p : Piece) : Event → Prop
  | .written _ offset => ∀ b, p.blocks[offset / nominalBlockSize]? = some b → b.complete = false
  | .reset => True

/-- `complete()` answers whether every block is complete when the counter is exact. -/
theorem CounterExact.complete_iff {p : Piece} (h : p.CounterExact) :
    p.complete = true ↔ ∀ b ∈ p.blocks, b.complete = true := by
  unfold complete
  rw [h, beq_iff_eq]
  exact completeCount_eq_length

/-- An exact counter stays exact exactly if the completed block was not complete before. -/
theorem counterExact_step {p p' : Piece} (ev : Event) (hlen : p.blocks.length < 2 ^ 32)
    (h : p.CounterExact) (hs : p.step ev = .ok p') : p'.CounterExact ↔ p.FreshCompletion ev := by
  cases ev with
  | reset =>
    obtain rfl := Except.ok.inj hs
    exact iff_of_true (completeCount_reset p).symm trivial
  | written e offset =>
    obtain ⟨-, b, hb, rfl⟩ := blockWritten_eq_ok.1 hs
    have hcount := completeCount_modifyBlock hb
    have hle := completeCount_le p
    simp only [CounterExact, FreshCompletion, hb, Option.some.injEq, forall_eq'] at h ⊢
    change u32 (p.completeBlocks + 1) = (p.modifyBlock offset (Block.setComplete · true)).completeCount ↔ _
    rw [hcount, h]
    have hpos : b.complete = false → p.completeCount < p.blocks.length := by
      intro hc
      refine lt_of_le_of_ne hle fun heq => ?_
      have := completeCount_eq_length.1 heq b (List.mem_of_getElem? hb)
      rw [hc] at this
      cases this
    cases hc : b.complete with
    | false =>
      have := hpos hc
      simp only [Bool.false_eq_true, if_false, iff_true]
      exact u32_of_lt (by omega)
    | true =>
      simp only [if_true, Nat.add_zero, Bool.true_eq_false, iff_false, u32]
      omega

end Piece

end FTorrent
