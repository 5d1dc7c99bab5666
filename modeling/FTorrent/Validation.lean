import FTorrent.Torrent

/-!
# Validation happens exactly once

`blockWritten` counts every completion, also a repeated one, so the counter of a piece can run ahead
of the complete flags and pass the number of blocks.  A validation starts only when a completion
makes the two equal.  Since the counter only grows between two resets, and a reset follows a failed
validation, `ValidationInv` holds in every run: the validations of a piece in flight and the reports
made for it are together one if the counter has reached the number of blocks, and none before.
-/

namespace FTorrent

open Lib

namespace Torrent

/-- The number of validation reads of piece `i` in flight. -/
def inFlight (t : Torrent) (i : ℕ) : ℕ := t.validations.countP (·.pieceIndex == i)

/-- The number of outstanding writes to piece `i`. -/
def pendingWrites (t : Torrent) (i : ℕ) : ℕ := t.writes.countP (·.pieceIndex == i)

/-- The number of calls of `write_block` for piece `i`. -/
def writesTo (i : ℕ) (es : List Event) : ℕ :=
  es.countP fun
    | .writeBlock j _ _ => j == i
    | _ => false

/-- The size of the piece at position `i`. -/
def sizeOfPiece (t : Torrent) (i : ℕ) : ℕ := (t.pieces[i]?.map (·.size)).getD 0

/-- What the counter, the flags, the validations in flight and the reports have to do with each
other. -/
structure ValidationInv (t : Torrent) : Prop where
  flags : ∀ (i : ℕ) (p : Piece), t.pieces[i]? = some p → p.completeCount ≤ p.completeBlocks
  once : ∀ (i : ℕ) (p : Piece), t.pieces[i]? = some p → t.inFlight i + t.reported.count i =
    if 0 < p.blocks.length ∧ p.blocks.length ≤ p.completeBlocks then 1 else 0
  inFlight_lt : ∀ op ∈ t.validations, op.pieceIndex < t.pieces.length
  reported_lt : ∀ i ∈ t.reported, i < t.pieces.length
  pieces_lt : t.pieces.length < 2 ^ 32
  size_lt : ∀ i, t.sizeOfPiece i < 2 ^ 32
  validated : t.validated = t.reported.length
  downloaded : t.downloaded = (t.reported.map t.sizeOfPiece).sum

/-- Every completion counted or still to come belongs to one of the `w i` writes started. -/
def Budget (t : Torrent) (w : ℕ → ℕ) : Prop :=
  ∀ (i : ℕ) (p : Piece), t.pieces[i]? = some p → p.completeBlocks + t.pendingWrites i ≤ w i

/-- The counter that the event advances does not wrap. -/
def CounterRoom (t : Torrent) : Event → Prop
  | .written op _ => ∀ p, t.pieces[op.pieceIndex]? = some p → p.completeBlocks + 1 < 2 ^ 32
  | _ => True

theorem sizeOfPiece_lt_of_mem {t : Torrent} (h : ∀ p ∈ t.pieces, p.size < 2 ^ 32) (i : ℕ) :
    t.sizeOfPiece i < 2 ^ 32 := by
  unfold sizeOfPiece
  rcases hp : t.pieces[i]? with _ | p
  · decide
  · exact h p (List.mem_of_getElem? hp)

/-- The pieces of a new torrent have no complete block. -/
theorem fresh_of_init {m : Metainfo} {content : ℕ → UInt8} {i : ℕ} {p : Piece}
    (hp : (init m content).pieces[i]? = some p) :
    p.completeCount = 0 ∧ p.completeBlocks = 0 ∧ p.blocks.length < 2 ^ 32 := by
  obtain ⟨-, hash, -, rfl⟩ := Metainfo.getElem?_generatePieces hp
  refine ⟨Piece.completeCount_make _ _ _, rfl, ?_⟩
  have := m.pieceSize_lt i
  rw [Piece.length_make, Piece.numBlocks, Piece.nominalBlockSize]
  omega

theorem budget_init (m : Metainfo) (content : ℕ → UInt8) : Budget (init m content) fun _ => 0 := by
  intro i p hp
  simp [(fresh_of_init hp).2.1, pendingWrites, init]

theorem validationInv_init (m : Metainfo) (content : ℕ → UInt8) :
    ValidationInv (init m content) := by
  refine ⟨?_, ?_, ?_, ?_, ?_, ?_, rfl, rfl⟩
  · intro i p hp
    rw [(fresh_of_init hp).1]
    exact Nat.zero_le _
  · intro i p hp
    rw [(fresh_of_init hp).2.1, if_neg (by omega)]
    simp [inFlight, init]
  · simp [init]
  · simp [init]
  · simpa [init] using m.pieces_lt
  · refine sizeOfPiece_lt_of_mem fun p hp => ?_
    obtain ⟨i, hi⟩ := List.getElem?_of_mem hp
    obtain ⟨-, hash, -, rfl⟩ := Metainfo.getElem?_generatePieces hi
    exact m.pieceSize_lt i

namespace ValidationInv

variable {t t' : Torrent}

theorem inFlight_le (h : ValidationInv t) (i : ℕ) : t.inFlight i + t.reported.count i ≤ 1 := by
  rcases hp : t.pieces[i]? with _ | p
  · have hi : t.pieces.length ≤ i := by simpa using hp
    have h₁ : t.inFlight i = 0 := by
      refine List.countP_eq_zero.2 fun op hop => ?_
      have := h.inFlight_lt op hop
      simp only [beq_iff_eq]
      omega
    have h₂ : t.reported.count i = 0 := by
      refine List.count_eq_zero.2 fun hmem => ?_
      have := h.reported_lt i hmem
      omega
    omega
  · rw [h.once i p hp]
    split_ifs <;> omega

theorem nodup_reported (h : ValidationInv t) : t.reported.Nodup :=
  List.nodup_iff_count_le_one.2 fun i => by
    have := h.inFlight_le i
    omega

theorem length_reported_le (h : ValidationInv t) : t.reported.length ≤ t.pieces.length := by
  have hsub : t.reported ⊆ List.range t.pieces.length :=
    fun i hi => List.mem_range.2 (h.reported_lt i hi)
  simpa using (h.nodup_reported.subperm hsub).length_le

/-- The sizes of the reported pieces sum to a 64-bit number. -/
theorem sum_reported_lt (h : ValidationInv t) :
    (t.reported.map t.sizeOfPiece).sum ≤ t.reported.length * (2 ^ 32 - 1) := by
  have := List.sum_le_card_nsmul (t.reported.map t.sizeOfPiece) (2 ^ 32 - 1) (by
    intro x hx
    obtain ⟨i, -, rfl⟩ := List.mem_map.1 hx
    have := h.size_lt i
    omega)
  simpa using this

/-! ### One step -/

theorem sizeOfPiece_set {i : ℕ} {p : Piece} (p' : Piece) (hp : t.pieces[i]? = some p) (hs : p'.size = p.size)
    (j : ℕ) : ({ t with pieces := t.pieces.set i p' } : Torrent).sizeOfPiece j = t.sizeOfPiece j := by
  simp only [sizeOfPiece, getElem?_set_of_some hp]
  split_ifs with hij
  · subst hij
    simp [hp, hs]
  · rfl

/-- Starting a write and the steps of the transfers change neither the pieces nor the targets of the
validations. -/
theorem of_transfer (h : ValidationInv t) (hp : t'.pieces = t.pieces)
    (hv : ∀ i, t'.inFlight i = t.inFlight i)
    (hlt : ∀ op ∈ t'.validations, op.pieceIndex < t.pieces.length) (hr : t'.reported = t.reported)
    (hval : t'.validated = t.validated) (hdl : t'.downloaded = t.downloaded) :
    ValidationInv t' := by
  have hs : t'.sizeOfPiece = t.sizeOfPiece := by
    funext i
    rw [sizeOfPiece, hp, sizeOfPiece]
  refine ⟨?_, ?_, ?_, ?_, ?_, ?_, ?_, ?_⟩
  · rw [hp]; exact h.flags
  · intro i p
    rw [hp, hv, hr]
    exact h.once i p
  · rw [hp]; exact hlt
  · rw [hp, hr]; exact h.reported_lt
  · rw [hp]; exact h.pieces_lt
  · rw [hs]; exact h.size_lt
  · rw [hval, hr]; exact h.validated
  · rw [hdl, hr, hs]; exact h.downloaded

/-- A completed write: the counter moves up by one, and the validation it starts when it meets the
number of blocks is the first since the counter was last reset. -/
theorem finish_write (h : ValidationInv t) {op : WriteOp} {e : ErrorCode} {p p' : Piece}
    (hp : t.pieces[op.pieceIndex]? = some p)
    (hp' : p.blockWritten e (u32 op.blockOffset) = .ok p') (hlt : p.completeBlocks + 1 < 2 ^ 32) :
    ValidationInv { t with
      pieces := t.pieces.set op.pieceIndex p'
      writes := t.writes.erase op
      bufferChanges :=
        (op.pieceIndex, u32 op.blockOffset / Piece.nominalBlockSize) :: t.bufferChanges
      validations := t.validations ++
        if p'.complete then [⟨op.pieceIndex, u64 (op.pieceIndex * t.nominalPieceSize), p'.size, []⟩]
        else [] } := by
  obtain ⟨hsize, hlen, hcount, hflags⟩ : p'.size = p.size ∧ p'.blocks.length = p.blocks.length ∧
      p'.completeBlocks = p.completeBlocks + 1 ∧ p'.completeCount ≤ p.completeCount + 1 := by
    obtain ⟨-, b, hb, rfl⟩ := Piece.blockWritten_eq_ok.1 hp'
    exact ⟨rfl, Piece.length_modifyBlock _ _ _, u32_of_lt hlt,
      Piece.completeCount_modifyBlock_le hb⟩
  have hpos : 0 < p.blocks.length := by
    obtain ⟨-, b, hb, -⟩ := Piece.blockWritten_eq_ok.1 hp'
    exact (Nat.zero_le _).trans_lt (List.getElem?_eq_some_iff.1 hb).1
  have hidx : op.pieceIndex < t.pieces.length := (List.getElem?_eq_some_iff.1 hp).1
  have hcomplete : p'.complete = decide (p.completeBlocks + 1 = p.blocks.length) := by
    rw [Piece.complete, hcount, hlen]
    rfl
  refine ⟨?_, ?_, ?_, ?_, ?_, ?_, h.validated, ?_⟩
  · apply forall_set (P := fun _ q => q.completeCount ≤ q.completeBlocks) hp _ h.flags
    intro hflag
    omega
  · intro i q hq
    rw [getElem?_set_of_some hp] at hq
    simp only [inFlight, List.countP_append, hcomplete, decide_eq_true_eq]
    split_ifs at hq with hi
    · obtain rfl := Option.some.inj hq
      subst hi
      have := h.once _ _ hp
      simp only [inFlight] at this
      rw [hlen, hcount]
      by_cases hn : p.completeBlocks + 1 = p.blocks.length
      · rw [if_neg (by omega)] at this
        rw [if_pos hn, if_pos (by omega), List.countP_singleton, if_pos (by simp)]
        omega
      · rw [if_neg hn, List.countP_nil, Nat.add_zero, this]
        split_ifs <;> omega
    · rw [← h.once i q hq, inFlight]
      have hne : (op.pieceIndex == i) = false := by simpa using hi
      split_ifs <;> simp [hne]
  · intro v hv
    rw [List.length_set]
    rcases List.mem_append.1 hv with hv | hv
    · exact h.inFlight_lt v hv
    · split_ifs at hv
      · rw [List.mem_singleton] at hv
        rw [hv]
        exact hidx
      · simp at hv
  · intro i hi
    rw [List.length_set]
    exact h.reported_lt i hi
  · rw [List.length_set]
    exact h.pieces_lt
  · intro i
    exact (sizeOfPiece_set p' hp hsize i).trans_lt (h.size_lt i)
  · rw [h.downloaded]
    exact congrArg List.sum (List.map_congr_left fun i _ => (sizeOfPiece_set p' hp hsize i).symm)

/-- A validation that finds the right hash: it is the only one of its piece in flight, and the piece
has not been reported before. -/
theorem finish_valid (h : ValidationInv t) {op : ValidateOp} (hop : op ∈ t.validations)
    {p : Piece} (hp : t.pieces[op.pieceIndex]? = some p) :
    ValidationInv { t with
      validations := t.validations.erase op
      downloaded := u64 (t.downloaded + p.size)
      reported := u32 op.pieceIndex :: t.reported
      validated := u32 (t.validated + 1) } := by
  have hidx := h.inFlight_lt op hop
  have hplt := h.pieces_lt
  have hu : u32 op.pieceIndex = op.pieceIndex := u32_of_lt (by omega)
  have herase : ∀ i, (t.validations.erase op).countP (·.pieceIndex == i) +
      (if op.pieceIndex == i then 1 else 0) = t.inFlight i :=
    fun i => countP_erase_add _ hop
  have hnew : op.pieceIndex ∉ t.reported := by
    intro hmem
    have h₁ := h.inFlight_le op.pieceIndex
    have h₂ := herase op.pieceIndex
    rw [if_pos (by simp)] at h₂
    have h₃ := List.count_pos_iff.2 hmem
    omega
  have hroom : t.reported.length + 1 ≤ t.pieces.length := by
    have hnd : (op.pieceIndex :: t.reported).Nodup := List.nodup_cons.2 ⟨hnew, h.nodup_reported⟩
    have hsub : op.pieceIndex :: t.reported ⊆ List.range t.pieces.length := by
      intro i hi
      rw [List.mem_range]
      rcases List.mem_cons.1 hi with rfl | hi
      · exact hidx
      · exact h.reported_lt i hi
    simpa using (hnd.subperm hsub).length_le
  have hsize : t.sizeOfPiece op.pieceIndex = p.size := by
    rw [sizeOfPiece, hp]
    rfl
  refine ⟨h.flags, ?_, ?_, ?_, hplt, h.size_lt, ?_, ?_⟩
  · intro i q hq
    rw [← h.once i q hq, hu, List.count_cons, ← herase i]
    simp only [inFlight]
    omega
  · exact fun v hv => h.inFlight_lt v (List.mem_of_mem_erase hv)
  · intro i hi
    rw [hu] at hi
    rcases List.mem_cons.1 hi with rfl | hi
    · exact hidx
    · exact h.reported_lt i hi
  · change u32 (t.validated + 1) = _
    rw [h.validated, u32_of_lt (by omega), List.length_cons]
  · have hsum := h.sum_reported_lt
    have hs := h.size_lt op.pieceIndex
    have hmul : t.reported.length * (2 ^ 32 - 1) ≤ (2 ^ 32 - 1) * (2 ^ 32 - 1) :=
      Nat.mul_le_mul_right _ (by omega)
    change u64 (t.downloaded + p.size) = ((u32 op.pieceIndex :: t.reported).map t.sizeOfPiece).sum
    rw [h.downloaded, hu, List.map_cons, List.sum_cons, hsize, u64_of_lt (by omega), Nat.add_comm]

/-- A validation that fails: the piece starts again from nothing. -/
theorem finish_invalid (h : ValidationInv t) {op : ValidateOp} (hop : op ∈ t.validations)
    {p : Piece} (hp : t.pieces[op.pieceIndex]? = some p) :
    ValidationInv { t with
      validations := t.validations.erase op
      pieces := t.pieces.set op.pieceIndex p.reset } := by
  have herase : ∀ i, (t.validations.erase op).countP (·.pieceIndex == i) +
      (if op.pieceIndex == i then 1 else 0) = t.inFlight i :=
    fun i => countP_erase_add _ hop
  refine ⟨?_, ?_, ?_, ?_, ?_, ?_, h.validated, ?_⟩
  · apply forall_set (P := fun _ q => q.completeCount ≤ q.completeBlocks) hp _ h.flags
    intro _
    rw [Piece.completeCount_reset]
    exact Nat.zero_le _
  · intro i q hq
    rw [getElem?_set_of_some hp] at hq
    have he := herase i
    simp only [inFlight]
    split_ifs at hq with hi
    · obtain rfl := Option.some.inj hq
      subst hi
      have h₁ := h.once _ _ hp
      rw [if_pos (by simp)] at he
      rw [if_neg (by rw [Piece.length_reset]; change ¬ (_ ∧ _ ≤ 0); omega)]
      split_ifs at h₁ <;> omega
    · rw [← h.once i q hq]
      have hne : (op.pieceIndex == i) = false := by simpa using hi
      rw [hne] at he
      simpa using he
  · intro v hv
    rw [List.length_set]
    exact h.inFlight_lt v (List.mem_of_mem_erase hv)
  · intro i hi
    rw [List.length_set]
    exact h.reported_lt i hi
  · rw [List.length_set]
    exact h.pieces_lt
  · intro i
    exact (sizeOfPiece_set p.reset hp rfl i).trans_lt (h.size_lt i)
  · rw [h.downloaded]
    exact congrArg List.sum (List.map_congr_left fun i _ => (sizeOfPiece_set p.reset hp rfl i).symm)

/-- Every step of the torrent that does not wrap a counter keeps the invariant. -/
theorem step (h : ValidationInv t) {ev : Event} (hs : t.step ev = .ok t')
    (hroom : t.CounterRoom ev) : ValidationInv t' := by
  cases ev with
  | writeBlock i o d =>
    obtain ⟨p, b, -, -, rfl⟩ := writeBlock_eq_ok.1 hs
    exact h.of_transfer rfl (fun _ => rfl) h.inFlight_lt rfl rfl rfl
  | transfer op n =>
    obtain ⟨-, -, rfl⟩ := transfer_eq_ok.1 hs
    exact h.of_transfer rfl (fun _ => rfl) h.inFlight_lt rfl rfl rfl
  | reuse op bytes =>
    obtain ⟨-, -, -, rfl⟩ := reuse_eq_ok.1 hs
    exact h.of_transfer rfl (fun _ => rfl) h.inFlight_lt rfl rfl rfl
  | written op e =>
    obtain ⟨-, -, -, p, p', hp, hp', rfl⟩ := writeHandler_eq_ok.1 hs
    exact h.finish_write hp hp' (hroom p hp)
  | fetch op n =>
    obtain ⟨hop, -, -, rfl⟩ := fetchValidation_eq_ok.1 hs
    exact h.of_transfer rfl (fun i => countP_replace hop rfl)
      (forall_mem_replace h.inFlight_lt (h.inFlight_lt op hop)) rfl rfl rfl
  | validated op valid =>
    obtain ⟨hop, p, hp, ⟨-, rfl⟩ | ⟨-, rfl⟩⟩ := validationHandler_eq_ok.1 hs
    · exact h.finish_valid hop hp
    · exact h.finish_invalid hop hp

end ValidationInv

/-! ### The counters do not wrap -/

namespace Budget

variable {t t' : Torrent} {w : ℕ → ℕ}

/-- A write in flight has not been counted, so the counter is below the number of writes. -/
theorem counterRoom (h : Budget t w) (hw : ∀ i, w i < 2 ^ 32) {ev : Event}
    (hs : t.step ev = .ok t') : t.CounterRoom ev := by
  cases ev with
  | written op e =>
    obtain ⟨hop, -⟩ := writeHandler_eq_ok.1 hs
    intro p hp
    have h₁ := h _ _ hp
    have h₂ : 0 < t.pendingWrites op.pieceIndex := List.countP_pos_iff.2 ⟨op, hop, by simp⟩
    have h₃ := hw op.pieceIndex
    omega
  | _ => trivial

theorem step (h : Budget t w) (hw : ∀ i, w i < 2 ^ 32) {ev : Event} (hs : t.step ev = .ok t') :
    Budget t' fun i => w i + writesTo i [ev] := by
  cases ev with
  | writeBlock i o d =>
    obtain ⟨p, b, -, -, rfl⟩ := writeBlock_eq_ok.1 hs
    intro j q hq
    have := h j q hq
    simp only [pendingWrites, writesTo, List.countP_append, List.countP_singleton] at this ⊢
    omega
  | transfer op n =>
    obtain ⟨hop, -, rfl⟩ := transfer_eq_ok.1 hs
    intro j q hq
    have hrep : ({ op with written := op.written + n } :: t.writes.erase op).countP
        (·.pieceIndex == j) = t.pendingWrites j := countP_replace hop rfl
    exact (congrArg (q.completeBlocks + ·) hrep).trans_le (h j q hq)
  | reuse op bytes =>
    obtain ⟨hop, -, -, rfl⟩ := reuse_eq_ok.1 hs
    intro j q hq
    have hrep : ({ op with data := bytes } :: t.writes.erase op).countP
        (·.pieceIndex == j) = t.pendingWrites j := countP_replace hop rfl
    exact (congrArg (q.completeBlocks + ·) hrep).trans_le (h j q hq)
  | written op e =>
    have hroom := h.counterRoom hw hs
    obtain ⟨hop, -, -, p, p', hp, hp', rfl⟩ := writeHandler_eq_ok.1 hs
    have herase : ∀ i, (t.writes.erase op).countP (·.pieceIndex == i) +
        (if op.pieceIndex == i then 1 else 0) = t.pendingWrites i :=
      fun i => countP_erase_add _ hop
    intro i q hq
    have he := herase i
    rw [getElem?_set_of_some hp] at hq
    change q.completeBlocks + (t.writes.erase op).countP (·.pieceIndex == i) ≤ w i
    split_ifs at hq with hi
    · obtain rfl := Option.some.inj hq
      subst hi
      obtain ⟨-, b, -, rfl⟩ := Piece.blockWritten_eq_ok.1 hp'
      have := h _ _ hp
      have hu := u32_of_lt (hroom p hp)
      rw [if_pos (by simp)] at he
      dsimp only
      omega
    · have := h i q hq
      omega
  | fetch op n =>
    obtain ⟨-, -, -, rfl⟩ := fetchValidation_eq_ok.1 hs
    exact h
  | validated op valid =>
    obtain ⟨-, p, hp, ⟨-, rfl⟩ | ⟨-, rfl⟩⟩ := validationHandler_eq_ok.1 hs
    · exact h
    · have hpieces : ∀ (i : ℕ) (q : Piece), t.pieces[i]? = some q →
          q.completeBlocks + t.pendingWrites i ≤ w i := h
      apply forall_set (P := fun i q => q.completeBlocks + t.pendingWrites i ≤ w i) hp _ hpieces
      intro hpending
      change 0 + t.pendingWrites _ ≤ w _
      omega

end Budget

theorem writesTo_append (i : ℕ) (es fs : List Event) :
    writesTo i (es ++ fs) = writesTo i es + writesTo i fs :=
  List.countP_append

/-- The invariant holds in every run with fewer than `2 ^ 32` writes to each piece. -/
theorem validationInv_run {m : Metainfo} {content : ℕ → UInt8} {es : List Event} {t : Torrent}
    (hr : Run (StepOf step) (init m content) es t) (hw : ∀ i, writesTo i es < 2 ^ 32) :
    ValidationInv t ∧ Budget t fun i => writesTo i es := by
  induction hr using Run.snoc_induction with
  | nil => exact ⟨validationInv_init m content, budget_init m content⟩
  | snoc es t e u _ hs ih =>
    have hle : ∀ i, writesTo i es < 2 ^ 32 := fun i => by
      have := hw i
      rw [writesTo_append] at this
      omega
    obtain ⟨hinv, hbudget⟩ := ih hle
    simp only [writesTo_append]
    exact ⟨hinv.step hs (hbudget.counterRoom hle hs), hbudget.step hle hs⟩

/-- In every run of the torrent, with any order of deliveries, completions and hash outcomes: a piece
has at most one validation in flight, it is reported at most once, the two totals count exactly the
reported pieces, and a piece all of whose blocks are complete is being validated or was reported. -/
theorem validation_exactly_once {m : Metainfo} {content : ℕ → UInt8} {es : List Event} {t : Torrent}
    (hr : Run (StepOf step) (init m content) es t) (hw : ∀ i, writesTo i es < 2 ^ 32) :
    (∀ i, t.inFlight i ≤ 1) ∧
    (∀ i, t.reported.count i ≤ 1) ∧
    t.validated = t.reported.length ∧ t.validated ≤ t.pieces.length ∧
    t.downloaded = (t.reported.map t.sizeOfPiece).sum ∧
    ∀ (i : ℕ) (p : Piece), t.pieces[i]? = some p → p.blocks ≠ [] →
      (∀ b ∈ p.blocks, b.complete = true) → t.inFlight i = 0 → i ∈ t.reported := by
  have h := (validationInv_run hr hw).1
  refine ⟨fun i => ?_, fun i => ?_, h.validated, ?_, h.downloaded, ?_⟩
  · have := h.inFlight_le i
    omega
  · have := h.inFlight_le i
    omega
  · rw [h.validated]
    exact h.length_reported_le
  · intro i p hp hne hall hzero
    have hfull := Piece.completeCount_eq_length.2 hall
    have hflags := h.flags i p hp
    have honce := h.once i p hp
    have hpos := List.length_pos_iff.2 hne
    rw [hzero, if_pos (by omega)] at honce
    exact List.count_pos_iff.1 (by omega)

/-- A torrent of one piece of two blocks. -/
def twoBlocks : Metainfo :=
  ⟨2 ^ 15, [Vector.replicate 20 1], 2 ^ 14 + 1, by decide, by decide, by decide⟩

/-- The first block is delivered twice, which starts a validation too early; after it has failed,
both blocks are delivered. -/
def earlyValidation : List Event :=
  [.writeBlock 0 0 [1], .transfer ⟨0, 0, 0, [1], 1, 0⟩ 1,
    .writeBlock 0 0 [2], .transfer ⟨0, 0, 0, [2], 2, 0⟩ 1,
    .written ⟨0, 0, 0, [1], 1, 1⟩ .success, .written ⟨0, 0, 0, [2], 2, 1⟩ .success,
    .validated ⟨0, 0, 2 ^ 14 + 1, []⟩ false,
    .writeBlock 0 0 [1], .writeBlock 0 (2 ^ 14) [2],
    .transfer ⟨0, 2 ^ 14, 2 ^ 14, [2], 1, 0⟩ 1, .written ⟨0, 2 ^ 14, 2 ^ 14, [2], 1, 1⟩ .success,
    .transfer ⟨0, 0, 0, [1], 5, 0⟩ 1, .written ⟨0, 0, 0, [1], 5, 1⟩ .success,
    .validated ⟨0, 0, 2 ^ 14 + 1, []⟩ true]

theorem validation_exactly_once_early : ∃ t,
    Run (StepOf step) (init twoBlocks fun _ => 0) earlyValidation t ∧ t.reported = [0] ∧
      (∀ i, t.inFlight i ≤ 1) ∧ (∀ i, t.reported.count i ≤ 1) ∧ t.validated = 1 ∧
      t.downloaded = 2 ^ 14 + 1 := by
  have hr : Run (StepOf step) (init twoBlocks fun _ => 0) earlyValidation _ :=
    run_iff_foldlM.2 rfl
  have hw : ∀ i, writesTo i earlyValidation < 2 ^ 32 :=
    fun i => List.countP_le_length.trans_lt (by decide)
  obtain ⟨h₁, h₂, h₃, -, h₄, -⟩ := validation_exactly_once hr hw
  exact ⟨_, hr, rfl, h₁, h₂, h₃.trans rfl, h₄.trans rfl⟩

end Torrent

end FTorrent
