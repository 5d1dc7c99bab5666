import FTorrent.Validation

/-!
# The completion counter

`complete_blocks` is the number of complete blocks exactly as long as no write completes for a block
that is complete already.  This is shown for a single piece under any sequence of completions and
resets, and for the torrent, where resets follow failed validations and a reported piece then stays
complete.
-/

namespace FTorrent

open Lib

namespace Piece

/-- The counter is the number of complete blocks, and `complete()` tells whether all of them are. -/
def Counted (p : Piece) : Prop :=
  p.completeBlocks = p.completeCount ∧ (p.complete = true ↔ ∀ b ∈ p.blocks, b.complete = true)

theorem CounterExact.counted {p : Piece} (h : p.CounterExact) : p.Counted := ⟨h, h.complete_iff⟩

theorem length_step {p p' : Piece} (ev : Event) (hs : p.step ev = .ok p') :
    p'.blocks.length = p.blocks.length := by
  cases ev with
  | reset =>
    obtain rfl := Except.ok.inj hs
    exact length_reset p
  | written e offset =>
    obtain ⟨-, b, -, rfl⟩ := blockWritten_eq_ok.1 hs
    exact length_modifyBlock _ _ _

theorem counterExact_reset (p : Piece) : p.reset.CounterExact := (completeCount_reset p).symm

/-- A block that is not complete leaves room in an exact counter. -/
theorem CounterExact.room {p : Piece} (h : p.CounterExact) (hlen : p.blocks.length < 2 ^ 32)
    {j : ℕ} {b : Block} (hb : p.blocks[j]? = some b) (hc : b.complete = false) :
    p.completeBlocks + 1 < 2 ^ 32 := by
  have hne : p.completeCount ≠ p.blocks.length := by
    intro heq
    have := completeCount_eq_length.1 heq b (List.mem_of_getElem? hb)
    rw [hc] at this
    cases this
  have := completeCount_le p
  rw [CounterExact] at h
  omega

/-- The counter of a single piece, under completions and resets in any order. -/
theorem always_counted_iff (i : ℕ) (h : Hash) (s : ℕ) (es : List Event) :
    Always (StepOf step) Counted (make i h (u32 s)) es ↔
      Each (StepOf step) FreshCompletion (make i h (u32 s)) es := by
  refine always_iff_each (J := fun p => p.CounterExact ∧ p.blocks.length < 2 ^ 32)
    (fun p hp => hp.1.counted) ?_ ?_ ⟨?_, ?_⟩
  · intro p ev p' hp hs hC
    exact ⟨(counterExact_step ev hp.2 hp.1 hs).2 hC, (length_step ev hs).trans_lt hp.2⟩
  · intro p ev p' hp hs hC
    exact ⟨p', hs, fun hP => hC ((counterExact_step ev hp.2 hp.1 hs).1 hP.1)⟩
  · exact (completeCount_make _ _ _).symm
  · have := u32_lt s
    rw [length_make, numBlocks, nominalBlockSize]
    omega

end Piece

namespace Torrent

/-- The counters of all pieces are exact, and the pieces that were reported are complete. -/
def CountersExact (t : Torrent) : Prop :=
  ∀ (i : ℕ) (p : Piece), t.pieces[i]? = some p →
    p.Counted ∧ (i ∈ t.reported → p.complete = true)

/-- The event is not the completion of a write of a block that is complete already. -/
def FreshWrite (t : Torrent) : Event → Prop
  | .written op e => ∀ p, t.pieces[op.pieceIndex]? = some p →
      p.FreshCompletion (.written e (u32 op.blockOffset))
  | _ => True

/-- The invariant behind `CountersExact`. -/
structure CounterInv (t : Torrent) : Prop where
  validation : ValidationInv t
  exact_lt : ∀ (i : ℕ) (p : Piece), t.pieces[i]? = some p →
    p.CounterExact ∧ p.blocks.length < 2 ^ 32

namespace CounterInv

variable {t t' : Torrent}

theorem countersExact (h : CounterInv t) : CountersExact t := by
  intro i p hp
  obtain ⟨hexact, -⟩ := h.exact_lt i p hp
  refine ⟨hexact.counted, fun hmem => ?_⟩
  have honce := h.validation.once i p hp
  have hcount := List.count_pos_iff.2 hmem
  have hle := Piece.completeCount_le p
  rw [Piece.CounterExact] at hexact
  have hfull : p.completeBlocks = p.blocks.length := by
    split_ifs at honce <;> omega
  rw [Piece.complete, hfull, beq_iff_eq]

/-- Setting one piece to one whose counter is exact. -/
theorem exact_set (h : CounterInv t) {i : ℕ} {p p' : Piece} (hp : t.pieces[i]? = some p)
    (hp' : p'.CounterExact) (hlen : p'.blocks.length = p.blocks.length) {j : ℕ} {q : Piece}
    (hq : (t.pieces.set i p')[j]? = some q) : q.CounterExact ∧ q.blocks.length < 2 ^ 32 :=
  forall_set (P := fun _ q => q.CounterExact ∧ q.blocks.length < 2 ^ 32) hp
    (fun hexact => ⟨hp', hlen.trans_lt hexact.2⟩) h.exact_lt j q hq

theorem step (h : CounterInv t) {ev : Event} (hs : t.step ev = .ok t') (hC : t.FreshWrite ev) :
    CounterInv t' := by
  cases ev with
  | writeBlock i o d =>
    refine ⟨h.validation.step hs trivial, ?_⟩
    obtain ⟨p, b, -, -, rfl⟩ := writeBlock_eq_ok.1 hs
    exact h.exact_lt
  | transfer op n =>
    refine ⟨h.validation.step hs trivial, ?_⟩
    obtain ⟨-, -, rfl⟩ := transfer_eq_ok.1 hs
    exact h.exact_lt
  | reuse op bytes =>
    refine ⟨h.validation.step hs trivial, ?_⟩
    obtain ⟨-, -, -, rfl⟩ := reuse_eq_ok.1 hs
    exact h.exact_lt
  | written op e =>
    have hs' := hs
    obtain ⟨-, -, -, p, p', hp, hp', rfl⟩ := writeHandler_eq_ok.1 hs'
    obtain ⟨hexact, hlen⟩ := h.exact_lt _ _ hp
    obtain ⟨-, b, hb, -⟩ := Piece.blockWritten_eq_ok.1 hp'
    refine ⟨h.validation.step hs ?_, ?_⟩
    · intro q hq
      obtain rfl : p = q := Option.some.inj (hp.symm.trans hq)
      have := hexact.room hlen hb (hC p hp b hb)
      omega
    · exact fun j q hq => h.exact_set hp ((Piece.counterExact_step (.written e _) hlen hexact
        hp').2 (hC p hp)) (Piece.length_step (.written e _) hp') hq
  | fetch op n =>
    refine ⟨h.validation.step hs trivial, ?_⟩
    obtain ⟨-, -, -, rfl⟩ := fetchValidation_eq_ok.1 hs
    exact h.exact_lt
  | validated op valid =>
    refine ⟨h.validation.step hs trivial, ?_⟩
    obtain ⟨-, p, hp, ⟨-, rfl⟩ | ⟨-, rfl⟩⟩ := validationHandler_eq_ok.1 hs
    · exact h.exact_lt
    · exact fun j q hq => h.exact_set hp (Piece.counterExact_reset p) (Piece.length_reset p) hq

/-- A repeated completion leaves a counter that is not exact. -/
theorem not_countersExact (h : CounterInv t) {ev : Event} (hs : t.step ev = .ok t')
    (hC : ¬ t.FreshWrite ev) : ¬ CountersExact t' := by
  cases ev with
  | written op e =>
    obtain ⟨-, -, -, p, p', hp, hp', rfl⟩ := writeHandler_eq_ok.1 hs
    obtain ⟨hexact, hlen⟩ := h.exact_lt _ _ hp
    intro hP
    refine hC fun q hq => ?_
    obtain rfl : p = q := Option.some.inj (hp.symm.trans hq)
    refine (Piece.counterExact_step (.written e _) hlen hexact hp').1 ?_
    exact (hP op.pieceIndex p' (by rw [getElem?_set_of_some hp, if_pos rfl])).1.1
  | writeBlock i o d => exact absurd trivial hC
  | transfer op n => exact absurd trivial hC
  | reuse op bytes => exact absurd trivial hC
  | fetch op n => exact absurd trivial hC
  | validated op valid => exact absurd trivial hC

theorem init (m : Metainfo) (content : ℕ → UInt8) : CounterInv (init m content) where
  validation := validationInv_init m content
  exact_lt i p hp := by
    obtain ⟨h₁, h₂, h₃⟩ := fresh_of_init hp
    exact ⟨h₂.trans h₁.symm, h₃⟩

end CounterInv

/-- The counters of the torrent, in every order of deliveries, completions and hash outcomes. -/
theorem always_countersExact_iff (m : Metainfo) (content : ℕ → UInt8) (es : List Event) :
    Always (StepOf step) CountersExact (init m content) es ↔
      Each (StepOf step) FreshWrite (init m content) es :=
  always_iff_each (fun _ h => h.countersExact) (fun _ _ _ h hs hC => h.step hs hC)
    (fun _ _ t' h hs hC => ⟨t', hs, h.not_countersExact hs hC⟩) (CounterInv.init m content)

end Torrent

/-- The completion counter of a piece is exact, `complete()` holds exactly when all blocks are
complete and stays true for a reported piece, throughout exactly those runs in which no write
completes for a block that is complete already. -/
theorem completion_counter_exact_iff (i : ℕ) (h : Hash) (s : ℕ) (pieceEvents : List Piece.Event)
    (m : Metainfo) (content : ℕ → UInt8) (events : List Torrent.Event) :
    (Always (StepOf Piece.step) Piece.Counted (Piece.make i h (u32 s)) pieceEvents ↔
      Each (StepOf Piece.step) Piece.FreshCompletion (Piece.make i h (u32 s)) pieceEvents) ∧
    (Always (StepOf Torrent.step) Torrent.CountersExact (Torrent.init m content) events ↔
      Each (StepOf Torrent.step) Torrent.FreshWrite (Torrent.init m content) events) :=
  ⟨Piece.always_counted_iff i h s pieceEvents, Torrent.always_countersExact_iff m content events⟩

/-- A run in which the block of a torrent of one byte is delivered and written twice. -/
def deliveredTwice : List Torrent.Event :=
  [.writeBlock 0 0 [7], .transfer ⟨0, 0, 0, [7], 1, 0⟩ 1,
    .writeBlock 0 0 [8], .transfer ⟨0, 0, 0, [8], 2, 0⟩ 1,
    .written ⟨0, 0, 0, [7], 1, 1⟩ .success, .written ⟨0, 0, 0, [8], 2, 1⟩ .success]

theorem completion_counter_overcounts :
    ¬ ∀ (m : Metainfo) (content : ℕ → UInt8) (es : List Torrent.Event) (t : Torrent),
      Run (StepOf Torrent.step) (Torrent.init m content) es t → t.CountersExact := by
  intro h
  have hexact := h oneByte (fun _ => 0) deliveredTwice _ (run_iff_foldlM.2 rfl)
  have := (hexact 0 _ rfl).1.1
  revert this
  decide

end FTorrent
