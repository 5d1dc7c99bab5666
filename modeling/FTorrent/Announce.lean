import FTorrent.Frame

/-!
# Announced pieces

The picker's bitfield is filled when the picker is made and `piece_verified`, which would set a bit
later, is not called anywhere.  So the bitfield and what a peer is told when it joins stay as they
were at the start, while reports and HAVE messages go on.  They agree with the validated pieces
exactly as long as no piece has been validated and no piece was complete from the start.
-/

namespace FTorrent

open Lib

/-- The entry tells the peer `p` that we have piece `i`. -/
def Note.Announces (p i : ℕ) : Note → Prop
  | .sent q (.bitField bits) => q = p ∧ bits[i]? = some true
  | .sent q (.haveMsg j) => q = p ∧ j.toNat = i
  | _ => False

theorem Note.Ordinary.not_announces {n : Note} (h : n.Ordinary) (p i : ℕ) : ¬ n.Announces p i := by
  cases n with
  | sent q msg => cases msg <;> first | exact fun h => h | exact absurd h id
  | _ => exact fun h => h

namespace Client

/-- The peer has been told that we have piece `i`. -/
def Announced (c : Client) (p i : ℕ) : Prop := ∃ n ∈ c.log, n.Announces p i

/-- The bitfield and what every registered peer was told are the validated pieces. -/
def AnnouncesValidated (c : Client) : Prop :=
  ∀ i < c.torrent.pieces.length,
    (c.picker.getHaveBitfield[i]? = some true ↔ i ∈ c.torrent.reported) ∧
    ∀ p ∈ c.registered, c.Announced p i ↔ i ∈ c.torrent.reported

/-- The event is not the end of a validation that finds the right hash. -/
def ValidatesNothing (sha1 : List UInt8 → Hash) (c : Client) : Event → Prop
  | .validated op => ∀ piece, c.torrent.pieces[op.pieceIndex]? = some piece →
      hashValid sha1 op.buffer piece.hash = false
  | _ => True

end Client

namespace RarestFirstPicker

theorem getElem?_foldl_set (ps : List Piece) (bits : List Bool) (i : ℕ) (hi : i < bits.length) :
    (ps.foldl (fun bits p => if p.complete then bits.set p.index true else bits) bits)[i]? = some true ↔
      bits[i]? = some true ∨ ∃ p ∈ ps, p.complete = true ∧ p.index = i := by
  induction ps generalizing bits with
  | nil => simp
  | cons p ps ih =>
    rw [List.foldl_cons]
    by_cases hp : p.complete = true
    · rw [if_pos hp, ih _ (by simpa using hi), List.getElem?_set]
      by_cases hidx : p.index = i
      · subst hidx
        simp [hi, hp]
      · simp [hidx, hp]
    · rw [if_neg hp, ih _ hi]
      simp [hp]

/-- A bit of a new picker is set for the pieces that are complete from the start. -/
theorem create_bit_iff {ps : List Piece} {i : ℕ} (hi : i < ps.length) :
    (create ps).getHaveBitfield[i]? = some true ↔ ∃ p ∈ ps, p.complete = true ∧ p.index = i := by
  have := getElem?_foldl_set ps (List.replicate ps.length false) i (by simpa using hi)
  simpa [create, getHaveBitfield, List.getElem?_replicate, hi] using this

end RarestFirstPicker

theorem Piece.complete_make {i : ℕ} {h : Hash} {s : ℕ} : (make i h s).complete = true ↔ s = 0 := by
  simp only [complete, length_make, beq_iff_eq]
  change 0 = numBlocks s ↔ s = 0
  unfold numBlocks nominalBlockSize
  omega

namespace Client

variable {sha1 : List UInt8 → Hash} {m : Metainfo} {content : ℕ → UInt8} {c c' : Client}

/-- In a torrent without empty pieces, no bit is set at the start. -/
theorem init_bit (hpos : ∀ i < m.pieces.length, 0 < m.pieceSize i) (i : ℕ) :
    (init m content).picker.getHaveBitfield[i]? ≠ some true := by
  intro h
  by_cases hi : i < m.generatePieces.length
  · obtain ⟨p, hp, hc, -⟩ := (RarestFirstPicker.create_bit_iff hi).1 h
    obtain ⟨j, hj⟩ := List.getElem?_of_mem hp
    obtain ⟨hlt, hash, -, rfl⟩ := Metainfo.getElem?_generatePieces hj
    have := hpos j hlt
    rw [Piece.complete_make] at hc
    omega
  · obtain ⟨hlt, -⟩ := List.getElem?_eq_some_iff.1 h
    have hlen : ∀ (ps : List Piece) (bits : List Bool), (ps.foldl (fun bits p =>
        if p.complete then bits.set p.index true else bits) bits).length = bits.length := by
      intro ps bits
      induction ps generalizing bits with
      | nil => rfl
      | cons p ps ih =>
        rw [List.foldl_cons, ih]
        split_ifs <;> simp
    exact hi (by simpa [init, RarestFirstPicker.create, RarestFirstPicker.getHaveBitfield, hlen] using hlt)

/-- Nothing has been validated, and nobody has been told anything. -/
structure Unannounced (m : Metainfo) (c : Client) : Prop where
  laidOut : Torrent.LaidOut m c.torrent
  bits : ∀ i : ℕ, c.picker.getHaveBitfield[i]? ≠ some true
  reported : c.torrent.reported = []
  log : ∀ n ∈ c.log, ∀ p i, ¬ n.Announces p i

namespace Unannounced

theorem announcesValidated (h : Unannounced m c) : c.AnnouncesValidated := by
  refine fun i _ => ⟨iff_of_false (h.bits i) (by simp [h.reported]), fun p _ => ?_⟩
  exact iff_of_false (fun ⟨n, hn, ha⟩ => h.log n hn p i ha) (by simp [h.reported])

theorem init (hpos : ∀ i < m.pieces.length, 0 < m.pieceSize i) : Unannounced m (init m content) :=
  ⟨Torrent.LaidOut.init m content, init_bit hpos, rfl, by simp [Client.init]⟩

theorem of_frame (h : Unannounced m c) (hf : Frame Note.Ordinary c c')
    (hl : Torrent.LaidOut m c'.torrent) : Unannounced m c' := by
  obtain ⟨ns, hns, hord⟩ := hf.log
  refine ⟨hl, ?_, hf.reported.trans h.reported, fun n hn => ?_⟩
  · intro i
    rw [RarestFirstPicker.getHaveBitfield, hf.pieceBitfield]
    exact h.bits i
  · rw [hns] at hn
    rcases List.mem_append.1 hn with hn | hn
    · exact (hord n hn).not_announces
    · exact h.log n hn

/-- A new entry that announces nothing, and a torrent in which nothing was reported. -/
theorem of_note (h : Unannounced m c) {n : Note} {t : Torrent} {peers : List Peer}
    {registered : List ℕ} (hl : Torrent.LaidOut m t) (hr : t.reported = c.torrent.reported)
    (hn : ∀ p i, ¬ n.Announces p i) :
    Unannounced m ⟨t, c.picker, peers, registered, n :: c.log⟩ :=
  ⟨hl, h.bits, hr.trans h.reported, List.forall_mem_cons.2 ⟨hn, h.log⟩⟩

theorem of_torrent (h : Unannounced m c) {t : Torrent} (hl : Torrent.LaidOut m t)
    (hr : t.reported = c.torrent.reported) : Unannounced m { c with torrent := t } :=
  ⟨hl, h.bits, hr.trans h.reported, h.log⟩

theorem step {ev : Event} (h : Unannounced m c) (hs : c.step sha1 ev = .ok c')
    (hC : c.ValidatesNothing sha1 ev) : Unannounced m c' := by
  have hl := laidOut_step h.laidOut hs
  cases ev with
  | addPeer =>
    cases hs
    exact h.of_note h.laidOut rfl fun p i ha => h.bits i ha.2
  | removePeer p =>
    cases hs
    unfold removePeer
    split_ifs
    · exact h.of_note h.laidOut rfl fun _ _ ha => ha
    · exact h
  | message ch p msg => exact h.of_frame (frame_messageHandler (message_eq_ok.1 hs).2) hl
  | chokeUpload p =>
    exact h.of_frame (.of_quiet ((quiet_chokeUpload hs).mono fun _ => Note.Control.ordinary)) hl
  | unchokeUpload p =>
    exact h.of_frame (.of_quiet ((quiet_unchokeUpload hs).mono fun _ => Note.Control.ordinary)) hl
  | transfer op n =>
    obtain ⟨t, ht, rfl⟩ := torrent_eq_ok hs
    obtain ⟨-, -, rfl⟩ := Torrent.transfer_eq_ok.1 ht
    exact h.of_torrent hl rfl
  | reuse op bytes =>
    obtain ⟨t, ht, rfl⟩ := torrent_eq_ok hs
    obtain ⟨-, -, -, rfl⟩ := Torrent.reuse_eq_ok.1 ht
    exact h.of_torrent hl rfl
  | written op e =>
    obtain ⟨t, ht, rfl⟩ := torrent_eq_ok hs
    obtain ⟨-, -, -, p, p', -, -, rfl⟩ := Torrent.writeHandler_eq_ok.1 ht
    exact h.of_torrent hl rfl
  | fetch op n =>
    obtain ⟨t, ht, rfl⟩ := torrent_eq_ok hs
    obtain ⟨-, -, -, rfl⟩ := Torrent.fetchValidation_eq_ok.1 ht
    exact h.of_torrent hl rfl
  | validated op =>
    obtain ⟨piece, t, hp, ht, hc⟩ := validationDone_eq_ok hs
    rw [hC piece hp] at ht hc
    obtain rfl := hc
    obtain ⟨-, q, -, ⟨hf, -⟩ | ⟨-, rfl⟩⟩ := Torrent.validationHandler_eq_ok.1 ht
    · cases hf
    · exact h.of_note hl rfl fun _ _ ha => ha
  | fetchRead op n =>
    obtain ⟨t, ht, rfl⟩ := torrent_eq_ok hs
    obtain ⟨-, -, -, rfl⟩ := Torrent.fetchRead_eq_ok.1 ht
    exact h.of_torrent hl rfl
  | readDone op e i o =>
    obtain ⟨-, -, rfl⟩ := readDone_eq_ok.1 hs
    exact h.of_note hl rfl fun _ _ ha => ha

/-- The first piece to be validated is missing from the bitfield. -/
theorem not_announcesValidated {ev : Event} (h : Unannounced m c) (hs : c.step sha1 ev = .ok c')
    (hC : ¬ c.ValidatesNothing sha1 ev) : ¬ c'.AnnouncesValidated := by
  cases ev with
  | validated op =>
    have hl := laidOut_step h.laidOut hs
    obtain ⟨piece, t, hp, ht, hc⟩ := validationDone_eq_ok hs
    have hvalid : hashValid sha1 op.buffer piece.hash = true := by
      by_contra hne
      refine hC fun q hq => ?_
      obtain rfl : piece = q := Option.some.inj (hp.symm.trans hq)
      exact Bool.eq_false_iff.2 hne
    rw [hvalid] at ht hc
    have hi := (h.laidOut.piece hp).1
    have hlen : c'.torrent.pieces.length = m.pieces.length := by
      simpa using congrArg List.length hl.shapes
    obtain ⟨-, q, -, ⟨-, rfl⟩ | ⟨hf, -⟩⟩ := Torrent.validationHandler_eq_ok.1 ht
    · intro hP
      refine h.bits op.pieceIndex ?_
      have hbit := (hP op.pieceIndex (by omega)).1
      have hq : Quiet Note.Notice _ c' := hc
      rw [hq.torrent, RarestFirstPicker.getHaveBitfield, hq.pieceBitfield] at hbit
      refine hbit.2 ?_
      rw [u32_of_lt (hi.trans m.pieces_lt)]
      exact List.mem_cons_self
    · cases hf
  | _ => exact absurd trivial hC

end Unannounced

/-- The bitfield and the announcements agree with the validated pieces throughout exactly those runs
in which nothing is validated, in a torrent without empty pieces. -/
theorem announcesValidated_iff (sha1 : List UInt8 → Hash) (m : Metainfo) (content : ℕ → UInt8)
    (es : List Event) :
    Always (StepOf (step sha1)) AnnouncesValidated (init m content) es ↔
      (∀ i < m.pieces.length, 0 < m.pieceSize i) ∧
        Each (StepOf (step sha1)) (ValidatesNothing sha1) (init m content) es := by
  by_cases hpos : ∀ i < m.pieces.length, 0 < m.pieceSize i
  · rw [and_iff_right hpos]
    exact always_iff_each (R := StepOf (step sha1)) (C := ValidatesNothing sha1)
      (J := Unannounced m) (fun _ h => h.announcesValidated)
      (fun _ _ _ h hs hC => h.step hs hC)
      (fun _ _ c' h hs hC => ⟨c', hs, h.not_announcesValidated hs hC⟩) (Unannounced.init hpos)
  · refine iff_of_false (fun h => hpos fun i hi => ?_) fun h => hpos h.1
    have hi' : i < m.generatePieces.length := by simpa using hi
    by_contra hzero
    have hbit := (RarestFirstPicker.create_bit_iff hi').2 ⟨m.generatePieces[i], List.getElem_mem _, ?_⟩
    · have := (h.head i hi').1.1 hbit
      cases this
    · obtain ⟨-, hash, -, hp⟩ := Metainfo.getElem?_generatePieces (List.getElem?_eq_getElem hi')
      rw [hp, Piece.complete_make]
      exact ⟨by omega, rfl⟩

/-- The piece of the torrent of one byte is delivered, and its validation finds the right hash. -/
def validatedOnce : List Event :=
  [.addPeer, .message ⟨.reverseTies, .still ℕ⟩ 0 (.piece 0 0 [0]), .transfer ⟨0, 0, 0, [0], 1, 0⟩ 1,
    .written ⟨0, 0, 0, [0], 1, 1⟩ .success, .fetch ⟨0, 0, 1, []⟩ 1, .validated ⟨0, 0, 1, [0]⟩, .addPeer]

theorem not_announcesValidated_validatedOnce :
    ¬ ∀ (sha1 : List UInt8 → Hash) (m : Metainfo) (content : ℕ → UInt8) (es : List Event) (c : Client),
      Run (StepOf (step sha1)) (init m content) es c → c.AnnouncesValidated := by
  intro h
  have hr : Run (StepOf (step fun _ => Vector.replicate 20 0)) (init oneByte fun _ => 0)
      validatedOnce _ := run_iff_foldlM.2 rfl
  have hbit := ((h _ _ _ _ _ hr) 0 (by decide)).1.2 List.mem_cons_self
  revert hbit
  decide

end Client

end FTorrent
