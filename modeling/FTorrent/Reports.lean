import FTorrent.Disk
import FTorrent.Sound

/-!
# Reports of validated pieces

`piece_complete` sends a HAVE to every registered peer.  Since a piece is validated once
(`ValidationInv`), a peer gets at most one HAVE for it, and a peer that stays gets exactly one for every
piece that is validated while it is there (`reports_exactly_once`).
-/

namespace FTorrent

open Lib

namespace Client

variable {c c' : Client} {m : Metainfo} {content : ℕ → UInt8} {sha1 : List UInt8 → Hash} {p : ℕ}

/-- The number of HAVEs for the piece that the peer has been sent. -/
def haves (c : Client) (p : ℕ) (i : UInt32) : ℕ := c.log.count (.sent p (.haveMsg i))

theorem haves_append {A : Note → Prop} (i : UInt32) (hA : ¬ A (.sent p (.haveMsg i)))
    (h : ∃ ns, c'.log = ns ++ c.log ∧ ∀ n ∈ ns, A n) : c'.haves p i = c.haves p i := by
  obtain ⟨ns, hns, hn⟩ := h
  rw [haves, hns, List.count_append, List.count_eq_zero.2 fun hmem => hA (hn _ hmem), Nat.zero_add,
    haves]

/-- A HAVE to every registered peer. -/
theorem haves_pieceComplete {k : ℕ} (h : c.pieceComplete k = .ok c') (hnd : c.registered.Nodup)
    (p : ℕ) (i : UInt32) :
    c'.haves p i = c.haves p i + if p ∈ c.registered ∧ i = .ofNat k then 1 else 0 := by
  unfold pieceComplete at h
  generalize c.registered = ps at h hnd
  induction ps generalizing c with
  | nil =>
    cases h
    simp
  | cons q ps ih =>
    rw [List.foldlM_cons] at h
    obtain ⟨c₁, h₁, h⟩ := bind_eq_ok.1 h
    obtain ⟨hq, hps⟩ := List.nodup_cons.1 hnd
    have hquiet := quiet_refreshDownloadInterest (A := Note.Control) (fun _ hn => hn) h₁
    have hsent : (c.send q (.haveMsg (.ofNat k))).haves p i =
        c.haves p i + if q = p ∧ i = .ofNat k then 1 else 0 := by
      rw [haves, send, note, List.count_cons, haves]
      simp only [beq_iff_eq, Note.sent.injEq, Message.haveMsg.injEq, @eq_comm _ i]
    rw [ih h hps, haves_append i (by simp [Note.Control]) hquiet.log, hsent, Nat.add_assoc]
    congr 1
    by_cases hqp : q = p
    · subst hqp
      simp [hq]
    · simp [hqp, Ne.symm hqp]

/-- A step reports pieces, and sends a HAVE for each of them to every registered peer. -/
theorem reports_step {ev : Event} (h : c.step sha1 ev = .ok c') (hnd : c.registered.Nodup) :
    ∃ new, c'.torrent.reported = new ++ c.torrent.reported ∧
      ∀ p i, c'.haves p i = c.haves p i + if p ∈ c.registered then new.count i.toNat else 0 := by
  have hnone : ∀ {c' : Client}, c'.torrent.reported = c.torrent.reported →
      (∀ p i, c'.haves p i = c.haves p i) → ∃ new, c'.torrent.reported = new ++ c.torrent.reported ∧
        ∀ p i, c'.haves p i = c.haves p i + if p ∈ c.registered then new.count i.toNat else 0 :=
    fun hr hh => ⟨[], hr, fun p i => by simp [hh p i]⟩
  have hcount : ∀ {n : Note} {c' : Client}, c'.log = n :: c.log → (∀ p i, n ≠ .sent p (.haveMsg i)) →
      ∀ p i, c'.haves p i = c.haves p i := by
    intro n c' hlog hn p i
    rw [haves, hlog, List.count_cons_of_ne (hn p i), haves]
  cases ev with
  | addPeer =>
    cases h
    exact hnone rfl (hcount rfl nofun)
  | removePeer q =>
    cases h
    unfold removePeer
    split_ifs
    · exact hnone rfl (hcount rfl nofun)
    · exact hnone rfl fun _ _ => rfl
  | message ch q msg =>
    have hf := frame_messageHandler (message_eq_ok.1 h).2
    exact hnone hf.reported fun p i => haves_append i (fun hA => hA) hf.log
  | chokeUpload q =>
    have hq := quiet_chokeUpload h
    exact hnone (by rw [hq.torrent]) fun p i => haves_append i (fun hA => hA) hq.log
  | unchokeUpload q =>
    have hq := quiet_unchokeUpload h
    exact hnone (by rw [hq.torrent]) fun p i => haves_append i (fun hA => hA) hq.log
  | transfer op n =>
    obtain ⟨t, ht, rfl⟩ := torrent_eq_ok h
    obtain ⟨-, -, rfl⟩ := Torrent.transfer_eq_ok.1 ht
    exact hnone rfl fun _ _ => rfl
  | reuse op bytes =>
    obtain ⟨t, ht, rfl⟩ := torrent_eq_ok h
    obtain ⟨-, -, -, rfl⟩ := Torrent.reuse_eq_ok.1 ht
    exact hnone rfl fun _ _ => rfl
  | written op e =>
    obtain ⟨t, ht, rfl⟩ := torrent_eq_ok h
    obtain ⟨-, -, -, q, q', -, -, rfl⟩ := Torrent.writeHandler_eq_ok.1 ht
    exact hnone rfl fun _ _ => rfl
  | fetch op n =>
    obtain ⟨t, ht, rfl⟩ := torrent_eq_ok h
    obtain ⟨-, -, -, rfl⟩ := Torrent.fetchValidation_eq_ok.1 ht
    exact hnone rfl fun _ _ => rfl
  | validated op =>
    obtain ⟨piece, hp, hs⟩ := bind_eq_ok.1 h
    obtain ⟨t, ht, hs⟩ := bind_eq_ok.1 hs
    dsimp only at hs
    obtain ⟨-, q, hq, hvalid⟩ := Torrent.validationHandler_eq_ok.1 ht
    split_ifs at hs with hv
    · obtain ⟨-, rfl⟩ := hvalid.resolve_right fun hfalse => by simp [hv] at hfalse
      have hquiet := quiet_pieceComplete hs
      refine ⟨[u32 op.pieceIndex], by rw [hquiet.torrent]; rfl, fun p i => ?_⟩
      rw [haves_pieceComplete hs hnd p i]
      have hi : i = .ofNat (u32 op.pieceIndex) ↔ u32 op.pieceIndex = i.toNat := by
        rw [← UInt32.toNat_inj, UInt32.toNat_ofNat_of_lt' (u32_lt _), eq_comm]
      show c.haves p i + _ = _
      congr 1
      simp only [hi, List.count_singleton, beq_iff_eq, ite_and]
    · obtain ⟨-, rfl⟩ := hvalid.resolve_left fun htrue => hv htrue.1
      cases hs
      exact hnone rfl (hcount rfl nofun)
  | fetchRead op n =>
    obtain ⟨t, ht, rfl⟩ := torrent_eq_ok h
    obtain ⟨-, -, -, rfl⟩ := Torrent.fetchRead_eq_ok.1 ht
    exact hnone rfl fun _ _ => rfl
  | readDone op e i o =>
    obtain ⟨-, -, rfl⟩ := readDone_eq_ok.1 h
    exact hnone rfl (hcount rfl nofun)

/-! ### Runs -/

theorem mem_registered_step {ev : Event} (h : c.step sha1 ev = .ok c') (hp : p ∈ c.registered)
    (hstay : ev ≠ .removePeer p) : p ∈ c'.registered := by
  cases kind_of_step h with
  | join => exact List.mem_append_left _ hp
  | removal q hq =>
    have hne : p ≠ q := by
      rintro rfl
      exact hstay rfl
    exact (List.mem_erase_of_ne hne).2 hp
  | absent q hq => exact hp
  | message ch q msg hq hmsg => exact (frame_messageHandler hmsg).registered ▸ hp
  | background _ hb => exact hb.registered ▸ hp

/-- A peer gets HAVEs for reported pieces only. -/
theorem haves_le {es : List Event} (hr : Run (StepOf (step sha1)) (init m content) es c) (p : ℕ)
    (i : UInt32) : c.haves p i ≤ c.torrent.reported.count i.toNat := by
  refine (hr.invariant (J := fun c => Sound m c ∧ c.haves p i ≤ c.torrent.reported.count i.toNat)
    (fun s ev t h hs => ?_) ⟨Sound.init, Nat.zero_le _⟩).2
  obtain ⟨hsound, hle⟩ := h
  refine ⟨hsound.step hs, ?_⟩
  obtain ⟨new, hnew, hhaves⟩ := reports_step hs hsound.nodup
  rw [hhaves, hnew, List.count_append]
  split_ifs <;> omega

/-- A peer that stays gets a HAVE whenever a piece is reported. -/
theorem haves_run {es : List Event} (hr : Run (StepOf (step sha1)) c es c') (h : Sound m c)
    (hp : p ∈ c.registered) (hstay : .removePeer p ∉ es) (i : UInt32) :
    ∃ new, c'.torrent.reported = new ++ c.torrent.reported ∧
      c'.haves p i = c.haves p i + new.count i.toNat := by
  induction hr with
  | nil => exact ⟨[], rfl, rfl⟩
  | cons hs _ ih =>
    rw [List.mem_cons, not_or] at hstay
    obtain ⟨new, hnew, hhaves⟩ := reports_step hs h.nodup
    obtain ⟨new', hnew', hhaves'⟩ := ih (h.step hs) (mem_registered_step hs hp (Ne.symm hstay.1)) hstay.2
    refine ⟨new' ++ new, by rw [hnew', hnew, List.append_assoc], ?_⟩
    rw [hhaves', hhaves, if_pos hp, List.count_append]
    omega

/-- In every run, with fewer deliveries for each piece than a counter can count: a piece is reported at
most once, `validated` and `downloaded` count the reported pieces, a peer is sent at most one HAVE for a
piece and none for a piece that was not reported, and a peer that stays is sent the HAVEs for exactly the
pieces that are reported meanwhile. -/
theorem reports_exactly_once {es es' : List Event}
    (hr : Run (StepOf (step sha1)) (init m content) es c) (hr' : Run (StepOf (step sha1)) c es' c')
    (hw : ∀ i, deliveries i (es ++ es') < 2 ^ 32) :
    c'.torrent.reported.Nodup ∧ c'.torrent.validated = c'.torrent.reported.length ∧
      c'.torrent.downloaded = (c'.torrent.reported.map m.pieceSize).sum ∧
      (∀ p i, c'.haves p i ≤ 1 ∧ (c'.haves p i = 1 → i.toNat ∈ c'.torrent.reported)) ∧
      ∀ p ∈ c.registered, .removePeer p ∉ es' → ∀ i : UInt32, c'.haves p i = c.haves p i +
        if i.toNat ∈ c'.torrent.reported ∧ i.toNat ∉ c.torrent.reported then 1 else 0 := by
  have hall := hr.append hr'
  have hinv := validationInv_onDisk hall hw
  have hnd : c'.torrent.reported.Nodup := hinv.nodup_reported
  have hle := haves_le hall
  refine ⟨hnd, hinv.validated, ?_, fun p i => ⟨?_, fun hone => ?_⟩, fun p hp hstay i => ?_⟩
  · have hlaid := laidOut_run hall
    refine Eq.trans (hinv.downloaded : c'.torrent.downloaded = _) (congrArg List.sum ?_)
    refine List.map_congr_left fun i hi => ?_
    have hlt : i < c'.torrent.onDisk.pieces.length := hinv.reported_lt i hi
    rw [Torrent.onDisk, List.length_map] at hlt
    have hget := List.getElem?_eq_getElem hlt
    rw [Torrent.sizeOfPiece, Torrent.getElem?_onDisk hget, Option.map_some, Option.getD_some]
    exact (hlaid.piece hget).2.2.2.1
  · exact (hle p i).trans (List.nodup_iff_count_le_one.1 hnd _)
  · have := hle p i
    exact List.count_pos_iff.1 (by omega)
  · obtain ⟨new, hnew, hhaves⟩ := haves_run hr' (sound_run hr) hp hstay i
    rw [hhaves, hnew]
    rw [hnew] at hnd
    obtain ⟨hndnew, -, hdisj⟩ := List.nodup_append.1 hnd
    congr 1
    by_cases hi : i.toNat ∈ new
    · have hold : i.toNat ∉ c.torrent.reported := fun hmem => hdisj _ hi _ hmem rfl
      rw [List.count_eq_one_of_mem hndnew hi, if_pos ⟨List.mem_append_left _ hi, hold⟩]
    · rw [List.count_eq_zero.2 hi, if_neg]
      rintro ⟨hmem, hold⟩
      exact (List.mem_append.1 hmem).elim hi hold

theorem reports_exactly_once_sample : ∃ c c',
    Run (StepOf (step fun _ => Vector.replicate 20 0)) (init oneByte fun _ => 0) [.addPeer] c ∧
      Run (StepOf (step fun _ => Vector.replicate 20 0)) c deliveredByte c' ∧ c.haves 0 0 = 0 ∧
      c'.torrent.validated = 1 ∧ c'.torrent.downloaded = 1 ∧ c'.haves 0 0 = 1 := by
  have hr : Run (StepOf (step fun _ => Vector.replicate 20 0)) (init oneByte fun _ => 0) [.addPeer]
      (init oneByte fun _ => 0).addPeer := .single rfl
  have hr' : Run (StepOf (step fun _ => Vector.replicate 20 0)) (init oneByte fun _ => 0).addPeer
      deliveredByte _ := run_iff_foldlM.2 rfl
  have hw : ∀ i, deliveries i ([.addPeer] ++ deliveredByte) < 2 ^ 32 :=
    fun i => List.countP_le_length.trans_lt (by decide)
  obtain ⟨-, hvalidated, hdownloaded, -, hhaves⟩ := reports_exactly_once hr hr' hw
  exact ⟨_, _, hr, hr', rfl, hvalidated.trans rfl, hdownloaded.trans rfl,
    (hhaves 0 (by decide) nofun 0).trans rfl⟩

end Client

end FTorrent
