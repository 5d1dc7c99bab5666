import FTorrent.Asking
import FTorrent.Reports
import FTorrent.Announce

/-!
# What a client says

A client sends a HAVE only for a piece that it has reported, a BITFIELD only with bits of pieces that are
empty, and a REQUEST only for a block of a piece that the peer has announced (`honest_of_run`).
-/

namespace FTorrent

open Lib

namespace Client

variable {sha1 : List UInt8 → Hash} {m : Metainfo} {content : ℕ → UInt8} {c c' : Client} {p : ℕ}

/-- What the message says is so, if it is sent to the peer `p`. -/
def Honest (m : Metainfo) (c : Client) (p : ℕ) : Message → Prop
  | .haveMsg index => index.toNat ∈ c.torrent.reported ∧ index.toNat < m.pieces.length
  | .bitField bitfield => bitfield.length = m.pieces.length ∧
      ∀ i : ℕ, bitfield[i]? = some true → m.pieceSize i = 0
  | .request index begin length => announcedBy p index.toNat c.log ∧
      index.toNat < m.pieces.length ∧ begin.toNat % Piece.nominalBlockSize = 0 ∧
      begin.toNat < m.pieceSize index.toNat ∧
      begin.toNat + length.toNat ≤ m.pieceSize index.toNat
  | _ => True

/-! ### The requests of one call -/

/-- Whatever `request_blocks` sends asks for a block that is free, in a piece that the peer has
announced. -/
theorem asks_of_requestBlocks (h : Told m c) {ch : SortChoice} (hr : requestBlocks ch p c = .ok c') :
    ∃ ns, c'.log = ns ++ c.log ∧ ∀ n ∈ ns, c.Asks p n := by
  obtain ⟨⟨q, hq⟩, pk, -, rfl⟩ := requestBlocks_refreshed hr
  rcases hpk : c.picker.refresh ch c.torrent.pieces with f | pk'
  · have hnone : comesTo ch p c = [] := by rw [comesTo, hq, hpk]
    rw [hnone]
    exact ⟨[], rfl, fun _ hn => absurd hn List.not_mem_nil⟩
  · obtain ⟨hwhole, hclean⟩ := h.sound.picker.refresh hpk
    have hcomes : comesTo ch p c = visited p (pk'.candidates c.torrent.pieces q.hasPiece) c := by
      rw [comesTo, hq, hpk, ← visited_setPicker c pk']
    have hsub := visited_sublist p (pk'.candidates c.torrent.pieces q.hasPiece) c
    have hnd : (comesTo ch p c).Nodup := by
      rw [hcomes]
      exact (((hwhole.buckets hclean).nodup_iff.2 List.nodup_range).filter _).sublist hsub
    refine ⟨_, log_requestPieces hnd, fun n hn => ?_⟩
    obtain ⟨r, hr, hn⟩ := List.mem_flatMap.1 (List.mem_reverse.1 hn)
    rw [hcomes] at hr
    exact asks_of_mem h hq (List.mem_filter.1 (hsub.subset hr)).2 hn

theorem Asks.honest (h : Sound m c) {n : Note} (hn : c.Asks p n) :
    ∃ msg, n = .sent p msg ∧ c.Honest m p msg := by
  obtain ⟨index, begin, length, piece, b, rfl, hannounced, hpiece, hb, -, -, hmod, hend⟩ := hn
  obtain ⟨hlt, -, -, hsize, hlen, -⟩ := h.laidOut.piece hpiece
  have hj : begin.toNat / Piece.nominalBlockSize < Piece.numBlocks (m.pieceSize index.toNat) := by
    rw [← hlen]
    exact (List.getElem?_eq_some_iff.1 hb).1
  obtain ⟨hoff, hpos, -, hfits⟩ := Piece.makeBlock_bounds hj
  have hbegin : begin.toNat / Piece.nominalBlockSize * Piece.nominalBlockSize = begin.toNat :=
    Nat.div_mul_cancel (Nat.dvd_of_mod_eq_zero hmod)
  rw [hsize] at hend
  exact ⟨_, rfl, hannounced, hlt, hmod, by omega, hend⟩

/-! ### Steps -/

/-- What the client has said was so, and stays so. -/
structure Truthful (m : Metainfo) (c : Client) : Prop where
  told : Told m c
  bits : ∀ i : ℕ, c.picker.getHaveBitfield[i]? = some true → m.pieceSize i = 0
  reported : ∀ i ∈ c.torrent.reported, i < m.pieces.length
  honest : ∀ p msg, .sent p msg ∈ c.log → c.Honest m p msg

/-- What a message says stays so. -/
theorem Honest.mono {msg : Message} (h : c.Honest m p msg)
    (hreported : ∀ i ∈ c.torrent.reported, i ∈ c'.torrent.reported)
    (hlog : ∀ n ∈ c.log, n ∈ c'.log) : c'.Honest m p msg := by
  cases msg with
  | haveMsg index => exact ⟨hreported _ h.1, h.2⟩
  | request index begin length =>
    obtain ⟨⟨told, htold, hannounces⟩, hrest⟩ := h
    exact ⟨⟨told, hlog _ htold, hannounces⟩, hrest⟩
  | bitField | piece | keepAlive | choke | unchoke | interested | notInterested | cancel => exact h

/-! ### The new entries of a step -/

/-- A BITFIELD is sent when a peer joins. -/
theorem bitField_step {ev : Event} (h : c.step sha1 ev = .ok c') {q : ℕ} {bits : List Bool}
    (hn : .sent q (.bitField bits) ∈ c'.log) :
    .sent q (.bitField bits) ∈ c.log ∨ bits = c.picker.getHaveBitfield := by
  have hadded : ∀ {A : Note → Prop} {c' : Client}, (∃ ns, c'.log = ns ++ c.log ∧ ∀ n ∈ ns, A n) →
      ¬ A (.sent q (.bitField bits)) → .sent q (.bitField bits) ∈ c'.log →
      .sent q (.bitField bits) ∈ c.log := by
    rintro A c' ⟨ns, hns, hA⟩ hnot hn
    rw [hns] at hn
    exact (List.mem_append.1 hn).resolve_left fun hn => hnot (hA _ hn)
  cases ev with
  | addPeer =>
    cases h
    rcases List.mem_cons.1 hn with hn | hn
    · cases hn
      exact .inr rfl
    · exact .inl hn
  | removePeer p =>
    cases h
    unfold removePeer at hn
    split_ifs at hn
    · exact .inl ((List.mem_cons.1 hn).resolve_left nofun)
    · exact .inl hn
  | message ch p msg => exact .inl (hadded (frame_messageHandler (message_eq_ok.1 h).2).log id hn)
  | chokeUpload p => exact .inl (hadded (quiet_chokeUpload h).log id hn)
  | unchokeUpload p => exact .inl (hadded (quiet_unchokeUpload h).log id hn)
  | transfer | reuse | written | fetch | fetchRead =>
    obtain ⟨t, -, rfl⟩ := torrent_eq_ok h
    exact .inl hn
  | validated op =>
    obtain ⟨piece, t, -, -, hc⟩ := validationDone_eq_ok h
    split_ifs at hc
    · have hquiet : Quiet Note.Notice _ c' := hc
      refine .inl (hadded hquiet.log ?_ hn)
      rintro (hcontrol | ⟨p, i, hhave⟩)
      · exact hcontrol
      · cases hhave
    · subst hc
      exact .inl ((List.mem_cons.1 hn).resolve_left nofun)
  | readDone op e i o =>
    obtain ⟨-, -, rfl⟩ := readDone_eq_ok.1 h
    exact .inl ((List.mem_cons.1 hn).resolve_left nofun)

/-- A REQUEST is sent in the handler of a message, and asks for a block of a piece that the peer has
announced. -/
theorem request_step (ht : Told m c) {ev : Event} (h : c.step sha1 ev = .ok c') {q : ℕ}
    {index begin length : UInt32} (hn : .sent q (.request index begin length) ∈ c'.log) :
    .sent q (.request index begin length) ∈ c.log ∨ c'.Honest m q (.request index begin length) := by
  cases kind_of_step h with
  | join => exact .inl ((List.mem_cons.1 hn).resolve_left nofun)
  | removal p hp => exact .inl ((List.mem_cons.1 hn).resolve_left nofun)
  | absent => exact .inl hn
  | message ch p msg hp hmsg =>
    obtain ⟨⟨c₁, asks⟩, h₁, h₂⟩ := bind_eq_ok.1 hmsg
    obtain ⟨ns, hns, haside⟩ := log_handleMessage h₁
    have hfirst : .sent q (.request index begin length) ∈ c₁.log →
        .sent q (.request index begin length) ∈ c.log := by
      rw [hns]
      intro hn
      have hn := (List.mem_append.1 hn).resolve_left fun hn => haside _ hn
      exact (List.mem_cons.1 hn).resolve_left nofun
    cases asks with
    | false =>
      cases h₂
      exact .inl (hfirst hn)
    | true =>
      have htold := ht.handleMessage hp h₁
      obtain ⟨rs, hrs, hasks⟩ := asks_of_requestBlocks htold h₂
      rw [hrs] at hn
      rcases List.mem_append.1 hn with hn | hn
      · right
        obtain ⟨msg', heq, hhonest⟩ := (hasks _ hn).honest htold.sound
        cases heq
        apply hhonest.mono
        · intro i hi
          rwa [(frame_messageHandler hmsg).reported, ← (frame_handleMessage h₁).reported]
        · intro n hn
          rw [hrs]
          exact List.mem_append_right rs hn
      · exact .inl (hfirst hn)
  | background _ hb =>
    obtain ⟨ns, hns, haside⟩ := hb.log
    rw [hns] at hn
    exact .inl ((List.mem_append.1 hn).resolve_left fun hn => haside _ hn)

/-- The pieces that are reported exist. -/
theorem reported_step (hl : Torrent.LaidOut m c.torrent) {ev : Event} (h : c.step sha1 ev = .ok c')
    (hlt : ∀ i ∈ c.torrent.reported, i < m.pieces.length) :
    ∀ i ∈ c'.torrent.reported, i < m.pieces.length := by
  cases ev with
  | addPeer =>
    cases h
    exact hlt
  | removePeer p =>
    cases h
    unfold removePeer
    split_ifs
    · exact hlt
    · exact hlt
  | message ch p msg => rwa [(frame_messageHandler (message_eq_ok.1 h).2).reported]
  | chokeUpload p => rwa [(quiet_chokeUpload h).torrent]
  | unchokeUpload p => rwa [(quiet_unchokeUpload h).torrent]
  | transfer op n =>
    obtain ⟨t, ht, rfl⟩ := torrent_eq_ok h
    obtain ⟨-, -, rfl⟩ := Torrent.transfer_eq_ok.1 ht
    exact hlt
  | reuse op bytes =>
    obtain ⟨t, ht, rfl⟩ := torrent_eq_ok h
    obtain ⟨-, -, -, rfl⟩ := Torrent.reuse_eq_ok.1 ht
    exact hlt
  | written op e =>
    obtain ⟨t, ht, rfl⟩ := torrent_eq_ok h
    obtain ⟨-, -, -, p, p', -, -, rfl⟩ := Torrent.writeHandler_eq_ok.1 ht
    exact hlt
  | fetch op n =>
    obtain ⟨t, ht, rfl⟩ := torrent_eq_ok h
    obtain ⟨-, -, -, rfl⟩ := Torrent.fetchValidation_eq_ok.1 ht
    exact hlt
  | validated op =>
    obtain ⟨piece, t, hp, ht, hc⟩ := validationDone_eq_ok h
    have hi := (hl.piece hp).1
    obtain ⟨-, q, -, ⟨hv, rfl⟩ | ⟨hv, rfl⟩⟩ := Torrent.validationHandler_eq_ok.1 ht
    · rw [hv] at hc
      have hquiet : Quiet Note.Notice _ c' := hc
      rw [hquiet.torrent]
      refine List.forall_mem_cons.2 ⟨?_, hlt⟩
      rwa [u32_of_lt (hi.trans m.pieces_lt)]
    · rw [hv] at hc
      obtain rfl := hc
      exact hlt
  | fetchRead op n =>
    obtain ⟨t, ht, rfl⟩ := torrent_eq_ok h
    obtain ⟨-, -, -, rfl⟩ := Torrent.fetchRead_eq_ok.1 ht
    exact hlt
  | readDone op e i o =>
    obtain ⟨-, -, rfl⟩ := readDone_eq_ok.1 h
    exact hlt

/-- A HAVE is sent for a piece that is reported. -/
theorem have_step {ev : Event} (h : c.step sha1 ev = .ok c') (hnd : c.registered.Nodup) {q : ℕ}
    {index : UInt32} (hn : .sent q (.haveMsg index) ∈ c'.log) :
    .sent q (.haveMsg index) ∈ c.log ∨ index.toNat ∈ c'.torrent.reported := by
  obtain ⟨new, hnew, hhaves⟩ := reports_step h hnd
  have hpos : 0 < c'.haves q index := List.count_pos_iff.2 hn
  rw [hhaves] at hpos
  rcases Nat.eq_zero_or_pos (c.haves q index) with hzero | hold
  · right
    rw [hnew]
    apply List.mem_append_left
    rw [hzero, Nat.zero_add] at hpos
    split_ifs at hpos
    · exact List.count_pos_iff.1 hpos
    · exact absurd hpos (lt_irrefl 0)
  · exact .inl (List.count_pos_iff.1 hold)

theorem bitfield_step {ev : Event} (h : c.step sha1 ev = .ok c') :
    c'.picker.getHaveBitfield = c.picker.getHaveBitfield := by
  cases kind_of_step h with
  | join | removal | absent => rfl
  | message ch p msg hp hmsg => exact (frame_messageHandler hmsg).pieceBitfield
  | background _ hb => exact congrArg _ hb.picker

theorem log_step {ev : Event} (h : c.step sha1 ev = .ok c') : ∃ ns, c'.log = ns ++ c.log := by
  cases kind_of_step h with
  | join => exact ⟨[_], rfl⟩
  | removal => exact ⟨[_], rfl⟩
  | absent => exact ⟨[], rfl⟩
  | message ch p msg hp hmsg =>
    obtain ⟨ns, hns, -⟩ := (frame_messageHandler hmsg).log
    exact ⟨ns, hns⟩
  | background _ hb =>
    obtain ⟨ns, hns, -⟩ := hb.log
    exact ⟨ns, hns⟩

namespace Truthful

theorem step (h : Truthful m c) {ev : Event} (hs : c.step sha1 ev = .ok c') : Truthful m c' := by
  have hsound := h.told.sound
  have hreported := reported_step hsound.laidOut hs h.reported
  obtain ⟨new, hnew, -⟩ := reports_step hs hsound.nodup
  obtain ⟨ns, hns⟩ := log_step hs
  have hmono : ∀ p msg, .sent p msg ∈ c.log → c'.Honest m p msg := by
    intro p msg hn
    apply (h.honest p msg hn).mono
    · intro i hi
      rw [hnew]
      exact List.mem_append_right new hi
    · intro n hn
      rw [hns]
      exact List.mem_append_right ns hn
  refine ⟨h.told.step hs, ?_, hreported, fun p msg hn => ?_⟩
  · rw [bitfield_step hs]
    exact h.bits
  · cases msg with
    | haveMsg index =>
      rcases have_step hs hsound.nodup hn with hold | hi
      · exact hmono _ _ hold
      · exact ⟨hi, hreported _ hi⟩
    | bitField bits =>
      rcases bitField_step hs hn with hold | rfl
      · exact hmono _ _ hold
      · exact ⟨hsound.picker.bitfield, h.bits⟩
    | request index begin length =>
      rcases request_step h.told hs hn with hold | hhonest
      · exact hmono _ _ hold
      · exact hhonest
    | piece | keepAlive | choke | unchoke | interested | notInterested | cancel => trivial

theorem init : Truthful m (init m content) := by
  refine ⟨.init, fun i hi => ?_, nofun, nofun⟩
  have hlt : i < m.generatePieces.length := by
    have hbit := (List.getElem?_eq_some_iff.1 hi).1
    rwa [← RarestFirstPicker.length_bitfield_create m.generatePieces]
  obtain ⟨piece, hmem, hcomplete, rfl⟩ := (RarestFirstPicker.create_bit_iff hlt).1 hi
  obtain ⟨j, hj⟩ := List.getElem?_of_mem hmem
  obtain ⟨-, hash, -, rfl⟩ := Metainfo.getElem?_generatePieces hj
  exact Piece.complete_make.1 hcomplete

end Truthful

/-- In every run, whatever a client has sent about pieces was so. -/
theorem honest_of_run {es : List Event} (hr : Run (StepOf (step sha1)) (init m content) es c) {p : ℕ}
    {msg : Message} (hn : .sent p msg ∈ c.log) : c.Honest m p msg :=
  (hr.invariant (fun _ _ _ h hs => h.step hs) Truthful.init).honest p msg hn

end Client

end FTorrent
