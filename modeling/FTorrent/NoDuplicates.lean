import FTorrent.Refill

/-!
# No block is asked for twice

The requested flag is cleared when a PIECE arrives and the complete flag is set when its data has been
written, so in between nothing keeps `request_blocks` from asking again; and the flag that is cleared
is that of the block the picker's lookup finds.  In runs that avoid both (`AsksOnce`: a PIECE leaves the
queue full, and nothing on offer is being written when another message refills it), every unanswered
REQUEST has the flag of its block set, every block received since its piece was reset is complete or
being written, and so every REQUEST is for a block that is neither asked for nor received.
-/

namespace FTorrent

open Lib

/-- Every REQUEST in the log was, when it was sent, for a block that no unanswered REQUEST was for and
whose data had not been received since its piece was last reset. -/
def FreshRequests : List Note → Prop
  | .sent _ (.request i o _) :: log =>
    (∀ p, (p, i.toNat, o.toNat) ∉ unanswered log) ∧ (i.toNat, o.toNat) ∉ receivedBlocks log ∧
      FreshRequests log
  | _ :: log => FreshRequests log
  | [] => True

theorem Note.Neutral.freshRequests {n : Note} (h : n.Neutral) (log : List Note) :
    FreshRequests (n :: log) = FreshRequests log := by
  cases n with
  | sent p msg => cases msg <;> first | rfl | cases h
  | _ => rfl

/-- REQUESTs for different blocks, none of them asked for or received. -/
theorem freshRequests_requests {piece : Piece} {bs : List Block} (p : ℕ)
    (hi : piece.index < 2 ^ 32) (hbs : ∀ b ∈ bs, b.offset < 2 ^ 32)
    (hnd : (bs.map (·.offset)).Nodup) {log : List Note}
    (hun : ∀ b ∈ bs, ∀ q, (q, piece.index, b.offset) ∉ unanswered log)
    (hrec : ∀ b ∈ bs, (piece.index, b.offset) ∉ receivedBlocks log) (hf : FreshRequests log) :
    FreshRequests ((bs.map fun b => .sent p (piece.requestFor b)).reverse ++ log) := by
  induction bs generalizing log with
  | nil => exact hf
  | cons b bs ih =>
    rw [List.map_cons, List.nodup_cons] at hnd
    have hb : b.offset < 2 ^ 32 := hbs b List.mem_cons_self
    have hsent : Note.sent p (piece.requestFor b) :: log =
        .sent p (.request (.ofNat piece.index) (.ofNat b.offset) (.ofNat b.size)) :: log := rfl
    simp only [List.map_cons, List.reverse_cons, List.append_assoc, List.singleton_append]
    refine ih (fun a ha => hbs a (List.mem_cons_of_mem b ha)) hnd.2 (fun a ha q => ?_)
      (fun a ha => hrec a (List.mem_cons_of_mem b ha)) ?_
    · rw [hsent, unanswered, UInt32.toNat_ofNat_of_lt' hi, UInt32.toNat_ofNat_of_lt' hb,
        List.mem_cons, not_or]
      refine ⟨fun heq => hnd.1 ?_, hun a (List.mem_cons_of_mem b ha) q⟩
      simp only [Prod.mk.injEq] at heq
      rw [← heq.2.2]
      exact List.mem_map_of_mem ha
    · rw [hsent, FreshRequests, UInt32.toNat_ofNat_of_lt' hi, UInt32.toNat_ofNat_of_lt' hb]
      exact ⟨hun b List.mem_cons_self, hrec b List.mem_cons_self, hf⟩

namespace Client

/-- A PIECE only ever answers a REQUEST that its sender has not answered. -/
def Answers (c : Client) : Event → Prop
  | .message _ p (.piece i o _) => (p, i.toNat, o.toNat) ∈ unanswered c.log
  | _ => True

/-- The flag that the PIECE clears is that of its block, or no REQUEST for the block that the picker's
lookup finds is unanswered. -/
def ClearsOwn (c : Client) (i o : UInt32) : Prop :=
  ∀ r ∈ (c.picker.getPiece i.toNat).toOption,
    r = i.toNat ∨ ∀ x ∈ unanswered c.log, x.2 ≠ (r, o.toNat)

/-- No block of the piece has its flags clear while data for it is being written. -/
def NoneBeingWritten (c : Client) (r : ℕ) : Prop :=
  ∀ op ∈ c.torrent.writes, op.pieceIndex = r →
    ∀ b ∈ c.torrent.blockAt r (op.blockOffset / Piece.nominalBlockSize), b.free = false

/-- A PIECE clears no flag of another block that has been asked for and leaves the queue full; any other
message that refills the queue finds it full or nothing on offer that is being written. -/
def AsksOnce (c : Client) : Event → Prop
  | .message _ p (.piece i o d) => c.ClearsOwn i o ∧ c.StaysFull p (.piece i o d)
  | .message _ p msg => c.refills p msg = true →
      c.StaysFull p msg ∨ ∀ r ∈ c.onOffer p msg, c.NoneBeingWritten r
  | _ => True

/-- What the flags, the writes and the history have to do with each other. -/
structure AskInv (m : Metainfo) (c : Client) : Prop where
  laidOut : Torrent.LaidOut m c.torrent
  flagged : ∀ x ∈ unanswered c.log, ∃ j b, c.torrent.blockAt x.2.1 j = some b ∧
    b.requested = true ∧ x.2.2 = j * Piece.nominalBlockSize
  once : ((unanswered c.log).map Prod.snd).Nodup
  kept : ∀ x ∈ receivedBlocks c.log, ∃ j b, c.torrent.blockAt x.1 j = some b ∧
    x.2 = j * Piece.nominalBlockSize ∧ (b.complete = true ∨
      ∃ op ∈ c.torrent.writes, op.pieceIndex = x.1 ∧ op.blockOffset = x.2)
  fresh : FreshRequests c.log

namespace AskInv

variable {sha1 : List UInt8 → Hash} {m : Metainfo} {content : ℕ → UInt8} {c c' : Client} {p : ℕ}

theorem init : AskInv m (init m content) :=
  ⟨Torrent.LaidOut.init m content, by simp [Client.init, unanswered],
    by simp [Client.init, unanswered], by simp [Client.init, receivedBlocks], trivial⟩

/-- A step that clears no flag, keeps every write until its block is complete, and adds nothing to the
histories. -/
theorem of_flags (h : AskInv m c) (hl : Torrent.LaidOut m c'.torrent)
    (hflags : ∀ i j b, c.torrent.blockAt i j = some b → ∃ b', c'.torrent.blockAt i j = some b' ∧
      (b.requested = true → b'.requested = true) ∧ (b.complete = true → b'.complete = true))
    (hwrites : ∀ op ∈ c.torrent.writes, op.blockOffset < 2 ^ 32 →
      (∃ op' ∈ c'.torrent.writes, op'.pieceIndex = op.pieceIndex ∧ op'.blockOffset = op.blockOffset) ∨
      ∀ b', c'.torrent.blockAt op.pieceIndex (op.blockOffset / Piece.nominalBlockSize) = some b' →
        b'.complete = true)
    (hun : unanswered c'.log = unanswered c.log)
    (hrec : receivedBlocks c'.log = receivedBlocks c.log)
    (hfresh : FreshRequests c'.log = FreshRequests c.log) : AskInv m c' := by
  refine ⟨hl, fun x hx => ?_, by rw [hun]; exact h.once, fun x hx => ?_, hfresh.mpr h.fresh⟩
  · rw [hun] at hx
    obtain ⟨j, b, hb, hreq, ho⟩ := h.flagged x hx
    obtain ⟨b', hb', hreq', -⟩ := hflags _ _ _ hb
    exact ⟨j, b', hb', hreq' hreq, ho⟩
  · rw [hrec] at hx
    obtain ⟨j, b, hb, ho, hdone⟩ := h.kept x hx
    obtain ⟨b', hb', -, hcomplete'⟩ := hflags _ _ _ hb
    refine ⟨j, b', hb', ho, ?_⟩
    rcases hdone with hcomplete | ⟨op, hop, hi, hoff⟩
    · exact .inl (hcomplete' hcomplete)
    · have hlt := lt_of_mem_receivedBlocks hx
      rcases hwrites op hop (by omega) with ⟨op', hop', hi', hoff'⟩ | hcomplete
      · exact .inr ⟨op', hop', hi'.trans hi, hoff'.trans hoff⟩
      · refine .inl (hcomplete b' ?_)
        rw [hi, hoff, ho, Nat.mul_div_cancel _ (by decide)]
        exact hb'

/-- A step that leaves the blocks, the writes and the histories alone. -/
theorem of_same (h : AskInv m c) (hl : Torrent.LaidOut m c'.torrent)
    (hat : ∀ i j, c'.torrent.blockAt i j = c.torrent.blockAt i j)
    (hw : c'.torrent.writes = c.torrent.writes) (hun : unanswered c'.log = unanswered c.log)
    (hrec : receivedBlocks c'.log = receivedBlocks c.log)
    (hfresh : FreshRequests c'.log = FreshRequests c.log) : AskInv m c' :=
  h.of_flags hl (fun i j b hb => ⟨b, (hat i j).trans hb, id, id⟩)
    (fun op hop _ => .inl ⟨op, hw ▸ hop, rfl, rfl⟩) hun hrec hfresh

theorem of_quiet {A : Note → Prop} (h : AskInv m c) (hq : Quiet A c c')
    (hA : ∀ n, A n → n.Neutral) : AskInv m c' := by
  obtain ⟨ns, hns, hns'⟩ := hq.log
  have hneutral : ∀ n ∈ ns, n.Neutral := fun n hn => hA n (hns' n hn)
  refine h.of_same (h.laidOut.of_shapes (by rw [hq.torrent]) hq.pieces.shapes)
    (Torrent.blockAt_sameCore hq.pieces) (by rw [hq.torrent]) ?_ ?_ ?_
  · rw [hns]
    exact history_append fun n hn => (hneutral n hn).unanswered
  · rw [hns]
    exact history_append fun n hn => (hneutral n hn).receivedBlocks
  · rw [hns]
    exact history_append fun n hn => (hneutral n hn).freshRequests

/-- A free block has no unanswered REQUEST. -/
theorem not_unanswered_of_free (h : AskInv m c) {r j : ℕ} {b : Block}
    (hb : c.torrent.blockAt r j = some b) (hfree : b.free = true) (q : ℕ) :
    (q, r, j * Piece.nominalBlockSize) ∉ unanswered c.log := by
  intro hmem
  obtain ⟨j', b', hb', hreq, ho⟩ := h.flagged _ hmem
  obtain rfl : j = j' := Nat.eq_of_mul_eq_mul_right (by decide) ho
  obtain rfl : b = b' := Option.some.inj (hb.symm.trans hb')
  simp [Block.free, hreq] at hfree

/-- A free block that is not being written has not been received. -/
theorem not_received_of_free (h : AskInv m c) {r j : ℕ} {b : Block} (hC : c.NoneBeingWritten r)
    (hb : c.torrent.blockAt r j = some b) (hfree : b.free = true) :
    (r, j * Piece.nominalBlockSize) ∉ receivedBlocks c.log := by
  intro hmem
  obtain ⟨j', b', hb', ho, hdone⟩ := h.kept _ hmem
  obtain rfl : j = j' := Nat.eq_of_mul_eq_mul_right (by decide) ho
  obtain rfl : b = b' := Option.some.inj (hb.symm.trans hb')
  rcases hdone with hcomplete | ⟨op, hop, hi, hoff⟩
  · simp [Block.free, hcomplete] at hfree
  · have hj : op.blockOffset / Piece.nominalBlockSize = j := by
      rw [hoff, Nat.mul_div_cancel _ (by decide)]
    rw [hC op hop hi b (hj ▸ hb)] at hfree
    cases hfree

theorem freshRequests_requestPiece (h : AskInv m c) {r : ℕ} (hC : c.NoneBeingWritten r) :
    FreshRequests (c.requestPiece p r).log := by
  rcases hr : c.torrent.pieces[r]? with _ | piece
  · rw [requestPiece_of_none hr]
    exact h.fresh
  · obtain ⟨hlt, hidx, -⟩ := h.laidOut.piece hr
    have := m.pieces_lt
    rw [log_requestPiece hr]
    refine freshRequests_requests p (by omega) (fun b hb => ?_) (nodup_offsets h.laidOut hr)
      (fun b hb q => ?_) (fun b hb => ?_) h.fresh
    · obtain ⟨j, -, -, -, hlt⟩ := of_mem_freeBlocks h.laidOut hr hb
      exact hlt
    · obtain ⟨j, hat, hfree, ho, -⟩ := of_mem_freeBlocks h.laidOut hr hb
      rw [hidx, ho]
      exact h.not_unanswered_of_free hat hfree q
    · obtain ⟨j, hat, hfree, ho, -⟩ := of_mem_freeBlocks h.laidOut hr hb
      rw [hidx, ho]
      exact h.not_received_of_free hC hat hfree

/-- Asking for the free blocks of a piece none of which is being written. -/
theorem requestPiece (h : AskInv m c) {r : ℕ} (hC : c.NoneBeingWritten r) :
    AskInv m (c.requestPiece p r) := by
  have hf := frame_requestPiece c p r
  have hun := history_requestPiece recordsRequests_unanswered h.laidOut p r
  have hrec : receivedBlocks (c.requestPiece p r).log = receivedBlocks c.log := by
    rcases hr : c.torrent.pieces[r]? with _ | piece
    · rw [requestPiece_of_none hr]
    · rw [log_requestPiece hr]
      refine history_append fun n hn log => ?_
      obtain ⟨b, -, rfl⟩ := List.mem_map.1 (List.mem_reverse.1 hn)
      rfl
  refine ⟨h.laidOut.of_shapes hf.nominal hf.shapes, fun x hx => ?_, ?_, fun x hx => ?_,
    h.freshRequests_requestPiece hC⟩
  · rw [hun] at hx
    rcases List.mem_append.1 hx with hx | hx
    · obtain ⟨j, b, hb, hfree, rfl⟩ := (mem_newKeys h.laidOut).1 hx
      exact ⟨j, b.setRequested true, by simp [blockAt_requestPiece, hb, hfree], rfl, rfl⟩
    · obtain ⟨j, b, hb, hreq, ho⟩ := h.flagged x hx
      exact ⟨j, b, by simp [blockAt_requestPiece, hb, Block.free, hreq], hreq, ho⟩
  · rw [hun, List.map_append, List.nodup_append]
    refine ⟨nodup_newKeys h.laidOut p r, h.once, fun x hx y hy heq => ?_⟩
    obtain ⟨k, hk, rfl⟩ := List.mem_map.1 hx
    obtain ⟨j, b, hb, hfree, rfl⟩ := (mem_newKeys h.laidOut).1 hk
    obtain ⟨⟨q, y⟩, hmem, rfl⟩ := List.mem_map.1 hy
    obtain rfl : (r, j * Piece.nominalBlockSize) = y := heq
    exact h.not_unanswered_of_free hb hfree q hmem
  · rw [hrec] at hx
    obtain ⟨j, b, hb, ho, hdone⟩ := h.kept x hx
    rw [writes_requestPiece]
    refine ⟨j, _, by rw [blockAt_requestPiece, hb]; rfl, ho, ?_⟩
    dsimp only
    split_ifs <;> exact hdone

/-- Asking for a piece leaves nothing free that is being written. -/
theorem noneBeingWritten_requestPiece {r s : ℕ} (hC : c.NoneBeingWritten s) :
    (c.requestPiece p r).NoneBeingWritten s := by
  intro op hop hs b' hb'
  rw [writes_requestPiece] at hop
  rw [blockAt_requestPiece] at hb'
  obtain ⟨b, hb, rfl⟩ := Option.map_eq_some_iff.1 hb'
  have hfree := hC op hop hs b hb
  split_ifs with h₁ h₂
  · rw [hfree] at h₂
    cases h₂
  · exact hfree
  · exact hfree

theorem requestPieces (h : AskInv m c) {rs : List ℕ} (hC : ∀ r ∈ rs, c.NoneBeingWritten r) :
    AskInv m (requestPieces p rs c) := by
  induction rs generalizing c with
  | nil => exact h
  | cons r rs ih =>
    apply ih (h.requestPiece (hC r List.mem_cons_self))
    exact fun s hs => noneBeingWritten_requestPiece (hC s (List.mem_cons_of_mem r hs))

/-- The first part of the handler of PIECE. -/
theorem pieceReceived (h : AskInv m c) {i o : UInt32} {d : List UInt8}
    (hc : (c.note (.received p (.piece i o d))).pieceReceived p i o d = .ok c')
    (hans : (p, i.toNat, o.toNat) ∈ unanswered c.log)
    (hC : c.ClearsOwn i o) : AskInv m c' := by
  have hf := frame_pieceReceived hc
  obtain ⟨r, hr, -, -, hat, hw, hlog, -⟩ := blockAt_pieceReceived hc
  change c.picker.getPiece i.toNat = .ok r at hr
  change ∀ k j, c'.torrent.blockAt k j = (c.torrent.blockAt k j).map _ at hat
  change c'.torrent.writes = c.torrent.writes ++ _ at hw
  have hun : unanswered c'.log = (unanswered c.log).erase (p, i.toNat, o.toNat) := by
    rw [hlog]
    rfl
  obtain ⟨j₀, b₀, hb₀, -, ho₀⟩ := h.flagged _ hans
  have hj₀ : o.toNat / Piece.nominalBlockSize = j₀ := by
    rw [show o.toNat = _ from ho₀, Nat.mul_div_cancel _ (by decide)]
  refine ⟨h.laidOut.of_shapes hf.nominal hf.shapes, fun x hx => ?_, ?_, fun x hx => ?_, ?_⟩
  · rw [hun] at hx
    have hx' := List.mem_of_mem_erase hx
    have hne := ne_of_mem_erase h.once hans hx
    obtain ⟨j, b, hb, hreq, ho⟩ := h.flagged x hx'
    refine ⟨j, _, by rw [hat, hb]; rfl, ?_, ho⟩
    split_ifs with h₁ h₂
    · -- the flag that is cleared would be that of a block asked for
      obtain ⟨q, k, o'⟩ := x
      have ho' : o' = o.toNat := by
        rw [show o' = _ from ho, show o.toNat = _ from ho₀, ← h₂, hj₀]
      subst h₁
      rcases hC r (by rw [hr]; rfl) with rfl | hnone
      · exact absurd (by rw [ho']) hne
      · exact absurd (by rw [ho']) (hnone _ hx')
    · exact hreq
    · exact hreq
  · rw [hun]
    exact (List.erase_sublist.map Prod.snd).nodup h.once
  · have hrec : receivedBlocks c'.log = (i.toNat, o.toNat) :: receivedBlocks c.log := by
      rw [hlog]
      rfl
    rw [hrec] at hx
    rw [hw]
    rcases List.mem_cons.1 hx with rfl | hx
    · exact ⟨j₀, _, by rw [hat, hb₀]; rfl, ho₀, .inr ⟨⟨i.toNat, o.toNat, _, d, _, 0⟩,
        List.mem_append_right _ List.mem_cons_self, rfl, rfl⟩⟩
    · obtain ⟨j, b, hb, ho, hdone⟩ := h.kept x hx
      refine ⟨j, _, by rw [hat, hb]; rfl, ho, ?_⟩
      rcases hdone with hcomplete | ⟨op, hop, hop'⟩
      · left
        split_ifs <;> exact hcomplete
      · exact .inr ⟨op, List.mem_append_left _ hop, hop'⟩
  · rw [hlog]
    exact h.fresh

/-- The first part of a message handler. -/
theorem handleMessage (h : AskInv m c) {ch : SortChoice} {msg : Message} {b : Bool}
    (hc : c.handleMessage p msg = .ok (c', b)) (hans : c.Answers (.message ch p msg))
    (hC : c.AsksOnce (.message ch p msg)) : AskInv m c' := by
  by_cases hpiece : ∃ i o d, msg = .piece i o d
  · obtain ⟨i, o, d, rfl⟩ := hpiece
    exact h.pieceReceived (pieceReceived_of_handleMessage hc) hans hC.1
  · -- the received message itself is in none of the histories
    have hnote : AskInv m (c.note (.received p msg)) := by
      refine h.of_same ⟨h.laidOut.nominal, h.laidOut.shapes⟩ (fun _ _ => rfl) rfl ?_ ?_ ?_
      all_goals
        cases msg <;> first | rfl | exact absurd ⟨_, _, _, rfl⟩ hpiece
    by_cases hreq : ∃ i o l, msg = .request i o l
    · obtain ⟨i, o, l, rfl⟩ := hreq
      cases hc
      exact hnote.of_same ⟨hnote.laidOut.nominal, hnote.laidOut.shapes⟩ (fun _ _ => rfl) rfl rfl rfl rfl
    · have hq := quiet_handleMessage hc (fun i o l he => hreq ⟨i, o, l, he⟩)
        fun i o d he => hpiece ⟨i, o, d, he⟩
      exact hnote.of_quiet hq fun n hn => Note.Notice.neutral (.inl hn)

/-- What the handler of a message comes to is not being written. -/
theorem noneBeingWritten_of_comesTo (h : AskInv m c) (h' : AskInv m c') {ch : SortChoice}
    {msg : Message} (hc : c.handleMessage p msg = .ok (c', true)) (hC : c.AsksOnce (.message ch p msg))
    {r : ℕ} (hr : r ∈ comesTo ch p c') : c'.NoneBeingWritten r := by
  by_cases hpiece : ∃ i o d, msg = .piece i o d
  · obtain ⟨i, o, d, rfl⟩ := hpiece
    rw [comesTo_of_staysFull ch hc hC.2] at hr
    cases hr
  · have hreq : ∀ i o l, msg ≠ .request i o l := by
      rintro i o l rfl
      cases refills_of_handleMessage hc
    have hq := quiet_handleMessage hc hreq fun i o d he => hpiece ⟨i, o, d, he⟩
    have hC' : c.StaysFull p msg ∨ ∀ r ∈ c.onOffer p msg, c.NoneBeingWritten r := by
      cases msg with
      | piece i o d => exact absurd ⟨i, o, d, rfl⟩ hpiece
      | _ => exact hC (refills_of_handleMessage hc)
    rcases hC' with hfull | hnone
    · rw [comesTo_of_staysFull ch hc hfull] at hr
      cases hr
    · have hlen : c'.torrent.pieces.length = c.torrent.pieces.length :=
        (length_pieces h'.laidOut).trans (length_pieces h.laidOut).symm
      obtain ⟨q, hq', hcand⟩ := candidate_of_mem_comesTo hr
      intro op hop hi b hb
      rw [hq.torrent] at hop
      rw [Torrent.blockAt_sameCore hq.pieces] at hb
      exact hnone r (mem_onOffer_of_candidate h'.laidOut hc hlen hq' hcand) op hop hi b hb

/-- A step of the torrent that leaves pieces and writes alone. -/
theorem of_torrent (h : AskInv m c) {t : Torrent} (hn : t.nominalPieceSize = c.torrent.nominalPieceSize)
    (hp : t.pieces = c.torrent.pieces) (hw : t.writes = c.torrent.writes) :
    AskInv m { c with torrent := t } :=
  h.of_same (h.laidOut.of_shapes hn (by rw [hp])) (fun i j => by rw [Torrent.blockAt, Torrent.blockAt, hp])
    hw rfl rfl rfl

/-- A write takes the place of a write of the same block. -/
theorem replace (h : AskInv m c) {op op' : WriteOp} {t : Torrent} (hl : Torrent.LaidOut m t)
    (hp : t.pieces = c.torrent.pieces) (hw : t.writes = op' :: c.torrent.writes.erase op)
    (hindex : op'.pieceIndex = op.pieceIndex) (hoffset : op'.blockOffset = op.blockOffset) :
    AskInv m { c with torrent := t } := by
  refine h.of_flags hl (fun i j b hb => ⟨b, ?_, id, id⟩) (fun v hv _ => .inl ?_) rfl rfl rfl
  · rw [Torrent.blockAt, hp]
    exact hb
  · rw [hw]
    by_cases hvop : v = op
    · subst hvop
      exact ⟨op', List.mem_cons_self, hindex, hoffset⟩
    · exact ⟨v, List.mem_cons_of_mem _ ((List.mem_erase_of_ne hvop).2 hv), rfl, rfl⟩

/-- A write that stores bytes is still the write of its block. -/
theorem transfer (h : AskInv m c) {op : WriteOp} {n : ℕ} {t : Torrent}
    (ht : c.torrent.transfer op n = .ok t) : AskInv m { c with torrent := t } := by
  have hl : Torrent.LaidOut m t := h.laidOut.step (show c.torrent.step (.transfer op n) = .ok t from ht)
  obtain ⟨-, -, rfl⟩ := Torrent.transfer_eq_ok.1 ht
  exact h.replace hl rfl rfl rfl rfl

/-- A write that finds other bytes is still the write of its block. -/
theorem reuse (h : AskInv m c) {op : WriteOp} {bytes : List UInt8} {t : Torrent}
    (ht : c.torrent.reuse op bytes = .ok t) : AskInv m { c with torrent := t } := by
  have hl : Torrent.LaidOut m t := h.laidOut.step (show c.torrent.step (.reuse op bytes) = .ok t from ht)
  obtain ⟨-, -, -, rfl⟩ := Torrent.reuse_eq_ok.1 ht
  exact h.replace hl rfl rfl rfl rfl

/-- A completed write makes its block complete. -/
theorem written (h : AskInv m c) {op : WriteOp} {e : ErrorCode} {t : Torrent}
    (ht : c.torrent.writeHandler op e = .ok t) : AskInv m { c with torrent := t } := by
  have hl : Torrent.LaidOut m t := h.laidOut.step (show c.torrent.step (.written op e) = .ok t from ht)
  have hat := Torrent.blockAt_written ht
  refine h.of_flags hl (fun i j b hb => ⟨_, by rw [hat, hb]; rfl, ?_, ?_⟩) (fun v hv hlt => ?_)
    rfl rfl rfl
  · intro hreq
    split_ifs <;> exact hreq
  · intro hcomplete
    split_ifs
    · rfl
    · exact hcomplete
    · exact hcomplete
  · by_cases hvop : v = op
    · subst hvop
      refine .inr fun b' hb' => ?_
      change t.blockAt _ _ = _ at hb'
      rw [hat] at hb'
      obtain ⟨b, -, rfl⟩ := Option.map_eq_some_iff.1 hb'
      rw [if_pos rfl, if_pos (by rw [u32_of_lt hlt])]
      rfl
    · obtain ⟨-, -, -, q, q', -, -, rfl⟩ := Torrent.writeHandler_eq_ok.1 ht
      exact .inl ⟨v, (List.mem_erase_of_ne hvop).2 hv, rfl, rfl⟩

/-- A failed validation starts its piece again, and with it what has been received of it. -/
theorem reset (h : AskInv m c) {op : ValidateOp} {t : Torrent}
    (ht : c.torrent.validationHandler op false = .ok t) :
    AskInv m ({ c with torrent := t }.note (.reset op.pieceIndex)) := by
  have hl : Torrent.LaidOut m t := h.laidOut.step (show c.torrent.step (.validated op false) = .ok t from ht)
  have hat := Torrent.blockAt_reset ht
  have hw : t.writes = c.torrent.writes := by
    obtain ⟨-, q, -, ⟨hf, -⟩ | ⟨-, rfl⟩⟩ := Torrent.validationHandler_eq_ok.1 ht
    · cases hf
    · rfl
  refine ⟨hl, fun x hx => ?_, h.once, fun x hx => ?_, h.fresh⟩
  · obtain ⟨j, b, hb, hreq, ho⟩ := h.flagged x hx
    refine ⟨j, _, (hat _ _).trans (by rw [hb]; rfl), ?_, ho⟩
    split_ifs <;> exact hreq
  · obtain ⟨hx, hne⟩ := List.mem_filter.1 hx
    obtain ⟨j, b, hb, ho, hdone⟩ := h.kept x hx
    have hne : op.pieceIndex ≠ x.1 := fun heq => by simp [heq] at hne
    refine ⟨j, b, (hat _ _).trans ?_, ho, ?_⟩
    · rw [hb, Option.map_some, if_neg hne]
    · change b.complete = true ∨ ∃ op ∈ t.writes, _
      rw [hw]
      exact hdone

theorem step {ev : Event} (h : AskInv m c) (hs : c.step sha1 ev = .ok c') (hans : c.Answers ev)
    (hC : c.AsksOnce ev) : AskInv m c' := by
  cases ev with
  | addPeer =>
    cases hs
    exact h.of_same ⟨h.laidOut.nominal, h.laidOut.shapes⟩ (fun _ _ => rfl) rfl rfl rfl rfl
  | removePeer p =>
    cases hs
    unfold removePeer
    split_ifs
    · exact h.of_same ⟨h.laidOut.nominal, h.laidOut.shapes⟩ (fun _ _ => rfl) rfl rfl rfl rfl
    · exact h
  | message ch p msg =>
    obtain ⟨-, hs⟩ := message_eq_ok.1 hs
    obtain ⟨c₁, requests, h₁, hs⟩ := messageHandler_eq_ok hs
    have hinv := h.handleMessage h₁ hans hC
    cases requests with
    | false =>
      obtain rfl := hs
      exact hinv
    | true =>
      obtain ⟨pk, -, rfl⟩ := hs
      have hpk : AskInv m { c₁ with picker := pk } :=
        hinv.of_same ⟨hinv.laidOut.nominal, hinv.laidOut.shapes⟩ (fun _ _ => rfl) rfl rfl rfl rfl
      exact hpk.requestPieces fun r hr => h.noneBeingWritten_of_comesTo hinv h₁ hC hr
  | chokeUpload p => exact h.of_quiet (quiet_chokeUpload hs) fun n hn => Note.Notice.neutral (.inl hn)
  | unchokeUpload p =>
    exact h.of_quiet (quiet_unchokeUpload hs) fun n hn => Note.Notice.neutral (.inl hn)
  | transfer op n =>
    obtain ⟨t, ht, rfl⟩ := torrent_eq_ok hs
    exact h.transfer ht
  | reuse op bytes =>
    obtain ⟨t, ht, rfl⟩ := torrent_eq_ok hs
    exact h.reuse ht
  | written op e =>
    obtain ⟨t, ht, rfl⟩ := torrent_eq_ok hs
    exact h.written ht
  | fetch op n =>
    obtain ⟨t, ht, rfl⟩ := torrent_eq_ok hs
    obtain ⟨-, -, -, rfl⟩ := Torrent.fetchValidation_eq_ok.1 ht
    exact h.of_torrent rfl rfl rfl
  | validated op =>
    obtain ⟨piece, t, -, ht, hc⟩ := validationDone_eq_ok hs
    split_ifs at hc with hv
    · rw [hv] at ht
      obtain ⟨-, q, -, ⟨-, ht⟩ | ⟨hf, -⟩⟩ := Torrent.validationHandler_eq_ok.1 ht
      · have hvalid : AskInv m { c with torrent := t } :=
          h.of_torrent (by rw [ht]) (by rw [ht]) (by rw [ht])
        exact hvalid.of_quiet hc fun n hn => Note.Notice.neutral hn
      · cases hf
    · rw [Bool.eq_false_iff.2 hv] at ht
      subst hc
      exact h.reset ht
  | fetchRead op n =>
    obtain ⟨t, ht, rfl⟩ := torrent_eq_ok hs
    obtain ⟨-, -, -, rfl⟩ := Torrent.fetchRead_eq_ok.1 ht
    exact h.of_torrent rfl rfl rfl
  | readDone op e i o =>
    obtain ⟨-, -, rfl⟩ := readDone_eq_ok.1 hs
    exact h.of_same ⟨h.laidOut.nominal, h.laidOut.shapes⟩ (fun _ _ => rfl) rfl rfl rfl rfl

end AskInv

variable {sha1 : List UInt8 → Hash} {m : Metainfo} {content : ℕ → UInt8} {c : Client}

/-- In every run in which each PIECE answers a REQUEST and the steps meet `AsksOnce`, no block is asked
for while a REQUEST for it is unanswered or after its data has been received. -/
theorem freshRequests_of_asksOnce {es : List Event}
    (hr : Run (Along (Along (StepOf (step sha1)) Answers) AsksOnce) (init m content) es c) :
    FreshRequests c.log := by
  have hinv : AskInv m c :=
    hr.invariant (fun _ _ _ h ⟨⟨hs, hans⟩, hC⟩ => h.step hs hans hC) AskInv.init
  exact hinv.fresh

instance (c : Client) : ∀ ev, Decidable (c.Answers ev)
  | .message _ p (.piece i o _) => inferInstanceAs (Decidable ((p, i.toNat, o.toNat) ∈ unanswered c.log))
  | .message _ _ .keepAlive | .message _ _ .choke | .message _ _ .unchoke
  | .message _ _ .interested | .message _ _ .notInterested | .message _ _ (.haveMsg _)
  | .message _ _ (.bitField _) | .message _ _ (.request _ _ _) | .message _ _ (.cancel _ _ _)
  | .addPeer | .removePeer _ | .chokeUpload _ | .unchokeUpload _ | .transfer _ _ | .reuse _ _
  | .written _ _ | .fetch _ _ | .validated _ | .fetchRead _ _ | .readDone _ _ _ _ => .isTrue trivial

instance (c : Client) (i o : UInt32) : Decidable (c.ClearsOwn i o) :=
  inferInstanceAs (Decidable (∀ r ∈ (c.picker.getPiece i.toNat).toOption,
    r = i.toNat ∨ ∀ x ∈ unanswered c.log, x.2 ≠ (r, o.toNat)))

instance (c : Client) (r : ℕ) : Decidable (c.NoneBeingWritten r) :=
  inferInstanceAs (Decidable (∀ op ∈ c.torrent.writes, op.pieceIndex = r →
    ∀ b ∈ c.torrent.blockAt r (op.blockOffset / Piece.nominalBlockSize), b.free = false))

instance (c : Client) : ∀ ev, Decidable (c.AsksOnce ev)
  | .message _ p (.piece i o d) =>
    inferInstanceAs (Decidable (c.ClearsOwn i o ∧ c.StaysFull p (.piece i o d)))
  | .message _ p .unchoke => inferInstanceAs (Decidable (c.refills p .unchoke = true →
      c.StaysFull p .unchoke ∨ ∀ r ∈ c.onOffer p .unchoke, c.NoneBeingWritten r))
  | .message _ p (.haveMsg i) => inferInstanceAs (Decidable (c.refills p (.haveMsg i) = true →
      c.StaysFull p (.haveMsg i) ∨ ∀ r ∈ c.onOffer p (.haveMsg i), c.NoneBeingWritten r))
  | .message _ _ .keepAlive | .message _ _ .choke | .message _ _ .interested
  | .message _ _ .notInterested | .message _ _ (.bitField _) | .message _ _ (.request _ _ _)
  | .message _ _ (.cancel _ _ _) => .isTrue fun h => by cases h
  | .addPeer | .removePeer _ | .chokeUpload _ | .unchokeUpload _ | .transfer _ _ | .reuse _ _
  | .written _ _ | .fetch _ _ | .validated _ | .fetchRead _ _ | .readDone _ _ _ _ => .isTrue trivial

/-- Two peers have a piece of eleven blocks.  The first is asked for them and sends one, and when that
is stored the second lets us ask it, too. -/
def storedBetween : List Event :=
  firstUnchoke ++ [.addPeer, .message ⟨.reverseTies, .still ℕ⟩ 1 (.haveMsg 0),
    .message ⟨.reverseTies, .still ℕ⟩ 0 (.piece 0 0 [0]), .transfer ⟨0, 0, 0, [0], 1, 0⟩ 1,
    .written ⟨0, 0, 0, [0], 1, 1⟩ .success, .message ⟨.reverseTies, .still ℕ⟩ 1 .unchoke]

/-- A peer has the piece of a torrent of one byte, lets us ask for it, and answers. -/
def askedAndAnswered : List Event :=
  [.addPeer, .message ⟨.reverseTies, .still ℕ⟩ 0 (.haveMsg 0),
    .message ⟨.reverseTies, .still ℕ⟩ 0 .unchoke,
    .message ⟨.reverseTies, .still ℕ⟩ 0 (.piece 0 0 [0])]

theorem freshRequests_of_asksOnce_storedBetween : ∃ c : Client,
    Run (StepOf (step fun _ => Vector.replicate 20 0)) (init elevenBlocks fun _ => 0) storedBetween c ∧
      (unanswered c.log).length = 10 ∧ receivedBlocks c.log = [(0, 0)] ∧ FreshRequests c.log := by
  obtain ⟨c, hr, hun, hrec⟩ : ∃ c,
      Run (Along (Along (StepOf (step fun _ => Vector.replicate 20 0)) Answers) AsksOnce)
        (init elevenBlocks fun _ => 0) storedBetween c ∧
      (unanswered c.log).length = 10 ∧ receivedBlocks c.log = [(0, 0)] :=
    exists_run_along_along (by decide +kernel)
  exact ⟨c, hr.mono fun _ _ _ hs => hs.1.1, hun, hrec, freshRequests_of_asksOnce hr⟩

theorem not_freshRequests_askedAndAnswered :
    ¬ ∀ (sha1 : List UInt8 → Hash) (m : Metainfo) (content : ℕ → UInt8) (es : List Event) (c : Client),
      Run (Along (StepOf (step sha1)) Answers) (init m content) es c → FreshRequests c.log := by
  intro h
  obtain ⟨c, hr, hhead, hrec⟩ : ∃ c, Run (Along (StepOf (step fun _ => Vector.replicate 20 0)) Answers)
      (init oneByte fun _ => 0) askedAndAnswered c ∧
      c.log.head? = some (.sent 0 (.request 0 0 1)) ∧ (0, 0) ∈ receivedBlocks c.log.tail :=
    exists_run_along (by decide +kernel)
  obtain ⟨log, hlog⟩ : ∃ log, c.log = .sent 0 (.request 0 0 1) :: log := by
    rcases hc : c.log with _ | ⟨n, log⟩
    · rw [hc] at hhead
      cases hhead
    · rw [hc] at hhead
      exact ⟨log, by rw [Option.some.inj hhead]⟩
  have hfresh := h _ _ _ _ _ hr
  rw [hlog] at hfresh hrec
  exact hfresh.2.1 hrec

end Client

end FTorrent
