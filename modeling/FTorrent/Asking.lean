import FTorrent.Holders

/-!
# A call of `request_blocks`

The loop of `request_blocks` makes progress by the number it passes to `next`, and its inner loop sets
the flags that it tests.  Neither changes what `next` enumerates, so the loop takes up one candidate
after the other: it ends after one call more than there are pieces, asks for different blocks that are
free, and where there is room left at its end it has come to every candidate
(`requestBlocks_exhaustive`).
-/

namespace FTorrent

open Lib

/-- The peer has sent a HAVE or a BITFIELD that announces the piece. -/
def announcedBy (k j : ℕ) (log : List Note) : Prop :=
  ∃ msg, Note.received k msg ∈ log ∧ msg.announces j = true

theorem announcedBy_append {k j : ℕ} {log : List Note} (h : announcedBy k j log) (ns : List Note) :
    announcedBy k j (ns ++ log) := by
  obtain ⟨msg, hmsg, hj⟩ := h
  exact ⟨msg, List.mem_append_right ns hmsg, hj⟩

/-- The piece index and the offset of the block that a REQUEST asks for. -/
def Note.block : Note → Option (ℕ × ℕ)
  | .sent _ (.request index begin _) => some (index.toNat, begin.toNat)
  | _ => none

namespace Client

variable {sha1 : List UInt8 → Hash} {m : Metainfo} {content : ℕ → UInt8} {c c' : Client} {p : ℕ}

/-- The while loop of `request_blocks` from the round `attempt` on, where `chs` says what the sort in
each round does.  It ends, after so many calls of `next`, because the pipeline is full or because
`next` returns null. -/
inductive RequestLoop (chs : ℕ → SortChoice) (p : ℕ) : ℕ → Client → ℕ → Client → Prop where
  | full {attempt : ℕ} {c : Client} {q : Peer} (hq : c.peers[p]? = some q)
    (hroom : ¬ q.blocksInQueue < blockPipelineSize) : RequestLoop chs p attempt c 0 c
  | nothing {attempt : ℕ} {c : Client} {q : Peer} {pk : RarestFirstPicker}
    (hq : c.peers[p]? = some q) (hroom : q.blocksInQueue < blockPipelineSize)
    (hnext : c.picker.next (chs attempt) c.torrent.pieces q.hasPiece attempt = .ok (pk, none)) :
    RequestLoop chs p attempt c 1 { c with picker := pk }
  | piece {attempt calls r : ℕ} {c c' : Client} {q : Peer} {pk : RarestFirstPicker}
    (hq : c.peers[p]? = some q) (hroom : q.blocksInQueue < blockPipelineSize)
    (hnext : c.picker.next (chs attempt) c.torrent.pieces q.hasPiece attempt = .ok (pk, some r))
    (hrest : RequestLoop chs p (attempt + 1) (requestPiece { c with picker := pk } p r) calls c') :
    RequestLoop chs p attempt c (calls + 1) c'

/-- A state in which `request_blocks` can be called: between two handlers, or in the handler of a
message. -/
def AtCall (sha1 : List UInt8 → Hash) (m : Metainfo) (content : ℕ → UInt8) (c : Client) : Prop :=
  ∃ es c₀, Run (StepOf (step sha1)) (init m content) es c₀ ∧
    (c = c₀ ∨ ∃ p msg asks, p ∈ c₀.registered ∧ c₀.handleMessage p msg = .ok (c, asks))

/-- The entry is a REQUEST to the peer for a block that is neither requested nor complete, of a piece
that the peer has announced. -/
def Asks (c : Client) (p : ℕ) (n : Note) : Prop :=
  ∃ (index begin length : UInt32) (piece : Piece) (b : Block),
    n = .sent p (.request index begin length) ∧ announcedBy p index.toNat c.log ∧
    c.torrent.pieces[index.toNat]? = some piece ∧
    piece.blocks[begin.toNat / Piece.nominalBlockSize]? = some b ∧
    b.requested = false ∧ b.complete = false ∧
    begin.toNat % Piece.nominalBlockSize = 0 ∧ begin.toNat + length.toNat ≤ piece.size

/-- No block that is neither requested nor complete is left in a piece that is available and not
complete and that the peer has. -/
def NothingLeft (c : Client) (p : ℕ) : Prop :=
  ∀ (i : ℕ) (piece : Piece), c.torrent.pieces[i]? = some piece → piece.complete = false →
    0 < piece.availability → c.has p i = true →
      ∀ b ∈ piece.blocks, b.requested = true ∨ b.complete = true

/-! ### What the peer has was announced -/

/-- The log has every announcement of the pieces that a peer has. -/
structure Told (m : Metainfo) (c : Client) : Prop where
  sound : Sound m c
  announced : ∀ k j, c.has k j = true → announcedBy k j c.log

namespace Told

/-- A step after which the peers have no more pieces. -/
theorem of_append (h : Told m c) (hs : Sound m c') (hhas : ∀ k j, c'.has k j = c.has k j)
    (hlog : ∃ ns, c'.log = ns ++ c.log) : Told m c' := by
  obtain ⟨ns, hns⟩ := hlog
  refine ⟨hs, fun k j hj => ?_⟩
  rw [hhas] at hj
  rw [hns]
  exact announcedBy_append (h.announced k j hj) ns

theorem init : Told m (init m content) := by
  refine ⟨.init, fun k j hj => ?_⟩
  simp [has, Client.init] at hj

theorem handleMessage (h : Told m c) {msg : Message} {b : Bool} (hp : p ∈ c.registered)
    (hc : c.handleMessage p msg = .ok (c', b)) : Told m c' := by
  refine ⟨h.sound.handleMessage hc, fun k j hj => ?_⟩
  obtain ⟨ns, hns, -⟩ := log_handleMessage hc
  rw [has_handleMessage h.sound hc (h.sound.registered p hp), Bool.or_eq_true, Bool.and_eq_true,
    decide_eq_true_eq] at hj
  rw [hns]
  apply announcedBy_append
  rcases hj with hj | ⟨rfl, hj⟩
  · exact announcedBy_append (h.announced k j hj) [_]
  · exact ⟨msg, List.mem_cons_self, hj⟩

theorem requestPiece (h : Told m c) (r : ℕ) : Told m (c.requestPiece p r) := by
  apply h.of_append (h.sound.requestPiece p r) (has_requestPiece c p r)
  rcases hr : c.torrent.pieces[r]? with _ | piece
  · exact ⟨[], by rw [requestPiece_of_none hr, List.nil_append]⟩
  · exact ⟨_, log_requestPiece hr⟩

theorem step (h : Told m c) {ev : Event} (hs : c.step sha1 ev = .ok c') : Told m c' := by
  have hsound := h.sound.step hs
  cases kind_of_step hs with
  | join => exact h.of_append hsound (has_addPeer c) ⟨[_], rfl⟩
  | removal q hq => exact h.of_append hsound (fun _ _ => rfl) ⟨[_], rfl⟩
  | absent => exact h
  | message ch q msg hq hmsg =>
    apply messageHandler_induction hmsg
    · exact fun c₁ b h₁ => h.handleMessage hq h₁
    · exact fun c₁ pk hpk h₁ =>
        ⟨h₁.sound.setPicker (h₁.sound.picker.refresh hpk).1, h₁.announced⟩
    · exact fun c₁ r h₁ _ => h₁.requestPiece r
  | background _ hb =>
    obtain ⟨ns, hns, -⟩ := hb.log
    exact h.of_append hsound (fun k j => has_of_peerCore (hb.peers k) j) ⟨ns, hns⟩

theorem of_atCall (hc : AtCall sha1 m content c) : Told m c := by
  obtain ⟨es, c₀, hr, hc⟩ := hc
  have hrun : Told m c₀ := hr.invariant (fun _ _ _ h hs => h.step hs) .init
  rcases hc with rfl | ⟨q, msg, asks, hq, h₁⟩
  · exact hrun
  · exact hrun.handleMessage hq h₁

end Told

/-! ### The rounds of the loop -/

theorem isSome_peerCore (hp : p < c.peers.length) : (c.peerCore p).isSome := by
  rw [peerCore_of_getElem? (List.getElem?_eq_getElem hp)]
  rfl

theorem roomFor_of_getElem? {q : Peer} (hq : c.peers[p]? = some q) :
    c.roomFor p = decide (q.blocksInQueue < blockPipelineSize) := by
  rw [roomFor, hq, Option.any_some]

/-- A picker that is not dirty stays as it is. -/
theorem next_of_clean (hs : Sound m c) (hd : c.picker.dirty = false) {q : Peer}
    (hq : c.peers[p]? = some q) (ch : SortChoice) {attempt : ℕ} {rs : List ℕ}
    (hrs : (c.picker.candidates c.torrent.pieces q.hasPiece).drop attempt = rs) :
    c.picker.next ch c.torrent.pieces q.hasPiece attempt = .ok (c.picker, rs[0]?) := by
  have hclean : c.picker.refresh ch c.torrent.pieces = .ok c.picker := by
    rw [RarestFirstPicker.refresh, if_neg (by simp [hd])]
  rw [next_ok hs hq hclean, ← hrs, List.getElem?_drop, Nat.add_zero]

/-- With a picker that is not dirty, the loop takes up the candidates one after the other. -/
theorem requestLoop_of_clean (hs : Sound m c) (hd : c.picker.dirty = false) {q : Peer}
    (hq : c.peers[p]? = some q) (chs : ℕ → SortChoice) {attempt : ℕ} {rs : List ℕ}
    (hrs : (c.picker.candidates c.torrent.pieces q.hasPiece).drop attempt = rs) :
    ∃ calls ≤ rs.length + 1,
      RequestLoop chs p attempt c calls (requestPieces p (visited p rs c) c) := by
  induction rs generalizing c q attempt with
  | nil =>
    by_cases hroom : q.blocksInQueue < blockPipelineSize
    · exact ⟨1, le_rfl, .nothing hq hroom (next_of_clean hs hd hq _ hrs)⟩
    · exact ⟨0, Nat.zero_le _, .full hq hroom⟩
  | cons r rs ih =>
    rw [visited, roomFor_of_getElem? hq]
    by_cases hroom : q.blocksInQueue < blockPipelineSize
    · rw [decide_eq_true hroom, if_pos rfl]
      obtain ⟨q', hq'⟩ : ∃ q', (c.requestPiece p r).peers[p]? = some q' := by
        apply exists_peer
        rw [isSome_peerCore_requestPiece, peerCore_of_getElem? hq]
        rfl
      have hd' : (c.requestPiece p r).picker.dirty = false := by rwa [picker_requestPiece]
      have hdrop : ((c.requestPiece p r).picker.candidates (c.requestPiece p r).torrent.pieces
          q'.hasPiece).drop (attempt + 1) = rs := by
        rw [hasPiece_requestPiece hq hq', picker_requestPiece, candidates_requestPiece,
          ← List.tail_drop, hrs, List.tail_cons]
      obtain ⟨calls, hle, hloop⟩ := ih (hs.requestPiece p r) hd' hq' hdrop
      exact ⟨calls + 1, Nat.succ_le_succ hle,
        .piece hq hroom (next_of_clean hs hd hq _ hrs) hloop⟩
    · rw [decide_eq_false hroom, if_neg Bool.false_ne_true]
      exact ⟨0, Nat.zero_le _, .full hq hroom⟩

/-- The first round sorts a dirty picker, and what follows does not depend on it. -/
theorem RequestLoop.of_refresh {chs : ℕ → SortChoice} {attempt calls : ℕ} {q : Peer}
    (hq : c.peers[p]? = some q) (hroom : q.blocksInQueue < blockPipelineSize) {pk : RarestFirstPicker}
    (hpk : c.picker.refresh (chs attempt) c.torrent.pieces = .ok pk)
    (h : RequestLoop chs p attempt { c with picker := pk } calls c') :
    RequestLoop chs p attempt c calls c' := by
  have hnext : ∀ hasPiece : ℕ → Except Fault Bool,
      pk.next (chs attempt) c.torrent.pieces hasPiece attempt =
        c.picker.next (chs attempt) c.torrent.pieces hasPiece attempt := by
    intro hasPiece
    have hclean : pk.refresh (chs attempt) c.torrent.pieces = .ok pk := by
      rw [RarestFirstPicker.refresh, if_neg (by simp [(RarestFirstPicker.refresh_eq_ok hpk).2.1])]
    rw [RarestFirstPicker.next, hclean, RarestFirstPicker.next, hpk]
  cases h with
  | full hq' hfull =>
    obtain rfl := Option.some.inj (hq.symm.trans hq')
    exact absurd hroom hfull
  | nothing hq' hroom' hres => exact .nothing hq' hroom' ((hnext _).symm.trans hres)
  | piece hq' hroom' hres hrest => exact .piece hq' hroom' ((hnext _).symm.trans hres) hrest

theorem requestPieces_setPicker (c : Client) (pk : RarestFirstPicker) (p : ℕ) (rs : List ℕ) :
    requestPieces p rs { c with picker := pk } = { requestPieces p rs c with picker := pk } := by
  induction rs generalizing c with
  | nil => rfl
  | cons r rs ih =>
    change requestPieces p rs (requestPiece _ p r) = _
    rw [requestPiece_setPicker, ih]
    rfl

/-- The loop takes up the candidates of the sorted picker while there is room.  It needs no more than
one call of `next` for each piece and one that returns null. -/
theorem exists_requestLoop (hs : Sound m c) {q : Peer} (hq : c.peers[p]? = some q) {ch : SortChoice}
    {pk : RarestFirstPicker} (hpk : c.picker.refresh ch c.torrent.pieces = .ok pk) :
    ∃ pk', ∀ chs : ℕ → SortChoice, chs 0 = ch → ∃ calls ≤ m.pieces.length + 1,
      RequestLoop chs p 0 c calls { requestPieces p
        (visited p (pk.candidates c.torrent.pieces q.hasPiece) c) c with picker := pk' } := by
  obtain ⟨hwhole, hclean⟩ := hs.picker.refresh hpk
  by_cases hroom : q.blocksInQueue < blockPipelineSize
  · refine ⟨pk, fun chs hch => ?_⟩
    obtain ⟨calls, hle, hloop⟩ := requestLoop_of_clean (c := { c with picker := pk })
      (hs.setPicker hwhole) hclean hq chs
      (List.drop_zero (l := pk.candidates c.torrent.pieces q.hasPiece))
    refine ⟨calls, hle.trans (Nat.succ_le_succ ?_), ?_⟩
    · calc (pk.candidates c.torrent.pieces q.hasPiece).length
          ≤ pk.availabilityBuckets.flatten.length := List.length_filter_le _ _
        _ = m.pieces.length := by rw [(hwhole.buckets hclean).length_eq, List.length_range]
    · apply RequestLoop.of_refresh hq hroom (hch ▸ hpk)
      rwa [visited_setPicker, requestPieces_setPicker] at hloop
  · refine ⟨c.picker, fun chs hch => ⟨0, Nat.zero_le _, ?_⟩⟩
    have hnone : visited p (pk.candidates c.torrent.pieces q.hasPiece) c = [] := by
      cases pk.candidates c.torrent.pieces q.hasPiece with
      | nil => rfl
      | cons r rs => rw [visited, roomFor_of_getElem? hq, decide_eq_false hroom, if_neg Bool.false_ne_true]
    rw [hnone]
    exact .full hq hroom

/-- With enough fuel, the bounded loop is the loop. -/
theorem requestLoop_of_calls {ch : SortChoice} {attempt calls fuel : ℕ}
    (h : RequestLoop (fun _ => ch) p attempt c calls c') (hfuel : calls ≤ fuel) :
    requestLoop ch p fuel attempt c = .ok c' := by
  induction h generalizing fuel with
  | @full attempt c q hq hroom =>
    cases fuel with
    | zero => rfl
    | succ fuel => exact bind_eq_ok.2 ⟨q, vectorAt_eq_ok.2 hq, if_neg hroom⟩
  | @nothing attempt c q pk hq hroom hnext =>
    obtain ⟨fuel, rfl⟩ := Nat.exists_eq_succ_of_ne_zero (Nat.ne_of_gt hfuel)
    refine bind_eq_ok.2 ⟨q, vectorAt_eq_ok.2 hq, ?_⟩
    rw [if_pos hroom]
    exact bind_eq_ok.2 ⟨_, hnext, rfl⟩
  | @piece attempt calls r c c' q pk hq hroom hnext hrest ih =>
    obtain ⟨fuel, rfl⟩ := Nat.exists_eq_succ_of_ne_zero (by omega : fuel ≠ 0)
    refine bind_eq_ok.2 ⟨q, vectorAt_eq_ok.2 hq, ?_⟩
    rw [if_pos hroom]
    exact bind_eq_ok.2 ⟨_, hnext, ih (Nat.le_of_succ_le_succ hfuel)⟩

/-! ### What the loop asks for -/

/-- The REQUESTs for the free blocks of the piece behind the pointer `r`. -/
def requestsFor (c : Client) (p r : ℕ) : List Note :=
  match c.torrent.pieces[r]? with
  | some piece => piece.freeBlocks.map fun b => .sent p (piece.requestFor b)
  | none => []

theorem log_requestPiece_eq (c : Client) (p r : ℕ) :
    (c.requestPiece p r).log = (c.requestsFor p r).reverse ++ c.log := by
  unfold requestPiece requestsFor
  rcases c.torrent.pieces[r]? with _ | piece
  · rfl
  · rfl

theorem requestsFor_requestPiece (c : Client) {r s : ℕ} (hs : s ≠ r) :
    (c.requestPiece p r).requestsFor p s = c.requestsFor p s := by
  rcases hr : c.torrent.pieces[r]? with _ | piece
  · rw [requestPiece_of_none hr]
  · simp [requestsFor, requestPiece, hr, setPieces, List.getElem?_set_ne hs.symm]

/-- Asking for different pieces sends the REQUESTs for the blocks that were free before. -/
theorem log_requestPieces {rs : List ℕ} (hnd : rs.Nodup) :
    (requestPieces p rs c).log = (rs.flatMap (c.requestsFor p)).reverse ++ c.log := by
  induction rs generalizing c with
  | nil => rfl
  | cons r rs ih =>
    obtain ⟨hr, hnd⟩ := List.nodup_cons.1 hnd
    have hsame : rs.flatMap ((c.requestPiece p r).requestsFor p) = rs.flatMap (c.requestsFor p) := by
      apply List.flatMap_congr
      intro s hs
      apply requestsFor_requestPiece
      rintro rfl
      exact hr hs
    change (requestPieces p rs (c.requestPiece p r)).log = _
    rw [ih hnd, hsame, log_requestPiece_eq, List.flatMap_cons, List.reverse_append,
      List.append_assoc]

theorem blockAt_requestPieces (c : Client) (p : ℕ) (rs : List ℕ) (i j : ℕ) :
    (requestPieces p rs c).torrent.blockAt i j = (c.torrent.blockAt i j).map fun b =>
      if i ∈ rs then (if b.free then b.setRequested true else b) else b := by
  induction rs generalizing c with
  | nil => simp [requestPieces]
  | cons r rs ih =>
    change (requestPieces p rs (c.requestPiece p r)).torrent.blockAt i j = _
    rw [ih, blockAt_requestPiece, Option.map_map]
    congr 1
    funext b
    simp only [Function.comp_apply, List.mem_cons]
    by_cases hi : r = i
    · subst hi
      have hset : (b.setRequested true).free = false := rfl
      by_cases hb : b.free = true
      · simp [hb, hset]
      · simp [hb]
    · simp [hi, Ne.symm hi]

theorem candidate_requestPieces (c : Client) (p : ℕ) (rs : List ℕ)
    (hasPiece : ℕ → Except Fault Bool) :
    RarestFirstPicker.candidate (requestPieces p rs c).torrent.pieces hasPiece =
      RarestFirstPicker.candidate c.torrent.pieces hasPiece := by
  induction rs generalizing c with
  | nil => rfl
  | cons r rs ih => exact (ih _).trans (candidate_requestPiece c r hasPiece)

theorem has_requestPieces (c : Client) (p : ℕ) (rs : List ℕ) (k j : ℕ) :
    (requestPieces p rs c).has k j = c.has k j := by
  induction rs generalizing c with
  | nil => rfl
  | cons r rs ih => exact (ih _).trans (has_requestPiece c p r k j)

/-- A loop that ends with room left has come to every candidate. -/
theorem visited_eq_of_room {rs : List ℕ}
    (hroom : (requestPieces p (visited p rs c) c).roomFor p = true) : visited p rs c = rs := by
  induction rs generalizing c with
  | nil => rfl
  | cons r rs ih =>
    rw [visited] at hroom ⊢
    split_ifs at hroom ⊢ with hr
    · rw [ih hroom]
    · exact absurd hroom hr

theorem visited_sublist (p : ℕ) (rs : List ℕ) (c : Client) : (visited p rs c).Sublist rs := by
  induction rs generalizing c with
  | nil => exact .refl _
  | cons r rs ih =>
    rw [visited]
    split_ifs
    · exact (ih _).cons_cons r
    · exact List.nil_sublist _

theorem hasPiece_eq (hs : Sound m c) {q : Peer} (hq : c.peers[p]? = some q) {r : ℕ}
    (hr : r < m.pieces.length) : q.hasPiece r = .ok (c.has p r) := by
  obtain ⟨b, hb⟩ := vectorAt_of_lt (v := q.piecePresent) (hs.piecePresent hq ▸ hr)
  rw [Peer.hasPiece, hb, has, hq, Option.bind_some, vectorAt_eq_ok.1 hb, Option.getD_some]

/-- A candidate is available, not complete, and had by the peer. -/
theorem candidate_iff {ps : List Piece} {hasPiece : ℕ → Except Fault Bool} {r : ℕ} {piece : Piece}
    {b : Bool} (hr : ps[r]? = some piece) (hb : hasPiece piece.index = .ok b) :
    RarestFirstPicker.candidate ps hasPiece r = true ↔
      piece.complete = false ∧ 0 < piece.availability ∧ b = true := by
  simp only [RarestFirstPicker.candidate, hr, hb, Bool.and_eq_true, bne_iff_ne, Bool.not_eq_true',
    Nat.pos_iff_ne_zero]
  constructor
  · rintro ⟨⟨h₁, h₂⟩, h₃⟩
    exact ⟨h₂, h₁, h₃⟩
  · rintro ⟨h₂, h₁, h₃⟩
    exact ⟨⟨h₁, h₂⟩, h₃⟩

/-- The numbers in a REQUEST for a free block of a piece. -/
theorem requestFor_eq (hl : Torrent.LaidOut m c.torrent) {r : ℕ} {piece : Piece}
    (hr : c.torrent.pieces[r]? = some piece) {b : Block} (hb : b ∈ piece.freeBlocks) :
    ∃ (index begin length : UInt32) (j : ℕ), piece.requestFor b = .request index begin length ∧
      index.toNat = r ∧ begin.toNat = b.offset ∧ piece.blocks[j]? = some b ∧
      begin.toNat = j * Piece.nominalBlockSize ∧ begin.toNat + length.toNat ≤ piece.size := by
  obtain ⟨hlt, hindex, -, hpiece, hlen, hblocks⟩ := hl.piece hr
  obtain ⟨j, hj⟩ := List.getElem?_of_mem (List.mem_of_mem_filter hb)
  have hjlt : j < Piece.numBlocks (m.pieceSize r) := by
    rw [← hlen]
    exact (List.getElem?_eq_some_iff.1 hj).1
  obtain ⟨hsize, hoff⟩ := hblocks j b hj
  obtain ⟨hoff', -, -, hend⟩ := Piece.makeBlock_bounds hjlt
  rw [hoff', ← hoff, ← hsize, ← hpiece] at hend
  have hsmall : piece.size < 2 ^ 32 := hpiece ▸ m.pieceSize_lt r
  have ho : b.offset < 2 ^ 32 := by omega
  have hs : b.size < 2 ^ 32 := by omega
  refine ⟨.ofNat piece.index, .ofNat b.offset, .ofNat b.size, j, rfl, ?_, ?_, hj, ?_, ?_⟩
  · rw [hindex, UInt32.toNat_ofNat_of_lt' (hlt.trans m.pieces_lt)]
  · exact UInt32.toNat_ofNat_of_lt' ho
  · rw [UInt32.toNat_ofNat_of_lt' ho, hoff]
  · rwa [UInt32.toNat_ofNat_of_lt' ho, UInt32.toNat_ofNat_of_lt' hs]

/-- What the loop sends for a candidate. -/
theorem asks_of_mem (h : Told m c) {q : Peer} (hq : c.peers[p]? = some q) {r : ℕ}
    (hcand : RarestFirstPicker.candidate c.torrent.pieces q.hasPiece r = true) {n : Note}
    (hn : n ∈ c.requestsFor p r) : c.Asks p n := by
  rcases hr : c.torrent.pieces[r]? with _ | piece
  · rw [requestsFor, hr] at hn
    cases hn
  · rw [requestsFor, hr] at hn
    obtain ⟨b, hb, rfl⟩ := List.mem_map.1 hn
    obtain ⟨index, begin, length, j, hreq, rfl, -, hj, hbegin, hend⟩ :=
      requestFor_eq h.sound.laidOut hr hb
    obtain ⟨hlt, hindex, -⟩ := h.sound.laidOut.piece hr
    have hb' := hasPiece_eq h.sound hq hlt
    rw [← hindex] at hb'
    obtain ⟨-, -, hhas⟩ := (candidate_iff hr hb').1 hcand
    rw [hindex] at hhas
    have hfree := (List.mem_filter.1 hb).2
    simp only [Block.free, Bool.and_eq_true, Bool.not_eq_true'] at hfree
    refine ⟨index, begin, length, piece, b, by rw [hreq], h.announced p _ hhas, hr, ?_, hfree.1,
      hfree.2, ?_, hend⟩
    · rwa [hbegin, Nat.mul_div_cancel _ (by decide)]
    · rw [hbegin, Nat.mul_mod_left]

theorem block_requestsFor (hl : Torrent.LaidOut m c.torrent) {r : ℕ} {piece : Piece}
    (hr : c.torrent.pieces[r]? = some piece) :
    (c.requestsFor p r).map Note.block =
      (piece.freeBlocks.map (·.offset)).map fun o => some (r, o) := by
  rw [requestsFor, hr, List.map_map, List.map_map]
  apply List.map_congr_left
  intro b hb
  obtain ⟨index, begin, length, -, hreq, rfl, hbegin, -⟩ := requestFor_eq hl hr hb
  simp only [Function.comp_apply, hreq, Note.block, hbegin]

/-- The REQUESTs for different pieces are for different blocks. -/
theorem nodup_blocks (hl : Torrent.LaidOut m c.torrent) {rs : List ℕ} (hnd : rs.Nodup) :
    ((rs.flatMap (c.requestsFor p)).map Note.block).Nodup := by
  have hpiece : ∀ r, ((c.requestsFor p r).map Note.block).Nodup ∧
      ∀ x ∈ (c.requestsFor p r).map Note.block, ∃ o, x = some (r, o) := by
    intro r
    rcases hr : c.torrent.pieces[r]? with _ | piece
    · simp [requestsFor, hr]
    · rw [block_requestsFor hl hr]
      constructor
      · refine (nodup_offsets hl hr).map fun o o' heq => ?_
        exact (Prod.mk.inj (Option.some.inj heq)).2
      · intro x hx
        obtain ⟨o, -, rfl⟩ := List.mem_map.1 hx
        exact ⟨o, rfl⟩
  rw [List.map_flatMap, List.nodup_flatMap]
  refine ⟨fun r _ => (hpiece r).1, hnd.imp fun {r s} hrs x hx hx' => ?_⟩
  obtain ⟨o, rfl⟩ := (hpiece r).2 x hx
  obtain ⟨o', heq⟩ := (hpiece s).2 _ hx'
  exact hrs (Prod.mk.inj (Option.some.inj heq)).1

/-- Where the loop has come to every candidate, it has left nothing to ask for. -/
theorem nothingLeft (hs : Sound m c) {q : Peer} (hq : c.peers[p]? = some q) {rs : List ℕ}
    (hrs : ∀ r < m.pieces.length, RarestFirstPicker.candidate c.torrent.pieces q.hasPiece r = true →
      r ∈ rs) : (requestPieces p rs c).NothingLeft p := by
  intro i piece hi hcomplete havail hhas b hb
  have hf := frame_requestPieces c p rs
  have hl := hs.laidOut.of_shapes hf.nominal hf.shapes
  obtain ⟨hlt, hindex, -⟩ := hl.piece hi
  have hmem : i ∈ rs := by
    apply hrs i hlt
    rw [← candidate_requestPieces c p rs]
    rw [has_requestPieces] at hhas
    exact (candidate_iff hi (hindex.symm ▸ hasPiece_eq hs hq hlt)).2 ⟨hcomplete, havail, hhas⟩
  obtain ⟨j, hj⟩ := List.getElem?_of_mem hb
  have hat := blockAt_requestPieces c p rs i j
  rw [Torrent.blockAt_eq_some.2 ⟨piece, hi, hj⟩] at hat
  obtain ⟨b₀, -, hb₀⟩ := Option.map_eq_some_iff.1 hat.symm
  rw [if_pos hmem] at hb₀
  subst hb₀
  split_ifs with hfree
  · exact .inl rfl
  · cases hreq : b₀.requested with
    | true => exact .inl rfl
    | false => exact .inr (by simpa [Block.free, hreq] using hfree)

/-! ### The call -/

/-- In every state in which it can be called, and whatever the sorts do, `request_blocks` ends after at
most one call of `next` more than there are pieces; it asks for different blocks, each neither requested
nor complete and in a piece that the peer has announced; and with room left at its end it leaves nothing
to ask for. -/
theorem requestBlocks_exhaustive (hc : AtCall sha1 m content c) (hn : 0 < m.pieces.length)
    (hp : p < c.peers.length) (chs : ℕ → SortChoice) :
    ∃ calls c' ns, RequestLoop chs p 0 c calls c' ∧ requestBlocks (chs 0) p c = .ok c' ∧
      calls ≤ m.pieces.length + 1 ∧ c'.log = ns ++ c.log ∧ (∀ n ∈ ns, c.Asks p n) ∧
      (ns.map Note.block).Nodup ∧
      ∀ q, c'.peers[p]? = some q → q.blocksInQueue < blockPipelineSize → c'.NothingLeft p := by
  have h := Told.of_atCall hc
  obtain ⟨q, hq⟩ := exists_peer (isSome_peerCore hp)
  obtain ⟨pk, hpk⟩ : ∃ pk, c.picker.refresh (chs 0) c.torrent.pieces = .ok pk :=
    RarestFirstPicker.refresh_ok h.sound.picker hn (chs 0)
  obtain ⟨hwhole, hclean⟩ := h.sound.picker.refresh hpk
  have hbuckets := hwhole.buckets hclean
  obtain ⟨pk', hloops⟩ := exists_requestLoop h.sound hq hpk
  set cs := pk.candidates c.torrent.pieces q.hasPiece
  have hnd : (visited p cs c).Nodup :=
    ((hbuckets.nodup_iff.2 List.nodup_range).filter _).sublist (visited_sublist p cs c)
  obtain ⟨calls, hle, hloop⟩ := hloops chs rfl
  refine ⟨calls, _, ((visited p cs c).flatMap (c.requestsFor p)).reverse, hloop, ?_, hle,
    log_requestPieces hnd, fun n hn => ?_, ?_, fun q' hq' hroom => ?_⟩
  · obtain ⟨calls', hle', hloop'⟩ := hloops (fun _ => chs 0) rfl
    apply requestLoop_of_calls hloop'
    have hlen := h.sound.picker.pieces.length_eq
    rw [List.length_range] at hlen
    omega
  · obtain ⟨r, hr, hn⟩ := List.mem_flatMap.1 (List.mem_reverse.1 hn)
    exact asks_of_mem h hq (List.mem_filter.1 ((visited_sublist p cs c).subset hr)).2 hn
  · rw [List.map_reverse, List.nodup_reverse]
    exact nodup_blocks h.sound.laidOut hnd
  · have hall : visited p cs c = cs := by
      apply visited_eq_of_room
      exact (roomFor_of_getElem? hq').trans (decide_eq_true hroom)
    apply nothingLeft h.sound hq
    intro r hr hcand
    rw [hall]
    exact List.mem_filter.2 ⟨hbuckets.mem_iff.2 (List.mem_range.2 hr), hcand⟩

/-- A peer joins and announces the piece. -/
def announcedOnce : List Event := [.addPeer, .message ⟨.reverseTies, .still ℕ⟩ 0 (.haveMsg 0)]

theorem requestBlocks_exhaustive_announcedOnce : ∃ c : Client,
    AtCall (fun _ => Vector.replicate 20 0) oneByte (fun _ => 0) c ∧ ∃ calls c' ns,
      RequestLoop (fun _ => ⟨.reverseTies, .still ℕ⟩) 0 0 c calls c' ∧ calls ≤ 2 ∧
        c'.log = ns ++ c.log ∧ ∀ n ∈ ns, c.Asks 0 n := by
  have hr : Run (StepOf (step fun _ => Vector.replicate 20 0)) (init oneByte fun _ => 0)
      announcedOnce _ := .cons rfl <| .cons rfl <| .nil _
  have hc : AtCall (fun _ => Vector.replicate 20 0) oneByte (fun _ => 0) _ := ⟨_, _, hr, .inl rfl⟩
  obtain ⟨calls, c', ns, hloop, -, hle, hlog, hasks, -⟩ :=
    requestBlocks_exhaustive hc (by decide) (p := 0) (by decide) fun _ => ⟨.reverseTies, .still ℕ⟩
  exact ⟨_, hc, calls, c', ns, hloop, hle, hlog, hasks⟩

end Client

end FTorrent
