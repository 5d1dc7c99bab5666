import FTorrent.Frame

/-!
# Blocks, requests and the history

The flags of a block are found by the position of its piece and its position in the piece
(`Torrent.blockAt`), and each operation changes them by a function of the flags
(`blockAt_requestPiece`, `blockAt_pieceReceived`, `blockAt_written`, `blockAt_reset`).  What has been
asked for and answered is read off the log.
-/

namespace FTorrent

open Lib

namespace Torrent

/-- The block at position `j` of the piece at position `i`. -/
def blockAt (t : Torrent) (i j : ℕ) : Option Block := t.pieces[i]?.bind (·.blocks[j]?)

theorem blockAt_eq_some {t : Torrent} {i j : ℕ} {b : Block} :
    t.blockAt i j = some b ↔ ∃ p, t.pieces[i]? = some p ∧ p.blocks[j]? = some b :=
  Option.bind_eq_some_iff

theorem blockAt_sameCore {t t' : Torrent} (h : SameCore t.pieces t'.pieces) (i j : ℕ) :
    t'.blockAt i j = t.blockAt i j := by
  have := congrArg (fun ps : List Piece => ps[i]?.bind (·.blocks[j]?)) h
  simpa [blockAt, Option.bind_map, Function.comp_def, Piece.core, Piece.setAvailability] using this

/-- Replacing a piece by one whose blocks are images of its blocks. -/
theorem blockAt_set {t : Torrent} {r : ℕ} {p : Piece} (hp : t.pieces[r]? = some p) (t' : Torrent)
    (p' : Piece) (ht : t'.pieces = t.pieces.set r p') (f : ℕ → Block → Block)
    (hf : ∀ j : ℕ, p'.blocks[j]? = p.blocks[j]?.map (f j)) (i j : ℕ) :
    t'.blockAt i j = (t.blockAt i j).map fun b => if r = i then f j b else b := by
  rw [blockAt, ht, getElem?_set_of_some hp, blockAt]
  split_ifs with hi
  · subst hi
    rw [hp]
    exact hf j
  · simp

theorem LaidOut.blockAt {m : Metainfo} {t : Torrent} (h : LaidOut m t) {i j : ℕ} {b : Block}
    (hb : t.blockAt i j = some b) :
    i < 2 ^ 32 ∧ b.offset = j * Piece.nominalBlockSize ∧ j * Piece.nominalBlockSize < 2 ^ 32 := by
  obtain ⟨p, hp, hb⟩ := blockAt_eq_some.1 hb
  obtain ⟨hi, -, -, -, hlen, hblocks⟩ := h.piece hp
  have hj : j < Piece.numBlocks (m.pieceSize i) := by
    rw [← hlen]
    exact (List.getElem?_eq_some_iff.1 hb).1
  obtain ⟨hoff, hpos, -, hend⟩ := Piece.makeBlock_bounds hj
  have := m.pieceSize_lt i
  exact ⟨hi.trans m.pieces_lt, (hblocks j b hb).2, by omega⟩

end Torrent

/-! ### What the operations do to the flags -/

namespace Client

variable {c c' : Client} {p : ℕ}

theorem blockAt_requestPiece (c : Client) (p r i j : ℕ) :
    (c.requestPiece p r).torrent.blockAt i j = (c.torrent.blockAt i j).map fun b =>
      if r = i then (if b.free then b.setRequested true else b) else b := by
  unfold requestPiece
  rcases hr : c.torrent.pieces[r]? with _ | piece
  · by_cases hi : r = i
    · subst hi
      simp [Torrent.blockAt, hr]
    · simp [hi]
  · exact Torrent.blockAt_set hr _ piece.requestFree rfl
      (fun _ b => if b.free then b.setRequested true else b) (fun j => by simp [Piece.requestFree]) i j

theorem blockAt_pieceReceived {i o : UInt32} {d : List UInt8}
    (h : c.pieceReceived p i o d = .ok c') :
    ∃ r, c.picker.getPiece i.toNat = .ok r ∧
      (∃ b, c.torrent.blockAt r (o.toNat / Piece.nominalBlockSize) = some b) ∧
      (∃ b, c.torrent.blockAt i.toNat (o.toNat / Piece.nominalBlockSize) = some b) ∧
      (∀ k j, c'.torrent.blockAt k j = (c.torrent.blockAt k j).map fun b =>
        if r = k then (if o.toNat / Piece.nominalBlockSize = j then b.setRequested false else b)
        else b) ∧
      c'.torrent.writes = c.torrent.writes ++ [⟨i.toNat, o.toNat,
        u32 (u64 (i.toNat * c.torrent.nominalPieceSize + o.toNat)), d,
        c.torrent.bufferChanges.count (i.toNat, o.toNat / Piece.nominalBlockSize) + 1, 0⟩] ∧
      c'.log = c.log ∧ c'.registered = c.registered := by
  obtain ⟨r, piece, block, t, hr, hpiece, hblock, ht, rfl⟩ := pieceReceived_eq_ok h
  obtain ⟨q, b, hq, hb, rfl⟩ := Torrent.writeBlock_eq_ok.1 ht
  have hmodify : ∀ j : ℕ, (piece.modifyBlock o.toNat (Block.setRequested · false)).blocks[j]? =
      piece.blocks[j]?.map fun b =>
        if o.toNat / Piece.nominalBlockSize = j then b.setRequested false else b := by
    intro j
    rw [Piece.modifyBlock, List.getElem?_modify]
    rfl
  have hat := Torrent.blockAt_set hpiece (c.setPieces (c.torrent.pieces.set r
    (piece.modifyBlock o.toNat (Block.setRequested · false)))).torrent _ rfl _ hmodify
  refine ⟨r, hr, ⟨block, Torrent.blockAt_eq_some.2 ⟨piece, hpiece, hblock⟩⟩, ?_, hat, rfl, rfl, rfl⟩
  have := Torrent.blockAt_eq_some.2 ⟨q, hq, hb⟩
  rw [hat] at this
  obtain ⟨b₀, hb₀, -⟩ := Option.map_eq_some_iff.1 this
  exact ⟨b₀, hb₀⟩

end Client

namespace Torrent

variable {t t' : Torrent}

theorem blockAt_written {op : WriteOp} {e : ErrorCode} (h : t.writeHandler op e = .ok t') (i j : ℕ) :
    t'.blockAt i j = (t.blockAt i j).map fun b =>
      if op.pieceIndex = i then
        (if u32 op.blockOffset / Piece.nominalBlockSize = j then b.setComplete true else b)
      else b := by
  obtain ⟨-, -, -, q, q', hq, hq', rfl⟩ := writeHandler_eq_ok.1 h
  obtain ⟨-, b, -, rfl⟩ := Piece.blockWritten_eq_ok.1 hq'
  refine blockAt_set hq _ _ rfl (fun j b =>
    if u32 op.blockOffset / Piece.nominalBlockSize = j then b.setComplete true else b) (fun j => ?_) i j
  change (q.modifyBlock _ _).blocks[j]? = _
  rw [Piece.modifyBlock, List.getElem?_modify]
  rfl

theorem blockAt_reset {op : ValidateOp} (h : t.validationHandler op false = .ok t') (i j : ℕ) :
    t'.blockAt i j = (t.blockAt i j).map fun b =>
      if op.pieceIndex = i then b.setComplete false else b := by
  obtain ⟨-, q, hq, ⟨hf, -⟩ | ⟨-, rfl⟩⟩ := validationHandler_eq_ok.1 h
  · cases hf
  · exact blockAt_set hq _ q.reset rfl (fun _ b => b.setComplete false)
      (fun j => by simp [Piece.reset]) i j

end Torrent

/-! ### Requests in the log -/

/-- The peer, piece index and offset of the REQUEST for a block. -/
abbrev RequestKey := ℕ × ℕ × ℕ

/-- The REQUESTs that no PIECE from the peer has answered, latest first. -/
def unanswered : List Note → List RequestKey
  | .sent p (.request i o _) :: log => (p, i.toNat, o.toNat) :: unanswered log
  | .received p (.piece i o _) :: log => (unanswered log).erase (p, i.toNat, o.toNat)
  | _ :: log => unanswered log
  | [] => []

/-- The blocks, by piece index and offset, whose data has been received since their piece was last
reset. -/
def receivedBlocks : List Note → List (ℕ × ℕ)
  | .received _ (.piece i o _) :: log => (i.toNat, o.toNat) :: receivedBlocks log
  | .reset i :: log => (receivedBlocks log).filter (·.1 ≠ i)
  | _ :: log => receivedBlocks log
  | [] => []

/-- The REQUESTs that no PIECE from the peer has answered, and after which the peer has neither choked
us nor left. -/
def live : List Note → List RequestKey
  | .sent p (.request i o _) :: log => (p, i.toNat, o.toNat) :: live log
  | .received p (.piece i o _) :: log => (live log).erase (p, i.toNat, o.toNat)
  | .received p .choke :: log => (live log).filter (·.1 ≠ p)
  | .removed p :: log => (live log).filter (·.1 ≠ p)
  | _ :: log => live log
  | [] => []

/-- A message that is neither a PIECE nor a CHOKE. -/
def Message.Harmless : Message → Prop
  | .piece _ _ _ | .choke => False
  | _ => True

/-- An entry that no history of requests looks at. -/
def Note.Neutral : Note → Prop
  | .sent _ (.request _ _ _) => False
  | .sent _ _ => True
  | .received _ msg => msg.Harmless
  | .reset _ | .removed _ => False

theorem Note.Notice.neutral {n : Note} (h : n.Notice) : n.Neutral := by
  rcases h with h | ⟨p, i, rfl⟩
  · cases n with
    | sent p msg => cases msg <;> trivial
    | _ => cases h
  · trivial

theorem Note.Neutral.unanswered {n : Note} (h : n.Neutral) (log : List Note) :
    unanswered (n :: log) = unanswered log := by
  cases n with
  | sent p msg => cases msg <;> first | rfl | cases h
  | received p msg => cases msg <;> first | rfl | cases h
  | _ => rfl

theorem Note.Neutral.receivedBlocks {n : Note} (h : n.Neutral) (log : List Note) :
    receivedBlocks (n :: log) = receivedBlocks log := by
  cases n with
  | received p msg => cases msg <;> first | rfl | cases h
  | reset i => cases h
  | _ => rfl

theorem Note.Neutral.live {n : Note} (h : n.Neutral) (log : List Note) :
    live (n :: log) = live log := by
  cases n with
  | sent p msg => cases msg <;> first | rfl | cases h
  | received p msg => cases msg <;> first | rfl | cases h
  | removed p => cases h
  | _ => rfl

/-- A history that none of the new entries changes. -/
theorem history_append {α : Type} {f : List Note → α} {ns log : List Note}
    (h : ∀ n ∈ ns, ∀ log, f (n :: log) = f log) : f (ns ++ log) = f log := by
  induction ns with
  | nil => rfl
  | cons n ns ih =>
    rw [List.cons_append, h n List.mem_cons_self]
    exact ih fun k hk => h k (List.mem_cons_of_mem n hk)

theorem lt_of_mem_receivedBlocks {log : List Note} {x : ℕ × ℕ} (h : x ∈ receivedBlocks log) :
    x.2 < 2 ^ 32 := by
  induction log with
  | nil => cases h
  | cons n log ih =>
    cases n with
    | sent p msg => exact ih h
    | received p msg =>
      cases msg with
      | piece i o d =>
        rcases List.mem_cons.1 h with rfl | h
        · exact o.toNat_lt
        · exact ih h
      | _ => exact ih h
    | reset i => exact ih (List.mem_of_mem_filter h)
    | removed p => exact ih h

/-! ### What `request_blocks` adds to the log -/

/-- A history to which a REQUEST adds its key. -/
def RecordsRequests (f : List Note → List RequestKey) : Prop :=
  ∀ p i o l log, f (.sent p (.request i o l) :: log) = (p, i.toNat, o.toNat) :: f log

theorem recordsRequests_unanswered : RecordsRequests unanswered := fun _ _ _ _ _ => rfl

theorem recordsRequests_live : RecordsRequests live := fun _ _ _ _ _ => rfl

namespace Client

variable {c : Client} {m : Metainfo}

/-- The keys of the requests that `requestPiece` sends, latest first. -/
def newKeys (c : Client) (p r : ℕ) : List RequestKey :=
  match c.torrent.pieces[r]? with
  | none => []
  | some piece => (piece.freeBlocks.map fun b => (p, r, b.offset)).reverse

theorem history_requests {f : List Note → List RequestKey} (hf : RecordsRequests f) {piece : Piece}
    {bs : List Block} (p : ℕ) (hi : piece.index < 2 ^ 32) (hbs : ∀ b ∈ bs, b.offset < 2 ^ 32)
    (log : List Note) :
    f ((bs.map fun b => .sent p (piece.requestFor b)).reverse ++ log) =
      (bs.map fun b => (p, piece.index, b.offset)).reverse ++ f log := by
  induction bs generalizing log with
  | nil => rfl
  | cons b bs ih =>
    have hb : b.offset < 2 ^ 32 := hbs b List.mem_cons_self
    simp only [List.map_cons, List.reverse_cons, List.append_assoc, List.singleton_append]
    rw [ih (fun a ha => hbs a (List.mem_cons_of_mem b ha)), Piece.requestFor, hf,
      UInt32.toNat_ofNat_of_lt' hi, UInt32.toNat_ofNat_of_lt' hb]

/-- A block that `requestPiece` asks for, by its position. -/
theorem of_mem_freeBlocks (hl : Torrent.LaidOut m c.torrent) {r : ℕ} {piece : Piece}
    (hr : c.torrent.pieces[r]? = some piece) {b : Block} (hb : b ∈ piece.freeBlocks) :
    ∃ j, c.torrent.blockAt r j = some b ∧ b.free = true ∧
      b.offset = j * Piece.nominalBlockSize ∧ b.offset < 2 ^ 32 := by
  obtain ⟨hb, hfree⟩ := List.mem_filter.1 hb
  obtain ⟨j, hj⟩ := List.getElem?_of_mem hb
  have hat := Torrent.blockAt_eq_some.2 ⟨piece, hr, hj⟩
  obtain ⟨-, ho, hlt⟩ := hl.blockAt hat
  exact ⟨j, hat, hfree, ho, by omega⟩

theorem history_requestPiece {f : List Note → List RequestKey} (hf : RecordsRequests f)
    (hl : Torrent.LaidOut m c.torrent) (p r : ℕ) :
    f (c.requestPiece p r).log = c.newKeys p r ++ f c.log := by
  unfold requestPiece newKeys
  rcases hr : c.torrent.pieces[r]? with _ | piece
  · rfl
  · obtain ⟨hlt, hidx, -⟩ := hl.piece hr
    have := m.pieces_lt
    have hoff : ∀ b ∈ piece.freeBlocks, b.offset < 2 ^ 32 := by
      intro b hb
      obtain ⟨j, -, -, -, hoff⟩ := of_mem_freeBlocks hl hr hb
      exact hoff
    change f ((piece.freeBlocks.map fun b => .sent p (piece.requestFor b)).reverse ++ c.log) = _
    rw [history_requests hf p (by omega) hoff, hidx]

/-- A request is sent for every free block of the piece, and for no other. -/
theorem mem_newKeys (hl : Torrent.LaidOut m c.torrent) {p r : ℕ} {x : RequestKey} :
    x ∈ c.newKeys p r ↔ ∃ j b, c.torrent.blockAt r j = some b ∧ b.free = true ∧
      x = (p, r, j * Piece.nominalBlockSize) := by
  unfold newKeys
  constructor
  · intro hx
    rcases hr : c.torrent.pieces[r]? with _ | piece
    · rw [hr] at hx
      cases hx
    · rw [hr] at hx
      obtain ⟨b, hb, rfl⟩ := List.mem_map.1 (List.mem_reverse.1 hx)
      obtain ⟨j, hat, hfree, ho, -⟩ := of_mem_freeBlocks hl hr hb
      exact ⟨j, b, hat, hfree, by rw [ho]⟩
  · rintro ⟨j, b, hat, hfree, rfl⟩
    obtain ⟨piece, hr, hb⟩ := Torrent.blockAt_eq_some.1 hat
    rw [hr]
    refine List.mem_reverse.2 (List.mem_map.2 ⟨b, ?_, by rw [(hl.blockAt hat).2.1]⟩)
    exact List.mem_filter.2 ⟨List.mem_of_getElem? hb, hfree⟩

theorem requestPiece_of_none {p r : ℕ} (hr : c.torrent.pieces[r]? = none) : c.requestPiece p r = c := by
  unfold requestPiece
  rw [hr]

theorem log_requestPiece {p r : ℕ} {piece : Piece} (hr : c.torrent.pieces[r]? = some piece) :
    (c.requestPiece p r).log =
      (piece.freeBlocks.map fun b => .sent p (piece.requestFor b)).reverse ++ c.log := by
  unfold requestPiece
  rw [hr]

/-- The blocks of a piece start at different offsets. -/
theorem nodup_offsets (hl : Torrent.LaidOut m c.torrent) {r : ℕ} {piece : Piece}
    (hr : c.torrent.pieces[r]? = some piece) : (piece.freeBlocks.map (·.offset)).Nodup := by
  refine ((List.filter_sublist (l := piece.blocks)).map _).nodup ?_
  rw [List.Nodup, List.pairwise_map, List.pairwise_iff_getElem]
  intro i j hi hj hij heq
  obtain ⟨-, h₁, -⟩ := hl.blockAt (Torrent.blockAt_eq_some.2 ⟨piece, hr, List.getElem?_eq_getElem hi⟩)
  obtain ⟨-, h₂, -⟩ := hl.blockAt (Torrent.blockAt_eq_some.2 ⟨piece, hr, List.getElem?_eq_getElem hj⟩)
  rw [h₁, h₂] at heq
  have := Nat.eq_of_mul_eq_mul_right (by decide) heq
  omega

theorem nodup_newKeys (hl : Torrent.LaidOut m c.torrent) (p r : ℕ) :
    ((c.newKeys p r).map Prod.snd).Nodup := by
  unfold newKeys
  rcases hr : c.torrent.pieces[r]? with _ | piece
  · exact List.nodup_nil
  · rw [List.map_reverse, List.nodup_reverse, List.map_map]
    have := nodup_offsets hl hr
    rw [List.Nodup, List.pairwise_map] at this ⊢
    exact this.imp fun hne heq => hne (congrArg Prod.snd heq)

@[simp] theorem writes_requestPiece (c : Client) (p r : ℕ) :
    (c.requestPiece p r).torrent.writes = c.torrent.writes := by
  unfold requestPiece
  split <;> rfl

end Client

end FTorrent
