import FTorrent.Queue
import FTorrent.Lookup

/-!
# Accesses with indices from the remote

The indices of a message go through `Peer`, the picker, the pieces and the torrent into accesses that
none of them checks.  In any state that the client can be in, the handler of a message stays inside its
containers exactly if the indices are in range (`inRange_iff`).
-/

namespace FTorrent

open Lib

theorem vectorAt_eq_error {α : Type} {v : List α} {i : ℕ} (h : v.length ≤ i) :
    vectorAt v i = .error .outOfRange := by
  unfold vectorAt
  rw [List.getElem?_eq_none h]

theorem vectorAt_of_lt {α : Type} {v : List α} {i : ℕ} (h : i < v.length) :
    ∃ a, vectorAt v i = .ok a :=
  ⟨v[i], vectorAt_eq_ok.2 (List.getElem?_eq_getElem h)⟩

/-- There are `n` pieces, in the order of their indices. -/
def Indexed (n : ℕ) (ps : List Piece) : Prop :=
  ps.length = n ∧ ∀ (i : ℕ) (p : Piece), ps[i]? = some p → p.index = i

theorem Indexed.exists_piece {n : ℕ} {ps : List Piece} (h : Indexed n ps) {i : ℕ} (hi : i < n) :
    ∃ p, ps[i]? = some p ∧ p.index = i := by
  have hget := List.getElem?_eq_getElem (h.1.symm ▸ hi : i < ps.length)
  exact ⟨_, hget, h.2 i _ hget⟩

theorem Indexed.modify {n : ℕ} {ps : List Piece} (h : Indexed n ps) (r : ℕ) (a : Piece → ℕ) :
    Indexed n (ps.modify r fun p => p.setAvailability (a p)) :=
  Picking.index_modify r a h

namespace RarestFirstPicker

variable {n : ℕ} {pk : RarestFirstPicker} {ps : List Piece}

/-- A piece that is found by its index is where its index says. -/
theorem eq_of_find? (hps : Indexed n ps) {i r : ℕ}
    (h : pk.pieces.find? (fun r => ps[r]?.any (·.index == i)) = some r) : r = i ∧ i < n := by
  have hany := List.find?_some h
  rcases hp : ps[r]? with _ | p
  · simp [hp] at hany
  · have hindex : p.index = i := by simpa [hp] using hany
    have hr : r = i := (hps.2 r p hp).symm.trans hindex
    have hlt := (List.getElem?_eq_some_iff.1 hp).1
    rw [hps.1, hr] at hlt
    exact ⟨hr, hlt⟩

/-- The piece is found where its index says. -/
theorem incrementPieceAvailability_of_lt (hw : pk.Whole n) (hps : Indexed n ps) {i : ℕ} (hi : i < n) :
    pk.incrementPieceAvailability ps i =
      .ok (ps.modify i fun p => p.setAvailability (u32 (p.availability + 1))) := by
  unfold incrementPieceAvailability
  obtain ⟨q, hq, hindex⟩ := hps.exists_piece hi
  split
  · next r hr =>
    rw [(eq_of_find? hps hr).1]
  · next hnone =>
    rw [List.find?_eq_none] at hnone
    have hmem : i ∈ pk.pieces := hw.pieces.mem_iff.2 (List.mem_range.2 hi)
    have hne := hnone i hmem
    simp [hq, hindex] at hne

theorem incrementPieceAvailability_of_le (hps : Indexed n ps) {i : ℕ} (hi : n ≤ i) :
    pk.incrementPieceAvailability ps i = .error .outOfRange := by
  unfold incrementPieceAvailability
  split
  · next r hr => exact absurd (eq_of_find? hps hr).2 hi.not_gt
  · rfl

/-- From position `i` on, every bit that is set has a piece. -/
theorem incrementAll_ok (hw : pk.Whole n) (hps : Indexed n ps) {bits : List Bool} {i : ℕ}
    (h : ∀ j : ℕ, bits[j]? = some true → i + j < n) :
    ∃ ps', pk.incrementAll bits i ps = .ok ps' ∧ Indexed n ps' := by
  induction bits generalizing i ps with
  | nil => exact ⟨ps, rfl, hps⟩
  | cons bit bits ih =>
    have htail : ∀ j : ℕ, bits[j]? = some true → i + 1 + j < n := by
      intro j hj
      have := h (j + 1) hj
      omega
    cases bit with
    | false =>
      obtain ⟨ps', hps', hindexed⟩ := ih hps htail
      exact ⟨ps', hps', hindexed⟩
    | true =>
      have hfirst := incrementPieceAvailability_of_lt hw hps (i := i) (h 0 rfl)
      obtain ⟨ps', hps', hindexed⟩ :=
        ih (hps.modify i fun p => u32 (p.availability + 1)) htail
      exact ⟨ps', bind_eq_ok.2 ⟨_, hfirst, hps'⟩, hindexed⟩

/-- A bit beyond the last piece has none. -/
theorem incrementAll_error (hw : pk.Whole n) (hps : Indexed n ps) {bits : List Bool} {i j : ℕ}
    (hj : bits[j]? = some true) (h : n ≤ i + j) :
    pk.incrementAll bits i ps = .error .outOfRange := by
  induction bits generalizing i j ps with
  | nil => cases hj
  | cons bit bits ih =>
    have hrest : ∀ ps', Indexed n ps' → j ≠ 0 → pk.incrementAll bits (i + 1) ps' = .error .outOfRange := by
      intro ps' hps' hne
      obtain ⟨k, rfl⟩ := Nat.exists_eq_succ_of_ne_zero hne
      exact ih hps' hj (by omega)
    rw [incrementAll]
    cases bit with
    | false =>
      apply hrest ps hps
      rintro rfl
      cases hj
    | true =>
      rw [if_pos rfl]
      by_cases hi : i < n
      · rw [incrementPieceAvailability_of_lt hw hps hi]
        apply hrest _ (hps.modify i fun p => u32 (p.availability + 1))
        rintro rfl
        omega
      · rw [incrementPieceAvailability_of_le hps (not_lt.1 hi)]
        rfl

/-- The sort finds a first piece. -/
theorem refresh_ok (hw : pk.Whole n) (hn : 0 < n) (ch : SortChoice) :
    ∃ pk', pk.refresh ch ps = .ok pk' := by
  unfold refresh
  split_ifs
  · have hlen : (ch.std.sort (availabilityOf ps) pk.pieces).length = n := by
      rw [((ch.std.perm (availabilityOf ps) pk.pieces).trans hw.pieces).length_eq, List.length_range]
    exact ⟨_, sortPieces_eq_ok.2 ⟨_, List.getElem?_eq_getElem (hlen ▸ hn), rfl⟩⟩
  · exact ⟨pk, rfl⟩

/-- Without pieces it does not. -/
theorem refresh_error (hw : pk.Whole 0) (hd : pk.dirty = true) (ch : SortChoice) :
    pk.refresh ch ps = .error .outOfRange := by
  have hlen : (ch.std.sort (availabilityOf ps) pk.pieces).length = 0 := by
    rw [((ch.std.perm (availabilityOf ps) pk.pieces).trans hw.pieces).length_eq, List.length_range]
  rw [refresh, if_pos hd, sortPieces, vectorAt_eq_error hlen.le]
  rfl

/-- A scan of pieces that exist asks only about pieces that exist. -/
theorem scan_ok (hps : Indexed n ps) {hasPiece : ℕ → Except Fault Bool}
    (hhas : ∀ i < n, ∃ b, hasPiece i = .ok b) {l : List ℕ} (hl : ∀ r ∈ l, r < n) (k : ℕ) :
    ∃ res, scan ps hasPiece l k = .ok res := by
  induction l generalizing k with
  | nil => exact ⟨none, rfl⟩
  | cons r rs ih =>
    have hlt : r < n := hl r List.mem_cons_self
    have ih := ih fun s hs => hl s (List.mem_cons_of_mem r hs)
    obtain ⟨q, hq, hindex⟩ := hps.exists_piece hlt
    obtain ⟨b, hb⟩ := hhas r hlt
    rw [scan, vectorAt_eq_ok.2 hq]
    simp only [bind, Except.bind, hindex, hb]
    split_ifs
    · exact ih k
    · exact ⟨some r, rfl⟩
    · exact ih (k - 1)
    · exact ih k

end RarestFirstPicker

namespace Client

variable {sha1 : List UInt8 → Hash} {m : Metainfo} {content : ℕ → UInt8} {c c' : Client} {p : ℕ}

theorem Sound.indexed (h : Sound m c) : Indexed m.pieces.length c.torrent.pieces :=
  ⟨length_pieces h.laidOut, fun _ _ hp => (h.laidOut.piece hp).2.1⟩

theorem refreshDownloadInterest_ok {q : Peer} (hq : c.peers[p]? = some q) :
    ∃ c', c.refreshDownloadInterest p = .ok c' := by
  unfold refreshDownloadInterest
  rw [vectorAt_eq_ok.2 hq]
  simp only [bind, Except.bind, pure, Except.pure]
  split_ifs
  · exact ⟨_, rfl⟩
  · exact ⟨_, rfl⟩
  · exact ⟨_, rfl⟩

/-- `next` returns, for a peer that exists, what it finds in the sorted picker. -/
theorem next_ok (h : Sound m c) {q : Peer} (hq : c.peers[p]? = some q) {ch : SortChoice}
    {pk : RarestFirstPicker} (hpk : c.picker.refresh ch c.torrent.pieces = .ok pk) (attempt : ℕ) :
    c.picker.next ch c.torrent.pieces q.hasPiece attempt =
      .ok (pk, (pk.candidates c.torrent.pieces q.hasPiece)[attempt]?) := by
  obtain ⟨hwhole, hclean⟩ := h.picker.refresh hpk
  have hhas : ∀ i < m.pieces.length, ∃ b, q.hasPiece i = .ok b := by
    intro i hi
    apply vectorAt_of_lt
    rwa [h.piecePresent hq]
  have hbuckets : ∀ r ∈ pk.availabilityBuckets.flatten, r < m.pieces.length := by
    intro r hr
    exact List.mem_range.1 ((hwhole.buckets hclean).mem_iff.1 hr)
  obtain ⟨res, hres⟩ := RarestFirstPicker.scan_ok h.indexed hhas hbuckets attempt
  have hnext : c.picker.next ch c.torrent.pieces q.hasPiece attempt = .ok (pk, res) :=
    bind_eq_ok.2 ⟨pk, hpk, bind_eq_ok.2 ⟨res, hres, rfl⟩⟩
  rw [hnext, (RarestFirstPicker.next_eq_ok hnext).2]

/-- With a piece to sort, `request_blocks` stays inside its containers. -/
theorem requestLoop_ok (h : Sound m c) (hn : 0 < m.pieces.length) (hp : (c.peerCore p).isSome)
    (ch : SortChoice) (fuel attempt : ℕ) : ∃ c', requestLoop ch p fuel attempt c = .ok c' := by
  induction fuel generalizing c attempt with
  | zero => exact ⟨c, rfl⟩
  | succ fuel ih =>
    obtain ⟨q, hq⟩ := exists_peer hp
    rw [requestLoop, vectorAt_eq_ok.2 hq]
    simp only [bind, Except.bind]
    split_ifs with hroom
    · obtain ⟨pk, hpk⟩ : ∃ pk, c.picker.refresh ch c.torrent.pieces = .ok pk :=
        RarestFirstPicker.refresh_ok h.picker hn ch
      rw [next_ok h hq hpk attempt]
      rcases (pk.candidates c.torrent.pieces q.hasPiece)[attempt]? with _ | r
      · exact ⟨_, rfl⟩
      · have hset := h.setPicker (h.picker.refresh hpk).1
        apply ih (hset.requestPiece p r)
        rwa [isSome_peerCore_requestPiece]
    · exact ⟨c, rfl⟩

/-! ### Handlers fail only by an access out of range -/

/-- The computation fails, if at all, by an access out of range. -/
def OnlyRange {α : Type} (x : Except Fault α) : Prop := ∀ f, x = .error f → f = .outOfRange

theorem onlyRange_ok {α : Type} (a : α) : OnlyRange (.ok a) := by
  intro f hf
  cases hf

theorem onlyRange_error {α : Type} : OnlyRange (.error .outOfRange : Except Fault α) := by
  intro f hf
  cases hf
  rfl

theorem onlyRange_vectorAt {α : Type} (v : List α) (i : ℕ) : OnlyRange (vectorAt v i) := by
  unfold vectorAt
  split
  · exact onlyRange_ok _
  · exact onlyRange_error

theorem OnlyRange.bind {α β : Type} {x : Except Fault α} {f : α → Except Fault β}
    (hx : OnlyRange x) (hf : ∀ a, OnlyRange (f a)) : OnlyRange (x >>= f) := by
  cases x with
  | error e =>
    intro e' he
    cases he
    exact hx e rfl
  | ok a => exact hf a

theorem onlyRange_increment (pk : RarestFirstPicker) (ps : List Piece) (i : ℕ) :
    OnlyRange (pk.incrementPieceAvailability ps i) := by
  unfold RarestFirstPicker.incrementPieceAvailability
  split
  · exact onlyRange_ok _
  · exact onlyRange_error

theorem onlyRange_incrementAll (pk : RarestFirstPicker) (bits : List Bool) (i : ℕ) (ps : List Piece) :
    OnlyRange (pk.incrementAll bits i ps) := by
  induction bits generalizing i ps with
  | nil => exact onlyRange_ok ps
  | cons bit bits ih =>
    apply OnlyRange.bind
    · split_ifs
      · exact onlyRange_increment pk ps i
      · exact onlyRange_ok ps
    · exact fun ps' => ih (i + 1) ps'

theorem onlyRange_next (pk : RarestFirstPicker) (ch : SortChoice) (ps : List Piece)
    (hasPiece : ℕ → Except Fault Bool) (hhas : ∀ i, OnlyRange (hasPiece i)) (k : ℕ) :
    OnlyRange (pk.next ch ps hasPiece k) := by
  have hscan : ∀ l k, OnlyRange (RarestFirstPicker.scan ps hasPiece l k) := by
    intro l
    induction l with
    | nil => exact fun _ => onlyRange_ok none
    | cons r rs ih =>
      intro k
      apply (onlyRange_vectorAt ps r).bind
      intro piece
      split_ifs
      · exact ih k
      · apply (hhas piece.index).bind
        intro b
        split_ifs
        · exact onlyRange_ok _
        · exact ih k
      · apply (hhas piece.index).bind
        intro b
        split_ifs
        · exact ih (k - 1)
        · exact ih k
  apply OnlyRange.bind
  · unfold RarestFirstPicker.refresh
    split_ifs
    · exact (onlyRange_vectorAt _ 0).bind fun _ => onlyRange_ok _
    · exact onlyRange_ok pk
  · exact fun pk' => (hscan _ k).bind fun _ => onlyRange_ok _

theorem onlyRange_requestLoop (ch : SortChoice) (p fuel attempt : ℕ) (c : Client) :
    OnlyRange (requestLoop ch p fuel attempt c) := by
  induction fuel generalizing attempt c with
  | zero => exact onlyRange_ok c
  | succ fuel ih =>
    apply (onlyRange_vectorAt c.peers p).bind
    intro q
    split_ifs
    · apply (onlyRange_next c.picker ch c.torrent.pieces q.hasPiece (onlyRange_vectorAt _) attempt).bind
      rintro ⟨pk, _ | r⟩
      · exact onlyRange_ok _
      · exact ih (attempt + 1) _
    · exact onlyRange_ok c

theorem onlyRange_refreshDownloadInterest (c : Client) (p : ℕ) :
    OnlyRange (c.refreshDownloadInterest p) := by
  apply (onlyRange_vectorAt c.peers p).bind
  intro q
  dsimp only
  split_ifs
  · exact onlyRange_ok _
  · exact onlyRange_ok _
  · exact onlyRange_ok _

theorem onlyRange_handleMessage (c : Client) (p : ℕ) (msg : Message) :
    OnlyRange (c.handleMessage p msg) := by
  cases msg with
  | haveMsg i =>
    apply OnlyRange.bind
    · apply (onlyRange_vectorAt _ p).bind
      intro q
      apply (onlyRange_vectorAt _ _).bind
      intro b
      apply OnlyRange.bind
      · exact (onlyRange_increment _ _ _).bind fun _ => onlyRange_ok _
      · exact fun _ => onlyRange_refreshDownloadInterest _ p
    · exact fun c₁ => (onlyRange_vectorAt _ p).bind fun _ => onlyRange_ok _
  | bitField bits =>
    apply OnlyRange.bind
    · apply (onlyRange_vectorAt _ p).bind
      intro q
      split_ifs
      · exact onlyRange_error
      · apply (onlyRange_refreshDownloadInterest _ p).bind
        intro c₁
        apply OnlyRange.bind
        · exact (onlyRange_incrementAll _ bits 0 _).bind fun _ => onlyRange_ok _
        · exact fun _ => onlyRange_ok _
    · exact fun _ => onlyRange_ok _
  | piece i o d =>
    apply OnlyRange.bind
    · apply (onlyRange_vectorAt _ _).bind
      intro r
      apply (onlyRange_vectorAt _ r).bind
      intro piece
      apply (onlyRange_vectorAt _ _).bind
      intro block
      apply OnlyRange.bind
      · apply (onlyRange_vectorAt _ _).bind
        intro piece'
        exact (onlyRange_vectorAt _ _).bind fun _ => onlyRange_ok _
      · exact fun _ => onlyRange_ok _
    · exact fun _ => onlyRange_ok _
  | keepAlive | choke | unchoke | interested | notInterested | request | cancel => exact onlyRange_ok _

theorem onlyRange_messageHandler (c : Client) (ch : SortChoice) (p : ℕ) (msg : Message) :
    OnlyRange (c.messageHandler ch p msg) := by
  apply (onlyRange_handleMessage c p msg).bind
  rintro ⟨c₁, _ | _⟩
  · exact onlyRange_ok c₁
  · exact onlyRange_requestLoop ch p _ 0 c₁

/-! ### A torrent without pieces -/

/-- Without pieces nothing is asked for and nothing sorted. -/
structure Idle (m : Metainfo) (c : Client) : Prop where
  sound : Sound m c
  dirty : m.pieces.length = 0 → c.picker.dirty = true
  queue : m.pieces.length = 0 → ∀ k, c.queueOf k = 0

namespace Idle

theorem init : Idle m (init m content) := ⟨.init, fun _ => rfl, fun _ _ => rfl⟩

theorem handleMessage (h : Idle m c) {msg : Message} {b : Bool}
    (hc : c.handleMessage p msg = .ok (c', b)) : Idle m c' := by
  have hsound := h.sound.handleMessage hc
  refine ⟨hsound, fun hn => ?_, fun hn k => ?_⟩
  · rcases picker_handleMessage hc with hpk | hpk
    · rw [hpk]
      exact h.dirty hn
    · rw [hpk]
  · have hpiece : p = k → ∀ i o d, msg ≠ .piece i o d := by
      rintro - i o d rfl
      obtain ⟨r, piece, -, -, -, hr, -⟩ :=
        pieceReceived_eq_ok (pieceReceived_of_handleMessage hc)
      have hlt := (h.sound.laidOut.piece hr).1
      omega
    rw [queueOf_handleMessage hc hpiece]
    exact h.queue hn k

theorem messageHandler (h : Idle m c) {ch : SortChoice} {msg : Message}
    (hc : c.messageHandler ch p msg = .ok c') : Idle m c' := by
  apply messageHandler_induction hc
  · exact fun c₁ b h₁ => h.handleMessage h₁
  · intro c pk hpk h
    refine ⟨h.sound.setPicker (h.sound.picker.refresh hpk).1, fun hn => ?_, h.queue⟩
    have hwhole := h.sound.picker
    rw [hn] at hwhole
    rw [RarestFirstPicker.refresh_error hwhole (h.dirty hn)] at hpk
    cases hpk
  · intro c r h _
    refine ⟨h.sound.requestPiece p r, fun hn => ?_, fun hn k => ?_⟩
    · rw [picker_requestPiece]
      exact h.dirty hn
    · rcases hr : c.torrent.pieces[r]? with _ | piece
      · rw [requestPiece_of_none hr]
        exact h.queue hn k
      · have hlt := (h.sound.laidOut.piece hr).1
        omega

theorem step (h : Idle m c) {ev : Event} (hs : c.step sha1 ev = .ok c') : Idle m c' := by
  have hsound := h.sound.step hs
  cases kind_of_step hs with
  | join => exact ⟨hsound, h.dirty, fun hn k => (queueOf_addPeer c k).trans (h.queue hn k)⟩
  | removal => exact ⟨hsound, h.dirty, h.queue⟩
  | absent => exact h
  | message ch p msg hp hmsg => exact h.messageHandler hmsg
  | background _ hb =>
    refine ⟨hsound, fun hn => ?_, fun hn k => ?_⟩
    · rw [hb.picker]
      exact h.dirty hn
    · rw [queueOf, hb.peers]
      exact h.queue hn k

theorem run {es : List Event} (hr : Run (StepOf (Client.step sha1)) (Client.init m content) es c) :
    Idle m c :=
  hr.invariant (fun _ _ _ h hs => h.step hs) init

end Idle

/-! ### The condition -/

/-- The piece at position `r` has a block for the offset. -/
def HasBlock (c : Client) (r : ℕ) (begin : UInt32) : Prop :=
  ∃ b, c.torrent.blockAt r (begin.toNat / Piece.nominalBlockSize) = some b

/-- The indices of the message are in range: for UNCHOKE, which has none, there is a piece to sort; for
PIECE, the block exists in the piece with the index and in the piece that the picker's lookup
finds. -/
def InRange (c : Client) : Message → Prop
  | .unchoke => 0 < c.torrent.pieces.length
  | .haveMsg index => index.toNat < c.torrent.pieces.length
  | .bitField bitfield => c.torrent.pieces.length ≤ bitfield.length ∧
      ∀ j : ℕ, bitfield[j]? = some true → j < c.torrent.pieces.length
  | .piece index begin _ => ∃ r, c.picker.getPiece index.toNat = .ok r ∧
      c.HasBlock r begin ∧ c.HasBlock index.toNat begin
  | _ => True

theorem Sound.note (h : Sound m c) (n : Note) : Sound m (c.note n) :=
  ⟨⟨h.laidOut.nominal, h.laidOut.shapes⟩, h.registered, h.nodup, h.peers, h.picker⟩

@[simp] theorem picker_modifyPeer (c : Client) (p : ℕ) (f : Peer → Peer) :
    (c.modifyPeer p f).picker = c.picker := rfl

@[simp] theorem torrent_modifyPeer (c : Client) (p : ℕ) (f : Peer → Peer) :
    (c.modifyPeer p f).torrent = c.torrent := rfl

theorem haveReceived_ok (h : Sound m c) {q : Peer} (hq : c.peers[p]? = some q) {i : UInt32}
    (hi : i.toNat < m.pieces.length) : ∃ c', c.haveReceived p i = .ok c' := by
  obtain ⟨b, hb⟩ := vectorAt_of_lt (v := q.piecePresent) (h.piecePresent hq ▸ hi)
  have hhave := RarestFirstPicker.onHave_eq_ok.2
    ⟨RarestFirstPicker.incrementPieceAvailability_of_lt h.picker h.indexed hi, rfl⟩
  simp only [haveReceived, vectorAt_eq_ok.2 hq, hb, bind, Except.bind, picker_modifyPeer,
    torrent_modifyPeer, hhave]
  apply refreshDownloadInterest_ok
  exact getElem?_modifyPeer hq _

theorem haveReceived_joined {i : UInt32} (hp : (c.peerCore p).isSome)
    (h : c.haveReceived p i = .ok c') : (c'.peerCore p).isSome := by
  obtain ⟨q, -, h⟩ := bind_eq_ok.1 h
  obtain ⟨x, -, h⟩ := bind_eq_ok.1 h
  obtain ⟨⟨pk, ps⟩, -, h⟩ := bind_eq_ok.1 h
  rw [peerCore_refreshDownloadInterest h]
  have hcore := peerCore_modifyPeer c p
    (f := fun q => { q with piecePresent := q.piecePresent.set i.toNat true })
    (g := fun q => { q with piecePresent := q.piecePresent.set i.toNat true }) (fun _ => rfl) p
  change (peerCore (c.modifyPeer p _) p).isSome
  rwa [hcore, Option.isSome_map]

theorem bitfieldReceived_ok (h : Sound m c) {q : Peer} (hq : c.peers[p]? = some q)
    {bits : List Bool} (hlen : m.pieces.length ≤ bits.length)
    (hbits : ∀ j : ℕ, bits[j]? = some true → j < m.pieces.length) :
    ∃ c', c.bitfieldReceived p bits = .ok c' := by
  obtain ⟨c₁, h₁⟩ := refreshDownloadInterest_ok (getElem?_modifyPeer hq fun q =>
    { q with piecePresent := List.zipWith (· || ·) q.piecePresent bits })
  have hrest := refreshDownloadInterest_rest h₁
  obtain ⟨ps, hps, -⟩ := RarestFirstPicker.incrementAll_ok (i := 0) h.picker h.indexed
    (fun j hj => by simpa using hbits j hj)
  have hbit : c₁.picker.onBitfield c₁.torrent.pieces bits = .ok ({ c₁.picker with dirty := true }, ps) := by
    apply RarestFirstPicker.onBitfield_eq_ok.2
    rw [hrest.1, hrest.2.1]
    exact ⟨hps, rfl⟩
  have hlong : ¬ bits.length < q.piecePresent.length := by
    rw [h.piecePresent hq]
    omega
  simp only [bitfieldReceived, vectorAt_eq_ok.2 hq, bind, Except.bind, if_neg hlong, h₁, hbit]
  exact ⟨_, rfl⟩

theorem pieceReceived_ok {i o : UInt32} (d : List UInt8) {r : ℕ}
    (hr : c.picker.getPiece i.toNat = .ok r) (hblock : c.HasBlock r o)
    (hblock' : c.HasBlock i.toNat o) : ∃ c', c.pieceReceived p i o d = .ok c' := by
  obtain ⟨b, hb⟩ := hblock
  obtain ⟨piece, hpiece, hb⟩ := Torrent.blockAt_eq_some.1 hb
  obtain ⟨b', hb'⟩ := hblock'
  obtain ⟨piece', hpiece', hb''⟩ := Torrent.blockAt_eq_some.1 hb'
  have hmodified : ∃ q x, (c.torrent.pieces.set r
      (piece.modifyBlock o.toNat (Block.setRequested · false)))[i.toNat]? = some q ∧
      q.blocks[o.toNat / Piece.nominalBlockSize]? = some x := by
    rw [getElem?_set_of_some hpiece]
    split_ifs with heq
    · refine ⟨_, b.setRequested false, rfl, ?_⟩
      simp [Piece.modifyBlock, hb]
    · exact ⟨piece', b', hpiece', hb''⟩
  obtain ⟨q, x, hq, hx⟩ := hmodified
  have hwrite : ∀ c₁ : Client, c₁.torrent.pieces = c.torrent.pieces.set r
      (piece.modifyBlock o.toNat (Block.setRequested · false)) →
      ∃ t, c₁.torrent.writeBlock i.toNat o.toNat d = .ok t := by
    intro c₁ hc₁
    exact ⟨_, Torrent.writeBlock_eq_ok.2 ⟨q, x, hc₁ ▸ hq, hx, rfl⟩⟩
  obtain ⟨t, ht⟩ := hwrite ((c.setPieces (c.torrent.pieces.set r
    (piece.modifyBlock o.toNat (Block.setRequested · false)))).modifyPeer p fun q =>
      { q with blocksInQueue := u32 (q.blocksInQueue + 2 ^ 32 - 1) }) rfl
  simp only [pieceReceived, hr, vectorAt_eq_ok.2 hpiece, Piece.getBlockByOffset_eq_ok.2 hb, bind,
    Except.bind, ht]
  exact ⟨_, rfl⟩

theorem handleMessage_ok (h : Sound m c) (hp : (c.peerCore p).isSome) {msg : Message}
    (hrange : c.InRange msg) :
    ∃ c₁ b, c.handleMessage p msg = .ok (c₁, b) ∧ (b = true → 0 < m.pieces.length) := by
  have hlen := length_pieces h.laidOut
  have hnote := h.note (.received p msg)
  obtain ⟨q, hq⟩ := exists_peer hp
  cases msg with
  | unchoke =>
    refine ⟨_, true, rfl, fun _ => ?_⟩
    rw [← hlen]
    exact hrange
  | haveMsg i =>
    have hi : i.toNat < c.torrent.pieces.length := hrange
    rw [hlen] at hi
    obtain ⟨c₁, h₁⟩ := haveReceived_ok hnote hq hi
    obtain ⟨q₁, hq₁⟩ := exists_peer (haveReceived_joined (c := c.note _) hp h₁)
    exact ⟨c₁, _, bind_eq_ok.2 ⟨c₁, h₁, bind_eq_ok.2 ⟨q₁, vectorAt_eq_ok.2 hq₁, rfl⟩⟩,
      fun _ => by omega⟩
  | bitField bits =>
    obtain ⟨hlong, hbits⟩ := hrange
    rw [hlen] at hlong hbits
    obtain ⟨c₁, h₁⟩ := bitfieldReceived_ok hnote hq hlong hbits
    exact ⟨c₁, false, bind_eq_ok.2 ⟨c₁, h₁, rfl⟩, fun hf => by cases hf⟩
  | piece i o d =>
    obtain ⟨r, hr, hblock, hblock'⟩ := hrange
    obtain ⟨c₁, h₁⟩ := pieceReceived_ok (c := c.note _) (p := p) d hr hblock hblock'
    refine ⟨c₁, true, bind_eq_ok.2 ⟨c₁, h₁, rfl⟩, fun _ => ?_⟩
    obtain ⟨b, hb⟩ := hblock
    obtain ⟨piece, hpiece, -⟩ := Torrent.blockAt_eq_some.1 hb
    have := (h.laidOut.piece hpiece).1
    omega
  | keepAlive | choke | interested | notInterested | request | cancel =>
    exact ⟨_, false, rfl, fun hf => by cases hf⟩

/-- With indices in range the handler returns. -/
theorem messageHandler_ok (h : Sound m c) (hp : (c.peerCore p).isSome) (ch : SortChoice)
    {msg : Message} (hrange : c.InRange msg) : ∃ c', c.messageHandler ch p msg = .ok c' := by
  obtain ⟨c₁, asks, h₁, hn⟩ := handleMessage_ok h hp hrange
  cases asks with
  | false => exact ⟨c₁, bind_eq_ok.2 ⟨_, h₁, rfl⟩⟩
  | true =>
    have hp₁ : (c₁.peerCore p).isSome := by rwa [isSome_peerCore_handleMessage h₁]
    obtain ⟨c', hc'⟩ := requestLoop_ok (h.handleMessage h₁) (hn rfl) hp₁ ch _ 0
    exact ⟨c', bind_eq_ok.2 ⟨_, h₁, hc'⟩⟩

/-- The first part of a handler returns only with indices in range. -/
theorem inRange_of_handleMessage (h : Sound m c) {msg : Message} {b : Bool}
    (h₁ : c.handleMessage p msg = .ok (c', b)) (hmsg : msg ≠ .unchoke) : c.InRange msg := by
  have hlen := length_pieces h.laidOut
  cases msg with
  | unchoke => exact absurd rfl hmsg
  | haveMsg i =>
    obtain ⟨q, -, hq, hlt, -⟩ := haveReceived_eq_ok (haveReceived_of_handleMessage h₁)
    rw [h.piecePresent hq, ← hlen] at hlt
    exact hlt
  | bitField bits =>
    obtain ⟨q, -, ps, hq, hlong, -, hall, -⟩ :=
      bitfieldReceived_eq_ok (bitfieldReceived_of_handleMessage h₁)
    rw [h.piecePresent hq, ← hlen] at hlong
    refine ⟨hlong, fun j hj => ?_⟩
    by_contra hout
    have herror := RarestFirstPicker.incrementAll_error (i := 0) h.picker h.indexed hj (by omega)
    cases hall.symm.trans herror
  | piece i o d =>
    obtain ⟨r, hr, hblock, hblock', -⟩ :=
      blockAt_pieceReceived (pieceReceived_of_handleMessage h₁)
    exact ⟨r, hr, hblock, hblock'⟩
  | keepAlive | choke | interested | notInterested | request | cancel => trivial

/-- A handler that returns has found its indices in range. -/
theorem inRange_of_ok (h : Idle m c) {ch : SortChoice} {msg : Message}
    (hc : c.messageHandler ch p msg = .ok c') : c.InRange msg := by
  obtain ⟨⟨c₁, asks⟩, h₁, hc⟩ := bind_eq_ok.1 hc
  by_cases hmsg : msg = .unchoke
  · subst hmsg
    by_contra hn
    have hn : m.pieces.length = 0 := by
      rw [← length_pieces h.sound.laidOut]
      exact Nat.eq_zero_of_not_pos hn
    have hidle := h.handleMessage h₁
    cases h₁
    obtain ⟨⟨q, hq⟩, -⟩ := requestBlocks_refreshed hc
    have hqueue := hidle.queue hn p
    rw [queueOf_of_getElem? hq] at hqueue
    obtain ⟨pk, hpk, -⟩ := requestLoop_refresh hq (by rw [hqueue]; decide) hc
    have hwhole := hidle.sound.picker
    rw [hn] at hwhole
    rw [RarestFirstPicker.refresh_error hwhole (hidle.dirty hn)] at hpk
    cases hpk
  · exact inRange_of_handleMessage h.sound h₁ hmsg

/-- In every state that the client can be in, the handler of a message from a registered peer makes no
access out of range exactly if the indices of the message are in range. -/
theorem inRange_iff {sha1 : List UInt8 → Hash} {m : Metainfo} {content : ℕ → UInt8}
    {es : List Event} {c : Client} (hr : Run (StepOf (step sha1)) (init m content) es c) {p : ℕ}
    (hp : p ∈ c.registered) (ch : SortChoice) (msg : Message) :
    c.messageHandler ch p msg ≠ .error .outOfRange ↔ c.InRange msg := by
  have hidle := Idle.run hr
  constructor
  · intro hsafe
    rcases hc : c.messageHandler ch p msg with f | c'
    · obtain rfl := onlyRange_messageHandler c ch p msg f hc
      exact absurd hc hsafe
    · exact inRange_of_ok hidle hc
  · intro hrange herror
    obtain ⟨c', hc'⟩ := messageHandler_ok hidle.sound (hidle.sound.registered p hp) ch hrange
    cases hc'.symm.trans herror

/-- A peer joins. -/
def joined : List Event := [.addPeer]

theorem inRange_joined : ∃ c : Client,
    Run (StepOf (step fun _ => Vector.replicate 20 0)) (init oneByte fun _ => 0) joined c ∧
      c.messageHandler ⟨.reverseTies, .still ℕ⟩ 0 (.haveMsg 0) ≠ .error .outOfRange := by
  have hr : Run (StepOf (step fun _ => Vector.replicate 20 0)) (init oneByte fun _ => 0) joined _ :=
    .cons rfl <| .nil _
  refine ⟨_, hr, (inRange_iff hr (p := 0) (by decide) ⟨.reverseTies, .still ℕ⟩ (.haveMsg 0)).2 ?_⟩
  unfold InRange
  decide

/-- HAVE for a piece that does not exist. -/
theorem not_inRange_joined :
    ¬ ∀ (sha1 : List UInt8 → Hash) (m : Metainfo) (content : ℕ → UInt8) (es : List Event)
      (c : Client) (p : ℕ) (ch : SortChoice) (msg : Message),
      Run (StepOf (step sha1)) (init m content) es c → p ∈ c.registered →
        c.messageHandler ch p msg ≠ .error .outOfRange := by
  intro h
  have hr : Run (StepOf (step fun _ => Vector.replicate 20 0)) (init oneByte fun _ => 0) joined _ :=
    .cons rfl <| .nil _
  exact h _ _ _ _ _ 0 ⟨.reverseTies, .still ℕ⟩ (.haveMsg 5) hr (by decide) rfl

end Client

end FTorrent
