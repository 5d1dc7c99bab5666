import FTorrent.Layout
import FTorrent.Lib.Sorting

/-!
# The rarest-first picker

The picker holds pointers to the pieces of the torrent; a pointer is the position of the piece in
the list `ps` of all pieces.  `getPiece` reads the picker's own vector by position, while `next`
sorts that vector by availability whenever a message has changed an availability.  `std::sort` and
`std::random_shuffle` do not determine their results, so `next` takes a `SortChoice`.

The lookup by position finds the right piece as long as every sort leaves the vector alone, which it
is bound to do only when the availabilities strictly increase with the index
(`getPiece_index_iff`).
-/

namespace FTorrent

open Lib

/-- What the calls of `std::sort` and `std::random_shuffle` in one call of `next` do. -/
structure SortChoice where
  std : UnstableSort ℕ
  shuffle : Shuffle ℕ

/-- `PiecePicker` and `RarestFirstPicker`. -/
structure RarestFirstPicker where
  pieces : List ℕ
  pieceBitfield : List Bool
  availabilityBuckets : List (List ℕ) := []
  dirty : Bool := true

/-- `get_availability` behind a pointer. -/
def availabilityOf (ps : List Piece) (r : ℕ) : ℕ := (ps[r]?.map (·.availability)).getD 0

namespace RarestFirstPicker

/-- The constructor: a piece without blocks is complete from the start. -/
def create (ps : List Piece) : RarestFirstPicker where
  pieces := List.range ps.length
  pieceBitfield := ps.foldl (fun bits p => if p.complete then bits.set p.index true else bits)
    (List.replicate ps.length false)

def getHaveBitfield (pk : RarestFirstPicker) : List Bool := pk.pieceBitfield

def pieceVerified (pk : RarestFirstPicker) (index : ℕ) : RarestFirstPicker :=
  { pk with pieceBitfield := pk.pieceBitfield.set index true }

/-- `get_piece`: the pointer at position `index`. -/
def getPiece (pk : RarestFirstPicker) (index : ℕ) : Except Fault ℕ := vectorAt pk.pieces index

/-- `increment_piece_availability`: the piece is found by its index; dereferencing `end()` is
undefined. -/
def incrementPieceAvailability (pk : RarestFirstPicker) (ps : List Piece) (index : ℕ) :
    Except Fault (List Piece) :=
  match pk.pieces.find? fun r => ps[r]?.any (·.index == index) with
  | some r => .ok (ps.modify r fun p => p.setAvailability (u32 (p.availability + 1)))
  | none => .error .outOfRange

def onHave (pk : RarestFirstPicker) (ps : List Piece) (index : ℕ) :
    Except Fault (RarestFirstPicker × List Piece) := do
  let ps ← pk.incrementPieceAvailability ps index
  return ({ pk with dirty := true }, ps)

/-- The loop of `on_bitfield` from position `i` on. -/
def incrementAll (pk : RarestFirstPicker) : List Bool → ℕ → List Piece → Except Fault (List Piece)
  | [], _, ps => .ok ps
  | bit :: bits, i, ps => do
    let ps ← (if bit then pk.incrementPieceAvailability ps i else .ok ps)
    pk.incrementAll bits (i + 1) ps

def onBitfield (pk : RarestFirstPicker) (ps : List Piece) (bitfield : List Bool) :
    Except Fault (RarestFirstPicker × List Piece) := do
  let ps ← pk.incrementAll bitfield 0 ps
  return ({ pk with dirty := true }, ps)

/-- The loop of `sort_pieces`: `bucket` collects pieces of the availability `a`.  Every bucket but
the last is shuffled. -/
def fillBuckets (sh : Shuffle ℕ) (ps : List Piece) : List ℕ → List ℕ → ℕ → List (List ℕ)
  | [], bucket, _ => [bucket]
  | r :: rs, bucket, a =>
    if availabilityOf ps r ≠ a then
      sh.shuffle bucket :: fillBuckets sh ps rs [r] (availabilityOf ps r)
    else fillBuckets sh ps rs (bucket ++ [r]) a

/-- `sort_pieces`. -/
def sortPieces (pk : RarestFirstPicker) (ch : SortChoice) (ps : List Piece) :
    Except Fault RarestFirstPicker := do
  let pieces := ch.std.sort (availabilityOf ps) pk.pieces
  let first ← vectorAt pieces 0
  return { pk with
    pieces
    availabilityBuckets := fillBuckets ch.shuffle ps pieces [] (availabilityOf ps first)
    dirty := false }

/-- The loops of `next` over the buckets, one after the other. -/
def scan (ps : List Piece) (hasPiece : ℕ → Except Fault Bool) :
    List ℕ → ℕ → Except Fault (Option ℕ)
  | [], _ => .ok none
  | r :: rs, attempt => do
    let piece ← vectorAt ps r
    if piece.availability = 0 ∨ piece.complete then scan ps hasPiece rs attempt
    else if ← hasPiece piece.index then
      if attempt = 0 then return some r else scan ps hasPiece rs (attempt - 1)
    else scan ps hasPiece rs attempt

/-- The sort that `next` begins with if the picker is dirty. -/
def refresh (pk : RarestFirstPicker) (ch : SortChoice) (ps : List Piece) :
    Except Fault RarestFirstPicker :=
  if pk.dirty then pk.sortPieces ch ps else .ok pk

/-- `next`: the candidate number `attempt` for the peer that `hasPiece` describes. -/
def next (pk : RarestFirstPicker) (ch : SortChoice) (ps : List Piece)
    (hasPiece : ℕ → Except Fault Bool) (attempt : ℕ) :
    Except Fault (RarestFirstPicker × Option ℕ) := do
  let pk ← pk.refresh ch ps
  let r ← scan ps hasPiece pk.availabilityBuckets.flatten attempt
  return (pk, r)

/-! ### What each operation does -/

/-- What `incrementPieceAvailability` does to the pieces: the availability of one of them moves. -/
theorem incrementPieceAvailability_eq_ok {pk : RarestFirstPicker} {ps ps' : List Piece} {i : ℕ}
    (h : pk.incrementPieceAvailability ps i = .ok ps') :
    ∃ r, ps' = ps.modify r fun p => p.setAvailability (u32 (p.availability + 1)) := by
  unfold incrementPieceAvailability at h
  split at h
  · next r _ => exact ⟨r, (Except.ok.inj h).symm⟩
  · cases h

/-- A property of the list of pieces that no change of an availability breaks. -/
theorem incrementAll_induction {pk : RarestFirstPicker} {P : List Piece → Prop}
    (hP : ∀ (ps : List Piece) (r : ℕ) (a : Piece → ℕ), P ps →
      P (ps.modify r fun p => p.setAvailability (a p))) {bits : List Bool}
    {i : ℕ} {ps ps' : List Piece} (h : pk.incrementAll bits i ps = .ok ps') (h0 : P ps) : P ps' := by
  induction bits generalizing i ps with
  | nil => exact Except.ok.inj h ▸ h0
  | cons bit bits ih =>
    obtain ⟨ps₁, h₁, h₂⟩ := bind_eq_ok.1 h
    refine ih h₂ ?_
    cases bit with
    | false => exact Except.ok.inj h₁ ▸ h0
    | true =>
      obtain ⟨r, rfl⟩ := incrementPieceAvailability_eq_ok h₁
      exact hP ps r _ h0

theorem onHave_eq_ok {pk pk' : RarestFirstPicker} {ps ps' : List Piece} {i : ℕ} :
    pk.onHave ps i = .ok (pk', ps') ↔
      pk.incrementPieceAvailability ps i = .ok ps' ∧ pk' = { pk with dirty := true } := by
  simp only [onHave, bind_eq_ok, pure, Except.pure, Except.ok.injEq, Prod.mk.injEq]
  constructor
  · rintro ⟨_, h, rfl, rfl⟩
    exact ⟨h, rfl⟩
  · rintro ⟨h, rfl⟩
    exact ⟨_, h, rfl, rfl⟩

theorem onBitfield_eq_ok {pk pk' : RarestFirstPicker} {ps ps' : List Piece} {bits : List Bool} :
    pk.onBitfield ps bits = .ok (pk', ps') ↔
      pk.incrementAll bits 0 ps = .ok ps' ∧ pk' = { pk with dirty := true } := by
  simp only [onBitfield, bind_eq_ok, pure, Except.pure, Except.ok.injEq, Prod.mk.injEq]
  constructor
  · rintro ⟨_, h, rfl, rfl⟩
    exact ⟨h, rfl⟩
  · rintro ⟨h, rfl⟩
    exact ⟨_, h, rfl, rfl⟩

theorem sortPieces_eq_ok {pk pk' : RarestFirstPicker} {ch : SortChoice} {ps : List Piece} :
    pk.sortPieces ch ps = .ok pk' ↔ ∃ first,
      (ch.std.sort (availabilityOf ps) pk.pieces)[0]? = some first ∧
        pk' = { pk with
          pieces := ch.std.sort (availabilityOf ps) pk.pieces
          availabilityBuckets := fillBuckets ch.shuffle ps
            (ch.std.sort (availabilityOf ps) pk.pieces) [] (availabilityOf ps first)
          dirty := false } := by
  simp only [sortPieces, bind_eq_ok, vectorAt_eq_ok, pure, Except.pure, Except.ok.injEq]
  refine exists_congr fun first => and_congr_right fun _ => ?_
  exact eq_comm

/-- The buckets hold the sorted pieces, arranged anew. -/
theorem flatten_fillBuckets (sh : Shuffle ℕ) (ps : List Piece) (rs bucket : List ℕ) (a : ℕ) :
    (fillBuckets sh ps rs bucket a).flatten.Perm (bucket ++ rs) := by
  induction rs generalizing bucket a with
  | nil => simp [fillBuckets]
  | cons r rs ih =>
    unfold fillBuckets
    split_ifs
    · rw [List.flatten_cons]
      exact (sh.perm bucket).append (ih [r] _)
    · simpa using ih (bucket ++ [r]) a

/-- A pointer `next` can return to a peer: the piece is available, not complete, and the peer has
it. -/
def candidate (ps : List Piece) (hasPiece : ℕ → Except Fault Bool) (r : ℕ) : Bool :=
  match ps[r]? with
  | some p => p.availability != 0 && !p.complete &&
    match hasPiece p.index with
    | .ok b => b
    | .error _ => false
  | none => false

/-- The candidates in the order in which `next` counts them. -/
def candidates (pk : RarestFirstPicker) (ps : List Piece) (hasPiece : ℕ → Except Fault Bool) :
    List ℕ :=
  pk.availabilityBuckets.flatten.filter (candidate ps hasPiece)

theorem scan_eq_ok {ps : List Piece} {hasPiece : ℕ → Except Fault Bool} {l : List ℕ} {k : ℕ}
    {res : Option ℕ} (h : scan ps hasPiece l k = .ok res) :
    res = (l.filter (candidate ps hasPiece))[k]? := by
  induction l generalizing k with
  | nil => exact (Except.ok.inj h).symm
  | cons r rs ih =>
    obtain ⟨p, hp, h⟩ := bind_eq_ok.1 h
    rw [vectorAt_eq_ok] at hp
    by_cases hskip : p.availability = 0 ∨ p.complete = true
    · rw [if_pos hskip] at h
      rw [List.filter_cons_of_neg]
      · exact ih h
      · rcases hskip with h0 | h0 <;> simp [candidate, hp, h0]
    · rw [if_neg hskip] at h
      obtain ⟨b, hb, h⟩ := bind_eq_ok.1 h
      have hc : candidate ps hasPiece r = b := by
        rw [not_or] at hskip
        simp [candidate, hp, hb, hskip.1, hskip.2]
      cases b with
      | false =>
        rw [List.filter_cons_of_neg (by rw [hc]; decide)]
        exact ih h
      | true =>
        rw [List.filter_cons_of_pos hc]
        cases k with
        | zero => exact (Except.ok.inj h).symm
        | succ k => exact ih h

/-- `next` returns the candidate number `k` of the refreshed picker. -/
theorem next_eq_ok {pk pk' : RarestFirstPicker} {ch : SortChoice} {ps : List Piece}
    {hasPiece : ℕ → Except Fault Bool} {k : ℕ} {res : Option ℕ}
    (h : pk.next ch ps hasPiece k = .ok (pk', res)) :
    pk.refresh ch ps = .ok pk' ∧ res = (pk'.candidates ps hasPiece)[k]? := by
  obtain ⟨pk₁, h₁, h⟩ := bind_eq_ok.1 h
  obtain ⟨r, hr, h⟩ := bind_eq_ok.1 h
  cases h
  exact ⟨h₁, scan_eq_ok hr⟩

end RarestFirstPicker

end FTorrent
