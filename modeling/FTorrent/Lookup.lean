import FTorrent.Picker
import FTorrent.Lib.Run

/-!
# The lookup of a piece by its index

`get_piece` indexes the vector that `next` sorts.  From pieces in index order, the lookup stays right
throughout exactly those sequences of calls in which every sort finds availabilities that strictly
increase with the index: in any other case the standard allows a sort that moves a piece.
-/

namespace FTorrent

open Lib

/-- The pieces and a picker over them. -/
structure Picking where
  ps : List Piece
  picker : RarestFirstPicker

namespace Picking

/-- The calls of the picker's interface that change something. -/
inductive Event where
  | onHave (index : ℕ)
  | onBitfield (bitfield : List Bool)
  | next (hasPiece : ℕ → Bool) (attempt : ℕ)

def step (ch : SortChoice) (s : Picking) : Event → Except Fault Picking
  | .onHave i => do
    let (picker, ps) ← s.picker.onHave s.ps i
    return ⟨ps, picker⟩
  | .onBitfield bits => do
    let (picker, ps) ← s.picker.onBitfield s.ps bits
    return ⟨ps, picker⟩
  | .next hasPiece attempt => do
    let (picker, _) ← s.picker.next ch s.ps (fun i => .ok (hasPiece i)) attempt
    return ⟨s.ps, picker⟩

/-- A call with any result that the sort and the shuffles in it may have. -/
def Step (s : Picking) (e : Event) (t : Picking) : Prop := ∃ ch, s.step ch e = .ok t

def init (ps : List Piece) : Picking := ⟨ps, .create ps⟩

/-- `get_piece(i)` is the piece whose index is `i`, for every index. -/
def LookupRight (s : Picking) : Prop :=
  ∀ i < s.ps.length, ∃ r p, s.picker.getPiece i = .ok r ∧ s.ps[r]? = some p ∧ p.index = i

/-- If the call sorts, it finds availabilities that strictly increase with the index. -/
def Ascending (s : Picking) : Event → Prop
  | .next _ _ => s.picker.dirty = true →
      ∀ i j, i < j → j < s.ps.length → availabilityOf s.ps i < availabilityOf s.ps j
  | _ => True

/-- The picker's vector is in index order. -/
structure InOrder (s : Picking) : Prop where
  pieces : s.picker.pieces = List.range s.ps.length
  index : ∀ (i : ℕ) (p : Piece), s.ps[i]? = some p → p.index = i

/-! ### The lookup and the order of the vector -/

theorem InOrder.lookupRight {s : Picking} (h : InOrder s) : LookupRight s := by
  intro i hi
  refine ⟨i, s.ps[i], ?_, List.getElem?_eq_getElem hi, ?_⟩
  · rw [RarestFirstPicker.getPiece, vectorAt_eq_ok, h.pieces]
    simp [hi]
  · exact h.index i _ (List.getElem?_eq_getElem hi)

/-- Only the index order makes every lookup right. -/
theorem LookupRight.pieces_eq {s : Picking} (h : LookupRight s)
    (hidx : ∀ (i : ℕ) (p : Piece), s.ps[i]? = some p → p.index = i)
    (hlen : s.picker.pieces.length = s.ps.length) : s.picker.pieces = List.range s.ps.length := by
  apply List.ext_getElem (by simpa using hlen)
  intro i hi hi'
  obtain ⟨r, p, hr, hp, rfl⟩ := h i (by omega)
  rw [RarestFirstPicker.getPiece, vectorAt_eq_ok] at hr
  obtain rfl := hidx r p hp
  rw [List.getElem_range]
  exact (List.getElem?_eq_some_iff.1 hr).2

/-- The condition on the availabilities, as the sort meets it. -/
theorem pairwise_availability_iff {ps : List Piece} :
    (List.range ps.length).Pairwise (fun i j => availabilityOf ps i < availabilityOf ps j) ↔
      ∀ i j, i < j → j < ps.length → availabilityOf ps i < availabilityOf ps j := by
  rw [List.pairwise_iff_getElem]
  constructor
  · intro h i j hij hj
    have := h i j (by simp; omega) (by simpa using hj) hij
    rwa [List.getElem_range, List.getElem_range] at this
  · intro h i j hi hj hij
    rw [List.getElem_range, List.getElem_range]
    exact h i j hij (by simpa using hj)

/-- A change of an availability keeps indices and length. -/
theorem index_modify {ps : List Piece} {n : ℕ} (r : ℕ) (a : Piece → ℕ)
    (h : ps.length = n ∧ ∀ (i : ℕ) (p : Piece), ps[i]? = some p → p.index = i) :
    (ps.modify r fun p => p.setAvailability (a p)).length = n ∧
      ∀ (i : ℕ) (p : Piece), (ps.modify r fun p => p.setAvailability (a p))[i]? = some p →
        p.index = i := by
  refine ⟨by simpa using h.1, fun i p hp => ?_⟩
  rw [List.getElem?_modify] at hp
  obtain ⟨q, hq, rfl⟩ := Option.map_eq_some_iff.1 hp
  have := h.2 i q hq
  split_ifs
  · exact this
  · exact this

/-- A scan succeeds for a peer that answers every question. -/
theorem scan_total {ps : List Piece} (hasPiece : ℕ → Bool) {l : List ℕ} (k : ℕ)
    (hl : ∀ r ∈ l, r < ps.length) :
    ∃ res, RarestFirstPicker.scan ps (fun i => .ok (hasPiece i)) l k = .ok res := by
  induction l generalizing k with
  | nil => exact ⟨none, rfl⟩
  | cons r rs ih =>
    have hlt : r < ps.length := hl r List.mem_cons_self
    have hr : vectorAt ps r = .ok ps[r] := vectorAt_eq_ok.2 (List.getElem?_eq_getElem hlt)
    have ih := fun k => ih k fun r' hr' => hl r' (List.mem_cons_of_mem r hr')
    simp only [RarestFirstPicker.scan, hr, bind, Except.bind]
    split_ifs
    · exact ih k
    · exact ⟨some r, rfl⟩
    · exact ih (k - 1)
    · exact ih k

/-- `next` succeeds for such a peer once the sort has. -/
theorem next_total {ps : List Piece} {pk pk' : RarestFirstPicker} {ch : SortChoice}
    (hasPiece : ℕ → Bool) (k : ℕ) (hpk : pk.refresh ch ps = .ok pk')
    (hbuckets : ∀ r ∈ pk'.availabilityBuckets.flatten, r < ps.length) :
    ∃ res, pk.next ch ps (fun i => .ok (hasPiece i)) k = .ok (pk', res) := by
  obtain ⟨res, hres⟩ := scan_total hasPiece k hbuckets
  exact ⟨res, bind_eq_ok.2 ⟨pk', hpk, bind_eq_ok.2 ⟨res, hres, rfl⟩⟩⟩

/-! ### One call -/

theorem map_index_modify (ps : List Piece) (r : ℕ) (a : Piece → ℕ) :
    (ps.modify r fun p => p.setAvailability (a p)).map Piece.index = ps.map Piece.index := by
  apply List.ext_getElem?
  intro i
  rw [List.getElem?_map, List.getElem?_map, List.getElem?_modify]
  rcases ps[i]? with _ | p
  · rfl
  · split_ifs <;> rfl

/-- A call changes availabilities and makes the picker dirty, or it refreshes the picker. -/
theorem step_cases {s t : Picking} {ch : SortChoice} {e : Event} (hs : s.step ch e = .ok t) :
    (t.picker = { s.picker with dirty := true } ∧ t.ps.map Piece.index = s.ps.map Piece.index) ∨
      ((∃ hasPiece k, e = .next hasPiece k) ∧ t.ps = s.ps ∧
        s.picker.refresh ch s.ps = .ok t.picker) := by
  cases e with
  | onHave i =>
    obtain ⟨⟨picker, ps⟩, h₁, h₂⟩ := bind_eq_ok.1 hs
    cases h₂
    obtain ⟨hps, rfl⟩ := RarestFirstPicker.onHave_eq_ok.1 h₁
    obtain ⟨r, rfl⟩ := RarestFirstPicker.incrementPieceAvailability_eq_ok hps
    exact .inl ⟨rfl, map_index_modify s.ps r _⟩
  | onBitfield bits =>
    obtain ⟨⟨picker, ps⟩, h₁, h₂⟩ := bind_eq_ok.1 hs
    cases h₂
    obtain ⟨hps, rfl⟩ := RarestFirstPicker.onBitfield_eq_ok.1 h₁
    refine .inl ⟨rfl, ?_⟩
    exact RarestFirstPicker.incrementAll_induction
      (P := fun ps => ps.map Piece.index = s.ps.map Piece.index)
      (fun ps r a hp => (map_index_modify ps r a).trans hp) hps rfl
  | next hasPiece k =>
    obtain ⟨⟨picker, res⟩, h₁, h₂⟩ := bind_eq_ok.1 hs
    cases h₂
    exact .inr ⟨⟨hasPiece, k, rfl⟩, rfl, (RarestFirstPicker.next_eq_ok h₁).1⟩

namespace InOrder

variable {s t : Picking}

/-- A message changes availabilities only. -/
theorem of_message (h : InOrder s) (hpk : t.picker.pieces = s.picker.pieces)
    (hps : t.ps.map Piece.index = s.ps.map Piece.index) : InOrder t := by
  have hlen : t.ps.length = s.ps.length := by simpa using congrArg List.length hps
  refine ⟨by rw [hpk, h.pieces, hlen], fun i p hp => ?_⟩
  have hi := congrArg (·[i]?) hps
  rw [List.getElem?_map, List.getElem?_map, hp] at hi
  obtain ⟨q, hq, hindex⟩ := Option.map_eq_some_iff.1 hi.symm
  exact hindex.symm.trans (h.index i q hq)

theorem step (h : InOrder s) {ch : SortChoice} {e : Event} (hs : s.step ch e = .ok t)
    (hC : s.Ascending e) : InOrder t := by
  obtain ⟨hpk, hps⟩ | ⟨⟨hasPiece, k, rfl⟩, hps, hpk⟩ := step_cases hs
  · exact h.of_message (by rw [hpk]) hps
  · unfold RarestFirstPicker.refresh at hpk
    split_ifs at hpk with hd
    · obtain ⟨first, -, hpk⟩ := RarestFirstPicker.sortPieces_eq_ok.1 hpk
      refine ⟨?_, hps ▸ h.index⟩
      rw [hpk, hps]
      change ch.std.sort (availabilityOf s.ps) s.picker.pieces = _
      rw [h.pieces]
      exact ch.std.sort_eq_self (pairwise_availability_iff.2 (hC hd))
    · exact h.of_message (by rw [← Except.ok.inj hpk]) (by rw [hps])

/-- A dirty picker can sort with `reverseTies`, and the call of `next` then succeeds. -/
theorem next_reverseTies (h : InOrder s) (hd : s.picker.dirty = true)
    (hpos : 0 < s.picker.pieces.length) (hasPiece : ℕ → Bool) (k : ℕ) :
    ∃ pk' res,
      pk'.pieces = UnstableSort.reverseTies.sort (availabilityOf s.ps) s.picker.pieces ∧
      s.picker.next ⟨.reverseTies, .still ℕ⟩ s.ps (fun i => .ok (hasPiece i)) k = .ok (pk', res) := by
  have hperm := UnstableSort.reverseTies.perm (availabilityOf s.ps) s.picker.pieces
  have hlen : 0 < (UnstableSort.reverseTies.sort (availabilityOf s.ps) s.picker.pieces).length := by
    rwa [hperm.length_eq]
  obtain ⟨pk', hsort⟩ : ∃ pk', s.picker.sortPieces ⟨.reverseTies, .still ℕ⟩ s.ps = .ok pk' :=
    ⟨_, RarestFirstPicker.sortPieces_eq_ok.2 ⟨_, List.getElem?_eq_getElem hlen, rfl⟩⟩
  obtain ⟨first, -, rfl⟩ := RarestFirstPicker.sortPieces_eq_ok.1 hsort
  obtain ⟨res, hres⟩ := next_total hasPiece k ((if_pos hd).trans hsort) fun r hr => by
    have hmem := ((RarestFirstPicker.flatten_fillBuckets _ _ _ _ _).trans hperm).mem_iff.1 hr
    rw [h.pieces, List.mem_range] at hmem
    exact hmem
  exact ⟨_, res, rfl, hres⟩

/-- If the availabilities do not strictly increase, the sort can put equal ones in decreasing order,
and then some lookup is wrong. -/
theorem exists_not_lookupRight (h : InOrder s) {e : Event} (hs : Step s e t)
    (hC : ¬ s.Ascending e) : ∃ t', Step s e t' ∧ ¬ LookupRight t' := by
  cases e with
  | onHave i => exact absurd trivial hC
  | onBitfield bits => exact absurd trivial hC
  | next hasPiece k =>
    obtain ⟨hd, hasc⟩ := Classical.not_imp.1 hC
    obtain ⟨ch, hs⟩ := hs
    obtain ⟨⟨picker, res⟩, h₁, -⟩ := bind_eq_ok.1 hs
    have hpk := (RarestFirstPicker.next_eq_ok h₁).1
    rw [RarestFirstPicker.refresh, if_pos hd] at hpk
    obtain ⟨first, hfirst, -⟩ := RarestFirstPicker.sortPieces_eq_ok.1 hpk
    have hpos : 0 < s.picker.pieces.length := by
      rw [← (ch.std.perm (availabilityOf s.ps) s.picker.pieces).length_eq]
      exact (List.getElem?_eq_some_iff.1 hfirst).1
    obtain ⟨pk', res', hpieces, hres⟩ := h.next_reverseTies hd hpos hasPiece k
    refine ⟨⟨s.ps, pk'⟩, ⟨⟨.reverseTies, .still ℕ⟩, ?_⟩, fun hright => hasc ?_⟩
    · exact bind_eq_ok.2 ⟨(pk', res'), hres, rfl⟩
    · have hlength : pk'.pieces.length = s.ps.length := by
        rw [hpieces, (UnstableSort.perm _ _ _).length_eq, h.pieces, List.length_range]
      have heq := hright.pieces_eq h.index hlength
      rw [hpieces, h.pieces] at heq
      exact pairwise_availability_iff.1
        ((UnstableSort.reverseTies_sort_eq_iff List.pairwise_lt_range).1 heq)

end InOrder

theorem inOrder_init {ps : List Piece} (hidx : ∀ (i : ℕ) (p : Piece), ps[i]? = some p → p.index = i) :
    InOrder (init ps) :=
  ⟨rfl, hidx⟩

/-- From pieces in index order, `get_piece(i)` is the piece with index `i` throughout exactly those
sequences of calls in which every sort finds availabilities that strictly increase with the
index. -/
theorem getPiece_index_iff {ps : List Piece}
    (hidx : ∀ (i : ℕ) (p : Piece), ps[i]? = some p → p.index = i) (es : List Event) :
    Always Step LookupRight (init ps) es ↔ Each Step Ascending (init ps) es :=
  always_iff_each (fun _ h => h.lookupRight) (fun _ _ _ h ⟨_, hs⟩ hC => h.step hs hC)
    (fun _ _ _ h hs hC => h.exists_not_lookupRight hs hC) (inOrder_init hidx)

/-- Two pieces of one byte. -/
def twoPieces : List Piece := [.make 0 (Vector.replicate 20 0) 1, .make 1 (Vector.replicate 20 0) 1]

theorem index_twoPieces : ∀ (i : ℕ) (p : Piece), twoPieces[i]? = some p → p.index = i := by
  intro i p hp
  match i with
  | 0 => exact Option.some.inj hp ▸ rfl
  | 1 => exact Option.some.inj hp ▸ rfl
  | i + 2 => simp [twoPieces] at hp

/-- One peer has the second piece, and a `next` call sorts. -/
def haveSecond : List Event := [.onHave 1, .next (fun i => i == 1) 0]

theorem getPiece_index_haveSecond : Always Step LookupRight (init twoPieces) haveSecond := by
  refine (getPiece_index_iff index_twoPieces haveSecond).2 ?_
  rintro t ⟨ch, hs⟩
  refine ⟨trivial, ?_⟩
  cases hs
  rintro u -
  refine ⟨fun _ i j hij hj => ?_, trivial⟩
  obtain ⟨rfl, rfl⟩ : i = 0 ∧ j = 1 := by
    have : j < 2 := hj
    omega
  decide

/-- The first piece becomes the more available one, so the sort swaps the two. -/
def haveFirst : List Event := [.onHave 0, .next (fun i => i == 0) 0]

theorem getPiece_wrong_piece :
    ¬ ∀ ps : List Piece, ps ≠ [] → (∀ (i : ℕ) (p : Piece), ps[i]? = some p → p.index = i) →
      ∀ es, Always Step LookupRight (init ps) es := by
  intro h
  have hend := (h twoPieces (by decide) index_twoPieces haveFirst).of_run
    (.cons ⟨⟨.reverseTies, .still ℕ⟩, rfl⟩ (.single ⟨⟨.reverseTies, .still ℕ⟩, rfl⟩))
  obtain ⟨r, p, hr, hp, hi⟩ := hend 0 (by decide)
  cases hr
  cases hp
  revert hi
  decide

end Picking

end FTorrent
