import FTorrent.Range

/-!
# The order in which `next` returns the pieces

The buckets that `next` goes through are those of the last sort, and every change of an availability
has the next call sort again.  With no change in between, the calls `next(p, 0)`, `next(p, 1)`, …
therefore return every piece that is available, not complete and had by the peer, each once and the
rarest first, and null after them (`next_enumerates`).
-/

namespace FTorrent

open Lib

/-- The peer has the piece, it is not complete, and it is available. -/
def Piece.wantedBy (hasPiece : ℕ → Bool) (p : Piece) : Bool :=
  !p.complete && hasPiece p.index && decide (0 < p.availability)

/-- What a completion of a block and a reset leave alone. -/
def Piece.standing (p : Piece) : ℕ × ℕ := (p.index, p.availability)

theorem availabilityOf_congr {ps qs : List Piece} (h : ps.map Piece.standing = qs.map Piece.standing)
    (r : ℕ) : availabilityOf ps r = availabilityOf qs r := by
  have hr := congrArg (fun l => (l[r]?.map Prod.snd).getD 0) h
  simpa [List.getElem?_map, Option.map_map, Function.comp_def, Piece.standing, availabilityOf] using hr

namespace RarestFirstPicker

variable {ps : List Piece} {pk pk' : RarestFirstPicker} {n : ℕ}

/-- The buckets that are filled from a sorted vector are sorted. -/
theorem sorted_fillBuckets (sh : Shuffle ℕ) {rs bucket : List ℕ} {a : ℕ}
    (hbucket : ∀ r ∈ bucket, availabilityOf ps r = a) (ha : ∀ r ∈ rs, a ≤ availabilityOf ps r)
    (hrs : rs.Pairwise fun r s => availabilityOf ps r ≤ availabilityOf ps s) :
    (fillBuckets sh ps rs bucket a).flatten.Pairwise fun r s =>
      availabilityOf ps r ≤ availabilityOf ps s := by
  induction rs generalizing bucket a with
  | nil =>
    simp only [fillBuckets, List.flatten_cons, List.flatten_nil, List.append_nil]
    apply List.pairwise_of_forall_mem_list
    intro r hr s hs
    rw [hbucket r hr, hbucket s hs]
  | cons r rs ih =>
    obtain ⟨hr, hrs⟩ := List.pairwise_cons.1 hrs
    unfold fillBuckets
    split_ifs with hne
    · rw [List.flatten_cons, List.pairwise_append]
      refine ⟨?_, ih (by simp) hr hrs, ?_⟩
      · apply List.pairwise_of_forall_mem_list
        intro s hs t ht
        rw [hbucket s ((sh.perm bucket).mem_iff.1 hs), hbucket t ((sh.perm bucket).mem_iff.1 ht)]
      · intro s hs t ht
        rw [hbucket s ((sh.perm bucket).mem_iff.1 hs)]
        have ht' := (flatten_fillBuckets sh ps rs [r] _).mem_iff.1 ht
        exact ha t (by simpa using ht')
    · apply ih
      · intro s hs
        rcases List.mem_append.1 hs with hs | hs
        · exact hbucket s hs
        · rw [List.mem_singleton.1 hs]
          exact not_not.1 hne
      · exact fun s hs => ha s (List.mem_cons_of_mem r hs)
      · exact hrs

/-- A refresh leaves sorted buckets. -/
theorem sorted_refresh {ch : SortChoice} (hpk : pk.refresh ch ps = .ok pk')
    (h : pk.dirty = false → pk.availabilityBuckets.flatten.Pairwise fun r s =>
      availabilityOf ps r ≤ availabilityOf ps s) :
    pk'.availabilityBuckets.flatten.Pairwise fun r s =>
      availabilityOf ps r ≤ availabilityOf ps s := by
  unfold refresh at hpk
  split_ifs at hpk with hd
  · obtain ⟨first, hfirst, rfl⟩ := sortPieces_eq_ok.1 hpk
    have hsorted := ch.std.sorted (availabilityOf ps) pk.pieces
    apply sorted_fillBuckets _ (by simp) _ hsorted
    intro r hr
    obtain ⟨i, hi, rfl⟩ := List.getElem_of_mem hr
    obtain ⟨h0, rfl⟩ := List.getElem?_eq_some_iff.1 hfirst
    rcases Nat.eq_zero_or_pos i with rfl | hpos
    · exact le_rfl
    · exact List.pairwise_iff_getElem.1 hsorted 0 i h0 hi hpos
  · cases hpk
    exact h (by simpa using hd)

/-- A candidate is a piece that the peer wants. -/
theorem candidate_eq (ps : List Piece) (hasPiece : ℕ → Bool) (r : ℕ) :
    candidate ps (fun i => .ok (hasPiece i)) r = (ps[r]?.map (·.wantedBy hasPiece)).getD false := by
  unfold candidate Piece.wantedBy
  rcases ps[r]? with _ | p
  · rfl
  · have hpos : (p.availability != 0) = decide (0 < p.availability) := by
      rcases Nat.eq_zero_or_pos p.availability with h | h
      · simp [h]
      · simp [h, h.ne']
    simp only [Option.map_some, Option.getD_some, hpos, Bool.and_comm,
      Bool.and_left_comm]

theorem mem_candidates_iff (h : pk.availabilityBuckets.flatten.Perm (List.range ps.length))
    (hasPiece : ℕ → Bool) (r : ℕ) :
    r ∈ pk.candidates ps (fun i => .ok (hasPiece i)) ↔
      ∃ p, ps[r]? = some p ∧ p.wantedBy hasPiece = true := by
  rw [candidates, List.mem_filter, h.mem_iff, List.mem_range, candidate_eq]
  rcases hr : ps[r]? with _ | p
  · simp
  · have := (List.getElem?_eq_some_iff.1 hr).1
    simp [this]

/-- There are as many candidates as pieces that the peer wants. -/
theorem length_candidates (h : pk.availabilityBuckets.flatten.Perm (List.range ps.length))
    (hasPiece : ℕ → Bool) :
    (pk.candidates ps (fun i => .ok (hasPiece i))).length = ps.countP (·.wantedBy hasPiece) := by
  have hmap : (List.range ps.length).map (fun r => (ps[r]?.map (·.wantedBy hasPiece)).getD false) =
      ps.map (·.wantedBy hasPiece) := by
    apply List.ext_getElem (by simp)
    intro i hi _
    have hlt : i < ps.length := by simpa using hi
    simp [hlt]
  have hfun : candidate ps (fun i => .ok (hasPiece i)) =
      fun r => (ps[r]?.map (·.wantedBy hasPiece)).getD false := funext (candidate_eq ps hasPiece)
  calc (pk.candidates ps (fun i => .ok (hasPiece i))).length
      = (List.range ps.length).countP (candidate ps fun i => .ok (hasPiece i)) := by
        rw [candidates, ← List.countP_eq_length_filter, h.countP_eq]
    _ = (ps.map (·.wantedBy hasPiece)).countP id := by
        rw [← hmap, List.countP_map, hfun]
        rfl
    _ = ps.countP (·.wantedBy hasPiece) := by
        rw [List.countP_map]
        rfl

end RarestFirstPicker

namespace Picking

/-- What can happen to the pieces and the picker: a call of the picker, or a change of the blocks by
another part of the program. -/
inductive Move where
  | call (e : Event)
  | progress (ps : List Piece)

def MoveStep (s : Picking) : Move → Picking → Prop
  | .call e, t => Step s e t
  | .progress ps, t => ps.map Piece.standing = s.ps.map Piece.standing ∧ t = ⟨ps, s.picker⟩

/-- The calls `next(p, 0)`, …, `next(p, N - 1)` with nothing in between, and what they return. -/
def nexts (s : Picking) (chs : ℕ → SortChoice) (hasPiece : ℕ → Bool) :
    ℕ → Except Fault (RarestFirstPicker × List (Option ℕ))
  | 0 => .ok (s.picker, [])
  | N + 1 => do
    let (pk, rs) ← s.nexts chs hasPiece N
    let (pk, r) ← pk.next (chs N) s.ps (fun i => .ok (hasPiece i)) N
    return (pk, rs ++ [r])

/-- The vector holds every piece once; so do the buckets unless the picker is dirty, in the order of the
availabilities. -/
structure Cached (n : ℕ) (s : Picking) : Prop where
  length : s.ps.length = n
  whole : s.picker.Whole n
  sorted : s.picker.dirty = false → s.picker.availabilityBuckets.flatten.Pairwise fun r t =>
    availabilityOf s.ps r ≤ availabilityOf s.ps t

variable {n : ℕ} {s t : Picking}

theorem cached_init (ps : List Piece) : Cached ps.length (init ps) := by
  refine ⟨rfl, ⟨RarestFirstPicker.length_bitfield_create ps, .refl _, fun hd => ?_⟩, fun hd => ?_⟩
  · cases hd
  · cases hd

theorem Cached.step (h : Cached n s) {m : Move} (hs : MoveStep s m t) : Cached n t := by
  cases m with
  | progress ps =>
    obtain ⟨hps, rfl⟩ := hs
    have hlen : ps.length = s.ps.length := by simpa using congrArg List.length hps
    refine ⟨hlen.trans h.length, h.whole, fun hd => ?_⟩
    refine (h.sorted hd).imp fun {r q} hle => ?_
    rw [availabilityOf_congr hps, availabilityOf_congr hps]
    exact hle
  | call e =>
    obtain ⟨ch, hs⟩ := hs
    obtain ⟨hpk, hps⟩ | ⟨-, hps, hpk⟩ := step_cases hs
    · have hlen : t.ps.length = s.ps.length := by simpa using congrArg List.length hps
      refine ⟨hlen.trans h.length, hpk ▸ h.whole.dirty, fun hd => ?_⟩
      rw [hpk] at hd
      cases hd
    · refine ⟨by rw [hps, h.length], (h.whole.refresh hpk).1, fun _ => ?_⟩
      rw [hps]
      exact RarestFirstPicker.sorted_refresh hpk h.sorted

/-- Without a change in between, the calls return one candidate after the other. -/
theorem Cached.nexts (h : Cached n s) (hasPiece : ℕ → Bool) (chs : ℕ → SortChoice)
    {pk : RarestFirstPicker} (hpk : s.picker.refresh (chs 0) s.ps = .ok pk) (N : ℕ) :
    ∃ pk', s.nexts chs hasPiece N = .ok (pk', (List.range N).map fun k =>
      (pk.candidates s.ps fun i => .ok (hasPiece i))[k]?) ∧ pk'.refresh (chs N) s.ps = .ok pk := by
  have hwhole := h.whole.refresh hpk
  have hclean : ∀ ch, pk.refresh ch s.ps = .ok pk := by
    intro ch
    rw [RarestFirstPicker.refresh, if_neg (by simp [hwhole.2])]
  induction N with
  | zero => exact ⟨s.picker, rfl, hpk⟩
  | succ N ih =>
    obtain ⟨pk', hprev, hrefresh⟩ := ih
    obtain ⟨res, hnext⟩ := next_total hasPiece N hrefresh fun r hr =>
      h.length ▸ List.mem_range.1 ((hwhole.1.buckets hwhole.2).mem_iff.1 hr)
    obtain ⟨-, rfl⟩ := RarestFirstPicker.next_eq_ok hnext
    refine ⟨pk, ?_, hclean _⟩
    rw [Picking.nexts, hprev, List.range_succ, List.map_append]
    simp only [bind, Except.bind, hnext]
    rfl

/-- In every state that calls of the picker and completions lead to, the calls `next(p, 0)`,
`next(p, 1)`, … return each piece that the peer wants once, the rarest first, and null after them. -/
theorem next_enumerates {ps : List Piece} (hps : ps ≠ []) {ms : List Move}
    (hr : Run MoveStep (init ps) ms s) (hasPiece : ℕ → Bool) (chs : ℕ → SortChoice) :
    ∃ order : List ℕ, order.Nodup ∧
      (∀ r, r ∈ order ↔ ∃ p, s.ps[r]? = some p ∧ p.wantedBy hasPiece = true) ∧
      order.length = s.ps.countP (·.wantedBy hasPiece) ∧
      (order.Pairwise fun r t => availabilityOf s.ps r ≤ availabilityOf s.ps t) ∧
      ∀ N, ∃ pk, s.nexts chs hasPiece N = .ok (pk, (List.range N).map fun k => order[k]?) := by
  have hcached : Cached ps.length s :=
    hr.invariant (fun _ _ _ h hs => h.step hs) (cached_init ps)
  obtain ⟨pk, hpk⟩ : ∃ pk, s.picker.refresh (chs 0) s.ps = .ok pk :=
    RarestFirstPicker.refresh_ok hcached.whole (List.length_pos_iff.2 hps) (chs 0)
  obtain ⟨hwhole, hclean⟩ := hcached.whole.refresh hpk
  have hbuckets := hcached.length ▸ hwhole.buckets hclean
  refine ⟨pk.candidates s.ps fun i => .ok (hasPiece i), ?_, ?_, ?_, ?_, fun N => ?_⟩
  · exact (hbuckets.nodup_iff.2 List.nodup_range).filter _
  · exact RarestFirstPicker.mem_candidates_iff hbuckets hasPiece
  · exact RarestFirstPicker.length_candidates hbuckets hasPiece
  · exact (RarestFirstPicker.sorted_refresh hpk hcached.sorted).filter _
  · obtain ⟨pk', hnexts, -⟩ := hcached.nexts hasPiece chs hpk N
    exact ⟨pk', hnexts⟩

theorem next_enumerates_twoPieces : ∃ s, Run MoveStep (init twoPieces) [.call (.onHave 1)] s ∧
    ∃ order : List ℕ, order.Nodup ∧
      (∀ r, r ∈ order ↔ ∃ p, s.ps[r]? = some p ∧ p.wantedBy (fun _ => true) = true) ∧
      order.length = 1 := by
  have hr : Run MoveStep (init twoPieces) [.call (.onHave 1)] _ :=
    .single ⟨⟨.reverseTies, .still ℕ⟩, rfl⟩
  obtain ⟨order, hnd, hmem, hlen, -⟩ :=
    next_enumerates (by decide) hr (fun _ => true) fun _ => ⟨.reverseTies, .still ℕ⟩
  exact ⟨_, hr, order, hnd, hmem, hlen⟩

end Picking

end FTorrent
