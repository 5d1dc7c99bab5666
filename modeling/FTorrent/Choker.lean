import FTorrent.Effects
import Mathlib.Data.Set.Card

/-!
# The choker

`LeechChoker` with the peers whose upload channels it chokes and unchokes.  `select` chokes every peer of
the old list `active` and then unchokes every peer of the new one, so that after every call the peers
that are unchoked are those of `active` (`unchoked_eq_active`).

What the calls of one `select` return is arbitrary: the answers of the peers, the arrangement that
`std::sort` makes of equal rates, and the sample.
-/

namespace FTorrent

open Lib

/-- What the calls in one `select` return. -/
structure Selection (ρ : Type) [LinearOrder ρ] where
  downloadRate : ℕ → ρ
  uploadInterested : ℕ → Bool
  sort : List ℕ → List ℕ
  sort_perm : ∀ l, (sort l).Perm l
  sort_sorted : ∀ l, (sort l).Pairwise fun a b => downloadRate a ≤ downloadRate b
  sample : List ℕ → Option ℕ
  sample_nil : sample [] = none
  sample_mem : ∀ l, l ≠ [] → ∃ p ∈ l, sample l = some p

/-- `LeechChoker`. -/
structure LeechChoker where
  peers : List ℕ := []
  active : List ℕ := []
  iteration : ℕ := 0
  deriving DecidableEq

namespace LeechChoker

variable {ρ : Type} [LinearOrder ρ]

/-- `active_size`. -/
def activeSize : ℕ := 4

def addPeer (ck : LeechChoker) (p : ℕ) : LeechChoker := { ck with peers := ck.peers ++ [p] }

def removePeer (ck : LeechChoker) (p : ℕ) : LeechChoker :=
  if p ∈ ck.peers then { ck with peers := ck.peers.erase p } else ck

/-- The list `result` of `select`, from the sorted peers: the optimistic unchoke, and the first of those
interested. -/
def result (sel : Selection ρ) (iteration : ℕ) (peers : List ℕ) : List ℕ :=
  let interested := peers.filter sel.uploadInterested
  let result := if iteration = 0 then (sel.sample interested).toList else []
  let toAdd := activeSize - result.length
  result ++ interested.take toAdd

theorem length_result_le (sel : Selection ρ) (iteration : ℕ) (peers : List ℕ) :
    (result sel iteration peers).length ≤ activeSize := by
  have hfirst : (if iteration = 0 then (sel.sample (peers.filter sel.uploadInterested)).toList
      else []).length ≤ activeSize := by
    have hone : (sel.sample (peers.filter sel.uploadInterested)).toList.length ≤ 1 := by
      cases sel.sample (peers.filter sel.uploadInterested) with
      | none => exact Nat.zero_le 1
      | some p => exact le_rfl
    split_ifs
    · exact hone.trans (by decide)
    · exact Nat.zero_le _
  rw [result, List.length_append]
  have htake := List.length_take_le (activeSize - (if iteration = 0 then
    (sel.sample (peers.filter sel.uploadInterested)).toList else []).length)
    (peers.filter sel.uploadInterested)
  omega

/-- `select` picks from the peers it has. -/
theorem mem_of_mem_result {sel : Selection ρ} {iteration : ℕ} {peers : List ℕ} {p : ℕ}
    (hp : p ∈ result sel iteration peers) : p ∈ peers := by
  rcases List.mem_append.1 hp with hp | hp
  · split_ifs at hp
    · by_cases hnone : peers.filter sel.uploadInterested = []
      · rw [hnone, sel.sample_nil] at hp
        cases hp
      · obtain ⟨q, hq, hsample⟩ := sel.sample_mem _ hnone
        rw [hsample] at hp
        rw [List.mem_singleton.1 hp]
        exact List.mem_of_mem_filter hq
    · cases hp
  · exact List.mem_of_mem_filter (List.mem_of_mem_take hp)

end LeechChoker

/-! ### Choking and unchoking -/

namespace Client

variable {c c' : Client} {p : ℕ}

/-- The upload channel of the peer is not choked. -/
def Unchoked (c : Client) (p : ℕ) : Prop := ∃ q, c.peers[p]? = some q ∧ q.upload.choked = false

theorem unchoked_modifyPeer {q : Peer} (hq : c.peers[p]? = some q) (b : Bool) (k : ℕ) :
    (c.modifyPeer p (·.setUpload (·.setChoked b))).Unchoked k ↔
      if k = p then b = false else c.Unchoked k := by
  simp only [Unchoked, modifyPeer, List.getElem?_modify]
  by_cases hk : k = p
  · subst hk
    simp [hq, Peer.setUpload, DataChannel.setChoked]
  · simp [hk, Ne.symm hk]

theorem unchoked_chokeUpload (h : c.chokeUpload p = .ok c') (k : ℕ) :
    c'.Unchoked k ↔ c.Unchoked k ∧ k ≠ p := by
  obtain ⟨q, hq, h⟩ := bind_eq_ok.1 h
  rw [vectorAt_eq_ok] at hq
  split_ifs at h with hchoked
  · cases h
    constructor
    · intro hk
      refine ⟨hk, ?_⟩
      rintro rfl
      obtain ⟨q', hq', hopen⟩ := hk
      rw [hq] at hq'
      cases hq'
      rw [hchoked] at hopen
      cases hopen
    · exact And.left
  · cases h
    change (c.modifyPeer p _).Unchoked k ↔ _
    rw [unchoked_modifyPeer hq]
    split_ifs with hk
    · simp [hk]
    · simp [hk]

theorem unchoked_unchokeUpload (h : c.unchokeUpload p = .ok c') (k : ℕ) :
    c'.Unchoked k ↔ c.Unchoked k ∨ k = p := by
  obtain ⟨q, hq, h⟩ := bind_eq_ok.1 h
  rw [vectorAt_eq_ok] at hq
  split_ifs at h with hchoked
  · cases h
    change (c.modifyPeer p _).Unchoked k ↔ _
    rw [unchoked_modifyPeer hq]
    split_ifs with hk
    · simp [hk]
    · simp [hk]
  · cases h
    constructor
    · exact .inl
    · rintro (hk | rfl)
      · exact hk
      · exact ⟨q, hq, by simpa using hchoked⟩

/-- The loop over the old list. -/
theorem unchoked_chokeAll {l : List ℕ} (h : l.foldlM chokeUpload c = .ok c') (k : ℕ) :
    c'.Unchoked k ↔ c.Unchoked k ∧ k ∉ l := by
  induction l generalizing c with
  | nil =>
    cases h
    simp
  | cons p l ih =>
    rw [List.foldlM_cons] at h
    obtain ⟨c₁, h₁, h⟩ := bind_eq_ok.1 h
    rw [ih h, unchoked_chokeUpload h₁, List.mem_cons, not_or, and_assoc]

/-- The loop over the new list. -/
theorem unchoked_unchokeAll {l : List ℕ} (h : l.foldlM unchokeUpload c = .ok c') (k : ℕ) :
    c'.Unchoked k ↔ c.Unchoked k ∨ k ∈ l := by
  induction l generalizing c with
  | nil =>
    cases h
    simp
  | cons p l ih =>
    rw [List.foldlM_cons] at h
    obtain ⟨c₁, h₁, h⟩ := bind_eq_ok.1 h
    rw [ih h, unchoked_unchokeUpload h₁, List.mem_cons, or_assoc]

theorem chokeUpload_ok (hp : p < c.peers.length) :
    ∃ c', c.chokeUpload p = .ok c' ∧ c'.peers.length = c.peers.length := by
  unfold chokeUpload
  rw [vectorAt_eq_ok.2 (List.getElem?_eq_getElem hp)]
  simp only [bind, Except.bind]
  split_ifs
  · exact ⟨c, rfl, rfl⟩
  · exact ⟨_, rfl, List.length_modify ..⟩

theorem unchokeUpload_ok (hp : p < c.peers.length) :
    ∃ c', c.unchokeUpload p = .ok c' ∧ c'.peers.length = c.peers.length := by
  unfold unchokeUpload
  rw [vectorAt_eq_ok.2 (List.getElem?_eq_getElem hp)]
  simp only [bind, Except.bind]
  split_ifs
  · exact ⟨_, rfl, List.length_modify ..⟩
  · exact ⟨c, rfl, rfl⟩

/-- A loop of calls that succeed and make no peer succeeds. -/
theorem foldlM_ok {f : Client → ℕ → Except Fault Client}
    (hf : ∀ c p, p < c.peers.length → ∃ c', f c p = .ok c' ∧ c'.peers.length = c.peers.length)
    {l : List ℕ} (hl : ∀ p ∈ l, p < c.peers.length) :
    ∃ c', l.foldlM f c = .ok c' ∧ c'.peers.length = c.peers.length := by
  induction l generalizing c with
  | nil => exact ⟨c, rfl, rfl⟩
  | cons p l ih =>
    obtain ⟨c₁, h₁, hlen⟩ := hf c p (hl p List.mem_cons_self)
    have hrest : ∀ q ∈ l, q < c₁.peers.length := by
      intro q hq
      rw [hlen]
      exact hl q (List.mem_cons_of_mem p hq)
    obtain ⟨c', h', hlen'⟩ := ih hrest
    refine ⟨c', ?_, hlen'.trans hlen⟩
    rw [List.foldlM_cons, h₁]
    exact h'

end Client

/-! ### The choker and its peers -/

/-- The choker, and the client whose peers it chokes and unchokes. -/
structure Choking where
  client : Client
  choker : LeechChoker := {}

namespace Choking

variable {ρ : Type} [LinearOrder ρ]

/-- `select`.  The iterators that it compares before it chokes a peer are of different vectors, so they
are never equal. -/
def select (s : Choking) (sel : Selection ρ) : Except Fault Choking := do
  let iteration := (s.choker.iteration + 1) % 3
  let peers := sel.sort s.choker.peers
  let result := LeechChoker.result sel iteration peers
  let client ← s.choker.active.foldlM Client.chokeUpload s.client
  let client ← result.foldlM Client.unchokeUpload client
  return { client, choker := { peers, active := result, iteration } }

/-- The calls of the choker's interface, and the timer's. -/
inductive Event (ρ : Type) [LinearOrder ρ] where
  | addPeer (peer : ℕ)
  | removePeer (peer : ℕ)
  | select (sel : Selection ρ)

/-- `add_peer` is called with a peer that exists. -/
def step (s : Choking) : Event ρ → Except Fault Choking
  | .addPeer p =>
    if p < s.client.peers.length then .ok { s with choker := s.choker.addPeer p }
    else .error .notEnabled
  | .removePeer p => .ok { s with choker := s.choker.removePeer p }
  | .select sel => s.select sel

/-- The peers that are unchoked are those of `active`, and they are at most `active_size`. -/
structure Agree (s : Choking) : Prop where
  exact : ∀ p, s.client.Unchoked p ↔ p ∈ s.choker.active
  bound : {p | s.client.Unchoked p}.encard ≤ LeechChoker.activeSize

variable {s t : Choking}

theorem agree_of_exact (h : ∀ p, s.client.Unchoked p ↔ p ∈ s.choker.active)
    (hlen : s.choker.active.length ≤ LeechChoker.activeSize) : Agree s := by
  refine ⟨h, ?_⟩
  have hset : {p | s.client.Unchoked p} = (s.choker.active.toFinset : Set ℕ) := by
    ext p
    simp [h p]
  rw [hset, Set.encard_coe_eq_coe_finsetCard]
  exact_mod_cast (List.toFinset_card_le _).trans hlen

theorem select_eq_ok {sel : Selection ρ} (h : s.select sel = .ok t) :
    ∃ c, s.choker.active.foldlM Client.chokeUpload s.client = .ok c ∧
      t.choker.active.foldlM Client.unchokeUpload c = .ok t.client ∧
      t.choker.active = LeechChoker.result sel ((s.choker.iteration + 1) % 3)
        (sel.sort s.choker.peers) := by
  obtain ⟨c, hc, h⟩ := bind_eq_ok.1 h
  obtain ⟨c', hc', h⟩ := bind_eq_ok.1 h
  cases h
  exact ⟨c, hc, hc', rfl⟩

/-- All that were unchoked are choked, and then those selected are unchoked. -/
theorem Agree.step (h : Agree s) {ev : Event ρ} (hs : s.step ev = .ok t) : Agree t := by
  cases ev with
  | addPeer p =>
    simp only [Choking.step] at hs
    split_ifs at hs
    cases hs
    exact ⟨h.exact, h.bound⟩
  | removePeer p =>
    cases hs
    have hactive : (s.choker.removePeer p).active = s.choker.active := by
      unfold LeechChoker.removePeer
      split_ifs
      · rfl
      · rfl
    refine ⟨fun k => ?_, h.bound⟩
    rw [hactive]
    exact h.exact k
  | select sel =>
    obtain ⟨c, hc, ht, hresult⟩ := select_eq_ok hs
    apply agree_of_exact
    · intro k
      rw [Client.unchoked_unchokeAll ht, Client.unchoked_chokeAll hc, h.exact]
      simp
    · rw [hresult]
      exact LeechChoker.length_result_le _ _ _

theorem agree_start {c : Client} (hc : ∀ q ∈ c.peers, q.upload.choked = true) :
    Agree { client := c } := by
  apply agree_of_exact
  · intro p
    constructor
    · rintro ⟨q, hq, hopen⟩
      rw [hc q (List.mem_of_getElem? hq)] at hopen
      cases hopen
    · exact fun hp => absurd hp List.not_mem_nil
  · exact Nat.zero_le _

/-- After every sequence of calls from choked upload channels on, the peers that are unchoked are
exactly those of `active`, and they are at most `active_size`. -/
theorem unchoked_eq_active {c : Client} (hc : ∀ q ∈ c.peers, q.upload.choked = true)
    (es : List (Event ρ)) : Always (StepOf step) Agree { client := c } es :=
  always_of_invariant (R := StepOf step) (fun _ h => h) (fun _ _ _ h hs => h.step hs) (agree_start hc)

/-- Takes the first of those interested, everybody. -/
def everybody : Selection ℕ where
  downloadRate p := p
  uploadInterested _ := true
  sort l := l.insertionSort (· ≤ ·)
  sort_perm l := List.perm_insertionSort _ l
  sort_sorted l := List.pairwise_insertionSort _ l
  sample l := l.head?
  sample_nil := rfl
  sample_mem l hl := ⟨l.head hl, List.head_mem hl, List.head?_eq_some_head hl⟩

/-- Two peers of a torrent of one byte. -/
def twoPeers : Client := (Client.init oneByte fun _ => 0).addPeer.addPeer

theorem unchoked_eq_active_twoPeers : ∃ s : Choking,
    Run (StepOf step) { client := twoPeers } [.addPeer 0, .addPeer 1, .select everybody] s ∧
      s.choker.active = [0, 1] ∧ Agree s := by
  have hr : Run (StepOf step) { client := twoPeers }
      [.addPeer 0, .addPeer 1, .select everybody] _ :=
    .cons rfl <| .cons rfl <| .cons rfl <| .nil _
  exact ⟨_, hr, rfl, (unchoked_eq_active (by decide) _).of_run hr⟩

/-! ### The calls return -/

/-- The lists hold peers that exist. -/
structure Known (s : Choking) : Prop where
  peers : ∀ p ∈ s.choker.peers, p < s.client.peers.length
  active : ∀ p ∈ s.choker.active, p < s.client.peers.length

/-- Every call returns, `add_peer` for a peer that exists. -/
theorem Known.step_ok (h : Known s) {ev : Event ρ}
    (hev : ∀ p, ev = .addPeer p → p < s.client.peers.length) : ∃ t, s.step ev = .ok t ∧ Known t := by
  cases ev with
  | addPeer p =>
    have hp := hev p rfl
    refine ⟨_, if_pos hp, fun q hq => ?_, h.active⟩
    rcases List.mem_append.1 hq with hq | hq
    · exact h.peers q hq
    · rwa [List.mem_singleton.1 hq]
  | removePeer p =>
    refine ⟨_, rfl, ?_⟩
    unfold LeechChoker.removePeer
    split_ifs
    · exact ⟨fun q hq => h.peers q (List.mem_of_mem_erase hq), h.active⟩
    · exact h
  | select sel =>
    have hresult : ∀ p ∈ LeechChoker.result sel ((s.choker.iteration + 1) % 3)
        (sel.sort s.choker.peers), p < s.client.peers.length := by
      intro p hp
      exact h.peers p ((sel.sort_perm _).mem_iff.1 (LeechChoker.mem_of_mem_result hp))
    obtain ⟨c, hc, hlen⟩ := Client.foldlM_ok (fun _ _ => Client.chokeUpload_ok) h.active
    rw [← hlen] at hresult
    obtain ⟨c', hc', hlen'⟩ := Client.foldlM_ok (fun _ _ => Client.unchokeUpload_ok) hresult
    refine ⟨_, bind_eq_ok.2 ⟨c, hc, bind_eq_ok.2 ⟨c', hc', rfl⟩⟩, fun p hp => ?_, fun p hp => ?_⟩
    · rw [hlen'.trans hlen]
      exact h.peers p ((sel.sort_perm _).mem_iff.1 hp)
    · rw [hlen']
      exact hresult p hp

/-- In every state that calls lead to, every call returns. -/
theorem calls_return (c : Client) (es : List (Event ρ)) :
    Always (StepOf step) (fun s => ∀ ev : Event ρ,
      (∀ p, ev = .addPeer p → p < s.client.peers.length) → ∃ t, s.step ev = .ok t)
      { client := c } es := by
  apply always_of_invariant (J := Known)
  · intro s h ev hev
    obtain ⟨t, ht, -⟩ := h.step_ok hev
    exact ⟨t, ht⟩
  · intro s ev t h hs
    have hev : ∀ p, ev = .addPeer p → p < s.client.peers.length := by
      rintro p rfl
      by_contra hp
      rw [StepOf, step, if_neg hp] at hs
      cases hs
    obtain ⟨t', ht', hknown⟩ := h.step_ok hev
    obtain rfl : t' = t := Except.ok.inj (ht'.symm.trans hs)
    exact hknown
  · exact ⟨fun p hp => absurd hp List.not_mem_nil, fun p hp => absurd hp List.not_mem_nil⟩

/-- For the client, a `select` is a run of `choke_upload` and `unchoke_upload`. -/
theorem run_select {sha1 : List UInt8 → Hash} {sel : Selection ρ} (h : s.select sel = .ok t) :
    Run (StepOf (Client.step sha1)) s.client
      (s.choker.active.map .chokeUpload ++ t.choker.active.map .unchokeUpload) t.client := by
  obtain ⟨c, hc, ht, -⟩ := select_eq_ok h
  apply Run.append (t := c)
  · rw [run_iff_foldlM, List.foldlM_map]
    exact hc
  · rw [run_iff_foldlM, List.foldlM_map]
    exact ht

end Choking

end FTorrent
