import FTorrent.Choker

/-!
# What one `select` makes of the slots

`select` sorts the peers by download rate, the slowest first, and gives the slots to the first of those
interested, and every third time one to a peer sampled from all of them.  It does not reward the
fastest (`rewardsFastest_iff`), it can give the sampled peer a second slot (`slotsFilled_iff`), and it
signals to the peers that stay active that they do not (`signalsChanges_iff`).
-/

namespace FTorrent

open Lib

namespace Choking

variable {ρ : Type} [LinearOrder ρ] {s t : Choking} {sel : Selection ρ}

/-- The peers that are interested, in the order of the sort. -/
def interested (s : Choking) (sel : Selection ρ) : List ℕ :=
  (sel.sort s.choker.peers).filter sel.uploadInterested

/-- The peer that the optimistic sample takes, if this `select` takes one. -/
def sampled (s : Choking) (sel : Selection ρ) : Option ℕ :=
  if (s.choker.iteration + 1) % 3 = 0 then sel.sample (s.interested sel) else none

/-- The slots that are left for the first of those interested. -/
def slots (s : Choking) (sel : Selection ρ) : ℕ :=
  LeechChoker.activeSize - (s.sampled sel).toList.length

/-- No peer is added that the choker has. -/
def AddsOnce (s : Choking) : Event ρ → Prop
  | .addPeer p => p ∉ s.choker.peers
  | _ => True

instance (s : Choking) (ev : Event ρ) : Decidable (s.AddsOnce ev) := by
  cases ev <;> unfold AddsOnce <;> infer_instance

/-- The choker agrees with its peers and has each once. -/
structure Distinct (s : Choking) : Prop where
  agree : Agree s
  nodup : s.choker.peers.Nodup

theorem Distinct.step (h : Distinct s) {ev : Event ρ} (hs : s.step ev = .ok t) (hC : s.AddsOnce ev) :
    Distinct t := by
  refine ⟨h.agree.step hs, ?_⟩
  cases ev with
  | addPeer p =>
    simp only [Choking.step] at hs
    split_ifs at hs
    cases hs
    exact List.nodup_append.2 ⟨h.nodup, List.nodup_singleton p,
      fun q hq r hr heq => hC (List.mem_singleton.1 hr ▸ heq ▸ hq)⟩
  | removePeer p =>
    cases hs
    simp only [LeechChoker.removePeer]
    split_ifs
    · exact h.nodup.erase p
    · exact h.nodup
  | select sel =>
    obtain ⟨c, -, hs⟩ := bind_eq_ok.1 hs
    obtain ⟨c', -, hs⟩ := bind_eq_ok.1 hs
    cases hs
    exact (sel.sort_perm _).nodup_iff.2 h.nodup

theorem distinct_run {c : Client} (hc : ∀ q ∈ c.peers, q.upload.choked = true) {es : List (Event ρ)}
    (hr : Run (Along (StepOf step) AddsOnce) { client := c } es s) : Distinct s :=
  hr.invariant (fun _ _ _ h hs => h.step hs.1 hs.2) ⟨agree_start hc, List.nodup_nil⟩

/-! ### The new active list -/

theorem nodup_interested (h : s.choker.peers.Nodup) (sel : Selection ρ) : (s.interested sel).Nodup :=
  ((sel.sort_perm _).nodup_iff.2 h).filter _

theorem mem_interested {p : ℕ} :
    p ∈ s.interested sel ↔ p ∈ s.choker.peers ∧ sel.uploadInterested p = true := by
  rw [interested, List.mem_filter, (sel.sort_perm _).mem_iff]

theorem length_interested (s : Choking) (sel : Selection ρ) :
    (s.interested sel).length = s.choker.peers.countP sel.uploadInterested := by
  rw [interested, ← List.countP_eq_length_filter, (sel.sort_perm _).countP_eq]

/-- The sort puts the slowest first. -/
theorem pairwise_interested (s : Choking) (sel : Selection ρ) :
    (s.interested sel).Pairwise fun p q => sel.downloadRate p ≤ sel.downloadRate q :=
  (sel.sort_sorted _).filter _

/-- The sample takes one of those interested. -/
theorem mem_of_sampled {p : ℕ} (h : s.sampled sel = some p) : p ∈ s.interested sel := by
  unfold sampled at h
  split_ifs at h
  by_cases hnone : s.interested sel = []
  · rw [hnone, sel.sample_nil] at h
    cases h
  · obtain ⟨q, hq, hsample⟩ := sel.sample_mem _ hnone
    rwa [← Option.some.inj (hsample.symm.trans h)]

theorem active_select (hs : s.select sel = .ok t) :
    t.choker.active = (s.sampled sel).toList ++ (s.interested sel).take (s.slots sel) := by
  obtain ⟨c, -, -, hactive⟩ := select_eq_ok hs
  rw [hactive, LeechChoker.result, slots, sampled, interested]
  split_ifs
  · rfl
  · rfl

theorem mem_active_select (hs : s.select sel = .ok t) {p : ℕ} :
    p ∈ t.choker.active ↔ s.sampled sel = some p ∨ p ∈ (s.interested sel).take (s.slots sel) := by
  rw [active_select hs, List.mem_append, Option.mem_toList]

theorem peers_select (hs : s.select sel = .ok t) : t.choker.peers = sel.sort s.choker.peers := by
  obtain ⟨c, -, hs⟩ := bind_eq_ok.1 hs
  obtain ⟨c', -, hs⟩ := bind_eq_ok.1 hs
  cases hs
  rfl

theorem slots_of_none (h : s.sampled sel = none) : s.slots sel = 4 := by
  rw [slots, h]
  rfl

theorem slots_of_some {p : ℕ} (h : s.sampled sel = some p) : s.slots sel = 3 := by
  rw [slots, h]
  rfl

theorem three_le_slots (s : Choking) (sel : Selection ρ) : 3 ≤ s.slots sel := by
  rcases h : s.sampled sel with _ | p
  · rw [slots_of_none h]
    decide
  · rw [slots_of_some h]

theorem unchoked_select (h : Agree s) (hs : s.select sel = .ok t) (p : ℕ) :
    t.client.Unchoked p ↔ s.sampled sel = some p ∨ p ∈ (s.interested sel).take (s.slots sel) := by
  have hstep : s.step (.select sel) = .ok t := hs
  rw [(h.step hstep).exact, mem_active_select hs]

/-! ### The order of the slots -/

/-- Every interested peer that is unchoked, but for the sampled one, is at least as fast as every
interested peer that is left choked. -/
def RewardsFastest (s : Choking) (sel : Selection ρ) (t : Choking) : Prop :=
  ∀ p q, t.client.Unchoked p → sel.uploadInterested p = true → s.sampled sel ≠ some p →
    q ∈ t.choker.peers → sel.uploadInterested q = true → ¬ t.client.Unchoked q →
      sel.downloadRate q ≤ sel.downloadRate p

/-- Those interested, but for the sampled one, are all equally fast, or they all rank before the slots
run out. -/
def NoneOvertaken (s : Choking) (sel : Selection ρ) : Prop :=
  (∀ p ∈ s.interested sel, ∀ q ∈ s.interested sel, s.sampled sel ≠ some p → s.sampled sel ≠ some q →
    sel.downloadRate p = sel.downloadRate q) ∨
  ∀ q ∈ (s.interested sel).drop (s.slots sel), s.sampled sel = some q

/-- What counts is who gets a slot by rank and who does not. -/
theorem rewardsFastest_iff_ranks (h : Distinct s) (hs : s.select sel = .ok t) :
    RewardsFastest s sel t ↔ ∀ p ∈ (s.interested sel).take (s.slots sel),
      ∀ q ∈ (s.interested sel).drop (s.slots sel), s.sampled sel ≠ some p → s.sampled sel ≠ some q →
        sel.downloadRate q ≤ sel.downloadRate p := by
  have hpeers : ∀ p, p ∈ t.choker.peers ↔ p ∈ s.choker.peers := by
    intro p
    rw [peers_select hs, (sel.sort_perm _).mem_iff]
  constructor
  · intro hfast p hp q hq hsp hsq
    have hp' := mem_interested.1 (List.mem_of_mem_take hp)
    have hq' := mem_interested.1 (List.mem_of_mem_drop hq)
    apply hfast p q ((unchoked_select h.agree hs p).2 (.inr hp)) hp'.2 hsp ((hpeers q).2 hq'.1) hq'.2
    rw [unchoked_select h.agree hs, not_or]
    exact ⟨hsq, fun hmem => List.disjoint_take_drop (nodup_interested h.nodup sel) le_rfl hmem hq⟩
  · intro hranks p q hp _ hsp hq hqi hqc
    rw [unchoked_select h.agree hs, not_or] at hqc
    have hp' := ((unchoked_select h.agree hs p).1 hp).resolve_left hsp
    have hq' : q ∈ s.interested sel := mem_interested.2 ⟨(hpeers q).1 hq, hqi⟩
    rw [← List.take_append_drop (s.slots sel) (s.interested sel), List.mem_append] at hq'
    exact hranks p hp' q (hq'.resolve_left hqc.2) hsp hqc.1

/-- Where somebody is left over, one of the slots goes by rank to a peer that is not the sampled one. -/
theorem exists_ranked (h : s.choker.peers.Nodup) {q : ℕ}
    (hq : q ∈ (s.interested sel).drop (s.slots sel)) :
    ∃ p ∈ (s.interested sel).take (s.slots sel), s.sampled sel ≠ some p := by
  have hlong := List.length_pos_of_mem hq
  have hthree := three_le_slots s sel
  rw [List.length_drop] at hlong
  have h0 : 0 < (s.interested sel).length := by omega
  have h1 : 1 < (s.interested sel).length := by omega
  by_cases hfirst : s.sampled sel = some (s.interested sel)[0]
  · refine ⟨(s.interested sel)[1], List.mem_take_iff_getElem.2 ⟨1, by omega, rfl⟩, fun hsecond => ?_⟩
    have heq := Option.some.inj (hfirst.symm.trans hsecond)
    exact absurd ((nodup_interested h sel).getElem_inj_iff.1 heq) (by decide)
  · exact ⟨(s.interested sel)[0], List.mem_take_iff_getElem.2 ⟨0, by omega, rfl⟩, hfirst⟩

/-- After a `select` the unchoked peers are at least as fast as those left choked exactly if no
interested peer is left over, or all are equally fast. -/
theorem rewardsFastest_iff {c : Client} (hc : ∀ q ∈ c.peers, q.upload.choked = true)
    {es : List (Event ρ)} (hr : Run (Along (StepOf step) AddsOnce) { client := c } es s)
    (hs : s.select sel = .ok t) : RewardsFastest s sel t ↔ NoneOvertaken s sel := by
  have h := distinct_run hc hr
  have hsorted : ∀ p ∈ (s.interested sel).take (s.slots sel),
      ∀ q ∈ (s.interested sel).drop (s.slots sel), sel.downloadRate p ≤ sel.downloadRate q := by
    have hall := pairwise_interested s sel
    rw [← List.take_append_drop (s.slots sel) (s.interested sel), List.pairwise_append] at hall
    exact hall.2.2
  rw [rewardsFastest_iff_ranks h hs]
  constructor
  · intro hranks
    by_cases hleft : ∀ q ∈ (s.interested sel).drop (s.slots sel), s.sampled sel = some q
    · exact .inr hleft
    · -- the ranks before and after `q` all have its rate
      push Not at hleft
      obtain ⟨q, hq, hsq⟩ := hleft
      obtain ⟨p, hp, hsp⟩ := exists_ranked h.nodup hq
      have hsame : ∀ r ∈ s.interested sel, s.sampled sel ≠ some r →
          sel.downloadRate r = sel.downloadRate p := by
        intro r hr hsr
        rw [← List.take_append_drop (s.slots sel) (s.interested sel), List.mem_append] at hr
        rcases hr with hr | hr
        · apply le_antisymm
          · exact (hsorted r hr q hq).trans (hranks p hp q hq hsp hsq)
          · exact (hsorted p hp q hq).trans (hranks r hr q hq hsr hsq)
        · exact le_antisymm (hranks p hp r hr hsp hsr) (hsorted p hp r hr)
      exact .inl fun r hr r' hr' hsr hsr' => (hsame r hr hsr).trans (hsame r' hr' hsr').symm
  · rintro (hsame | hleft) p hp q hq hsp hsq
    · exact (hsame q (List.mem_of_mem_drop hq) p (List.mem_of_mem_take hp) hsq hsp).le
    · exact absurd (hleft q hq) hsq

/-- Five peers of the torrent. -/
def fivePeers : Client := twoPeers.addPeer.addPeer.addPeer

/-- The choker gets the peers with these numbers. -/
def adds (n : ℕ) : List (Event ℕ) := (List.range n).map .addPeer

/-- The choker has got two peers. -/
def twoAdded : Choking := { client := twoPeers, choker := { peers := [0, 1] } }

theorem select_twoAdded : ∃ t,
    Run (Along (StepOf step) AddsOnce) { client := twoPeers } (adds 2) twoAdded ∧
      twoAdded.select everybody = .ok t :=
  ⟨_, .cons ⟨rfl, by decide⟩ <| .cons ⟨rfl, by decide⟩ <| .nil _, rfl⟩

theorem rewardsFastest_twoPeers : ∃ s t : Choking,
    Run (Along (StepOf step) AddsOnce) { client := twoPeers } (adds 2) s ∧
      s.select everybody = .ok t ∧ RewardsFastest s everybody t := by
  obtain ⟨t, hr, hs⟩ := select_twoAdded
  exact ⟨_, _, hr, hs, (rewardsFastest_iff (by decide) hr hs).2 (.inr (by decide))⟩

/-- The fastest of five peers is left choked. -/
theorem not_rewardsFastest_fivePeers :
    ¬ ∀ (c : Client) (es : List (Event ℕ)) (s t : Choking) (sel : Selection ℕ),
      (∀ q ∈ c.peers, q.upload.choked = true) →
        Run (Along (StepOf step) AddsOnce) { client := c } es s → s.select sel = .ok t →
          RewardsFastest s sel t := by
  intro h
  have hr : Run (Along (StepOf step) AddsOnce) { client := fivePeers } (adds 5)
      { client := fivePeers, choker := { peers := [0, 1, 2, 3, 4] } } :=
    .cons ⟨rfl, by decide⟩ <| .cons ⟨rfl, by decide⟩ <| .cons ⟨rfl, by decide⟩ <|
      .cons ⟨rfl, by decide⟩ <| .cons ⟨rfl, by decide⟩ <| .nil _
  have hs : ({ client := fivePeers, choker := { peers := [0, 1, 2, 3, 4] } } : Choking).select
      everybody = .ok _ := rfl
  have hfast := h _ _ _ _ _ (by decide) hr hs 0 4 ⟨_, rfl, rfl⟩ rfl (by decide) (by decide) rfl
  exact absurd (hfast (by rintro ⟨q, hq, hopen⟩; cases hq; cases hopen)) (by decide)

/-! ### The number of peers in the slots -/

/-- The active list has no peer twice, only interested peers, and as many as there are slots or
interested peers. -/
structure SlotsFilled (s : Choking) (sel : Selection ρ) (t : Choking) : Prop where
  nodup : t.choker.active.Nodup
  interested : ∀ p ∈ t.choker.active, sel.uploadInterested p = true
  length : t.choker.active.length =
    min LeechChoker.activeSize (s.choker.peers.countP sel.uploadInterested)

/-- The sampled peer is not among those that get a slot by rank. -/
def SampledApart (s : Choking) (sel : Selection ρ) : Prop :=
  ∀ p, s.sampled sel = some p → p ∉ (s.interested sel).take 3

/-- After a `select` the active list is full and without repetition exactly if no peer was sampled, or
one that has no slot by rank. -/
theorem slotsFilled_iff {c : Client} (hc : ∀ q ∈ c.peers, q.upload.choked = true)
    {es : List (Event ρ)} (hr : Run (Along (StepOf step) AddsOnce) { client := c } es s)
    (hs : s.select sel = .ok t) : SlotsFilled s sel t ↔ SampledApart s sel := by
  have hnd := nodup_interested (distinct_run hc hr).nodup sel
  have hactive := active_select hs
  have hlen := length_interested s sel
  constructor
  · intro h p hp hmem
    have hnodup := h.nodup
    rw [hactive, slots_of_some hp, hp, Option.toList_some, List.singleton_append,
      List.nodup_cons] at hnodup
    exact hnodup.1 hmem
  · intro hapart
    have hinterested : ∀ p ∈ t.choker.active, sel.uploadInterested p = true := by
      intro p hp
      rcases (mem_active_select hs).1 hp with hp | hp
      · exact (mem_interested.1 (mem_of_sampled hp)).2
      · exact (mem_interested.1 (List.mem_of_mem_take hp)).2
    rcases hsampled : s.sampled sel with _ | p
    · rw [slots_of_none hsampled, hsampled, Option.toList_none, List.nil_append] at hactive
      refine ⟨?_, hinterested, ?_⟩
      · rw [hactive]
        exact hnd.take
      · rw [hactive, List.length_take, hlen]
        rfl
    · have hp := hapart p hsampled
      rw [slots_of_some hsampled, hsampled, Option.toList_some, List.singleton_append] at hactive
      refine ⟨?_, hinterested, ?_⟩
      · rw [hactive]
        exact List.nodup_cons.2 ⟨hp, hnd.take⟩
      · -- a sampled peer without a slot by rank is a fourth interested one
        have hmany : 3 < (s.interested sel).length := by
          by_contra hfew
          rw [List.take_of_length_le (by omega)] at hp
          exact hp (mem_of_sampled hsampled)
        rw [hactive, List.length_cons, List.length_take, ← hlen]
        have : LeechChoker.activeSize = 4 := rfl
        omega

theorem slotsFilled_twoPeers : ∃ s t : Choking,
    Run (Along (StepOf step) AddsOnce) { client := twoPeers } (adds 2) s ∧
      s.select everybody = .ok t ∧ SlotsFilled s everybody t := by
  obtain ⟨t, hr, hs⟩ := select_twoAdded
  exact ⟨_, _, hr, hs, (slotsFilled_iff (by decide) hr hs).2 fun p hp => nomatch hp⟩

/-- The third `select` takes the only peer twice. -/
theorem not_slotsFilled_third :
    ¬ ∀ (c : Client) (es : List (Event ℕ)) (s t : Choking) (sel : Selection ℕ),
      (∀ q ∈ c.peers, q.upload.choked = true) →
        Run (Along (StepOf step) AddsOnce) { client := c } es s → s.select sel = .ok t →
          SlotsFilled s sel t := by
  intro h
  have hr : Run (Along (StepOf step) AddsOnce) { client := twoPeers }
      [.addPeer 0, .select everybody, .select everybody] _ :=
    .cons ⟨rfl, by decide⟩ <| .cons ⟨rfl, by decide⟩ <| .cons ⟨rfl, by decide⟩ <| .nil _
  have hfilled := (h _ _ _ _ everybody (by decide) hr rfl).length
  exact absurd hfilled (by decide)

/-! ### What is signalled -/

end Choking

namespace Client

variable {c c' : Client} {p : ℕ}

/-- What choking one peer sends. -/
theorem log_chokeUpload (h : c.chokeUpload p = .ok c') : ∃ ns, c'.log = ns ++ c.log ∧
    ∀ k, (.sent k .choke ∈ ns ↔ k = p ∧ c.Unchoked p) ∧ .sent k .unchoke ∉ ns := by
  obtain ⟨q, hq, h⟩ := bind_eq_ok.1 h
  rw [vectorAt_eq_ok] at hq
  have hopen : c.Unchoked p ↔ q.upload.choked = false := by
    simp [Unchoked, hq]
  split_ifs at h with hchoked
  · cases h
    exact ⟨[], rfl, fun k => by simp [hopen, hchoked]⟩
  · cases h
    exact ⟨[.sent p .choke], rfl, fun k => by simp [hopen, hchoked]⟩

/-- What unchoking one peer sends. -/
theorem log_unchokeUpload (h : c.unchokeUpload p = .ok c') : ∃ ns, c'.log = ns ++ c.log ∧
    ∀ k, (.sent k .unchoke ∈ ns ↔ k = p ∧ ¬ c.Unchoked p) ∧ .sent k .choke ∉ ns := by
  obtain ⟨q, hq, h⟩ := bind_eq_ok.1 h
  rw [vectorAt_eq_ok] at hq
  have hopen : c.Unchoked p ↔ q.upload.choked = false := by
    simp [Unchoked, hq]
  split_ifs at h with hchoked
  · cases h
    exact ⟨[.sent p .unchoke], rfl, fun k => by simp [hopen, hchoked]⟩
  · cases h
    exact ⟨[], rfl, fun k => by simp [hopen, hchoked]⟩

/-- The loop over the old list tells those that were unchoked, each once. -/
theorem log_chokeAll {l : List ℕ} (h : l.foldlM chokeUpload c = .ok c') :
    ∃ ns, c'.log = ns ++ c.log ∧
      ∀ k, (.sent k .choke ∈ ns ↔ k ∈ l ∧ c.Unchoked k) ∧ .sent k .unchoke ∉ ns := by
  induction l generalizing c with
  | nil =>
    cases h
    exact ⟨[], rfl, fun k => by simp⟩
  | cons p l ih =>
    rw [List.foldlM_cons] at h
    obtain ⟨c₁, h₁, h⟩ := bind_eq_ok.1 h
    obtain ⟨ns, hns, hone⟩ := log_chokeUpload h₁
    obtain ⟨ms, hms, hall⟩ := ih h
    refine ⟨ms ++ ns, by rw [hms, hns, List.append_assoc], fun k => ⟨?_, ?_⟩⟩
    · rw [List.mem_append, (hall k).1, (hone k).1, unchoked_chokeUpload h₁, List.mem_cons]
      by_cases hk : k = p
      · subst hk
        simp
      · simp [hk]
    · rw [List.mem_append, not_or]
      exact ⟨(hall k).2, (hone k).2⟩

/-- The loop over the new list tells those that were choked. -/
theorem log_unchokeAll {l : List ℕ} (h : l.foldlM unchokeUpload c = .ok c') :
    ∃ ns, c'.log = ns ++ c.log ∧
      ∀ k, (.sent k .unchoke ∈ ns ↔ k ∈ l ∧ ¬ c.Unchoked k) ∧ .sent k .choke ∉ ns := by
  induction l generalizing c with
  | nil =>
    cases h
    exact ⟨[], rfl, fun k => by simp⟩
  | cons p l ih =>
    rw [List.foldlM_cons] at h
    obtain ⟨c₁, h₁, h⟩ := bind_eq_ok.1 h
    obtain ⟨ns, hns, hone⟩ := log_unchokeUpload h₁
    obtain ⟨ms, hms, hall⟩ := ih h
    refine ⟨ms ++ ns, by rw [hms, hns, List.append_assoc], fun k => ⟨?_, ?_⟩⟩
    · rw [List.mem_append, (hall k).1, (hone k).1, unchoked_unchokeUpload h₁, List.mem_cons]
      by_cases hk : k = p
      · subst hk
        simp
      · simp [hk]
    · rw [List.mem_append, not_or]
      exact ⟨(hall k).2, (hone k).2⟩

end Client

namespace Choking

variable {ρ : Type} [LinearOrder ρ] {s t : Choking} {sel : Selection ρ}

/-- What the client has sent from one state to the next. -/
def newNotes (s t : Choking) : List Note :=
  t.client.log.take (t.client.log.length - s.client.log.length)

/-- CHOKE is sent exactly to those that leave the active list, and UNCHOKE to those that join it. -/
def SignalsChanges (s t : Choking) : Prop :=
  ∀ p, (.sent p .choke ∈ newNotes s t ↔ p ∈ s.choker.active ∧ p ∉ t.choker.active) ∧
    (.sent p .unchoke ∈ newNotes s t ↔ p ∈ t.choker.active ∧ p ∉ s.choker.active)

/-- No active peer is sampled or gets a slot by rank. -/
def NobodyStays (s : Choking) (sel : Selection ρ) : Prop :=
  ∀ p ∈ s.choker.active, s.sampled sel ≠ some p ∧ p ∉ (s.interested sel).take (s.slots sel)

/-- A `select` sends CHOKE to all that were active and UNCHOKE to all that are. -/
theorem newNotes_select (h : Agree s) (hs : s.select sel = .ok t) (p : ℕ) :
    (.sent p .choke ∈ newNotes s t ↔ p ∈ s.choker.active) ∧
      (.sent p .unchoke ∈ newNotes s t ↔ p ∈ t.choker.active) := by
  obtain ⟨c, hc, ht, -⟩ := select_eq_ok hs
  obtain ⟨ns, hns, hchoke⟩ := Client.log_chokeAll hc
  obtain ⟨ms, hms, hunchoke⟩ := Client.log_unchokeAll ht
  have hnew : newNotes s t = ms ++ ns := by
    have hlog : t.client.log = (ms ++ ns) ++ s.client.log := by
      rw [hms, hns, List.append_assoc]
    rw [newNotes, hlog, List.length_append, Nat.add_sub_cancel, List.take_left]
  have hclosed : ¬ c.Unchoked p := by
    rw [Client.unchoked_chokeAll hc, h.exact]
    exact fun hp => hp.2 hp.1
  constructor
  · rw [hnew, List.mem_append, (hchoke p).1, h.exact, and_self]
    exact or_iff_right (hunchoke p).2
  · rw [hnew, List.mem_append, (hunchoke p).1]
    simp only [hclosed, not_false_eq_true, and_true]
    exact or_iff_left (hchoke p).2

/-- A `select` signals exactly the changes of the active list if and only if nobody stays in it. -/
theorem signalsChanges_iff {c : Client} (hc : ∀ q ∈ c.peers, q.upload.choked = true)
    {es : List (Event ρ)} (hr : Run (Along (StepOf step) AddsOnce) { client := c } es s)
    (hs : s.select sel = .ok t) : SignalsChanges s t ↔ NobodyStays s sel := by
  have hnotes := newNotes_select (distinct_run hc hr).agree hs
  have hactive : ∀ p, p ∉ t.choker.active ↔
      s.sampled sel ≠ some p ∧ p ∉ (s.interested sel).take (s.slots sel) := by
    intro p
    rw [mem_active_select hs, not_or]
  constructor
  · intro hsig p hp
    rw [← hactive]
    exact ((hsig p).1.1 ((hnotes p).1.2 hp)).2
  · intro hleave p
    rw [(hnotes p).1, (hnotes p).2]
    have hapart : p ∈ s.choker.active → p ∉ t.choker.active := fun hp => (hactive p).2 (hleave p hp)
    constructor
    · exact ⟨fun hp => ⟨hp, hapart hp⟩, And.left⟩
    · exact ⟨fun hp => ⟨hp, fun hold => hapart hold hp⟩, And.left⟩

theorem signalsChanges_twoPeers : ∃ s t : Choking,
    Run (Along (StepOf step) AddsOnce) { client := twoPeers } (adds 2) s ∧
      s.select everybody = .ok t ∧ SignalsChanges s t := by
  obtain ⟨t, hr, hs⟩ := select_twoAdded
  exact ⟨_, _, hr, hs, (signalsChanges_iff (by decide) hr hs).2 fun p hp => absurd hp List.not_mem_nil⟩

/-- The second `select` chokes and unchokes the only peer. -/
theorem not_signalsChanges_second :
    ¬ ∀ (c : Client) (es : List (Event ℕ)) (s t : Choking) (sel : Selection ℕ),
      (∀ q ∈ c.peers, q.upload.choked = true) →
        Run (Along (StepOf step) AddsOnce) { client := c } es s → s.select sel = .ok t →
          SignalsChanges s t := by
  intro h
  have hr : Run (Along (StepOf step) AddsOnce) { client := twoPeers }
      [.addPeer 0, .select everybody] _ :=
    .cons ⟨rfl, by decide⟩ <| .cons ⟨rfl, by decide⟩ <| .nil _
  have hsig := (h _ _ _ _ everybody (by decide) hr rfl 0).1
  exact absurd (hsig.1 (by decide)).2 (by decide)

end Choking

end FTorrent
