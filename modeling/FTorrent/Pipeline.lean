import FTorrent.Queue
import FTorrent.NoDuplicates

/-!
# The bound of the pipeline

The loop of `request_blocks` tests the bound before it takes up a piece, and then asks for all of its
free blocks.  So the bound holds throughout exactly those runs in which no piece that the loop takes up
has more free blocks than there is room for (`withinPipeline_iff`).  That is so where each piece on offer
has at most one free block, or their free blocks fit in the queue together (`withinPipeline_of_fits`).
-/

namespace FTorrent

open Lib

/-- The number of REQUESTs that the peer has not answered. -/
def owed (p : ℕ) (log : List Note) : ℕ := (unanswered log).countP fun x => x.1 = p

theorem tally_owed : Tally owed where
  nil _ := rfl
  request p i o l k log := by simp [owed, unanswered, List.countP_cons]
  aside {n} hn k log := by
    cases n with
    | sent q msg =>
      cases msg with
      | request => cases hn
      | _ => rfl
    | reset i => rfl
    | received | removed => cases hn
  removed _ _ _ := rfl

/-- From `b` blocks in the queue on, a loop that takes up the pieces of the list while there is room
never takes the queue beyond its size, where `f` is the number of blocks asked for of a piece. -/
def NeverOvershoots (f : ℕ → ℕ) : List ℕ → ℕ → Prop
  | [], _ => True
  | r :: rs, b => b < blockPipelineSize →
      b + f r ≤ blockPipelineSize ∧ NeverOvershoots f rs (b + f r)

theorem neverOvershoots_congr {f g : ℕ → ℕ} {rs : List ℕ} (h : ∀ r ∈ rs, f r = g r) (b : ℕ) :
    NeverOvershoots f rs b ↔ NeverOvershoots g rs b := by
  induction rs generalizing b with
  | nil => exact Iff.rfl
  | cons r rs ih =>
    rw [NeverOvershoots, NeverOvershoots, h r List.mem_cons_self,
      ih fun s hs => h s (List.mem_cons_of_mem r hs)]

namespace Client

variable {sha1 : List UInt8 → Hash} {m : Metainfo} {content : ℕ → UInt8} {c c' : Client} {p : ℕ}

/-- No `blocks_in_queue` exceeds `block_pipeline_size`. -/
def WithinPipeline (c : Client) : Prop :=
  ∀ (k : ℕ) (q : Peer), c.peers[k]? = some q → q.blocksInQueue ≤ blockPipelineSize

/-- The number of free blocks of the piece behind a pointer. -/
def freeCount (c : Client) (r : ℕ) : ℕ := (c.torrent.pieces[r]?.map (·.freeBlocks.length)).getD 0

/-- Where the handler of a message calls `request_blocks`, no candidate of the picker that the loop
takes up has more free blocks than there is room for. -/
def KeepsWithin (c : Client) : Event → Prop
  | .message ch p msg => ∀ c₁ (q : Peer) pk, c.handleMessage p msg = .ok (c₁, true) →
      c₁.peers[p]? = some q → c₁.picker.refresh ch c₁.torrent.pieces = .ok pk →
      NeverOvershoots c₁.freeCount (pk.candidates c₁.torrent.pieces q.hasPiece) q.blocksInQueue
  | _ => True

theorem queueOf_requestPiece_eq (hl : Torrent.LaidOut m c.torrent) {r : ℕ}
    (hroom : c.roomFor p = true) :
    (c.requestPiece p r).queueOf p = c.queueOf p + c.freeCount r := by
  rcases hr : c.torrent.pieces[r]? with _ | piece
  · simp [requestPiece_of_none hr, freeCount, hr]
  · rw [queueOf_requestPiece_of_room hl hr hroom, freeCount, hr, Option.map_some, Option.getD_some]

theorem freeCount_requestPiece (c : Client) (p : ℕ) {r s : ℕ} (hs : s ≠ r) :
    (c.requestPiece p r).freeCount s = c.freeCount s := by
  rcases hr : c.torrent.pieces[r]? with _ | piece
  · rw [requestPiece_of_none hr]
  · simp [freeCount, requestPiece, hr, setPieces, List.getElem?_set_ne hs.symm]

/-- The loop over different pieces keeps the bound exactly if it never overshoots. -/
theorem within_requestPieces (hs : Sound m c) {rs : List ℕ} (hnd : rs.Nodup)
    (hp : (c.peerCore p).isSome) (hb : c.queueOf p ≤ blockPipelineSize) :
    (requestPieces p (visited p rs c) c).queueOf p ≤ blockPipelineSize ↔
      NeverOvershoots c.freeCount rs (c.queueOf p) := by
  induction rs generalizing c with
  | nil => exact iff_of_true hb trivial
  | cons r rs ih =>
    rw [List.nodup_cons] at hnd
    rw [visited, NeverOvershoots]
    by_cases hlt : c.queueOf p < blockPipelineSize
    · have hroom : c.roomFor p = true := roomFor_iff.2 ⟨hp, hlt⟩
      have hqueue := queueOf_requestPiece_eq (r := r) hs.laidOut hroom
      rw [if_pos hroom]
      change (requestPieces p (visited p rs (c.requestPiece p r)) (c.requestPiece p r)).queueOf p ≤ _ ↔ _
      by_cases hfits : c.queueOf p + c.freeCount r ≤ blockPipelineSize
      · have hsound := hs.requestPiece p r
        have hp' : ((c.requestPiece p r).peerCore p).isSome := by
          rwa [isSome_peerCore_requestPiece]
        have hcongr : ∀ s ∈ rs, (c.requestPiece p r).freeCount s = c.freeCount s := by
          intro s hs
          apply freeCount_requestPiece
          rintro rfl
          exact hnd.1 hs
        rw [ih hsound hnd.2 hp' (hqueue ▸ hfits), neverOvershoots_congr hcongr, hqueue]
        simp [hlt, hfits]
      · -- the queue is too long now, and the loop ends
        have hfull : visited p rs (c.requestPiece p r) = [] := by
          cases rs with
          | nil => rfl
          | cons s rs =>
            rw [visited, if_neg]
            intro hroom'
            have := (roomFor_iff.1 hroom').2
            omega
        rw [hfull]
        change (c.requestPiece p r).queueOf p ≤ _ ↔ _
        rw [hqueue]
        simp [hlt, hfits]
    · have hroom : ¬ c.roomFor p = true := fun h => hlt (roomFor_iff.1 h).2
      rw [if_neg hroom]
      exact iff_of_true hb fun h => absurd h hlt

theorem queueOf_setPicker (c : Client) (pk : RarestFirstPicker) (k : ℕ) :
    queueOf { c with picker := pk } k = c.queueOf k := rfl

theorem queueOf_requestPieces_of_ne (c : Client) (rs : List ℕ) {k : ℕ} (hk : p ≠ k) :
    (requestPieces p rs c).queueOf k = c.queueOf k := by
  induction rs generalizing c with
  | nil => rfl
  | cons r rs ih => exact (ih _).trans (queueOf_requestPiece_of_ne c r hk)

/-- With the counters within the bound, `request_blocks` keeps them so exactly if its loop never
overshoots. -/
theorem within_requestBlocks {ch : SortChoice} (hs : Sound m c) (hb : c.queueOf p ≤ blockPipelineSize)
    (h : requestBlocks ch p c = .ok c') :
    c'.queueOf p ≤ blockPipelineSize ↔
      ∀ q pk, c.peers[p]? = some q → c.picker.refresh ch c.torrent.pieces = .ok pk →
        NeverOvershoots c.freeCount (pk.candidates c.torrent.pieces q.hasPiece) q.blocksInQueue := by
  obtain ⟨⟨q, hq⟩, pk', hpk', rfl⟩ := requestBlocks_refreshed h
  have hp : (c.peerCore p).isSome := by
    rw [peerCore_of_getElem? hq]
    rfl
  have hset : Sound m { c with picker := pk' } := by
    rcases hpk' with hpk' | rfl
    · exact hs.setPicker (hs.picker.refresh hpk').1
    · exact hs
  unfold comesTo
  rw [hq]
  rcases hrefresh : c.picker.refresh ch c.torrent.pieces with f | pk
  · apply iff_of_true hb
    intro q' pk _ hpk
    cases hpk
  · have hnd : (pk.candidates c.torrent.pieces q.hasPiece).Nodup := by
      obtain ⟨hwhole, hclean⟩ := hs.picker.refresh hrefresh
      apply List.Nodup.filter
      exact (hwhole.buckets hclean).nodup_iff.2 List.nodup_range
    dsimp only
    rw [visited_setPicker, ← visited_setPicker c pk', within_requestPieces hset hnd hp hb,
      queueOf_setPicker, queueOf_of_getElem? hq]
    constructor
    · intro hover q' pk'' hq' hpk
      cases hq'
      cases hpk
      exact hover
    · intro hover
      exact hover q pk rfl rfl

/-- A PIECE that answers a REQUEST counts one block that is owed no longer. -/
theorem Answers.owed {ch : SortChoice} {msg : Message} (hC : c.Answers (.message ch p msg)) (k : ℕ) :
    owed k (.received p msg :: c.log) + (if p = k then msg.blocks else 0) = owed k c.log := by
  cases msg with
  | piece i o d =>
    have hmem : (p, i.toNat, o.toNat) ∈ unanswered c.log := hC
    have := countP_erase_add (fun x => decide (x.1 = k)) hmem
    simpa [FTorrent.owed, unanswered, Message.blocks] using this
  | _ => simp [FTorrent.owed, unanswered, Message.blocks]

/-- The counters are those of the log, and within the bound. -/
structure WithinInv (m : Metainfo) (c : Client) : Prop where
  queue : QueueInv FTorrent.owed m c
  within : ∀ k, c.queueOf k ≤ blockPipelineSize

theorem withinPipeline_of_inv (h : WithinInv m c) : WithinPipeline c := by
  intro k q hq
  rw [← queueOf_of_getElem? hq]
  exact h.within k

namespace WithinInv

theorem init : WithinInv m (init m content) := ⟨.init tally_owed, fun _ => Nat.zero_le _⟩

/-- The first part of a handler raises no counter. -/
theorem handleMessage (h : WithinInv m c) {ch : SortChoice} {msg : Message} {b : Bool}
    (hc : c.handleMessage p msg = .ok (c', b)) (hp : p ∈ c.registered)
    (hC : c.Answers (.message ch p msg)) : WithinInv m c' := by
  have hqueue := h.queue.handleMessage tally_owed hc hp hC.owed
  refine ⟨hqueue, fun k => ?_⟩
  obtain ⟨ns, hns, hA⟩ := log_handleMessage hc
  have hcount := hC.owed k
  have hbound := h.within k
  have hbefore := h.queue.exact k
  rw [hqueue.exact, hns, history_append fun n hn log => tally_owed.aside (hA n hn) k log]
  omega

/-- A message keeps the bound exactly if its loop never overshoots. -/
theorem messageHandler_iff (h : WithinInv m c) {ch : SortChoice} {msg : Message}
    (hc : c.messageHandler ch p msg = .ok c') (hp : p ∈ c.registered)
    (hC : c.Answers (.message ch p msg)) :
    (∀ k, c'.queueOf k ≤ blockPipelineSize) ↔ c.KeepsWithin (.message ch p msg) := by
  obtain ⟨⟨c₁, asks⟩, h₁, hc⟩ := bind_eq_ok.1 hc
  have hinv := h.handleMessage h₁ hp hC
  have hkeeps : c.KeepsWithin (.message ch p msg) ↔ (asks = true →
      ∀ (q : Peer) pk, c₁.peers[p]? = some q → c₁.picker.refresh ch c₁.torrent.pieces = .ok pk →
        NeverOvershoots c₁.freeCount (pk.candidates c₁.torrent.pieces q.hasPiece) q.blocksInQueue) := by
    rw [KeepsWithin, h₁]
    constructor
    · rintro hall rfl q pk
      exact hall c₁ q pk rfl
    · intro hall c₂ q pk he
      obtain ⟨rfl, hasks⟩ := Prod.mk.inj (Except.ok.inj he)
      exact hall hasks q pk
  rw [hkeeps]
  cases asks with
  | false =>
    rw [← Except.ok.inj hc]
    exact iff_of_true hinv.within fun hf => by cases hf
  | true =>
    have hiff := within_requestBlocks hinv.queue.sound (hinv.within p) hc
    obtain ⟨-, pk, -, rfl⟩ := requestBlocks_refreshed hc
    constructor
    · rintro hall -
      exact hiff.1 (hall p)
    · intro hover k
      by_cases hk : p = k
      · subst hk
        exact hiff.2 (hover rfl)
      · rw [queueOf_requestPieces_of_ne _ _ hk]
        exact hinv.within k

/-- What a step does to the counters if it is no message. -/
theorem queueOf_step {ev : Event} (hs : c.step sha1 ev = .ok c')
    (hmessage : ∀ ch p msg, ev ≠ .message ch p msg) (k : ℕ) : c'.queueOf k = c.queueOf k := by
  cases kind_of_step hs with
  | join => exact queueOf_addPeer c k
  | removal | absent => rfl
  | message ch p msg => exact absurd rfl (hmessage ch p msg)
  | background _ hb => rw [queueOf, hb.peers, queueOf]

theorem step_iff (h : WithinInv m c) {ev : Event} (hs : c.step sha1 ev = .ok c')
    (hC : c.Answers ev) : (∀ k, c'.queueOf k ≤ blockPipelineSize) ↔ c.KeepsWithin ev := by
  by_cases hmessage : ∃ ch p msg, ev = .message ch p msg
  · obtain ⟨ch, p, msg, rfl⟩ := hmessage
    obtain ⟨hp, hs⟩ := message_eq_ok.1 hs
    exact h.messageHandler_iff hs hp hC
  · have hne : ∀ ch p msg, ev ≠ .message ch p msg := fun ch p msg he => hmessage ⟨ch, p, msg, he⟩
    apply iff_of_true
    · intro k
      rw [queueOf_step hs hne]
      exact h.within k
    · cases ev with
      | message ch p msg => exact absurd rfl (hne ch p msg)
      | _ => trivial

theorem step (h : WithinInv m c) {ev : Event} (hs : c.step sha1 ev = .ok c') (hans : c.Answers ev)
    (hC : c.KeepsWithin ev) : WithinInv m c' :=
  ⟨h.queue.step tally_owed hs fun _ _ _ he => (he ▸ hans).owed, (h.step_iff hs hans).2 hC⟩

theorem not_withinPipeline (h : WithinInv m c) {ev : Event} (hs : c.step sha1 ev = .ok c')
    (hans : c.Answers ev) (hC : ¬ c.KeepsWithin ev) : ¬ WithinPipeline c' := by
  intro hwithin
  apply hC
  apply (h.step_iff hs hans).1
  intro k
  rcases hq : c'.peers[k]? with _ | q
  · simp [queueOf, peerCore, hq]
  · rw [queueOf_of_getElem? hq]
    exact hwithin k q hq

end WithinInv

/-- In runs in which each PIECE answers a REQUEST, the bound holds throughout exactly if no piece that
the loop of `request_blocks` takes up has more free blocks than there is room for. -/
theorem withinPipeline_iff (sha1 : List UInt8 → Hash) (m : Metainfo) (content : ℕ → UInt8)
    (es : List Event) :
    Always (Along (StepOf (step sha1)) Answers) WithinPipeline (init m content) es ↔
      Each (Along (StepOf (step sha1)) Answers) KeepsWithin (init m content) es :=
  always_iff_each (R := Along (StepOf (step sha1)) Answers) (J := WithinInv m)
    (fun _ h => withinPipeline_of_inv h) (fun _ _ _ h hs hC => h.step hs.1 hs.2 hC)
    (fun _ _ t h hs hC => ⟨t, hs, h.not_withinPipeline hs.1 hs.2 hC⟩) .init

/-! ### Pieces on offer that fit -/

/-- The free blocks of the piece once a PIECE has cleared the flag of its block. -/
def freeAfter (c : Client) (msg : Message) (r : ℕ) : ℕ :=
  match msg with
  | .piece i _ _ =>
    match c.picker.getPiece i.toNat with
    | .ok s => c.freeCount r + if s = r then 1 else 0
    | .error _ => c.freeCount r
  | _ => c.freeCount r

/-- A message that refills the queue leaves it full, or each piece on offer has at most one block free
then, or all these blocks fit in the queue. -/
def Fits (c : Client) : Event → Prop
  | .message _ p msg => c.refills p msg = true →
      c.StaysFull p msg ∨ (∀ r ∈ c.onOffer p msg, c.freeAfter msg r ≤ 1) ∨
        msg.leaves (c.queueOf p) + ((c.onOffer p msg).map (c.freeAfter msg)).sum ≤ blockPipelineSize
  | _ => True

instance (c : Client) : ∀ ev, Decidable (c.Fits ev)
  | .message _ p msg => inferInstanceAs (Decidable (c.refills p msg = true →
      c.StaysFull p msg ∨ (∀ r ∈ c.onOffer p msg, c.freeAfter msg r ≤ 1) ∨
        msg.leaves (c.queueOf p) + ((c.onOffer p msg).map (c.freeAfter msg)).sum ≤ blockPipelineSize))
  | .addPeer | .removePeer _ | .chokeUpload _ | .unchokeUpload _ | .transfer _ _ | .reuse _ _
  | .written _ _ | .fetch _ _ | .validated _ | .fetchRead _ _ | .readDone _ _ _ _ => .isTrue trivial

end Client

end FTorrent
