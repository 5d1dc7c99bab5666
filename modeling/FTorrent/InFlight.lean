import FTorrent.Queue

/-!
# The counter of blocks in flight

`blocks_in_queue` goes up with every REQUEST and down with every PIECE that arrives, and a CHOKE leaves
it alone.  It is the number of REQUESTs in flight throughout exactly those runs in which every PIECE
answers one of them and a CHOKE finds none (`queueExact_iff`).
-/

namespace FTorrent

open Lib

/-- The REQUESTs sent to the peer that it has neither answered nor discarded with a CHOKE, by piece
index and offset, latest first. -/
def inFlight (p : ℕ) : List Note → List (ℕ × ℕ)
  | .sent q (.request i o _) :: log =>
    if q = p then (i.toNat, o.toNat) :: inFlight p log else inFlight p log
  | .received q (.piece i o _) :: log =>
    if q = p then (inFlight p log).erase (i.toNat, o.toNat) else inFlight p log
  | .received q .choke :: log => if q = p then [] else inFlight p log
  | _ :: log => inFlight p log
  | [] => []

theorem Note.Aside.inFlight {n : Note} (h : n.Aside) (p : ℕ) (log : List Note) :
    inFlight p (n :: log) = inFlight p log := by
  cases n with
  | sent q msg =>
    cases msg with
    | request => cases h
    | _ => rfl
  | reset i => rfl
  | received | removed => cases h

theorem tally_inFlight : Tally fun k log => (inFlight k log).length where
  nil _ := rfl
  request p i o l k log := by
    rw [inFlight]
    split_ifs
    · rfl
    · rfl
  aside hn k log := by rw [hn.inFlight]
  removed _ _ _ := rfl

namespace Client

variable {sha1 : List UInt8 → Hash} {m : Metainfo} {content : ℕ → UInt8} {c c' : Client} {p : ℕ}

/-- Every `blocks_in_queue` is the number of REQUESTs in flight to the peer. -/
def QueueExact (c : Client) : Prop :=
  ∀ k q, c.peers[k]? = some q → q.blocksInQueue = (inFlight k c.log).length

/-- A PIECE answers a REQUEST in flight to its sender, and a CHOKE finds none in flight. -/
def Accounted (c : Client) : Event → Prop
  | .message _ p (.piece i o _) => (i.toNat, o.toNat) ∈ inFlight p c.log
  | .message _ p .choke => inFlight p c.log = []
  | _ => True

theorem queueExact_of_inv (h : QueueInv (fun k log => (inFlight k log).length) m c) :
    QueueExact c := by
  intro k q hq
  rw [← queueOf_of_getElem? hq]
  exact h.exact k

/-- A message that is accounted for delivers as many blocks as it takes from those in flight. -/
theorem Accounted.length_inFlight {ch : SortChoice} {msg : Message}
    (hC : c.Accounted (.message ch p msg)) (k : ℕ) :
    (inFlight k (.received p msg :: c.log)).length + (if p = k then msg.blocks else 0) =
      (inFlight k c.log).length := by
  by_cases hk : p = k
  · subst hk
    rw [if_pos rfl]
    cases msg with
    | piece i o d =>
      have hmem : (i.toNat, o.toNat) ∈ inFlight p c.log := hC
      have hpos := List.length_pos_of_mem hmem
      rw [inFlight, if_pos rfl, List.length_erase_of_mem hmem, Message.blocks]
      omega
    | choke =>
      have hnone : inFlight p c.log = [] := hC
      rw [inFlight, if_pos rfl, hnone]
      rfl
    | _ => rfl
  · rw [if_neg hk]
    cases msg with
    | piece => rw [inFlight, if_neg hk, Nat.add_zero]
    | choke => rw [inFlight, if_neg hk, Nat.add_zero]
    | _ => rfl

/-! ### The messages that break it -/

/-- The counter of the peer is one below the number of its REQUESTs in flight. -/
structure OneShort (p : ℕ) (c : Client) : Prop where
  joined : (c.peerCore p).isSome
  short : u32 (c.queueOf p + 1) = u32 (inFlight p c.log).length

theorem OneShort.not_queueExact (h : OneShort p c) : ¬ QueueExact c := by
  intro hexact
  obtain ⟨q, hq⟩ := exists_peer h.joined
  have hshort := h.short
  rw [queueOf_of_getElem? hq, hexact p q hq, u32, u32] at hshort
  omega

theorem OneShort.requestPiece (h : OneShort p c) (r : ℕ) : OneShort p (c.requestPiece p r) := by
  rcases hr : c.torrent.pieces[r]? with _ | piece
  · rwa [requestPiece_of_none hr]
  · refine ⟨?_, ?_⟩
    · rw [isSome_peerCore_requestPiece]
      exact h.joined
    · have hshort := h.short
      have hcount := tally_requestPiece tally_inFlight hr p p
      rw [queueOf_requestPiece hr h.joined, hcount, if_pos rfl]
      unfold u32 at hshort ⊢
      omega

/-- Every other PIECE or CHOKE leaves the counter wrong. -/
theorem not_queueExact_of_not_accounted {ev : Event}
    (h : QueueInv (fun k log => (inFlight k log).length) m c) (hs : c.step sha1 ev = .ok c')
    (hC : ¬ c.Accounted ev) : ¬ QueueExact c' := by
  cases ev with
  | message ch p msg =>
    obtain ⟨hp, hs⟩ := message_eq_ok.1 hs
    have hjoined := h.sound.registered p hp
    have hexact := h.exact p
    cases msg with
    | piece i o d =>
      apply OneShort.not_queueExact (p := p)
      apply messageHandler_induction hs
      · intro c₁ b h₁
        obtain ⟨ns, hns, hA⟩ := log_handleMessage h₁
        have hnot : (i.toNat, o.toNat) ∉ inFlight p c.log := hC
        refine ⟨?_, ?_⟩
        · rw [isSome_peerCore_handleMessage h₁]
          exact hjoined
        · rw [queueOf_piece h₁ hjoined, hexact, hns,
            history_append fun n hn log => (hA n hn).inFlight p log, inFlight, if_pos rfl,
            List.erase_of_not_mem hnot]
          unfold u32
          omega
      · exact fun c pk _ h => ⟨h.joined, h.short⟩
      · exact fun c r h _ => h.requestPiece r
    | choke =>
      have hsome : inFlight p c.log ≠ [] := hC
      cases hs
      intro hwrong
      obtain ⟨q, hq⟩ := exists_peer hjoined
      have hqueue := hwrong p (q.setDownload (·.setChoked true)) (by simp [note, modifyPeer, hq])
      rw [queueOf_of_getElem? hq] at hexact
      have hnone : (inFlight p (Note.received p .choke :: c.log)).length = 0 := by simp [inFlight]
      have : q.blocksInQueue = 0 := hqueue.trans hnone
      exact hsome (List.length_eq_zero_iff.1 (hexact.symm.trans this))
    | _ => exact absurd trivial hC
  | _ => exact absurd trivial hC

/-- The counter is exact throughout exactly those runs in which every PIECE answers a REQUEST in flight
and no CHOKE finds one. -/
theorem queueExact_iff (sha1 : List UInt8 → Hash) (m : Metainfo) (content : ℕ → UInt8)
    (es : List Event) :
    Always (StepOf (step sha1)) QueueExact (init m content) es ↔
      Each (StepOf (step sha1)) Accounted (init m content) es :=
  always_iff_each (R := StepOf (step sha1)) (J := QueueInv (fun k log => (inFlight k log).length) m)
    (fun _ h => queueExact_of_inv h)
    (fun _ _ _ h hs hC => h.step tally_inFlight hs fun _ _ _ he => (he ▸ hC).length_inFlight)
    (fun _ _ t h hs hC => ⟨t, hs, not_queueExact_of_not_accounted h hs hC⟩) (.init tally_inFlight)

/-- A peer sends a block that nobody asked for. -/
def unsolicited : List Event :=
  [.addPeer, .message ⟨.reverseTies, .still ℕ⟩ 0 (.piece 0 0 [0])]

theorem not_queueExact_unsolicited :
    ¬ ∀ (sha1 : List UInt8 → Hash) (m : Metainfo) (content : ℕ → UInt8) (es : List Event),
      Always (StepOf (step sha1)) QueueExact (init m content) es := by
  intro h
  obtain ⟨c, hr, hqueue, hnone⟩ : ∃ c, Run (StepOf (step fun _ => Vector.replicate 20 0))
      (init oneByte fun _ => 0) unsolicited c ∧
      (c.peers[0]?.map (·.blocksInQueue)) = some (2 ^ 32 - 1) ∧ inFlight 0 c.log = [] :=
    exists_run (by decide +kernel)
  have hexact := (h _ _ _ _).of_run hr
  obtain ⟨q, hq, hb⟩ := Option.map_eq_some_iff.1 hqueue
  have := hexact 0 q hq
  rw [hb, hnone] at this
  cases this

end Client

end FTorrent
