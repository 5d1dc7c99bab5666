import FTorrent.Refill

/-!
# REQUESTs and the choking of the download

UNCHOKE and HAVE ask for blocks only while the download channel is not choked, but PIECE asks whatever
its state is, if there is room in the queue.  In runs in which no PIECE from a peer that chokes us leaves
room there, REQUESTs go only to peers that do not choke us (`requestsUnchoked_of_piecesUnchoked`).
-/

namespace FTorrent

open Lib

/-- The last CHOKE or UNCHOKE received from the peer was UNCHOKE. -/
def unchokedBy (p : ℕ) : List Note → Bool
  | .received q .choke :: log => if q = p then false else unchokedBy p log
  | .received q .unchoke :: log => if q = p then true else unchokedBy p log
  | _ :: log => unchokedBy p log
  | [] => false

/-- Every REQUEST in the log was sent to a peer whose last CHOKE or UNCHOKE was UNCHOKE. -/
def RequestsUnchoked : List Note → Prop
  | .sent p (.request _ _ _) :: log => unchokedBy p log = true ∧ RequestsUnchoked log
  | _ :: log => RequestsUnchoked log
  | [] => True

theorem Note.Aside.unchokedBy {n : Note} (h : n.Aside) (p : ℕ) (log : List Note) :
    unchokedBy p (n :: log) = unchokedBy p log := by
  cases n with
  | sent q msg => rfl
  | reset i => rfl
  | received | removed => cases h

theorem Note.Aside.requestsUnchoked {n : Note} (h : n.Aside) (log : List Note) :
    RequestsUnchoked (n :: log) = RequestsUnchoked log := by
  cases n with
  | sent q msg =>
    cases msg with
    | request => cases h
    | _ => rfl
  | reset i => rfl
  | received | removed => cases h

section Requests

variable (piece : Piece) (p : ℕ)

/-- REQUESTs move no peer's last CHOKE or UNCHOKE. -/
theorem unchokedBy_requests (bs : List Block) (k : ℕ) (log : List Note) :
    unchokedBy k ((bs.map fun b => .sent p (piece.requestFor b)).reverse ++ log) =
      unchokedBy k log := by
  apply history_append
  intro n hn log
  obtain ⟨b, -, rfl⟩ := List.mem_map.1 (List.mem_reverse.1 hn)
  rfl

theorem requestsUnchoked_requests (bs : List Block) {log : List Note}
    (hp : unchokedBy p log = true) (h : RequestsUnchoked log) :
    RequestsUnchoked ((bs.map fun b => .sent p (piece.requestFor b)).reverse ++ log) := by
  induction bs generalizing log with
  | nil => exact h
  | cons b bs ih =>
    simp only [List.map_cons, List.reverse_cons, List.append_assoc, List.singleton_append]
    exact ih hp ⟨hp, h⟩

end Requests

namespace Client

variable {sha1 : List UInt8 → Hash} {m : Metainfo} {content : ℕ → UInt8} {c c' : Client} {p : ℕ}

/-- A PIECE from a peer that chokes us leaves its queue full. -/
def PiecesUnchoked (c : Client) : Event → Prop
  | .message _ p (.piece i o d) => c.letsUs p = true ∨ c.StaysFull p (.piece i o d)
  | _ => True

theorem letsUs_requestPiece (c : Client) (p r k : ℕ) : (c.requestPiece p r).letsUs k = c.letsUs k := by
  rcases hr : c.torrent.pieces[r]? with _ | piece
  · rw [requestPiece_of_none hr]
  · rw [letsUs, peerCore_requestPiece hr, Option.map_map, letsUs]
    congr 2
    funext q
    dsimp only [Function.comp_apply]
    split_ifs
    · rw [Peer.setQueue_download]
    · rfl

theorem unchokedBy_requestPiece (c : Client) (p r k : ℕ) :
    unchokedBy k (c.requestPiece p r).log = unchokedBy k c.log := by
  rcases hr : c.torrent.pieces[r]? with _ | piece
  · rw [requestPiece_of_none hr]
  · rw [log_requestPiece hr, unchokedBy_requests]

/-- The client stands with what it has been told, and asked only while it was let. -/
structure ChokeInv (m : Metainfo) (c : Client) : Prop where
  sound : Sound m c
  told : ∀ k, c.letsUs k = unchokedBy k c.log
  asked : RequestsUnchoked c.log

namespace ChokeInv

theorem init : ChokeInv m (init m content) := ⟨.init, fun _ => rfl, trivial⟩

theorem of_background (h : ChokeInv m c) (hb : Background c c')
    (hl : Torrent.LaidOut m c'.torrent) : ChokeInv m c' := by
  obtain ⟨ns, hns, hA⟩ := hb.log
  refine ⟨h.sound.of_background hb hl, fun k => ?_, ?_⟩
  · rw [letsUs, hb.peers, hns, history_append fun n hn log => (hA n hn).unchokedBy k log]
    exact h.told k
  · rw [hns, history_append fun n hn log => (hA n hn).requestsUnchoked log]
    exact h.asked

theorem setPicker (h : ChokeInv m c) {pk : RarestFirstPicker} (hpk : pk.Whole m.pieces.length) :
    ChokeInv m { c with picker := pk } :=
  ⟨h.sound.setPicker hpk, h.told, h.asked⟩

theorem requestPiece (h : ChokeInv m c) (hp : c.letsUs p = true) (r : ℕ) :
    ChokeInv m (c.requestPiece p r) := by
  refine ⟨h.sound.requestPiece p r, fun k => ?_, ?_⟩
  · rw [letsUs_requestPiece, unchokedBy_requestPiece]
    exact h.told k
  · rcases hr : c.torrent.pieces[r]? with _ | piece
    · rw [requestPiece_of_none hr]
      exact h.asked
    · rw [log_requestPiece hr]
      rw [h.told] at hp
      exact requestsUnchoked_requests piece p _ hp h.asked

theorem requestPieces (h : ChokeInv m c) (hp : c.letsUs p = true) (rs : List ℕ) :
    ChokeInv m (requestPieces p rs c) := by
  induction rs generalizing c with
  | nil => exact h
  | cons r rs ih =>
    apply ih (h.requestPiece hp r)
    rwa [letsUs_requestPiece]

/-- The first part of a message handler. -/
theorem handleMessage (h : ChokeInv m c) {msg : Message} {b : Bool}
    (hc : c.handleMessage p msg = .ok (c', b)) (hp : p ∈ c.registered) : ChokeInv m c' := by
  have hjoined := h.sound.registered p hp
  obtain ⟨ns, hns, hA⟩ := log_handleMessage hc
  refine ⟨h.sound.handleMessage hc, fun k => ?_, ?_⟩
  · have htold := h.told k
    rw [letsUs, peerCore_handleMessage hc, hns,
      history_append fun n hn log => (hA n hn).unchokedBy k log]
    by_cases hk : p = k
    · subst hk
      obtain ⟨q, hq⟩ := Option.isSome_iff_exists.1 hjoined
      rw [letsUs, hq, Option.map_some, Option.getD_some] at htold
      rw [hq, Option.map_some, if_pos rfl, Option.map_some, Option.getD_some]
      cases msg with
      | choke => simp [unchokedBy, Message.effect, Peer.setDownload, DataChannel.setChoked]
      | unchoke => simp [unchokedBy, Message.effect, Peer.setDownload, DataChannel.setChoked]
      | piece i o d =>
        rw [Message.effect_piece, Peer.setQueue_download]
        exact htold
      | _ => exact htold
    · simp only [hk, if_false, Option.map_id']
      rw [letsUs] at htold
      cases msg with
      | choke => rw [unchokedBy, if_neg hk, htold]
      | unchoke => rw [unchokedBy, if_neg hk, htold]
      | _ => exact htold
  · rw [hns, history_append fun n hn log => (hA n hn).requestsUnchoked log]
    exact h.asked

end ChokeInv

/-- UNCHOKE and HAVE ask only while the channel is not choked. -/
theorem letsUs_of_asks {msg : Message} (h : c.handleMessage p msg = .ok (c', true))
    (hp : (c.peerCore p).isSome) (hpiece : ∀ i o d, msg ≠ .piece i o d) : c'.letsUs p = true := by
  cases msg with
  | unchoke =>
    obtain ⟨q, hq⟩ := Option.isSome_iff_exists.1 hp
    rw [letsUs, peerCore_handleMessage h, hq, Option.map_some, if_pos rfl]
    rfl
  | haveMsg i => exact (letsUs_handleMessage h fun _ => rfl).trans (refills_of_handleMessage h)
  | piece i o d => exact absurd rfl (hpiece i o d)
  | _ => cases refills_of_handleMessage h

theorem ChokeInv.messageHandler (h : ChokeInv m c) {ch : SortChoice} {msg : Message}
    (hc : c.messageHandler ch p msg = .ok c') (hp : p ∈ c.registered)
    (hC : c.PiecesUnchoked (.message ch p msg)) : ChokeInv m c' := by
  obtain ⟨⟨c₁, asks⟩, h₁, hc⟩ := bind_eq_ok.1 hc
  have hinv := h.handleMessage h₁ hp
  cases asks with
  | false => exact Except.ok.inj hc ▸ hinv
  | true =>
    obtain ⟨-, pk, hpk, rfl⟩ := requestBlocks_refreshed hc
    have hpicker : ChokeInv m { c₁ with picker := pk } := by
      rcases hpk with hpk | rfl
      · exact hinv.setPicker (hinv.sound.picker.refresh hpk).1
      · exact hinv
    by_cases hpiece : ∃ i o d, msg = .piece i o d
    · obtain ⟨i, o, d, rfl⟩ := hpiece
      rcases hC with hlets | hfull
      · apply hpicker.requestPieces
        refine (letsUs_handleMessage h₁ fun q => ?_).trans hlets
        rw [Message.effect_piece, Peer.setQueue_download]
      · rw [comesTo_of_staysFull ch h₁ hfull]
        exact hpicker
    · apply hpicker.requestPieces
      apply letsUs_of_asks h₁ (h.sound.registered p hp)
      exact fun i o d he => hpiece ⟨i, o, d, he⟩

theorem ChokeInv.step {ev : Event} (h : ChokeInv m c) (hs : c.step sha1 ev = .ok c')
    (hC : c.PiecesUnchoked ev) : ChokeInv m c' := by
  have hsound := h.sound.step hs
  cases kind_of_step hs with
  | join =>
    refine ⟨hsound, fun k => ?_, h.asked⟩
    have hlets : c.addPeer.letsUs k = c.letsUs k := by
      apply addPeer_unseen fun q => (q.map fun q => !q.download.choked).getD false
      rfl
    exact hlets.trans (h.told k)
  | removal p hp => exact ⟨hsound, h.told, h.asked⟩
  | absent p hp => exact h
  | message ch p msg hp hmsg => exact h.messageHandler hmsg hp hC
  | background _ hb => exact h.of_background hb hsound.laidOut

/-- REQUESTs go only to peers that do not choke us in every run in which a PIECE from a peer that does
leaves its queue full. -/
theorem requestsUnchoked_of_piecesUnchoked (sha1 : List UInt8 → Hash) (m : Metainfo)
    (content : ℕ → UInt8) {es : List Event} {c : Client}
    (hr : Run (Along (StepOf (step sha1)) PiecesUnchoked) (init m content) es c) :
    RequestsUnchoked c.log := by
  have hinv : ChokeInv m c := hr.invariant (fun _ _ _ h ⟨hs, hC⟩ => h.step hs hC) ChokeInv.init
  exact hinv.asked

instance (c : Client) : ∀ ev, Decidable (c.PiecesUnchoked ev)
  | .message _ p (.piece i o d) =>
    inferInstanceAs (Decidable (c.letsUs p = true ∨ c.StaysFull p (.piece i o d)))
  | .message _ _ .keepAlive | .message _ _ .choke | .message _ _ .unchoke
  | .message _ _ .interested | .message _ _ .notInterested | .message _ _ (.haveMsg _)
  | .message _ _ (.bitField _) | .message _ _ (.request _ _ _) | .message _ _ (.cancel _ _ _)
  | .addPeer | .removePeer _ | .chokeUpload _ | .unchokeUpload _ | .transfer _ _ | .reuse _ _
  | .written _ _ | .fetch _ _ | .validated _ | .fetchRead _ _ | .readDone _ _ _ _ => .isTrue trivial

/-- A peer is asked for eleven blocks, and one of its answers crosses its CHOKE. -/
def crossedWithFullQueue : List Event :=
  firstUnchoke ++ [.message ⟨.reverseTies, .still ℕ⟩ 0 .choke,
    .message ⟨.reverseTies, .still ℕ⟩ 0 (.piece 0 0 [0])]

theorem requestsUnchoked_of_piecesUnchoked_crossed : ∃ c : Client,
    Run (StepOf (step fun _ => Vector.replicate 20 0)) (init elevenBlocks fun _ => 0)
      crossedWithFullQueue c ∧
      c.letsUs 0 = false ∧ (unanswered c.log).length = 10 ∧ RequestsUnchoked c.log := by
  obtain ⟨c, hr, hchoked, hlog⟩ : ∃ c,
      Run (Along (StepOf (step fun _ => Vector.replicate 20 0)) PiecesUnchoked)
        (init elevenBlocks fun _ => 0) crossedWithFullQueue c ∧
      c.letsUs 0 = false ∧ (unanswered c.log).length = 10 :=
    exists_run_along (by decide +kernel)
  exact ⟨c, hr.mono fun _ _ _ hs => hs.1, hchoked, hlog, requestsUnchoked_of_piecesUnchoked _ _ _ hr⟩

/-- A peer chokes us, and its answer to a REQUEST from before arrives after that. -/
def crossedChoke : List Event :=
  [.addPeer, .message ⟨.reverseTies, .still ℕ⟩ 0 (.haveMsg 0),
    .message ⟨.reverseTies, .still ℕ⟩ 0 .unchoke, .message ⟨.reverseTies, .still ℕ⟩ 0 .choke,
    .message ⟨.reverseTies, .still ℕ⟩ 0 (.piece 0 0 [0])]

theorem not_requestsUnchoked_crossedChoke :
    ¬ ∀ (sha1 : List UInt8 → Hash) (m : Metainfo) (content : ℕ → UInt8) (es : List Event),
      Always (StepOf (step sha1)) (fun c => RequestsUnchoked c.log) (init m content) es := by
  intro h
  obtain ⟨c, hr, hlast, hchoked⟩ : ∃ c, Run (StepOf (step fun _ => Vector.replicate 20 0))
      (init oneByte fun _ => 0) crossedChoke c ∧
      c.log.head? = some (.sent 0 (.request 0 0 1)) ∧ unchokedBy 0 c.log.tail = false :=
    exists_run (by decide +kernel)
  have hasked := (h _ _ _ _).of_run hr
  rw [← List.cons_head?_tail (by simpa using hlast : Note.sent 0 (.request 0 0 1) ∈ c.log.head?)] at hasked
  have hlet : unchokedBy 0 c.log.tail = true := hasked.1
  rw [hchoked] at hlet
  cases hlet

end Client

end FTorrent
