import FTorrent.Upload

/-!
# Requests and replies

A REQUEST starts a read of the file, and the end of that read sends a PIECE.  In every run the REQUESTs
that came from a peer are the PIECEs sent to it and the reads under way for it (`replies_balance`), so none
is answered twice; and every read that is under way can end, so none is lost.
-/

namespace FTorrent

open Lib

/-- A REQUEST from the peer. -/
def Note.requestFrom (p : ℕ) : Note → Bool
  | .received q (.request _ _ _) => q == p
  | _ => false

/-- A PIECE to the peer. -/
def Note.pieceTo (p : ℕ) : Note → Bool
  | .sent q (.piece _ _ _) => q == p
  | _ => false

/-- An entry that is neither a REQUEST from a peer nor a PIECE to one. -/
def Note.Other (n : Note) : Prop := ∀ p, n.requestFrom p = false ∧ n.pieceTo p = false

theorem Note.Notice.other {n : Note} (h : n.Notice) : n.Other := by
  intro p
  rcases h with h | ⟨q, i, rfl⟩
  · cases n with
    | sent q msg => cases msg <;> first | exact ⟨rfl, rfl⟩ | cases h
    | _ => cases h
  · exact ⟨rfl, rfl⟩

namespace Client

variable {c c' : Client} {m : Metainfo} {content : ℕ → UInt8} {sha1 : List UInt8 → Hash} {p : ℕ}

/-- The number of REQUESTs that the peer has sent. -/
def requestsFrom (c : Client) (p : ℕ) : ℕ := c.log.countP (Note.requestFrom p)

/-- The number of PIECEs that have been sent to the peer. -/
def piecesTo (c : Client) (p : ℕ) : ℕ := c.log.countP (Note.pieceTo p)

/-- The number of reads under way for the peer. -/
def readsFor (c : Client) (p : ℕ) : ℕ := c.torrent.reads.countP (·.peer == p)

/-- Every REQUEST has been answered once or has a read of its own under way. -/
structure Balance (c : Client) : Prop where
  requests : ∀ p, c.requestsFrom p = c.piecesTo p + c.readsFor p
  distinct : (c.torrent.reads.map (·.id)).Nodup

/-! ### One step -/

/-- A step that has nothing to do with uploads. -/
structure Aloof (c c' : Client) : Prop where
  reads : c'.torrent.reads = c.torrent.reads
  log : ∃ ns, c'.log = ns ++ c.log ∧ ∀ n ∈ ns, n.Other

namespace Aloof

theorem refl (c : Client) : Aloof c c := ⟨rfl, [], rfl, nofun⟩

theorem trans {c'' : Client} (h : Aloof c c') (h' : Aloof c' c'') : Aloof c c'' := by
  obtain ⟨ns, hns, hn⟩ := h.log
  obtain ⟨ms, hms, hm⟩ := h'.log
  refine ⟨h'.reads.trans h.reads, ms ++ ns, by rw [hms, hns, List.append_assoc], fun n hmem => ?_⟩
  exact (List.mem_append.1 hmem).elim (hm n) (hn n)

theorem of_quiet {A : Note → Prop} (h : Quiet A c c') (hA : ∀ n, A n → n.Other) : Aloof c c' := by
  obtain ⟨ns, hns, hn⟩ := h.log
  exact ⟨by rw [h.torrent], ns, hns, fun n hmem => hA n (hn n hmem)⟩

theorem note (c : Client) {n : Note} (h : n.Other) : Aloof c (c.note n) :=
  ⟨rfl, [n], rfl, by simpa using h⟩

theorem of_torrent {t : Torrent} (h : t.reads = c.torrent.reads) : Aloof c { c with torrent := t } :=
  ⟨h, [], rfl, nofun⟩

theorem requestPieces (rs : List ℕ) (c : Client) : Aloof c (Client.requestPieces p rs c) := by
  induction rs generalizing c with
  | nil => exact refl c
  | cons r rs ih =>
    refine trans ?_ (ih (c.requestPiece p r))
    unfold requestPiece
    split
    · exact refl c
    · next piece hr =>
      refine ⟨rfl, _, rfl, fun n hn => ?_⟩
      obtain ⟨b, -, rfl⟩ := List.mem_map.1 (List.mem_reverse.1 hn)
      exact fun _ => ⟨rfl, rfl⟩

/-- What is counted stays as it is. -/
theorem balance (h : Aloof c c') (hb : Balance c) : Balance c' := by
  obtain ⟨ns, hns, hn⟩ := h.log
  have hzero : ∀ f : ℕ → Note → Bool, (∀ n ∈ ns, ∀ p, f p n = false) → ∀ p,
      c'.log.countP (f p) = c.log.countP (f p) := by
    intro f hf p
    rw [hns, List.countP_append, List.countP_eq_zero.2 fun n hmem => by simp [hf n hmem p], Nat.zero_add]
  refine ⟨fun p => ?_, by rw [h.reads]; exact hb.distinct⟩
  have hreads : c'.readsFor p = c.readsFor p := by rw [readsFor, h.reads, readsFor]
  rw [requestsFrom, piecesTo, hreads, hzero Note.requestFrom fun n hmem p => (hn n hmem p).1,
    hzero Note.pieceTo fun n hmem p => (hn n hmem p).2]
  exact hb.requests p

end Aloof

theorem aloof_messageHandler {ch : SortChoice} {msg : Message} (h : c.messageHandler ch p msg = .ok c')
    (hreq : ∀ i o l, msg ≠ .request i o l) : Aloof c c' := by
  obtain ⟨c₁, requests, h₁, h⟩ := messageHandler_eq_ok h
  have hother : (Note.received p msg).Other := by
    intro q
    cases msg with
    | request i o l => exact absurd rfl (hreq i o l)
    | _ => exact ⟨rfl, rfl⟩
  have hnote : Aloof c (c.note (.received p msg)) := .note c hother
  have hfirst : Aloof c c₁ := by
    by_cases hpiece : ∃ i o d, msg = .piece i o d
    · obtain ⟨i, o, d, rfl⟩ := hpiece
      obtain ⟨r, piece, block, t, -, -, -, ht, rfl⟩ :=
        pieceReceived_eq_ok (pieceReceived_of_handleMessage h₁)
      obtain ⟨q, b, -, -, rfl⟩ := Torrent.writeBlock_eq_ok.1 ht
      exact hnote.trans ⟨rfl, [], rfl, nofun⟩
    · have hq := quiet_handleMessage h₁ hreq fun i o d he => hpiece ⟨i, o, d, he⟩
      exact hnote.trans (.of_quiet hq fun n hn => Note.Notice.other (.inl hn))
  cases requests with
  | false =>
    obtain rfl := h
    exact hfirst
  | true =>
    obtain ⟨pk, -, rfl⟩ := h
    have hpicker : Aloof c₁ { c₁ with picker := pk } := ⟨rfl, [], rfl, nofun⟩
    exact (hfirst.trans hpicker).trans (.requestPieces _ _)

theorem Balance.step {ev : Event} (h : Balance c)
    (hid : ∀ op ∈ c.torrent.reads, op.id < c.torrent.readCount) (hs : c.step sha1 ev = .ok c') :
    Balance c' := by
  cases ev with
  | addPeer =>
    cases hs
    have haloof : Aloof c c.addPeer := ⟨rfl, [_], rfl, List.forall_mem_singleton.2 fun _ => ⟨rfl, rfl⟩⟩
    exact haloof.balance h
  | removePeer q =>
    cases hs
    have haloof : Aloof c (c.removePeer q) := by
      unfold removePeer
      split_ifs
      · exact ⟨rfl, [_], rfl, List.forall_mem_singleton.2 fun _ => ⟨rfl, rfl⟩⟩
      · exact .refl c
    exact haloof.balance h
  | message ch q msg =>
    have hs := (message_eq_ok.1 hs).2
    by_cases hreq : ∃ i o l, msg = .request i o l
    · obtain ⟨i, o, l, rfl⟩ := hreq
      cases hs
      refine ⟨fun p => ?_, ?_⟩
      · have hrequests : (c.note (.received q (.request i o l))).requestsFrom p =
            c.requestsFrom p + if q == p then 1 else 0 := List.countP_cons
        have hreads : (c.torrent.readBlock i.toNat o.toNat l.toNat q).reads.countP (·.peer == p) =
            c.readsFor p + if q == p then 1 else 0 := by
          rw [Torrent.readBlock, List.countP_append, List.countP_singleton]
          rfl
        refine hrequests.trans ?_
        rw [h.requests p, Nat.add_assoc, ← hreads]
        rfl
      · rw [note, Torrent.readBlock, List.map_append, List.nodup_append]
        refine ⟨h.distinct, List.nodup_singleton _, fun k hk k' hk' => ?_⟩
        obtain ⟨op, hop, rfl⟩ := List.mem_map.1 hk
        obtain rfl := List.mem_singleton.1 hk'
        exact (hid op hop).ne
    · exact (aloof_messageHandler hs fun i o l he => hreq ⟨i, o, l, he⟩).balance h
  | chokeUpload q =>
    exact (Aloof.of_quiet (quiet_chokeUpload hs) fun n hn => Note.Notice.other (.inl hn)).balance h
  | unchokeUpload q =>
    exact (Aloof.of_quiet (quiet_unchokeUpload hs) fun n hn => Note.Notice.other (.inl hn)).balance h
  | transfer op n =>
    obtain ⟨t, ht, rfl⟩ := torrent_eq_ok hs
    obtain ⟨-, -, rfl⟩ := Torrent.transfer_eq_ok.1 ht
    exact Aloof.balance (.of_torrent rfl) h
  | reuse op bytes =>
    obtain ⟨t, ht, rfl⟩ := torrent_eq_ok hs
    obtain ⟨-, -, -, rfl⟩ := Torrent.reuse_eq_ok.1 ht
    exact Aloof.balance (.of_torrent rfl) h
  | written op e =>
    obtain ⟨t, ht, rfl⟩ := torrent_eq_ok hs
    obtain ⟨-, -, -, p, p', -, -, rfl⟩ := Torrent.writeHandler_eq_ok.1 ht
    exact Aloof.balance (.of_torrent rfl) h
  | fetch op n =>
    obtain ⟨t, ht, rfl⟩ := torrent_eq_ok hs
    obtain ⟨-, -, -, rfl⟩ := Torrent.fetchValidation_eq_ok.1 ht
    exact Aloof.balance (.of_torrent rfl) h
  | validated op =>
    obtain ⟨piece, t, -, ht, hc⟩ := validationDone_eq_ok hs
    have htorrent : Aloof c { c with torrent := t } := by
      obtain ⟨-, q, -, ⟨-, rfl⟩ | ⟨-, rfl⟩⟩ := Torrent.validationHandler_eq_ok.1 ht
      · exact .of_torrent rfl
      · exact .of_torrent rfl
    split_ifs at hc
    · exact (htorrent.trans (.of_quiet hc fun n hn => Note.Notice.other hn)).balance h
    · subst hc
      exact (htorrent.trans (.note _ fun _ => ⟨rfl, rfl⟩)).balance h
  | fetchRead op n =>
    obtain ⟨t, ht, rfl⟩ := torrent_eq_ok hs
    obtain ⟨hop, -, -, rfl⟩ := Torrent.fetchRead_eq_ok.1 ht
    refine ⟨fun p => (h.requests p).trans ?_, ?_⟩
    · exact congrArg (c.piecesTo p + ·) (countP_replace hop rfl).symm
    · exact ((List.perm_cons_erase hop).map (·.id)).nodup_iff.1 h.distinct
  | readDone op e i o =>
    obtain ⟨hop, -, rfl⟩ := readDone_eq_ok.1 hs
    refine ⟨fun p => ?_, ((List.erase_sublist (a := op)).map _).nodup h.distinct⟩
    have hpieces : (c.note (.sent op.peer (.piece i o op.buffer))).piecesTo p =
        c.piecesTo p + if op.peer == p then 1 else 0 := List.countP_cons
    have hreads : (c.torrent.reads.erase op).countP (·.peer == p) + (if op.peer == p then 1 else 0) =
        c.readsFor p := countP_erase_add _ hop
    refine (h.requests p).trans ?_
    rw [← hreads, ← Nat.add_assoc, Nat.add_right_comm, ← hpieces]
    rfl

/-! ### Runs -/

theorem balance_run {es : List Event} (hr : Run (StepOf (step sha1)) (init m content) es c) : Balance c := by
  induction hr using Run.snoc_induction with
  | nil => exact ⟨fun _ => rfl, List.nodup_nil⟩
  | snoc es t e u hr hs ih => exact ih.step (read_id_lt hr) hs

/-- A read that is under way can end, with an error if need be. -/
theorem exists_replied (sha1 : List UInt8 → Hash) {op : ReadOp} (hop : op ∈ c.torrent.reads) :
    ∃ c', c.step sha1 (.readDone op ⟨1, ""⟩ 0 0) = .ok c' ∧
      c'.torrent.reads = c.torrent.reads.erase op ∧ ∀ p, c'.requestsFrom p = c.requestsFrom p :=
  ⟨_, readDone_eq_ok.2 ⟨hop, nofun, rfl⟩, rfl, fun _ => List.countP_cons_of_neg (by simp [Note.requestFrom])⟩

/-- In every run the REQUESTs from a peer are the PIECEs sent to it and the reads under way for it, each with
a number of its own; and these reads can end, after which every REQUEST has been answered exactly once. -/
theorem replies_balance {es : List Event} (hr : Run (StepOf (step sha1)) (init m content) es c) :
    (∀ p, c.requestsFrom p = c.piecesTo p + c.readsFor p) ∧ (c.torrent.reads.map (·.id)).Nodup ∧
      ∃ fs c', Run (StepOf (step sha1)) c fs c' ∧ c'.torrent.reads = [] ∧
        ∀ p, c'.piecesTo p = c.requestsFrom p := by
  have hbalance := balance_run hr
  refine ⟨hbalance.requests, hbalance.distinct, ?_⟩
  -- every read that ends leaves one less
  have hlower : ∀ d : Client, (∀ p, d.requestsFrom p = c.requestsFrom p) → 0 < d.torrent.reads.length →
      ∃ fs d', Run (StepOf (step sha1)) d fs d' ∧ (∀ p, d'.requestsFrom p = c.requestsFrom p) ∧
        d'.torrent.reads.length < d.torrent.reads.length ∧ ∀ ev ∈ fs, True := by
    intro d hd hpos
    obtain ⟨op, hop⟩ := List.exists_mem_of_length_pos hpos
    obtain ⟨d', hs, hreads, hsame⟩ := exists_replied sha1 hop
    refine ⟨[_], d', .single hs, fun p => (hsame p).trans (hd p), ?_, fun _ _ => trivial⟩
    rw [hreads, List.length_erase_of_mem hop]
    exact Nat.sub_lt hpos Nat.one_pos
  obtain ⟨fs, c', hr', hkeep, hzero, -⟩ := Run.exists_measure_eq_zero _ hlower fun _ => rfl
  have hreads := List.eq_nil_of_length_eq_zero hzero
  refine ⟨fs, c', hr', hreads, fun p => ?_⟩
  have hend := (balance_run (hr.append hr')).requests p
  rw [hkeep p, readsFor, hreads, List.countP_nil, Nat.add_zero] at hend
  exact hend.symm

theorem replies_balance_sample : ∃ c c' : Client,
    Run (StepOf (step fun _ => Vector.replicate 20 0)) (init oneByte fun _ => 0)
      [.addPeer, .message ⟨.reverseTies, .still ℕ⟩ 0 (.request 0 0 1)] c ∧
    c.requestsFrom 0 = 1 ∧ c.readsFor 0 = 1 ∧ c'.torrent.reads = [] ∧ c'.piecesTo 0 = 1 := by
  have hr : Run (StepOf (step fun _ => Vector.replicate 20 0)) (init oneByte fun _ => 0)
      [.addPeer, .message ⟨.reverseTies, .still ℕ⟩ 0 (.request 0 0 1)] _ := run_iff_foldlM.2 rfl
  obtain ⟨-, -, fs, c', -, hreads, hpieces⟩ := replies_balance hr
  exact ⟨_, c', hr, rfl, rfl, hreads, hpieces 0⟩

end Client

end FTorrent
