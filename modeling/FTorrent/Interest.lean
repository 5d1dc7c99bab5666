import FTorrent.Sound

/-!
# Our interest in a peer

HAVE, BITFIELD and a report of a piece scan the picker's bitfield for a piece that the peer has and we
lack, and tell the peer about a change.  However the bitfield changes in between, what a peer is told
alternates, the last message agrees with the flag, and after each of these events the flag says whether
there is such a piece (`interest_consistent`).
-/

namespace FTorrent

open Lib

/-- What the log says the peer has been told about our interest, latest first. -/
def interestNotes (p : ℕ) : List Note → List Bool
  | .sent q .interested :: log => if q = p then true :: interestNotes p log else interestNotes p log
  | .sent q .notInterested :: log =>
    if q = p then false :: interestNotes p log else interestNotes p log
  | _ :: log => interestNotes p log
  | [] => []

/-- Each message is the opposite of the one before it, and the first one is INTERESTED. -/
def Alternates : List Bool → Prop
  | [] => True
  | b :: bs => b = !bs.head?.getD false ∧ Alternates bs

/-- An entry of the log that is no message about our interest. -/
def Note.Indifferent : Note → Prop
  | .sent _ .interested | .sent _ .notInterested => False
  | _ => True

theorem Note.Indifferent.interestNotes {n : Note} (h : n.Indifferent) (p : ℕ) (log : List Note) :
    interestNotes p (n :: log) = interestNotes p log := by
  cases n with
  | sent q msg =>
    cases msg with
    | interested | notInterested => cases h
    | _ => rfl
  | received | reset | removed => rfl

namespace Client

variable {sha1 : List UInt8 → Hash} {m : Metainfo} {content : ℕ → UInt8} {c c' c₁ : Client} {p k : ℕ}

/-! ### The loop over the bitfield -/

/-- The loop of `refresh_download_interest` from position `i` on, with the flag `interesting`. -/
def interestLoop (p : ℕ) (piecePresent : List Bool) :
    List Bool → ℕ → Bool → Client → Except Fault (Client × Bool)
  | [], _, interesting, c => .ok (c, interesting)
  | mine :: haves, i, interesting, c => do
    let wanted ← (if mine then .ok false else vectorAt piecePresent i)
    if wanted then
      let q ← vectorAt c.peers p
      let c :=
        if q.download.interested then c
        else (c.send p .interested).modifyPeer p (·.setDownload (·.setInterested true))
      interestLoop p piecePresent haves (i + 1) true c
    else interestLoop p piecePresent haves (i + 1) interesting c

/-- `refresh_download_interest` with its loop. -/
def refreshByLoop (c : Client) (p : ℕ) : Except Fault Client := do
  let q ← vectorAt c.peers p
  let (c, interesting) ← interestLoop p q.piecePresent c.picker.getHaveBitfield 0 false c
  let q ← vectorAt c.peers p
  if !interesting && q.download.interested then
    return (c.modifyPeer p (·.setDownload (·.setInterested false))).send p .notInterested
  else return c

/-- The peer is told at the first piece that it has and we lack, and not again. -/
theorem interestLoop_eq {q : Peer} (hq : c.peers[p]? = some q) (piecePresent : List Bool)
    {haves : List Bool} {i : ℕ} (hlen : i + haves.length ≤ piecePresent.length) (interesting : Bool) :
    interestLoop p piecePresent haves i interesting c = .ok (
      if (haves.zip (piecePresent.drop i)).any fun (mine, theirs) => !mine && theirs then
        (if q.download.interested then c
          else (c.send p .interested).modifyPeer p (·.setDownload (·.setInterested true)), true)
      else (c, interesting)) := by
  induction haves generalizing c i q interesting with
  | nil => rfl
  | cons mine haves ih =>
    rw [List.length_cons] at hlen
    have hi : i < piecePresent.length := by omega
    have hwanted : (if mine then Except.ok false else vectorAt piecePresent i : Except Fault Bool) =
        .ok (!mine && piecePresent[i]) := by
      cases mine with
      | true => rfl
      | false => exact vectorAt_eq_ok.2 (List.getElem?_eq_getElem hi)
    rw [interestLoop, hwanted, List.drop_eq_getElem_cons hi, List.zip_cons_cons, List.any_cons]
    rcases Bool.eq_false_or_eq_true (!mine && piecePresent[i]) with hw | hw
    · simp only [hw, bind, Except.bind, if_true, vectorAt_eq_ok.2 hq, Bool.true_or]
      cases hint : q.download.interested with
      | true =>
        rw [if_pos rfl, ih hq (by omega), hint]
        simp
      | false =>
        have hq' := getElem?_modifyPeer (c := c.send p .interested) hq
          (·.setDownload (·.setInterested true))
        rw [if_neg Bool.false_ne_true, ih hq' (by omega)]
        simp [Peer.setDownload, DataChannel.setInterested]
    · simp only [hw, bind, Except.bind, Bool.false_or]
      exact ih hq (by omega) interesting

/-- Scanning the bitfield at once comes to the same as the loop. -/
theorem refreshByLoop_eq {q : Peer} (hq : c.peers[p]? = some q)
    (hlen : c.picker.getHaveBitfield.length ≤ q.piecePresent.length) :
    c.refreshByLoop p = c.refreshDownloadInterest p := by
  unfold refreshByLoop refreshDownloadInterest
  rw [vectorAt_eq_ok.2 hq]
  simp only [bind, Except.bind]
  rw [interestLoop_eq hq q.piecePresent (by omega), List.drop_zero]
  dsimp only
  cases (c.picker.getHaveBitfield.zip q.piecePresent).any fun (mine, theirs) => !mine && theirs with
  | false => simp [vectorAt_eq_ok.2 hq]
  | true =>
    cases hint : q.download.interested with
    | true => simp [vectorAt_eq_ok.2 hq]
    | false =>
      have hq' := getElem?_modifyPeer (c := c.send p .interested) hq
        (·.setDownload (·.setInterested true))
      simp [vectorAt_eq_ok.2 hq']

/-! ### What a peer has been told -/

/-- Our interest in the peer. -/
def interestedIn (c : Client) (p : ℕ) : Bool :=
  (c.peers[p]?.map fun q => q.download.interested).getD false

/-- The pieces that the peer has. -/
def presentIn (c : Client) (p : ℕ) : List Bool := (c.peers[p]?.map (·.piecePresent)).getD []

/-- The peer has a piece that we lack. -/
def Wants (c : Client) (p : ℕ) : Prop :=
  ∃ i : ℕ, c.picker.getHaveBitfield[i]? = some false ∧ (c.presentIn p)[i]? = some true

/-- What the peer has been told alternates and agrees with the flag. -/
structure Signalled (c : Client) (p : ℕ) : Prop where
  alternates : Alternates (interestNotes p c.log)
  agrees : (interestNotes p c.log).head?.getD false = c.interestedIn p

/-- The flag says whether the peer has a piece that we lack. -/
def UpToDate (c : Client) (p : ℕ) : Prop := c.interestedIn p = true ↔ c.Wants p

theorem UpToDate.congr (h : c.UpToDate p) (hflag : c'.interestedIn p = c.interestedIn p)
    (hpresent : c'.presentIn p = c.presentIn p)
    (hbits : c'.picker.getHaveBitfield = c.picker.getHaveBitfield) : c'.UpToDate p := by
  rw [UpToDate, Wants, hflag, hpresent, hbits]
  exact h

/-- Our interest in no peer changes, and no peer is told about it. -/
structure SameInterest (c c' : Client) : Prop where
  flags : ∀ k, c'.interestedIn k = c.interestedIn k
  notes : ∀ k, interestNotes k c'.log = interestNotes k c.log

namespace SameInterest

theorem refl (c : Client) : SameInterest c c := ⟨fun _ => rfl, fun _ => rfl⟩

theorem trans (h : SameInterest c c₁) (h' : SameInterest c₁ c') : SameInterest c c' :=
  ⟨fun k => (h'.flags k).trans (h.flags k), fun k => (h'.notes k).trans (h.notes k)⟩

theorem signalled (h : SameInterest c c') (hk : c.Signalled k) : c'.Signalled k := by
  refine ⟨?_, ?_⟩
  · rw [h.notes]
    exact hk.alternates
  · rw [h.notes, h.flags]
    exact hk.agrees

theorem note (c : Client) {n : Note} (h : n.Indifferent) : SameInterest c (c.note n) :=
  ⟨fun _ => rfl, fun k => h.interestNotes k c.log⟩

theorem modifyPeer (c : Client) (p : ℕ) {f : Peer → Peer}
    (hf : ∀ q, (f q).download.interested = q.download.interested) :
    SameInterest c (c.modifyPeer p f) := by
  refine ⟨fun k => ?_, fun _ => rfl⟩
  simp only [interestedIn, Client.modifyPeer, List.getElem?_modify]
  rcases c.peers[k]? with _ | q
  · rfl
  · by_cases hk : p = k
    · simp [hk, hf]
    · simp [hk]

end SameInterest

/-! ### Refreshing the interest -/

/-- A change of the flag, with the message about it. -/
def signal (c : Client) (p : ℕ) (b : Bool) : Client :=
  (c.modifyPeer p (·.setDownload (·.setInterested b))).send p
    (if b then .interested else .notInterested)

theorem interestedIn_signal {q : Peer} (hq : c.peers[p]? = some q) (b : Bool) (k : ℕ) :
    (c.signal p b).interestedIn k = if p = k then b else c.interestedIn k := by
  by_cases hk : p = k
  · subst hk
    simp [signal, send, Client.note, interestedIn, modifyPeer, hq, Peer.setDownload,
      DataChannel.setInterested]
  · simp [signal, send, Client.note, interestedIn, modifyPeer, hk]

theorem presentIn_signal (c : Client) (p : ℕ) (b : Bool) (k : ℕ) :
    (c.signal p b).presentIn k = c.presentIn k := by
  simp only [signal, send, Client.note, presentIn, modifyPeer, List.getElem?_modify]
  rcases c.peers[k]? with _ | q
  · rfl
  · by_cases hk : p = k
    · simp [hk, Peer.setDownload]
    · simp [hk]

theorem interestNotes_signal (c : Client) (p : ℕ) (b : Bool) (k : ℕ) :
    interestNotes k (c.signal p b).log =
      if p = k then b :: interestNotes k c.log else interestNotes k c.log := by
  cases b <;> rfl

theorem interesting_iff {q : Peer} (hq : c.peers[p]? = some q) :
    ((c.picker.getHaveBitfield.zip q.piecePresent).any fun (mine, theirs) => !mine && theirs) = true ↔
      c.Wants p := by
  have hpresent : c.presentIn p = q.piecePresent := by
    rw [presentIn, hq]
    rfl
  rw [List.any_eq_true, Wants, hpresent]
  constructor
  · rintro ⟨⟨mine, theirs⟩, hmem, hw⟩
    obtain ⟨i, hi⟩ := List.getElem?_of_mem hmem
    obtain ⟨hmine, htheirs⟩ := List.getElem?_zip_eq_some.1 hi
    simp only [Bool.and_eq_true, Bool.not_eq_true'] at hw
    rw [hw.1] at hmine
    rw [hw.2] at htheirs
    exact ⟨i, hmine, htheirs⟩
  · rintro ⟨i, hmine, htheirs⟩
    exact ⟨(false, true), List.mem_of_getElem? (List.getElem?_zip_eq_some.2 ⟨hmine, htheirs⟩), rfl⟩

/-- A refresh does nothing where the flag is right, and else corrects it and tells the peer. -/
theorem refreshDownloadInterest_cases (h : c.refreshDownloadInterest p = .ok c') :
    (c' = c ∧ c.UpToDate p) ∨ ∃ q b, c.peers[p]? = some q ∧ c' = c.signal p b ∧
      c.interestedIn p = !b ∧ (b = true ↔ c.Wants p) := by
  obtain ⟨q, hq, h⟩ := bind_eq_ok.1 h
  rw [vectorAt_eq_ok] at hq
  have hflag : c.interestedIn p = q.download.interested := by
    rw [interestedIn, hq]
    rfl
  have hwants := interesting_iff hq
  dsimp only at h hwants
  split_ifs at h with h₁ h₂
  · cases h
    rw [Bool.and_eq_true, Bool.not_eq_true'] at h₁
    exact .inr ⟨q, true, hq, rfl, hflag.trans h₁.2, by simpa [h₁.1] using hwants⟩
  · cases h
    rw [Bool.and_eq_true, Bool.not_eq_true'] at h₂
    exact .inr ⟨q, false, hq, rfl, hflag.trans h₂.2, by simpa [h₂.1] using hwants⟩
  · cases h
    refine .inl ⟨rfl, ?_⟩
    rw [UpToDate, hflag, ← hwants]
    revert h₁ h₂
    cases (c.picker.getHaveBitfield.zip q.piecePresent).any fun x => !x.1 && x.2 <;>
      cases q.download.interested <;> simp

theorem signalled_refresh (h : c.refreshDownloadInterest p = .ok c') (hk : c.Signalled k) :
    c'.Signalled k := by
  obtain ⟨rfl, -⟩ | ⟨q, b, hq, rfl, hflag, -⟩ := refreshDownloadInterest_cases h
  · exact hk
  · refine ⟨?_, ?_⟩
    · rw [interestNotes_signal]
      split_ifs with hpk
      · subst hpk
        refine ⟨?_, hk.alternates⟩
        rw [hk.agrees, hflag, Bool.not_not]
      · exact hk.alternates
    · rw [interestNotes_signal, interestedIn_signal hq]
      split_ifs
      · rfl
      · exact hk.agrees

/-- After a refresh the flag of the peer is right, and no flag has been spoilt. -/
theorem upToDate_refresh (h : c.refreshDownloadInterest p = .ok c') (hk : p = k ∨ c.UpToDate k) :
    c'.UpToDate k := by
  obtain ⟨rfl, hp⟩ | ⟨q, b, hq, rfl, -, hb⟩ := refreshDownloadInterest_cases h
  · rcases hk with rfl | hk
    · exact hp
    · exact hk
  · by_cases hpk : p = k
    · subst hpk
      rw [UpToDate, Wants, interestedIn_signal hq, presentIn_signal, if_pos rfl]
      exact hb
    · apply (hk.resolve_left hpk).congr
      · rw [interestedIn_signal hq, if_neg hpk]
      · exact presentIn_signal c p b k
      · rfl

/-! ### The handlers -/

/-- HAVE and BITFIELD. -/
def Refreshing : Message → Prop
  | .haveMsg _ | .bitField _ => True
  | _ => False

theorem sameInterest_requestPiece (c : Client) (p r : ℕ) : SameInterest c (c.requestPiece p r) := by
  unfold requestPiece
  split
  · exact .refl c
  · next piece hr =>
    have hqueue := SameInterest.modifyPeer c p
      (f := fun q => { q with blocksInQueue := u32 (q.blocksInQueue + piece.freeBlocks.length) })
      fun _ => rfl
    refine ⟨hqueue.flags, fun k => ?_⟩
    apply history_append
    intro n hn log
    obtain ⟨b, -, rfl⟩ := List.mem_map.1 (List.mem_reverse.1 hn)
    rfl

theorem presentIn_requestPiece (c : Client) (p r k : ℕ) :
    (c.requestPiece p r).presentIn k = c.presentIn k := by
  have h := congrArg (·[k]?) (piecePresent_requestPiece c p r)
  simp only [List.getElem?_map] at h
  rw [presentIn, h, presentIn]

/-- The first part of a message handler. -/
theorem interest_handleMessage {msg : Message} {b : Bool} (h : c.handleMessage p msg = .ok (c', b)) :
    (∀ k, c.Signalled k → c'.Signalled k) ∧ (Refreshing msg → c'.UpToDate p) := by
  have hnote : SameInterest c (c.note (.received p msg)) := .note c trivial
  have hmodify : ∀ {f : Peer → Peer},
      (∀ q, (f q).download.interested = q.download.interested) →
        SameInterest c ((c.note (.received p msg)).modifyPeer p f) :=
    fun hf => hnote.trans (.modifyPeer _ p hf)
  cases msg with
  | keepAlive | request | cancel =>
    cases h
    exact ⟨fun k => SameInterest.signalled ⟨hnote.flags, hnote.notes⟩, False.elim⟩
  | choke | unchoke | interested | notInterested =>
    cases h
    refine ⟨fun k => SameInterest.signalled (hmodify ?_), False.elim⟩
    exact fun _ => rfl
  | haveMsg i =>
    obtain ⟨q, ps, -, -, -, h₁⟩ := haveReceived_eq_ok (haveReceived_of_handleMessage h)
    have hset := hmodify (f := fun q => { q with piecePresent := q.piecePresent.set i.toNat true })
      fun _ => rfl
    refine ⟨fun k hk => signalled_refresh h₁ ?_, fun _ => upToDate_refresh h₁ (.inl rfl)⟩
    exact SameInterest.signalled ⟨hset.flags, hset.notes⟩ hk
  | bitField bits =>
    obtain ⟨q, c₁, ps, -, -, h₁, -, rfl⟩ :=
      bitfieldReceived_eq_ok (bitfieldReceived_of_handleMessage h)
    have hset := hmodify (f := fun q =>
      { q with piecePresent := List.zipWith (· || ·) q.piecePresent bits }) fun _ => rfl
    refine ⟨fun k hk => ?_, fun _ => ?_⟩
    · have hk₁ := signalled_refresh h₁ (hset.signalled hk)
      exact ⟨hk₁.alternates, hk₁.agrees⟩
    · refine (upToDate_refresh h₁ (.inl rfl)).congr rfl rfl ?_
      rw [(refreshDownloadInterest_rest h₁).2.1]
      rfl
  | piece i o d =>
    obtain ⟨r, piece, block, t, -, -, -, -, rfl⟩ :=
      pieceReceived_eq_ok (pieceReceived_of_handleMessage h)
    have hset := hmodify (f := fun q => { q with blocksInQueue := u32 (q.blocksInQueue + 2 ^ 32 - 1) })
      fun _ => rfl
    exact ⟨fun k => SameInterest.signalled ⟨hset.flags, hset.notes⟩, False.elim⟩

/-- A message handler; asking for blocks changes no interest. -/
theorem interest_messageHandler {ch : SortChoice} {msg : Message}
    (h : c.messageHandler ch p msg = .ok c') :
    (∀ k, c.Signalled k → c'.Signalled k) ∧ (Refreshing msg → c'.UpToDate p) := by
  apply messageHandler_induction (P := fun c' =>
    (∀ k, c.Signalled k → c'.Signalled k) ∧ (Refreshing msg → c'.UpToDate p)) h
  · exact fun c₁ b h₁ => interest_handleMessage h₁
  · intro c₁ pk hpk h₁
    refine ⟨fun k hk => ⟨(h₁.1 k hk).alternates, (h₁.1 k hk).agrees⟩, fun hmsg => ?_⟩
    exact (h₁.2 hmsg).congr rfl rfl (RarestFirstPicker.refresh_eq_ok hpk).1
  · intro c₁ r h₁ _
    have hsame := sameInterest_requestPiece c₁ p r
    refine ⟨fun k hk => hsame.signalled (h₁.1 k hk), fun hmsg => ?_⟩
    apply (h₁.2 hmsg).congr (hsame.flags p) (presentIn_requestPiece c₁ p r p)
    rw [picker_requestPiece]

/-- A report to some peers. -/
theorem interest_foldlM {i : ℕ} {ps : List ℕ} (h : ps.foldlM (fun c p =>
    (c.send p (.haveMsg (.ofNat i))).refreshDownloadInterest p) c = .ok c') :
    (∀ k, c.Signalled k → c'.Signalled k) ∧ ∀ k, k ∈ ps ∨ c.UpToDate k → c'.UpToDate k := by
  induction ps generalizing c with
  | nil =>
    cases h
    exact ⟨fun _ => id, fun k hk => hk.resolve_left List.not_mem_nil⟩
  | cons p ps ih =>
    rw [List.foldlM_cons] at h
    obtain ⟨c₁, h₁, h⟩ := bind_eq_ok.1 h
    obtain ⟨hsignalled, hdate⟩ := ih h
    have hsend : SameInterest c (c.send p (.haveMsg (.ofNat i))) := .note c trivial
    refine ⟨fun k hk => hsignalled k (signalled_refresh h₁ (hsend.signalled hk)), fun k hk => ?_⟩
    rw [List.mem_cons, or_assoc] at hk
    rcases hk with rfl | hk | hk
    · exact hdate _ (.inr (upToDate_refresh h₁ (.inl rfl)))
    · exact hdate _ (.inl hk)
    · exact hdate _ (.inr (upToDate_refresh h₁ (.inr hk)))

/-- A report to the peers refreshes the interest in each of those registered. -/
theorem interest_pieceComplete {i : ℕ} (h : c.pieceComplete i = .ok c') :
    (∀ k, c.Signalled k → c'.Signalled k) ∧ ∀ k ∈ c.registered, c'.UpToDate k := by
  obtain ⟨hsignalled, hdate⟩ := interest_foldlM h
  exact ⟨hsignalled, fun k hk => hdate k (.inl hk)⟩

/-! ### Runs -/

/-- What can happen while the picker's bitfield changes: an event of the client, a report of a piece, and
a change of the bitfield, which keeps its size. -/
inductive Happening where
  | client (ev : Event)
  | pieceComplete (pieceIndex : ℕ)
  | bitfield (bits : List Bool)

def happen (sha1 : List UInt8 → Hash) (c : Client) : Happening → Except Fault Client
  | .client ev => c.step sha1 ev
  | .pieceComplete pieceIndex => c.pieceComplete pieceIndex
  | .bitfield bits =>
    if bits.length = c.picker.getHaveBitfield.length then
      .ok { c with picker := { c.picker with pieceBitfield := bits } }
    else .error .notEnabled

/-- HAVE and BITFIELD from the peer, and reports while it is registered. -/
def Refreshes (sha1 : List UInt8 → Hash) (c : Client) (p : ℕ) : Happening → Prop
  | .client (.message _ q msg) => q = p ∧ Refreshing msg
  | .client (.validated op) => p ∈ c.registered ∧
    ∃ piece, c.torrent.pieces[op.pieceIndex]? = some piece ∧ hashValid sha1 op.buffer piece.hash = true
  | .pieceComplete _ => p ∈ c.registered
  | _ => False

theorem interest_validationDone {op : ValidateOp} (h : c.validationDone sha1 op = .ok c') :
    (∀ k, c.Signalled k → c'.Signalled k) ∧
      ∀ k, Refreshes sha1 c k (.client (.validated op)) → c'.UpToDate k := by
  obtain ⟨piece, hp, h⟩ := bind_eq_ok.1 h
  rw [vectorAt_eq_ok] at hp
  obtain ⟨t, -, h⟩ := bind_eq_ok.1 h
  dsimp only at h
  split_ifs at h with hvalid
  · obtain ⟨hsignalled, hdate⟩ := interest_pieceComplete h
    exact ⟨fun k hk => hsignalled k ⟨hk.alternates, hk.agrees⟩, fun k hk => hdate k hk.1⟩
  · cases h
    refine ⟨fun k hk => ⟨hk.alternates, hk.agrees⟩, fun k ⟨_, piece', hp', hvalid'⟩ => ?_⟩
    obtain rfl : piece = piece' := Option.some.inj (hp.symm.trans hp')
    exact absurd hvalid' hvalid

theorem interestedIn_addPeer (c : Client) (k : ℕ) : c.addPeer.interestedIn k = c.interestedIn k := by
  simp only [interestedIn, addPeer, List.getElem?_append]
  split_ifs with hlt
  · rfl
  · rw [List.getElem?_eq_none (not_lt.1 hlt)]
    rcases k - c.peers.length with _ | j <;> rfl

theorem sameInterest_chokeUpload (h : c.chokeUpload p = .ok c') : SameInterest c c' := by
  obtain ⟨q, -, h⟩ := bind_eq_ok.1 h
  split_ifs at h
  · cases h
    exact .refl c
  · cases h
    refine SameInterest.trans ?_ (.note (n := .sent p .choke) _ trivial)
    exact .modifyPeer c p fun _ => rfl

theorem sameInterest_unchokeUpload (h : c.unchokeUpload p = .ok c') : SameInterest c c' := by
  obtain ⟨q, -, h⟩ := bind_eq_ok.1 h
  split_ifs at h
  · cases h
    refine SameInterest.trans ?_ (.note (n := .sent p .unchoke) _ trivial)
    exact .modifyPeer c p fun _ => rfl
  · cases h
    exact .refl c

/-- An event keeps the messages in step with the flags. -/
theorem signalled_step {ev : Event} (hs : c.step sha1 ev = .ok c') (hk : c.Signalled k) :
    c'.Signalled k := by
  cases ev with
  | addPeer =>
    cases hs
    exact SameInterest.signalled ⟨c.interestedIn_addPeer, fun _ => rfl⟩ hk
  | removePeer p =>
    cases hs
    unfold removePeer
    split_ifs
    · exact ⟨hk.alternates, hk.agrees⟩
    · exact hk
  | message ch p msg => exact (interest_messageHandler (message_eq_ok.1 hs).2).1 k hk
  | chokeUpload p => exact (sameInterest_chokeUpload hs).signalled hk
  | unchokeUpload p => exact (sameInterest_unchokeUpload hs).signalled hk
  | transfer | reuse | written | fetch | fetchRead =>
    obtain ⟨t, -, rfl⟩ := torrent_eq_ok hs
    exact ⟨hk.alternates, hk.agrees⟩
  | validated op => exact (interest_validationDone hs).1 k hk
  | readDone op e i o =>
    obtain ⟨-, -, rfl⟩ := readDone_eq_ok.1 hs
    exact ⟨hk.alternates, hk.agrees⟩

theorem upToDate_step {ev : Event} (hs : c.step sha1 ev = .ok c')
    (hp : Refreshes sha1 c p (.client ev)) : c'.UpToDate p := by
  cases ev with
  | message ch q msg =>
    obtain ⟨rfl, hmsg⟩ := hp
    exact (interest_messageHandler (message_eq_ok.1 hs).2).2 hmsg
  | validated op => exact (interest_validationDone hs).2 p hp
  | _ => cases hp

theorem signalled_happen {ev : Happening} (hs : c.happen sha1 ev = .ok c') (hk : c.Signalled k) :
    c'.Signalled k := by
  cases ev with
  | client ev => exact signalled_step hs hk
  | pieceComplete i => exact (interest_pieceComplete hs).1 k hk
  | bitfield bits =>
    simp only [happen] at hs
    split_ifs at hs
    cases hs
    exact ⟨hk.alternates, hk.agrees⟩

theorem upToDate_happen {ev : Happening} (hs : c.happen sha1 ev = .ok c')
    (hp : Refreshes sha1 c p ev) : c'.UpToDate p := by
  cases ev with
  | client ev => exact upToDate_step hs hp
  | pieceComplete i => exact (interest_pieceComplete hs).2 p hp
  | bitfield bits => cases hp

theorem Sound.happen (h : Sound m c) {ev : Happening} (hs : c.happen sha1 ev = .ok c') :
    Sound m c' := by
  cases ev with
  | client ev => exact h.step hs
  | pieceComplete i =>
    have hf := Frame.of_quiet (quiet_pieceComplete hs)
    exact h.of_background (background_pieceComplete hs) (h.laidOut.of_shapes hf.nominal hf.shapes)
  | bitfield bits =>
    simp only [Client.happen] at hs
    split_ifs at hs with hlen
    cases hs
    exact h.setPicker ⟨hlen.trans h.picker.bitfield, h.picker.pieces, h.picker.buckets⟩

/-- In every state that a run leads to, the loop does what the scan does. -/
theorem refreshByLoop_run {es : List Happening}
    (hr : Run (StepOf (happen sha1)) (init m content) es c) (p : ℕ) :
    c.refreshByLoop p = c.refreshDownloadInterest p := by
  have h : Sound m c := hr.invariant (fun _ _ _ h hs => h.happen hs) Sound.init
  rcases hq : c.peers[p]? with _ | q
  · have hnone : vectorAt c.peers p = .error .outOfRange := by rw [vectorAt, hq]
    rw [refreshByLoop, refreshDownloadInterest, hnone]
    rfl
  · apply refreshByLoop_eq hq
    rw [h.piecePresent hq]
    exact h.picker.bitfield.le

/-- In every run, however the bitfield changes in it, the messages to a peer about our interest strictly
alternate, INTERESTED first, and the last of them agrees with the flag; and after HAVE, BITFIELD and the
report of a piece the flag says whether the peer has a piece that we lack. -/
theorem interest_consistent {es : List Happening} (hr : Run (StepOf (happen sha1)) (init m content) es c)
    (p : ℕ) : Alternates (interestNotes p c.log) ∧
      (interestNotes p c.log).head?.getD false = c.interestedIn p ∧
      ∀ ev c', c.happen sha1 ev = .ok c' → Refreshes sha1 c p ev →
        (c'.interestedIn p = true ↔ c'.Wants p) := by
  have hp : c.Signalled p :=
    hr.invariant (J := (·.Signalled p)) (fun _ _ _ h hs => signalled_happen hs h) ⟨trivial, rfl⟩
  exact ⟨hp.alternates, hp.agrees, fun ev c' => upToDate_happen⟩

/-- A peer joins and announces the piece, which we then get. -/
def learned : List Happening :=
  [.client .addPeer, .client (.message ⟨.reverseTies, .still ℕ⟩ 0 (.haveMsg 0)), .bitfield [true]]

theorem interest_consistent_learned : ∃ c c' : Client,
    Run (StepOf (happen fun _ => Vector.replicate 20 0)) (init oneByte fun _ => 0) learned c ∧
      interestNotes 0 c.log = [true] ∧ Alternates (interestNotes 0 c.log) ∧
      (c'.interestedIn 0 = true ↔ c'.Wants 0) ∧ interestNotes 0 c'.log = [false, true] := by
  have hr : Run (StepOf (happen fun _ => Vector.replicate 20 0)) (init oneByte fun _ => 0) learned _ :=
    run_iff_foldlM.2 rfl
  obtain ⟨halt, -, hdate⟩ := interest_consistent hr 0
  exact ⟨_, _, hr, rfl, halt, hdate (.pieceComplete 0) _ rfl List.mem_cons_self, rfl⟩

end Client

end FTorrent
