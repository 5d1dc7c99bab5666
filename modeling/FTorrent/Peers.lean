import FTorrent.Requests

/-!
# What each step does to the peers

Of a peer only the choking of the download, the pieces it has and the counter of its queue matter to
the download (`Peer.core`).  Each message changes them by `Message.effect`, `request_blocks` moves the
counter, and every other step leaves them alone (`Background`).
-/

namespace FTorrent

open Lib

/-- The peer but for its upload channel and our interest. -/
def Peer.core (q : Peer) : Peer :=
  { q with upload := {}, download := { q.download with interested := false } }

def Peer.setQueue (q : Peer) (n : ℕ) : Peer := { q with blocksInQueue := n }

section

variable (q : Peer) (n : ℕ)

@[simp] theorem Peer.setQueue_download : (q.setQueue n).download = q.download := rfl

@[simp] theorem Peer.setQueue_piecePresent : (q.setQueue n).piecePresent = q.piecePresent := rfl

@[simp] theorem Peer.setQueue_blocksInQueue : (q.setQueue n).blocksInQueue = n := rfl

end

/-- What a message does to the peer that it comes from. -/
def Message.effect : Message → Peer → Peer
  | .choke => (·.setDownload (·.setChoked true))
  | .unchoke => (·.setDownload (·.setChoked false))
  | .haveMsg index => fun q => { q with piecePresent := q.piecePresent.set index.toNat true }
  | .bitField bitfield => fun q =>
    { q with piecePresent := List.zipWith (· || ·) q.piecePresent bitfield }
  | .piece _ _ _ => fun q => q.setQueue (u32 (q.blocksInQueue + 2 ^ 32 - 1))
  | _ => id

theorem Message.effect_piece (i o : UInt32) (d : List UInt8) (q : Peer) :
    (Message.piece i o d).effect q = q.setQueue (u32 (q.blocksInQueue + 2 ^ 32 - 1)) := rfl

/-- An entry of the log about no message received, no REQUEST sent and no peer that left. -/
def Note.Aside : Note → Prop
  | .sent _ (.request _ _ _) => False
  | .sent _ _ | .reset _ => True
  | .received _ _ | .removed _ => False

theorem Note.Notice.aside {n : Note} (h : n.Notice) : n.Aside := by
  rcases h with h | ⟨p, i, rfl⟩
  · cases n with
    | sent p msg => cases msg <;> trivial
    | _ => cases h
  · trivial

namespace Client

/-- What a peer has, up to its core. -/
def peerCore (c : Client) (k : ℕ) : Option Peer := c.peers[k]?.map Peer.core

/-- The availabilities of the pieces. -/
def availabilities (c : Client) : List ℕ := c.torrent.pieces.map (·.availability)

variable {c c' : Client} {p : ℕ}

theorem peerCore_modifyPeer (c : Client) (p : ℕ) {f g : Peer → Peer}
    (hf : ∀ q, (f q).core = g q.core) (k : ℕ) :
    (c.modifyPeer p f).peerCore k = (c.peerCore k).map fun q => if p = k then g q else q := by
  simp only [peerCore, modifyPeer, List.getElem?_modify, Option.map_map]
  by_cases hk : p = k
  · simp [hk, Function.comp_def, hf]
  · simp [hk, Function.comp_def]

theorem peerCore_refreshDownloadInterest (h : c.refreshDownloadInterest p = .ok c') (k : ℕ) :
    c'.peerCore k = c.peerCore k := by
  have hkeep : ∀ (c : Client) (b : Bool),
      (c.modifyPeer p (·.setDownload (·.setInterested b))).peerCore k = c.peerCore k := by
    intro c b
    have := peerCore_modifyPeer c p (f := (·.setDownload (·.setInterested b))) (g := id)
      (fun _ => rfl) k
    simpa using this
  obtain ⟨q, -, h⟩ := bind_eq_ok.1 h
  dsimp only at h
  split_ifs at h
  · cases h
    exact hkeep (c.send p .interested) true
  · cases h
    exact hkeep c false
  · cases h
    rfl

theorem peerCore_pieceComplete {i : ℕ} (h : c.pieceComplete i = .ok c') (k : ℕ) :
    c'.peerCore k = c.peerCore k := by
  unfold pieceComplete at h
  generalize c.registered = ps at h
  induction ps generalizing c with
  | nil =>
    cases h
    rfl
  | cons q ps ih =>
    rw [List.foldlM_cons] at h
    obtain ⟨c₁, h₁, h⟩ := bind_eq_ok.1 h
    rw [ih h, peerCore_refreshDownloadInterest h₁]
    rfl

/-- The first part of a message handler. -/
theorem peerCore_handleMessage {msg : Message} {b : Bool} (h : c.handleMessage p msg = .ok (c', b))
    (k : ℕ) : c'.peerCore k = (c.peerCore k).map fun q => if p = k then msg.effect q else q := by
  have hmodify : ∀ {f : Peer → Peer} (_ : ∀ q, (f q).core = msg.effect q.core),
      ((c.note (.received p msg)).modifyPeer p f).peerCore k =
        (c.peerCore k).map fun q => if p = k then msg.effect q else q :=
    fun hf => peerCore_modifyPeer _ p hf k
  have hid : msg.effect = id →
      c.peerCore k = (c.peerCore k).map fun q => if p = k then msg.effect q else q := by
    intro he
    simp [he]
  cases msg with
  | keepAlive =>
    cases h
    exact hid rfl
  | choke =>
    cases h
    exact hmodify fun _ => rfl
  | unchoke =>
    cases h
    exact hmodify fun _ => rfl
  | interested =>
    cases h
    exact hmodify fun _ => rfl
  | notInterested =>
    cases h
    exact hmodify fun _ => rfl
  | haveMsg i =>
    obtain ⟨q, ps, -, -, -, h₁⟩ := haveReceived_eq_ok (haveReceived_of_handleMessage h)
    rw [peerCore_refreshDownloadInterest h₁]
    exact hmodify (f := fun q => { q with piecePresent := q.piecePresent.set i.toNat true })
      fun _ => rfl
  | bitField bits =>
    obtain ⟨q, c₁, ps, -, -, h₁, -, rfl⟩ :=
      bitfieldReceived_eq_ok (bitfieldReceived_of_handleMessage h)
    refine (peerCore_refreshDownloadInterest h₁ k).trans ?_
    exact hmodify fun _ => rfl
  | request i o l =>
    cases h
    exact hid rfl
  | piece i o d =>
    obtain ⟨r, piece, block, t, -, -, -, -, rfl⟩ :=
      pieceReceived_eq_ok (pieceReceived_of_handleMessage h)
    exact hmodify (f := fun q => { q with blocksInQueue := u32 (q.blocksInQueue + 2 ^ 32 - 1) })
      fun _ => rfl
  | cancel i o l =>
    cases h
    exact hid rfl

/-- `request_blocks` moves the counter of the peer that is asked. -/
theorem peerCore_requestPiece {r : ℕ} {piece : Piece} (hr : c.torrent.pieces[r]? = some piece)
    (p k : ℕ) :
    (c.requestPiece p r).peerCore k = (c.peerCore k).map fun q =>
      if p = k then q.setQueue (u32 (q.blocksInQueue + piece.freeBlocks.length)) else q := by
  unfold requestPiece
  rw [hr]
  exact peerCore_modifyPeer c p
    (f := fun q => { q with blocksInQueue := u32 (q.blocksInQueue + piece.freeBlocks.length) })
    (fun _ => rfl) k

/-- What a step does that is no message from a peer and leaves the peers as they are. -/
structure Background (c c' : Client) : Prop where
  peers : ∀ k, c'.peerCore k = c.peerCore k
  length : c'.peers.length = c.peers.length
  availabilities : c'.availabilities = c.availabilities
  picker : c'.picker = c.picker
  registered : c'.registered = c.registered
  log : ∃ ns, c'.log = ns ++ c.log ∧ ∀ n ∈ ns, n.Aside

theorem background_of_torrent {t : Torrent}
    (h : t.pieces.map (·.availability) = c.availabilities) : Background c { c with torrent := t } :=
  ⟨fun _ => rfl, rfl, h, rfl, rfl, [], rfl, fun _ hn => absurd hn List.not_mem_nil⟩

theorem background_note (c : Client) {n : Note} (h : n.Aside) : Background c (c.note n) :=
  ⟨fun _ => rfl, rfl, rfl, rfl, rfl, [n], rfl, fun k hk => by rwa [List.mem_singleton.1 hk]⟩

theorem Background.trans {c'' : Client} (h : Background c c') (h' : Background c' c'') :
    Background c c'' := by
  obtain ⟨ns, hns, hA⟩ := h.log
  obtain ⟨ms, hms, hA'⟩ := h'.log
  refine ⟨fun k => (h'.peers k).trans (h.peers k), h'.length.trans h.length,
    h'.availabilities.trans h.availabilities, h'.picker.trans h.picker,
    h'.registered.trans h.registered, ms ++ ns, by rw [hms, hns, List.append_assoc], fun n hn => ?_⟩
  rcases List.mem_append.1 hn with hn | hn
  · exact hA' n hn
  · exact hA n hn

/-- A change of an upload channel. -/
theorem background_modifyPeer (c : Client) (p : ℕ) {f : Peer → Peer}
    (hf : ∀ q, (f q).core = q.core) : Background c (c.modifyPeer p f) := by
  refine ⟨fun k => ?_, List.length_modify _ _ _, rfl, rfl, rfl, [], rfl,
    fun _ hn => absurd hn List.not_mem_nil⟩
  have := peerCore_modifyPeer c p (g := id) hf k
  simpa using this

theorem background_chokeUpload (h : c.chokeUpload p = .ok c') : Background c c' := by
  obtain ⟨q, -, h⟩ := bind_eq_ok.1 h
  split_ifs at h
  · cases h
    exact background_of_torrent rfl
  · cases h
    refine Background.trans ?_ (background_note (n := .sent p .choke) _ trivial)
    exact background_modifyPeer c p fun _ => rfl

theorem background_unchokeUpload (h : c.unchokeUpload p = .ok c') : Background c c' := by
  obtain ⟨q, -, h⟩ := bind_eq_ok.1 h
  split_ifs at h
  · cases h
    refine Background.trans ?_ (background_note (n := .sent p .unchoke) _ trivial)
    exact background_modifyPeer c p fun _ => rfl
  · cases h
    exact background_of_torrent rfl

theorem availabilities_set {t : Torrent} {i : ℕ} {q q' : Piece} (ht : t.pieces[i]? = some q)
    (hq : q'.availability = q.availability) :
    (t.pieces.set i q').map (·.availability) = t.pieces.map (·.availability) :=
  map_set_eq ht hq

theorem background_pieceComplete {i : ℕ} (h : c.pieceComplete i = .ok c') : Background c c' := by
  have hq := quiet_pieceComplete h
  obtain ⟨ns, hns, hA⟩ := hq.log
  have hrest : c'.torrent = c.torrent ∧ c'.picker = c.picker ∧ c'.peers.length = c.peers.length := by
    unfold pieceComplete at h
    clear hq hns hA
    generalize c.registered = ps at h
    induction ps generalizing c with
    | nil =>
      cases h
      exact ⟨rfl, rfl, rfl⟩
    | cons q ps ih =>
      rw [List.foldlM_cons] at h
      obtain ⟨c₁, h₁, h⟩ := bind_eq_ok.1 h
      obtain ⟨ht, hp, hl⟩ := ih h
      obtain ⟨ht₁, hp₁, hl₁⟩ := refreshDownloadInterest_rest h₁
      exact ⟨ht.trans ht₁, hp.trans hp₁, hl.trans hl₁⟩
  refine ⟨peerCore_pieceComplete h, hrest.2.2, ?_, hrest.2.1, hq.registered, ns, hns,
    fun n hn => (hA n hn).aside⟩
  rw [availabilities, hrest.1, availabilities]

/-- The steps that are no messages, no new peers and no removals. -/
theorem background_step {sha1 : List UInt8 → Hash} {ev : Event} (hs : c.step sha1 ev = .ok c')
    (hadd : ev ≠ .addPeer) (hremove : ∀ p, ev ≠ .removePeer p)
    (hmessage : ∀ ch p msg, ev ≠ .message ch p msg) : Background c c' := by
  cases ev with
  | addPeer => exact absurd rfl hadd
  | removePeer p => exact absurd rfl (hremove p)
  | message ch p msg => exact absurd rfl (hmessage ch p msg)
  | chokeUpload p => exact background_chokeUpload hs
  | unchokeUpload p => exact background_unchokeUpload hs
  | transfer op n =>
    obtain ⟨t, ht, rfl⟩ := torrent_eq_ok hs
    obtain ⟨-, -, rfl⟩ := Torrent.transfer_eq_ok.1 ht
    exact background_of_torrent rfl
  | reuse op bytes =>
    obtain ⟨t, ht, rfl⟩ := torrent_eq_ok hs
    obtain ⟨-, -, -, rfl⟩ := Torrent.reuse_eq_ok.1 ht
    exact background_of_torrent rfl
  | written op e =>
    obtain ⟨t, ht, rfl⟩ := torrent_eq_ok hs
    obtain ⟨-, -, -, q, q', hq, hq', rfl⟩ := Torrent.writeHandler_eq_ok.1 ht
    obtain ⟨-, b, -, rfl⟩ := Piece.blockWritten_eq_ok.1 hq'
    exact background_of_torrent (availabilities_set hq rfl)
  | fetch op n =>
    obtain ⟨t, ht, rfl⟩ := torrent_eq_ok hs
    obtain ⟨-, -, -, rfl⟩ := Torrent.fetchValidation_eq_ok.1 ht
    exact background_of_torrent rfl
  | validated op =>
    obtain ⟨piece, t, hp, ht, hc⟩ := validationDone_eq_ok hs
    have hback : Background c { c with torrent := t } := by
      obtain ⟨-, q, hq, ⟨-, rfl⟩ | ⟨-, rfl⟩⟩ := Torrent.validationHandler_eq_ok.1 ht
      · exact background_of_torrent rfl
      · exact background_of_torrent (availabilities_set hq rfl)
    obtain ⟨piece', hp', hs⟩ := bind_eq_ok.1 hs
    obtain rfl := Option.some.inj (hp.symm.trans (vectorAt_eq_ok.1 hp'))
    obtain ⟨t', ht', hs⟩ := bind_eq_ok.1 hs
    obtain rfl : t = t' := Except.ok.inj (ht.symm.trans ht')
    dsimp only at hs
    split_ifs at hs
    · exact hback.trans (background_pieceComplete hs)
    · cases hs
      exact hback.trans (background_note _ trivial)
  | fetchRead op n =>
    obtain ⟨t, ht, rfl⟩ := torrent_eq_ok hs
    obtain ⟨-, -, -, rfl⟩ := Torrent.fetchRead_eq_ok.1 ht
    exact background_of_torrent rfl
  | readDone op e i o =>
    obtain ⟨-, -, rfl⟩ := readDone_eq_ok.1 hs
    let n : Note := .sent op.peer (.piece i o op.buffer)
    refine Background.trans ?_ (background_note (n := n) { c with
      torrent := { c.torrent with reads := c.torrent.reads.erase op } } trivial)
    exact background_of_torrent rfl

/-- The kinds of steps, with the state that each leads to. -/
inductive Kind (c : Client) : Client → Event → Prop
  | join : Kind c c.addPeer .addPeer
  | removal (p : ℕ) (hp : p ∈ c.registered) :
    Kind c { c.note (.removed p) with registered := c.registered.erase p } (.removePeer p)
  | absent (p : ℕ) (hp : p ∉ c.registered) : Kind c c (.removePeer p)
  | message {c' : Client} (ch : SortChoice) (p : ℕ) (msg : Message) (hp : p ∈ c.registered)
    (hmsg : c.messageHandler ch p msg = .ok c') : Kind c c' (.message ch p msg)
  | background {c' : Client} (ev : Event) (hb : Background c c') (hremove : ∀ p, ev ≠ .removePeer p)
    (hmessage : ∀ ch p msg, ev ≠ .message ch p msg) : Kind c c' ev

theorem kind_of_step {sha1 : List UInt8 → Hash} {ev : Event} (hs : c.step sha1 ev = .ok c') :
    Kind c c' ev := by
  cases ev with
  | addPeer =>
    cases hs
    exact .join
  | removePeer p =>
    cases hs
    unfold removePeer
    split_ifs with hp
    · exact .removal p hp
    · exact .absent p hp
  | message ch p msg =>
    obtain ⟨hp, hs⟩ := message_eq_ok.1 hs
    exact .message ch p msg hp hs
  | chokeUpload | unchokeUpload | transfer | reuse | written | fetch | validated | fetchRead | readDone =>
    exact .background _ (background_step hs nofun nofun nofun) nofun nofun

/-- The core of a peer that joins. -/
def newCore (c : Client) : Peer :=
  Peer.core { piecePresent := List.replicate c.torrent.pieces.length false }

theorem peerCore_addPeer (c : Client) (k : ℕ) :
    c.addPeer.peerCore k = if k = c.peers.length then some c.newCore else c.peerCore k := by
  simp only [peerCore, addPeer, List.getElem?_append]
  split_ifs with hlt heq heq
  · omega
  · rfl
  · subst heq
    simp [newCore]
  · rw [List.getElem?_eq_none (by simp; omega), List.getElem?_eq_none (by omega)]

/-- What is read off a peer that joins is what was read off the place it takes. -/
theorem addPeer_unseen {α : Type} (f : Option Peer → α) (hf : f (some c.newCore) = f none) (k : ℕ) :
    f (c.addPeer.peerCore k) = f (c.peerCore k) := by
  rw [peerCore_addPeer]
  split_ifs with hk
  · have hnone : c.peerCore k = none := by
      rw [peerCore, List.getElem?_eq_none hk.ge, Option.map_none]
    rw [hf, hnone]
  · rfl

/-! ### The log of a message handler -/

theorem log_handleMessage {msg : Message} {b : Bool} (h : c.handleMessage p msg = .ok (c', b)) :
    ∃ ns, c'.log = ns ++ .received p msg :: c.log ∧ ∀ n ∈ ns, n.Aside := by
  by_cases hpiece : ∃ i o d, msg = .piece i o d
  · obtain ⟨i, o, d, rfl⟩ := hpiece
    obtain ⟨r, -, -, -, -, -, hlog, -⟩ :=
      blockAt_pieceReceived (pieceReceived_of_handleMessage h)
    exact ⟨[], hlog, fun _ hn => absurd hn List.not_mem_nil⟩
  · by_cases hreq : ∃ i o l, msg = .request i o l
    · obtain ⟨i, o, l, rfl⟩ := hreq
      cases h
      exact ⟨[], rfl, fun _ hn => absurd hn List.not_mem_nil⟩
    · have hq := quiet_handleMessage h (fun i o l he => hreq ⟨i, o, l, he⟩)
        fun i o d he => hpiece ⟨i, o, d, he⟩
      obtain ⟨ns, hns, hA⟩ := hq.log
      exact ⟨ns, hns, fun n hn => Note.Notice.aside (.inl (hA n hn))⟩

/-! ### Asking one piece after the other -/

/-- What asking for a piece preserves while there is room, `request_blocks` preserves. -/
theorem requestPieces_induction {P : Client → Prop}
    (hP : ∀ c r, P c → c.roomFor p = true → P (c.requestPiece p r)) (rs : List ℕ) (h : P c) :
    P (requestPieces p (visited p rs c) c) := by
  induction rs generalizing c with
  | nil => exact h
  | cons r rs ih =>
    unfold visited
    split_ifs with hr
    · exact ih (hP c r h hr)
    · exact h

theorem requestPiece_setPicker (c : Client) (pk : RarestFirstPicker) (p r : ℕ) :
    ({ c with picker := pk } : Client).requestPiece p r =
      { c.requestPiece p r with picker := pk } := by
  unfold requestPiece
  cases c.torrent.pieces[r]? <;> rfl

theorem visited_setPicker (c : Client) (pk : RarestFirstPicker) (p : ℕ) (rs : List ℕ) :
    visited p rs { c with picker := pk } = visited p rs c := by
  induction rs generalizing c with
  | nil => rfl
  | cons r rs ih =>
    rw [visited, visited, requestPiece_setPicker, ih]
    rfl

/-- The same for a whole message handler, from its first part on. -/
theorem messageHandler_induction {P : Client → Prop} {ch : SortChoice} {msg : Message}
    (h : c.messageHandler ch p msg = .ok c')
    (hfirst : ∀ c₁ b, c.handleMessage p msg = .ok (c₁, b) → P c₁)
    (hpicker : ∀ c pk, c.picker.refresh ch c.torrent.pieces = .ok pk → P c →
      P { c with picker := pk })
    (hP : ∀ c r, P c → c.roomFor p = true → P (c.requestPiece p r)) : P c' := by
  obtain ⟨⟨c₁, requests⟩, h₁, h⟩ := bind_eq_ok.1 h
  have hP₁ := hfirst c₁ requests h₁
  cases requests with
  | false => exact Except.ok.inj h ▸ hP₁
  | true =>
    obtain ⟨-, pk, hpk, rfl⟩ := requestBlocks_refreshed h
    have hP₂ : P { c₁ with picker := pk } := by
      rcases hpk with hpk | rfl
      · exact hpicker c₁ pk hpk hP₁
      · exact hP₁
    unfold comesTo
    split
    · rw [visited_setPicker, ← visited_setPicker c₁ pk]
      exact requestPieces_induction hP _ hP₂
    · exact hP₂

end Client

end FTorrent
