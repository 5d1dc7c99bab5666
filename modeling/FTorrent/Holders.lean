import FTorrent.Range

/-!
# The availability of a piece and its holders

A HAVE and every bit of a BITFIELD raise the availability of a piece, whether or not the peer was known
to have it, and a peer that leaves lowers none.  So the availability is the number of registered peers
that have the piece throughout exactly those runs in which no peer announces a piece twice and none
leaves that has one (`availabilityExact_iff`).
-/

namespace FTorrent

open Lib

namespace RarestFirstPicker

variable {n : ℕ} {pk : RarestFirstPicker} {ps ps' : List Piece}

theorem availability_modify (ps : List Piece) (i j : ℕ) :
    ((ps.modify i fun p => p.setAvailability (u32 (p.availability + 1))).map (·.availability))[j]? =
      (ps.map (·.availability))[j]?.map fun a => if i = j then u32 (a + 1) else a := by
  rw [List.getElem?_map, List.getElem?_modify, List.getElem?_map]
  cases ps[j]? with
  | none => rfl
  | some p =>
    simp only [Option.map_eq_map, Option.map_some]
    split_ifs
    · rfl
    · rfl

/-- Every bit raises the availability of its piece by one. -/
theorem availability_incrementAll (hw : pk.Whole n) (hps : Indexed n ps) {bits : List Bool} {i : ℕ}
    (h : pk.incrementAll bits i ps = .ok ps') (j : ℕ) :
    (ps'.map (·.availability))[j]? = (ps.map (·.availability))[j]?.map fun a =>
      if i ≤ j ∧ bits[j - i]? = some true then u32 (a + 1) else a := by
  induction bits generalizing i ps with
  | nil =>
    cases h
    simp [Function.comp_def]
  | cons bit bits ih =>
    have hlater : ∀ ps₁, Indexed n ps₁ → pk.incrementAll bits (i + 1) ps₁ = .ok ps' →
        (ps'.map (·.availability))[j]? = (ps₁.map (·.availability))[j]?.map fun a =>
          if i < j ∧ (bit :: bits)[j - i]? = some true then u32 (a + 1) else a := by
      intro ps₁ hps₁ h₁
      rw [ih hps₁ h₁]
      congr 1
      funext a
      by_cases hij : i < j
      · have hsub : j - i = j - (i + 1) + 1 := by omega
        rw [hsub, List.getElem?_cons_succ]
        simp [hij, Nat.succ_le_of_lt hij]
      · have hji : ¬ i + 1 ≤ j := by omega
        simp [hij, hji]
    obtain ⟨ps₁, h₁, h⟩ := bind_eq_ok.1 h
    cases bit with
    | false =>
      cases h₁
      rw [hlater ps hps h]
      congr 1
      funext a
      rcases Nat.lt_trichotomy i j with hij | rfl | hij
      · simp [hij, hij.le]
      · simp
      · simp [hij.not_gt, hij.not_ge]
    | true =>
      rw [if_pos rfl] at h₁
      by_cases hi : i < n
      · rw [incrementPieceAvailability_of_lt hw hps hi] at h₁
        cases h₁
        rw [hlater _ (hps.modify i fun p => u32 (p.availability + 1)) h, availability_modify,
          Option.map_map]
        congr 1
        funext a
        rcases Nat.lt_trichotomy i j with hij | rfl | hij
        · simp [hij, hij.le, hij.ne]
        · simp
        · simp [hij.not_gt, hij.not_ge, hij.ne']
      · rw [incrementPieceAvailability_of_le hps (not_lt.1 hi)] at h₁
        cases h₁

end RarestFirstPicker

namespace Client

variable {sha1 : List UInt8 → Hash} {m : Metainfo} {content : ℕ → UInt8} {c c' : Client} {p : ℕ}

/-- The number of registered peers that are known to have the piece. -/
def holders (c : Client) (j : ℕ) : ℕ := c.registered.countP (c.has · j)

/-- The availability of every piece is the number of registered peers that have it. -/
def AvailabilityExact (c : Client) : Prop :=
  ∀ (j : ℕ) (piece : Piece), c.torrent.pieces[j]? = some piece → piece.availability = c.holders j

/-- A HAVE or BITFIELD announces only pieces that its sender was not known to have, each held by few
enough peers to be counted in 32 bits, and a peer that leaves has no piece. -/
def AnnouncesNew (c : Client) : Event → Prop
  | .message _ p msg => ∀ j, msg.announces j = true → c.has p j = false ∧ c.holders j + 1 < 2 ^ 32
  | .removePeer p => p ∈ c.registered → ∀ j, c.has p j = false
  | _ => True

theorem has_of_peerCore {k : ℕ} (h : c'.peerCore k = c.peerCore k) (j : ℕ) :
    c'.has k j = c.has k j := by
  rw [has_eq_peerCore, h, has_eq_peerCore]

theorem holders_congr (hreg : c'.registered = c.registered) (hhas : ∀ k j, c'.has k j = c.has k j)
    (j : ℕ) : c'.holders j = c.holders j := by
  rw [holders, hreg, holders]
  apply List.countP_congr
  intro k _
  rw [hhas]

theorem availabilityExact_iff_getElem? :
    c.AvailabilityExact ↔ ∀ j a : ℕ, c.availabilities[j]? = some a → a = c.holders j := by
  constructor
  · intro h j a ha
    simp only [availabilities, List.getElem?_map, Option.map_eq_some_iff] at ha
    obtain ⟨piece, hpiece, rfl⟩ := ha
    exact h j piece hpiece
  · intro h j piece hpiece
    apply h
    simp [availabilities, hpiece]

/-- What a message does to what is known of the peers and to the availabilities. -/
structure Learned (p : ℕ) (msg : Message) (c c' : Client) : Prop where
  registered : c'.registered = c.registered
  has : ∀ k j, c'.has k j = (c.has k j || (decide (p = k) && msg.announces j))
  availability : ∀ j : ℕ, c'.availabilities[j]? = c.availabilities[j]?.map fun a =>
    if msg.announces j = true then u32 (a + 1) else a

/-- What a bit of `piece_present` becomes. -/
theorem has_effect {msg : Message} {q : Peer} {n j : ℕ} (hq : q.piecePresent.length = n)
    (hhave : ∀ i, msg = .haveMsg i → i.toNat < n)
    (hbits : ∀ bits, msg = .bitField bits → n ≤ bits.length ∧ ∀ j : ℕ, bits[j]? = some true → j < n) :
    ((msg.effect q).piecePresent[j]?).getD false =
      ((q.piecePresent[j]?).getD false || msg.announces j) := by
  cases msg with
  | haveMsg i =>
    have hi := hhave i rfl
    simp only [Message.effect, Message.announces, List.getElem?_set]
    by_cases hij : i.toNat = j
    · simp [← hij, hq, hi]
    · simp [hij]
  | bitField bits =>
    obtain ⟨hlen, hout⟩ := hbits bits rfl
    simp only [Message.effect, Message.announces, List.getElem?_zipWith]
    by_cases hj : j < n
    · rw [List.getElem?_eq_getElem (by omega : j < q.piecePresent.length),
        List.getElem?_eq_getElem (by omega : j < bits.length)]
      rfl
    · have hnone : q.piecePresent[j]? = none := List.getElem?_eq_none (by omega)
      rw [hnone]
      rcases hb : bits[j]? with _ | b
      · rfl
      · cases b with
        | false => rfl
        | true => exact absurd (hout j hb) hj
  | piece i o d =>
    rw [Message.effect_piece, Peer.setQueue_piecePresent]
    exact (Bool.or_false _).symm
  | keepAlive | choke | unchoke | interested | notInterested | request | cancel =>
    exact (Bool.or_false _).symm

theorem has_handleMessage (h : Sound m c) {msg : Message} {b : Bool}
    (hc : c.handleMessage p msg = .ok (c', b)) (hp : (c.peerCore p).isSome) (k j : ℕ) :
    c'.has k j = (c.has k j || (decide (p = k) && msg.announces j)) := by
  rw [has_eq_peerCore, peerCore_handleMessage hc, has_eq_peerCore]
  by_cases hk : p = k
  · subst hk
    obtain ⟨q, hq⟩ := Option.isSome_iff_exists.1 hp
    have hn := (h.peers p q hq).1
    have hrange := fun hmsg => inRange_of_handleMessage h hc hmsg
    rw [hq, Option.map_some, if_pos rfl, Option.bind_some, Option.bind_some,
      decide_eq_true (rfl : p = p), Bool.true_and]
    rw [← length_pieces h.laidOut] at hn
    apply has_effect hn
    · rintro i rfl
      exact hrange Message.noConfusion
    · rintro bits rfl
      exact hrange Message.noConfusion
  · simp [hk]

theorem availability_handleMessage (h : Sound m c) {msg : Message} {b : Bool}
    (hc : c.handleMessage p msg = .ok (c', b)) (j : ℕ) :
    c'.availabilities[j]? = c.availabilities[j]?.map fun a =>
      if msg.announces j = true then u32 (a + 1) else a := by
  have hrange := fun hmsg => inRange_of_handleMessage h hc hmsg
  cases msg with
  | haveMsg i =>
    have hi : i.toNat < c.torrent.pieces.length := hrange Message.noConfusion
    rw [length_pieces h.laidOut] at hi
    obtain ⟨q, ps, -, -, hinc, h₁⟩ := haveReceived_eq_ok (haveReceived_of_handleMessage hc)
    have hps := Except.ok.inj
      (hinc.symm.trans (RarestFirstPicker.incrementPieceAvailability_of_lt h.picker h.indexed hi))
    rw [availabilities, (refreshDownloadInterest_rest h₁).1]
    change (ps.map (·.availability))[j]? = _
    rw [hps, availabilities]
    simp only [Message.announces, beq_iff_eq]
    exact RarestFirstPicker.availability_modify _ _ j
  | bitField bits =>
    obtain ⟨q, c₁, ps, -, -, -, hall, rfl⟩ :=
      bitfieldReceived_eq_ok (bitfieldReceived_of_handleMessage hc)
    change (ps.map (·.availability))[j]? = _
    rw [RarestFirstPicker.availability_incrementAll h.picker h.indexed hall, availabilities]
    congr 1
    funext a
    rcases hb : bits[j]? with _ | b
    · simp [Message.announces, hb]
    · simp [Message.announces, hb]
  | piece i o d =>
    obtain ⟨r, piece, block, t, -, hpiece, -, ht, rfl⟩ :=
      pieceReceived_eq_ok (pieceReceived_of_handleMessage hc)
    obtain ⟨q, x, -, -, rfl⟩ := Torrent.writeBlock_eq_ok.1 ht
    simp only [Message.announces, Bool.false_eq_true, if_false, Option.map_id']
    rw [availabilities]
    congr 1
    exact availabilities_set hpiece rfl
  | keepAlive | choke | unchoke | interested | notInterested | request | cancel =>
    cases hc
    simp only [Message.announces, Bool.false_eq_true, if_false, Option.map_id']
    rfl

theorem has_requestPiece (c : Client) (p r k j : ℕ) :
    (c.requestPiece p r).has k j = c.has k j := by
  rcases hr : c.torrent.pieces[r]? with _ | piece
  · rw [requestPiece_of_none hr]
  · rw [has_eq_peerCore, peerCore_requestPiece hr, has_eq_peerCore]
    cases c.peerCore k with
    | none => rfl
    | some q =>
      simp only [Option.map_some, Option.bind_some]
      split_ifs
      · rw [Peer.setQueue_piecePresent]
      · rfl

theorem availabilities_requestPiece (c : Client) (p r : ℕ) :
    (c.requestPiece p r).availabilities = c.availabilities := by
  rcases hr : c.torrent.pieces[r]? with _ | piece
  · rw [requestPiece_of_none hr]
  · unfold requestPiece
    rw [hr]
    exact availabilities_set hr rfl

theorem learned_messageHandler (h : Sound m c) {ch : SortChoice} {msg : Message}
    (hc : c.messageHandler ch p msg = .ok c') (hp : (c.peerCore p).isSome) :
    Learned p msg c c' := by
  apply messageHandler_induction hc
  · exact fun c₁ b h₁ => ⟨(frame_handleMessage h₁).registered, has_handleMessage h h₁ hp,
      availability_handleMessage h h₁⟩
  · exact fun c₁ pk _ h₁ => ⟨h₁.registered, h₁.has, h₁.availability⟩
  · intro c₁ r h₁ _
    refine ⟨(frame_requestPiece c₁ p r).registered.trans h₁.registered, fun k j => ?_, fun j => ?_⟩
    · rw [has_requestPiece]
      exact h₁.has k j
    · rw [availabilities_requestPiece]
      exact h₁.availability j

/-- An announced piece has one holder more unless its sender was one. -/
theorem Learned.holders {msg : Message} (h : Learned p msg c c') (hnd : c.registered.Nodup)
    (hp : p ∈ c.registered) (j : ℕ) :
    c'.holders j = c.holders j + if msg.announces j && !c.has p j then 1 else 0 := by
  have hcount := countP_or_eq hnd hp (c.has · j) (msg.announces j)
  rw [Client.holders, h.registered, Client.holders, ← hcount]
  apply List.countP_congr
  intro k _
  rw [h.has]

/-- A message keeps the availabilities exact exactly if it announces new pieces only. -/
theorem Learned.exact_iff {ch : SortChoice} {msg : Message}
    (h : Learned p msg c c') (hs : Sound m c) (hexact : c.AvailabilityExact)
    (hp : p ∈ c.registered) (hrange : ∀ j, msg.announces j = true → j < m.pieces.length) :
    c'.AvailabilityExact ↔ c.AnnouncesNew (.message ch p msg) := by
  rw [availabilityExact_iff_getElem?] at hexact ⊢
  have hlen : c.availabilities.length = m.pieces.length := by
    rw [availabilities, List.length_map, length_pieces hs.laidOut]
  constructor
  · intro h' j hj
    have hlt := hrange j hj
    rw [← hlen] at hlt
    have ha := List.getElem?_eq_getElem hlt
    have hbefore := hexact j _ ha
    have hafter := h' j (u32 (c.holders j + 1)) (by rw [h.availability, ha, hbefore]; simp [hj])
    rw [h.holders hs.nodup hp, hj] at hafter
    cases hhas : c.has p j with
    | false =>
      refine ⟨rfl, ?_⟩
      have hbound := u32_lt (c.holders j + 1)
      rw [hhas] at hafter
      simp only [Bool.not_false, Bool.and_self, if_true] at hafter
      omega
    | true =>
      exfalso
      rw [hhas, u32] at hafter
      simp only [Bool.not_true, Bool.and_false, Bool.false_eq_true, if_false] at hafter
      omega
  · intro hnew j a ha
    rw [h.availability] at ha
    obtain ⟨a₀, ha₀, rfl⟩ := Option.map_eq_some_iff.1 ha
    obtain rfl := hexact j a₀ ha₀
    rw [h.holders hs.nodup hp]
    by_cases hj : msg.announces j = true
    · obtain ⟨hhas, hlt⟩ := hnew j hj
      rw [if_pos hj, hj, hhas, u32_of_lt hlt]
      rfl
    · rw [if_neg hj, Bool.eq_false_iff.2 hj]
      rfl

/-- A removal keeps them exact exactly if the peer has no piece. -/
theorem availabilityExact_removal_iff (hs : Sound m c) (hexact : c.AvailabilityExact)
    (hp : p ∈ c.registered) :
    AvailabilityExact { c.note (.removed p) with registered := c.registered.erase p } ↔
      c.AnnouncesNew (.removePeer p) := by
  have hcount := fun j => countP_erase_add (c.has · j) hp
  constructor
  · intro hafter _ j
    by_contra hhas
    have hhas : c.has p j = true := by simpa using hhas
    have hlt : j < m.pieces.length := by
      by_contra hout
      obtain ⟨q, hq⟩ := exists_peer (hs.registered p hp)
      have hnone : q.piecePresent[j]? = none :=
        List.getElem?_eq_none (by rw [hs.piecePresent hq]; omega)
      simp [has, hq, hnone] at hhas
    obtain ⟨piece, hpiece, -⟩ := hs.indexed.exists_piece hlt
    have hone := hcount j
    have hbefore := hexact j piece hpiece
    have hgone : piece.availability = (c.registered.erase p).countP (c.has · j) :=
      hafter j piece hpiece
    rw [holders] at hbefore
    rw [if_pos hhas] at hone
    omega
  · intro hnone j piece hpiece
    have hone := hcount j
    rw [hnone hp j] at hone
    exact (hexact j piece hpiece).trans hone.symm

/-- A peer that joins has nothing. -/
theorem has_addPeer (c : Client) (k j : ℕ) : c.addPeer.has k j = c.has k j := by
  rw [has_eq_peerCore, has_eq_peerCore]
  apply addPeer_unseen fun q => (q.bind (·.piecePresent[j]?)).getD false
  simp only [newCore, Peer.core, Option.bind_some, List.getElem?_replicate]
  split_ifs
  · rfl
  · rfl

theorem holders_addPeer (c : Client) (j : ℕ) : c.addPeer.holders j = c.holders j := by
  have hnew : c.has c.peers.length j = false := by simp [has]
  have hcongr : ∀ k, c.addPeer.has k j = c.has k j := fun k => has_addPeer c k j
  simp only [holders, hcongr]
  simp [addPeer, hnew]

/-- The standing facts, with exact availabilities. -/
structure HoldersInv (m : Metainfo) (c : Client) : Prop where
  sound : Sound m c
  exact : c.AvailabilityExact

theorem HoldersInv.init : HoldersInv m (init m content) := by
  refine ⟨.init, fun j piece hpiece => ?_⟩
  obtain ⟨-, hash, -, rfl⟩ := Metainfo.getElem?_generatePieces hpiece
  rfl

theorem announces_lt (hs : Sound m c) {ch : SortChoice} {msg : Message}
    (hc : c.messageHandler ch p msg = .ok c') (j : ℕ) (hj : msg.announces j = true) :
    j < m.pieces.length := by
  obtain ⟨⟨c₁, asks⟩, h₁, -⟩ := bind_eq_ok.1 hc
  rw [← length_pieces hs.laidOut]
  cases msg with
  | haveMsg i =>
    have hi : i.toNat < c.torrent.pieces.length := inRange_of_handleMessage hs h₁ Message.noConfusion
    rwa [beq_iff_eq.1 hj] at hi
  | bitField bits =>
    have hrange := inRange_of_handleMessage hs h₁ Message.noConfusion
    apply hrange.2
    rcases hb : bits[j]? with _ | b
    · simp [Message.announces, hb] at hj
    · simp [Message.announces, hb] at hj
      rw [hj]
  | _ => cases hj

/-- A step keeps the availabilities exact exactly if it meets the condition. -/
theorem HoldersInv.step_iff (h : HoldersInv m c) {ev : Event} (hs : c.step sha1 ev = .ok c') :
    c'.AvailabilityExact ↔ c.AnnouncesNew ev := by
  cases kind_of_step hs with
  | join =>
    apply iff_of_true _ trivial
    intro j piece hpiece
    rw [holders_addPeer]
    exact h.exact j piece hpiece
  | removal p hp => exact availabilityExact_removal_iff h.sound h.exact hp
  | absent p hp => exact iff_of_true h.exact fun hf => absurd hf hp
  | message ch p msg hp hmsg =>
    have hlearned := learned_messageHandler h.sound hmsg (h.sound.registered p hp)
    exact hlearned.exact_iff h.sound h.exact hp (announces_lt h.sound hmsg)
  | background ev hb hremove hmessage =>
    apply iff_of_true
    · have hexact := availabilityExact_iff_getElem?.1 h.exact
      rw [availabilityExact_iff_getElem?, hb.availabilities]
      intro j a ha
      rw [holders_congr hb.registered (fun k => has_of_peerCore (hb.peers k))]
      exact hexact j a ha
    · cases ev with
      | message ch p msg => exact absurd rfl (hmessage ch p msg)
      | removePeer p => exact absurd rfl (hremove p)
      | _ => trivial

/-- The availability of every piece is the number of registered peers that have it throughout exactly
those runs in which no peer announces a piece twice and none leaves that has one. -/
theorem availabilityExact_iff (sha1 : List UInt8 → Hash) (m : Metainfo) (content : ℕ → UInt8)
    (es : List Event) :
    Always (StepOf (step sha1)) AvailabilityExact (init m content) es ↔
      Each (StepOf (step sha1)) AnnouncesNew (init m content) es :=
  always_iff_each (R := StepOf (step sha1)) (J := HoldersInv m) (fun _ h => h.exact)
    (fun _ _ _ h hs hC => ⟨h.sound.step hs, (h.step_iff hs).2 hC⟩)
    (fun _ _ t h hs hC => ⟨t, hs, fun hexact => hC ((h.step_iff hs).1 hexact)⟩) .init

/-- A peer announces its piece twice. -/
def announcedTwice : List Event :=
  [.addPeer, .message ⟨.reverseTies, .still ℕ⟩ 0 (.haveMsg 0),
    .message ⟨.reverseTies, .still ℕ⟩ 0 (.haveMsg 0)]

theorem not_availabilityExact_announcedTwice :
    ¬ ∀ (sha1 : List UInt8 → Hash) (m : Metainfo) (content : ℕ → UInt8) (es : List Event),
      Always (StepOf (step sha1)) AvailabilityExact (init m content) es := by
  intro h
  obtain ⟨c, hr, havail, hholders⟩ : ∃ c, Run (StepOf (step fun _ => Vector.replicate 20 0))
      (init oneByte fun _ => 0) announcedTwice c ∧
      c.torrent.pieces[0]?.map (·.availability) = some 2 ∧ c.holders 0 = 1 :=
    exists_run (by decide +kernel)
  have hexact := (h _ _ _ _).of_run hr
  obtain ⟨piece, hpiece, ha⟩ := Option.map_eq_some_iff.1 havail
  have := hexact 0 piece hpiece
  rw [ha, hholders] at this
  cases this

end Client

end FTorrent
