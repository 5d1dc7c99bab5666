import FTorrent.Frame
import FTorrent.Validation

/-!
# The disk side of the client

The client uses the torrent in the ways that `Torrent.Event` lists, and besides it changes only what the
disk side never looks at: availabilities, the requested flags of blocks, and reads (`Torrent.onDisk`).  So
what the client does to the disk side in a run is a run of the torrent by itself (`Client.refines_disk`),
and what holds of all runs of the torrent holds in the client.
-/

namespace FTorrent

open Lib

/-! ### What the disk side looks at -/

/-- The piece without its availability and the requested flags of its blocks. -/
def Piece.onDisk (p : Piece) : Piece :=
  { p with blocks := p.blocks.map (Block.setRequested · false), availability := 0 }

/-- The torrent without its reads and with such pieces. -/
def Torrent.onDisk (t : Torrent) : Torrent :=
  { t with pieces := t.pieces.map Piece.onDisk, reads := [], readCount := 0 }

namespace Piece

variable {p : Piece}

@[simp] theorem complete_onDisk (p : Piece) : p.onDisk.complete = p.complete := by
  simp [complete, onDisk]

theorem getElem?_onDisk_blocks (p : Piece) (j : ℕ) :
    p.onDisk.blocks[j]? = p.blocks[j]?.map (Block.setRequested · false) := by
  simp [onDisk]

theorem onDisk_core (p : Piece) : p.core.onDisk = p.onDisk := rfl

/-- A change of requested flags does not show. -/
theorem onDisk_of_blocks {p' : Piece} (hshape : p' = { p with blocks := p'.blocks })
    (h : p'.blocks.map (Block.setRequested · false) = p.blocks.map (Block.setRequested · false)) :
    p'.onDisk = p.onDisk := by
  rw [onDisk, h, hshape]
  rfl

theorem onDisk_requestFree (p : Piece) : p.requestFree.onDisk = p.onDisk := by
  refine onDisk_of_blocks rfl ?_
  have hsame : ∀ b : Block, (if b.free then b.setRequested true else b).setRequested false =
      b.setRequested false := by
    intro b
    split_ifs <;> rfl
  simp [requestFree, hsame]

theorem onDisk_unrequest (p : Piece) (o : ℕ) :
    (p.modifyBlock o (Block.setRequested · false)).onDisk = p.onDisk := by
  refine onDisk_of_blocks rfl (List.ext_getElem? fun j => ?_)
  simp only [modifyBlock, List.getElem?_map, List.getElem?_modify]
  split_ifs <;> simp [Function.comp_def, Block.setRequested]

theorem onDisk_complete (p : Piece) (o : ℕ) (c : Bool) :
    (p.modifyBlock o (Block.setComplete · c)).onDisk = p.onDisk.modifyBlock o (Block.setComplete · c) := by
  have hblocks : (p.blocks.modify (o / nominalBlockSize) (Block.setComplete · c)).map
      (Block.setRequested · false) =
        (p.blocks.map (Block.setRequested · false)).modify (o / nominalBlockSize)
          (Block.setComplete · c) := by
    refine List.ext_getElem? fun j => ?_
    simp only [List.getElem?_map, List.getElem?_modify]
    split_ifs <;> simp [Function.comp_def, Block.setRequested, Block.setComplete]
  simp only [onDisk, modifyBlock, hblocks]

theorem onDisk_reset (p : Piece) : p.reset.onDisk = p.onDisk.reset := by
  simp [onDisk, reset, Function.comp_def, Block.setRequested, Block.setComplete]

theorem blockWritten_onDisk {p' : Piece} {e : ErrorCode} {o : ℕ} (h : p.blockWritten e o = .ok p') :
    p.onDisk.blockWritten e o = .ok p'.onDisk := by
  obtain ⟨he, b, hb, rfl⟩ := blockWritten_eq_ok.1 h
  refine blockWritten_eq_ok.2 ⟨he, b.setRequested false, by simp [getElem?_onDisk_blocks, hb], ?_⟩
  rw [← onDisk_complete]
  rfl

end Piece

theorem SameCore.onDisk {ps ps' : List Piece} (h : SameCore ps ps') :
    ps'.map Piece.onDisk = ps.map Piece.onDisk := by
  have hcore := congrArg (List.map Piece.onDisk) h
  simpa [Function.comp_def, Piece.onDisk_core] using hcore

namespace Torrent

variable {t t' : Torrent}

theorem getElem?_onDisk {i : ℕ} {p : Piece} (hp : t.pieces[i]? = some p) :
    t.onDisk.pieces[i]? = some p.onDisk := by
  simp [onDisk, hp]

theorem onDisk_set {i : ℕ} {p : Piece} : (t.pieces.set i p).map Piece.onDisk =
    t.onDisk.pieces.set i p.onDisk :=
  List.map_set

/-- A step of the torrent is a step of its disk side. -/
theorem step_onDisk (ev : Event) (h : t.step ev = .ok t') : t.onDisk.step ev = .ok t'.onDisk := by
  cases ev with
  | writeBlock i o d =>
    obtain ⟨p, b, hp, hb, rfl⟩ := writeBlock_eq_ok.1 h
    exact writeBlock_eq_ok.2 ⟨_, _, getElem?_onDisk hp, by rw [Piece.getElem?_onDisk_blocks, hb]; rfl, rfl⟩
  | transfer op n =>
    obtain ⟨hop, hn, rfl⟩ := transfer_eq_ok.1 h
    exact transfer_eq_ok.2 ⟨hop, hn, rfl⟩
  | reuse op bytes =>
    obtain ⟨hop, hold, hlen, rfl⟩ := reuse_eq_ok.1 h
    exact reuse_eq_ok.2 ⟨hop, hold, hlen, rfl⟩
  | written op e =>
    obtain ⟨hop, he, hlen, p, p', hp, hp', rfl⟩ := writeHandler_eq_ok.1 h
    refine writeHandler_eq_ok.2 ⟨hop, he, hlen, _, _, getElem?_onDisk hp,
      Piece.blockWritten_onDisk hp', ?_⟩
    rw [Piece.complete_onDisk, onDisk]
    simp only [onDisk_set]
    rfl
  | fetch op n =>
    obtain ⟨hop, hn, hsize, rfl⟩ := fetchValidation_eq_ok.1 h
    exact fetchValidation_eq_ok.2 ⟨hop, hn, hsize, rfl⟩
  | validated op valid =>
    obtain ⟨hop, p, hp, ⟨rfl, rfl⟩ | ⟨rfl, rfl⟩⟩ := validationHandler_eq_ok.1 h
    · exact validationHandler_eq_ok.2 ⟨hop, _, getElem?_onDisk hp, .inl ⟨rfl, rfl⟩⟩
    · refine validationHandler_eq_ok.2 ⟨hop, _, getElem?_onDisk hp, .inr ⟨rfl, ?_⟩⟩
      rw [← Piece.onDisk_reset, onDisk]
      simp only [onDisk_set]
      rfl

/-- The pieces of a new torrent have nothing that the disk side does not look at. -/
theorem onDisk_init (m : Metainfo) (content : ℕ → UInt8) : (init m content).onDisk = init m content := by
  have hpieces : m.generatePieces.map Piece.onDisk = m.generatePieces := by
    refine (List.map_congr_left fun p hp => ?_).trans m.generatePieces.map_id
    obtain ⟨i, hi⟩ := List.getElem?_of_mem hp
    obtain ⟨-, hash, -, rfl⟩ := Metainfo.getElem?_generatePieces hi
    simp [Piece.onDisk, Piece.make, Piece.makeBlock, Function.comp_def, Block.setRequested]
  simp only [onDisk, init, hpieces]

end Torrent

/-! ### The events -/

namespace Client

variable {c c' : Client} {p : ℕ} {sha1 : List UInt8 → Hash}

/-- What the event does to the disk side. -/
def diskEvents (sha1 : List UInt8 → Hash) (c : Client) : Event → List Torrent.Event
  | .message _ _ (.piece i o d) => [.writeBlock i.toNat o.toNat d]
  | .transfer op n => [.transfer op n]
  | .reuse op bytes => [.reuse op bytes]
  | .written op e => [.written op e]
  | .fetch op n => [.fetch op n]
  | .validated op => [.validated op
      (c.torrent.pieces[op.pieceIndex]?.any fun piece => hashValid sha1 op.buffer piece.hash)]
  | _ => []

theorem onDisk_quiet {A : Note → Prop} (h : Quiet A c c') : c'.torrent.onDisk = c.torrent.onDisk := by
  rw [Torrent.onDisk, h.pieces.onDisk, h.torrent]
  rfl

/-- A piece changes in what does not show. -/
theorem onDisk_setPieces {r : ℕ} {piece piece' : Piece} (hr : c.torrent.pieces[r]? = some piece)
    (h : piece'.onDisk = piece.onDisk) :
    (c.setPieces (c.torrent.pieces.set r piece')).torrent.onDisk = c.torrent.onDisk := by
  simp only [setPieces, Torrent.onDisk, map_set_eq hr h]

theorem onDisk_requestPieces (rs : List ℕ) (c : Client) :
    (requestPieces p rs c).torrent.onDisk = c.torrent.onDisk := by
  induction rs generalizing c with
  | nil => rfl
  | cons r rs ih =>
    refine (ih (c.requestPiece p r)).trans ?_
    unfold requestPiece
    split
    · rfl
    · next piece hr => exact onDisk_setPieces hr (Piece.onDisk_requestFree piece)

/-- A PIECE starts a write, and no other message does anything to the disk side. -/
theorem refines_message {ch : SortChoice} {msg : Message} (h : c.messageHandler ch p msg = .ok c') :
    Run (StepOf Torrent.step) c.torrent.onDisk (c.diskEvents sha1 (.message ch p msg))
      c'.torrent.onDisk := by
  obtain ⟨c₁, requests, h₁, h⟩ := messageHandler_eq_ok h
  have hsame : c'.torrent.onDisk = c₁.torrent.onDisk := by
    cases requests with
    | false =>
      obtain rfl := h
      rfl
    | true =>
      obtain ⟨pk, -, rfl⟩ := h
      exact onDisk_requestPieces _ _
  rw [hsame]
  by_cases hpiece : ∃ i o d, msg = .piece i o d
  · obtain ⟨i, o, d, rfl⟩ := hpiece
    obtain ⟨r, piece, block, t, -, hr, -, ht, rfl⟩ := pieceReceived_eq_ok (pieceReceived_of_handleMessage h₁)
    have hwrite := Torrent.step_onDisk (.writeBlock i.toNat o.toNat d) ht
    rw [onDisk_setPieces hr (Piece.onDisk_unrequest piece o.toNat)] at hwrite
    exact .single hwrite
  · have hevents : c.diskEvents sha1 (.message ch p msg) = [] := by
      cases msg with
      | piece i o d => exact absurd ⟨i, o, d, rfl⟩ hpiece
      | _ => rfl
    rw [hevents]
    by_cases hreq : ∃ i o l, msg = .request i o l
    · obtain ⟨i, o, l, rfl⟩ := hreq
      cases h₁
      exact .nil _
    · have hq := quiet_handleMessage h₁ (fun i o l he => hreq ⟨i, o, l, he⟩)
        (fun i o d he => hpiece ⟨i, o, d, he⟩)
      rw [onDisk_quiet hq]
      exact .nil _

/-- A step of the client does to the disk side what its events say. -/
theorem refines_disk_step {ev : Event} (h : c.step sha1 ev = .ok c') :
    Run (StepOf Torrent.step) c.torrent.onDisk (c.diskEvents sha1 ev) c'.torrent.onDisk := by
  cases ev with
  | addPeer =>
    cases h
    exact .nil _
  | removePeer p =>
    cases h
    unfold removePeer
    split_ifs
    · exact .nil _
    · exact .nil _
  | message ch p msg => exact refines_message (message_eq_ok.1 h).2
  | chokeUpload p =>
    rw [onDisk_quiet (quiet_chokeUpload h)]
    exact .nil _
  | unchokeUpload p =>
    rw [onDisk_quiet (quiet_unchokeUpload h)]
    exact .nil _
  | transfer op n =>
    obtain ⟨t, ht, rfl⟩ := torrent_eq_ok h
    exact .single (Torrent.step_onDisk (.transfer op n) ht)
  | reuse op bytes =>
    obtain ⟨t, ht, rfl⟩ := torrent_eq_ok h
    exact .single (Torrent.step_onDisk (.reuse op bytes) ht)
  | written op e =>
    obtain ⟨t, ht, rfl⟩ := torrent_eq_ok h
    exact .single (Torrent.step_onDisk (.written op e) ht)
  | fetch op n =>
    obtain ⟨t, ht, rfl⟩ := torrent_eq_ok h
    exact .single (Torrent.step_onDisk (.fetch op n) ht)
  | validated op =>
    obtain ⟨piece, t, hp, ht, hc⟩ := validationDone_eq_ok h
    have hstep := Torrent.step_onDisk (.validated op (hashValid sha1 op.buffer piece.hash)) ht
    have hsame : c'.torrent.onDisk = t.onDisk := by
      split_ifs at hc
      · exact onDisk_quiet hc
      · subst hc
        rfl
    rw [diskEvents, hp, Option.any_some, hsame]
    exact .single hstep
  | fetchRead op n =>
    obtain ⟨t, ht, rfl⟩ := torrent_eq_ok h
    obtain ⟨-, -, -, rfl⟩ := Torrent.fetchRead_eq_ok.1 ht
    exact .nil _
  | readDone op e i o =>
    obtain ⟨-, -, rfl⟩ := readDone_eq_ok.1 h
    exact .nil _

/-! ### Runs -/

/-- What the events of a run do to the disk side. -/
def diskTrace (sha1 : List UInt8 → Hash) : Client → List Event → List Torrent.Event
  | _, [] => []
  | c, ev :: es => c.diskEvents sha1 ev ++
    match c.step sha1 ev with
    | .ok c' => diskTrace sha1 c' es
    | .error _ => []

theorem diskTrace_cons {ev : Event} (h : c.step sha1 ev = .ok c') (es : List Event) :
    diskTrace sha1 c (ev :: es) = c.diskEvents sha1 ev ++ diskTrace sha1 c' es := by
  rw [diskTrace, h]

/-- The disk side of a run of the client is a run of the torrent. -/
theorem refines_disk {es : List Event} (hr : Run (StepOf (step sha1)) c es c') :
    Run (StepOf Torrent.step) c.torrent.onDisk (diskTrace sha1 c es) c'.torrent.onDisk := by
  induction hr with
  | nil => exact .nil _
  | cons hs _ ih =>
    rw [diskTrace_cons hs]
    exact (refines_disk_step hs).append ih

/-- The number of PIECE messages for the piece. -/
def deliveries (i : ℕ) (es : List Event) : ℕ :=
  es.countP fun
    | .message _ _ (.piece j _ _) => j.toNat == i
    | _ => false

theorem writesTo_diskEvents (i : ℕ) (c : Client) (ev : Event) :
    Torrent.writesTo i (c.diskEvents sha1 ev) = deliveries i [ev] := by
  cases ev with
  | message ch p msg => cases msg <;> rfl
  | _ => rfl

/-- Each PIECE starts a write. -/
theorem writesTo_diskTrace {es : List Event} (hr : Run (StepOf (step sha1)) c es c') (i : ℕ) :
    Torrent.writesTo i (diskTrace sha1 c es) = deliveries i es := by
  induction hr with
  | nil => rfl
  | cons hs _ ih =>
    rw [diskTrace_cons hs, Torrent.writesTo_append, writesTo_diskEvents, ih, ← List.singleton_append]
    exact List.countP_append.symm

/-- The invariant of validations holds in the client, for as many deliveries as a counter can count. -/
theorem validationInv_onDisk {m : Metainfo} {content : ℕ → UInt8} {es : List Event}
    (hr : Run (StepOf (step sha1)) (init m content) es c) (hw : ∀ i, deliveries i es < 2 ^ 32) :
    c.torrent.onDisk.ValidationInv := by
  have hdisk := refines_disk hr
  have hinit : (init m content).torrent.onDisk = .init m content := Torrent.onDisk_init m content
  rw [hinit] at hdisk
  refine (Torrent.validationInv_run hdisk fun i => ?_).1
  rw [writesTo_diskTrace hr]
  exact hw i

/-- The piece of the torrent of one byte is delivered and validated. -/
def deliveredByte : List Event :=
  [.message ⟨.reverseTies, .still ℕ⟩ 0 (.piece 0 0 [0]), .transfer ⟨0, 0, 0, [0], 1, 0⟩ 1,
    .written ⟨0, 0, 0, [0], 1, 1⟩ .success, .fetch ⟨0, 0, 1, []⟩ 1, .validated ⟨0, 0, 1, [0]⟩]

end Client

end FTorrent
