import FTorrent.Frame

/-!
# Uploads

A REQUEST starts a read of the file and the end of that read sends a PIECE.  Neither the handler of
the REQUEST, nor `Manager::handle_block_request`, nor `read_block`, nor its completion handler looks
at the choke state, at what has been validated, at the size of the piece or at the error code.  An
`Exchange` is a REQUEST handled in a run together with the end of its read; the reply is what it
should be exactly if the checks that are missing would have passed.
-/

namespace FTorrent

open Lib

namespace Client

variable {sha1 : List UInt8 → Hash} {m : Metainfo} {content : ℕ → UInt8} {c c' : Client}

/-- The upload channel to the peer is not choked. -/
def UploadOpen (c : Client) (p : ℕ) : Prop := c.peers[p]?.any (!·.upload.choked) = true

instance (c : Client) (p : ℕ) : Decidable (c.UploadOpen p) := inferInstanceAs (Decidable (_ = true))

/-! ### What a step does to the reads -/

/-- A step keeps reads, starts reads with new numbers, or lets a read fetch on, and what has been
reported stays so. -/
structure ReadsStep (c c' : Client) : Prop where
  readCount : c.torrent.readCount ≤ c'.torrent.readCount
  reported : c.torrent.reported ⊆ c'.torrent.reported
  reads : ∀ op ∈ c'.torrent.reads, op ∈ c.torrent.reads ∨
    (c.torrent.readCount ≤ op.id ∧ op.id < c'.torrent.readCount) ∨
    ∃ v ∈ c.torrent.reads, ∃ n,
      op = { v with buf := v.buf ++ slice c.torrent.outFile (v.fileOffset + v.buf.length) n }

theorem ReadsStep.of_same (h₁ : c'.torrent.reads = c.torrent.reads)
    (h₂ : c'.torrent.readCount = c.torrent.readCount)
    (h₃ : c.torrent.reported ⊆ c'.torrent.reported) : ReadsStep c c' :=
  ⟨h₂.ge, h₃, fun _ hop => .inl (h₁ ▸ hop)⟩

theorem ReadsStep.of_frame {A : Note → Prop} (hf : Frame A c c') : ReadsStep c c' :=
  ⟨hf.readCount, fun _ hi => hf.reported ▸ hi, fun op hop => (hf.reads op hop).imp_right .inl⟩

theorem reads_step {ev : Event} (hs : c.step sha1 ev = .ok c') : ReadsStep c c' := by
  cases ev with
  | addPeer =>
    cases hs
    exact .of_same rfl rfl (List.Subset.refl _)
  | removePeer p =>
    cases hs
    unfold removePeer
    split_ifs
    · exact .of_same rfl rfl (List.Subset.refl _)
    · exact .of_same rfl rfl (List.Subset.refl _)
  | message ch p msg => exact .of_frame (frame_messageHandler (message_eq_ok.1 hs).2)
  | chokeUpload p => exact .of_frame (.of_quiet (quiet_chokeUpload hs))
  | unchokeUpload p => exact .of_frame (.of_quiet (quiet_unchokeUpload hs))
  | transfer op n =>
    obtain ⟨t, ht, rfl⟩ := torrent_eq_ok hs
    obtain ⟨-, -, rfl⟩ := Torrent.transfer_eq_ok.1 ht
    exact .of_same rfl rfl (List.Subset.refl _)
  | reuse op bytes =>
    obtain ⟨t, ht, rfl⟩ := torrent_eq_ok hs
    obtain ⟨-, -, -, rfl⟩ := Torrent.reuse_eq_ok.1 ht
    exact .of_same rfl rfl (List.Subset.refl _)
  | written op e =>
    obtain ⟨t, ht, rfl⟩ := torrent_eq_ok hs
    obtain ⟨-, -, -, p, p', -, -, rfl⟩ := Torrent.writeHandler_eq_ok.1 ht
    exact .of_same rfl rfl (List.Subset.refl _)
  | fetch op n =>
    obtain ⟨t, ht, rfl⟩ := torrent_eq_ok hs
    obtain ⟨-, -, -, rfl⟩ := Torrent.fetchValidation_eq_ok.1 ht
    exact .of_same rfl rfl (List.Subset.refl _)
  | validated op =>
    obtain ⟨piece, t, -, ht, hc⟩ := validationDone_eq_ok hs
    obtain ⟨-, q, -, ⟨hv, rfl⟩ | ⟨hv, rfl⟩⟩ := Torrent.validationHandler_eq_ok.1 ht
    · rw [hv] at hc
      have hf : ReadsStep _ c' := .of_frame (.of_quiet hc)
      exact ⟨hf.readCount, fun i hi => hf.reported (List.mem_cons_of_mem _ hi), hf.reads⟩
    · rw [hv] at hc
      obtain rfl := hc
      exact .of_same rfl rfl (List.Subset.refl _)
  | fetchRead op n =>
    obtain ⟨t, ht, rfl⟩ := torrent_eq_ok hs
    obtain ⟨hop, -, -, rfl⟩ := Torrent.fetchRead_eq_ok.1 ht
    refine ⟨le_rfl, List.Subset.refl _, fun v hv => ?_⟩
    rcases List.mem_cons.1 hv with rfl | hv
    · exact .inr (.inr ⟨op, hop, n, rfl⟩)
    · exact .inl (List.mem_of_mem_erase hv)
  | readDone op e i o =>
    obtain ⟨-, -, rfl⟩ := readDone_eq_ok.1 hs
    exact ⟨le_rfl, List.Subset.refl _, fun v hv => .inl (List.mem_of_mem_erase hv)⟩

/-- Reads are numbered in the order in which they start. -/
theorem read_id_lt {es : List Event} (hr : Run (StepOf (step sha1)) (init m content) es c) :
    ∀ op ∈ c.torrent.reads, op.id < c.torrent.readCount := by
  refine hr.invariant (J := fun c => ∀ op ∈ c.torrent.reads, op.id < c.torrent.readCount)
    (fun s ev t h hs => ?_) (by simp [init, Torrent.init])
  obtain ⟨hle, -, hreads⟩ := reads_step hs
  intro op hop
  rcases hreads op hop with hop | hop | ⟨v, hv, n, rfl⟩
  · exact (h op hop).trans_le hle
  · exact hop.2
  · exact (h v hv).trans_le hle

/-! ### What a read has fetched -/

/-- After the events `fs` from `c` on, possibly fewer than all, the file held `b` at `x`. -/
def Held (sha1 : List UInt8 → Hash) (c : Client) (es : List Event) (x : ℕ) (b : UInt8) : Prop :=
  ∃ fs c', fs <+: es ∧ Run (StepOf (step sha1)) c fs c' ∧ c'.torrent.outFile x = b

theorem Held.mono {es fs : List Event} {x : ℕ} {b : UInt8} (h : Held sha1 c es x b)
    (hp : es <+: fs) : Held sha1 c fs x b := by
  obtain ⟨gs, c', hg, hr, hb⟩ := h
  exact ⟨gs, c', hg.trans hp, hr, hb⟩

end Client

/-! ### Exchanges -/

/-- A REQUEST handled in a run of the client, and the end of the read that it started. -/
structure Exchange (sha1 : List UInt8 → Hash) (m : Metainfo) (content : ℕ → UInt8) where
  peer : ℕ
  index : UInt32
  start : UInt32
  length : UInt32
  /-- The state in which the REQUEST is handled, the state after it, the state in which the read
  ends, and the state after that. -/
  asked : Client
  reading : Client
  ready : Client
  replied : Client
  choice : SortChoice
  earlier : List Client.Event
  between : List Client.Event
  op : ReadOp
  error : ErrorCode
  sentIndex : UInt32
  sentStart : UInt32
  reachable : Run (StepOf (Client.step sha1)) (.init m content) earlier asked
  request : asked.step sha1 (.message choice peer (.request index start length)) = .ok reading
  run : Run (StepOf (Client.step sha1)) reading between ready
  reply : ready.step sha1 (.readDone op error sentIndex sentStart) = .ok replied
  same : op.id = asked.torrent.readCount

namespace Exchange

variable {sha1 : List UInt8 → Hash} {m : Metainfo} {content : ℕ → UInt8}

/-- When the peer asked it was not choked and the piece had been validated, the block lies inside the
piece and the read has succeeded. -/
structure Passes (x : Exchange sha1 m content) : Prop where
  unchoked : x.asked.UploadOpen x.peer
  validated : x.index.toNat ∈ x.asked.torrent.reported
  inside : ∃ piece, x.asked.torrent.pieces[x.index.toNat]? = some piece ∧
    x.start.toNat + x.length.toNat ≤ piece.size
  read : x.error.value = 0

end Exchange

end FTorrent
