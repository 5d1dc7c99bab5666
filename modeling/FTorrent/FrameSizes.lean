import FTorrent.Lib.Query
import FTorrent.Malformed

/-!
# The sizes of a frame

What is computed in 32 bits while a frame is received and decoded: the size of the buffer, that of a bit
field, that of a block, and the sums in the calls of `get`.  For the sums the decoders are written as
programs that make these calls (`read_result`); `Fits` bounds the sums along a program, `Sound` is what
then holds of its runs.  The sizes are exact for all frames but the longest and the longest bit fields
(`frameSizes_iff`).
-/

namespace FTorrent

open Lib

/-- The message has as many bits, or bytes of a block, as the frame of the given length. -/
def MessageObject.Fills (len : ℕ) (o : MessageObject) : Prop :=
  match o.content with
  | .bitField bitfield => bitfield.length = (len - 1) * 8
  | .piece _ _ block => block.length + 9 = len
  | _ => True

/-! ### The calls of `get` -/

/-- A call of `Deserializer::get`, for some bytes or for one. -/
inductive Fetch where
  | bytes (n : UInt32)
  | byte

namespace Fetch

/-- What the call returns. -/
def Answer : Fetch → Type
  | bytes _ => List UInt8
  | byte => UInt8

/-- What the call adds to the offset. -/
def count : Fetch → UInt32
  | bytes n => n
  | byte => 1

/-- The call. -/
def get : (q : Fetch) → Reader q.Answer
  | bytes n => FTorrent.get n
  | byte => getByte

/-- As many bytes as were asked for. -/
def Returns : (q : Fetch) → q.Answer → Prop
  | bytes n, bs => List.length (α := UInt8) bs = n.toNat
  | byte, _ => True

/-- The sum of the call is exact. -/
def Exact (q : Fetch) (d : Deserializer) : Prop :=
  (d.offset + q.count).toNat = d.offset.toNat + q.count.toNat

/-- A call whose sum is exact returns what it is asked for, or throws if there is less. -/
theorem get_of_exact {q : Fetch} {d : Deserializer} (h : q.Exact d) :
    (∃ a, q.get d = .ok (a, { d with offset := d.offset + q.count }) ∧ q.Returns a ∧
      d.offset.toNat + q.count.toNat ≤ d.data.length) ∨
    q.get d = .error (.exception "Deserializer: read out of bounds") := by
  cases q with
  | bytes n =>
    have hsum : (d.offset + n).toNat = d.offset.toNat + n.toNat := h
    by_cases hroom : d.offset.toNat + n.toNat ≤ d.data.length
    · refine .inl ⟨(d.data.drop d.offset.toNat).take n.toNat, ?_, ?_, hroom⟩
      · show FTorrent.get n d = _
        rw [FTorrent.get, if_neg (by omega), if_neg (by omega)]
        rfl
      · show ((d.data.drop d.offset.toNat).take n.toNat).length = n.toNat
        rw [List.length_take, List.length_drop]
        omega
    · right
      show FTorrent.get n d = _
      rw [FTorrent.get, if_pos (by omega)]
      rfl
  | byte =>
    by_cases hroom : d.offset.toNat < d.data.length
    · exact .inl ⟨_, getByte_of_lt hroom, trivial, hroom⟩
    · exact .inr (if_pos (not_lt.1 hroom))

end Fetch

/-- A function that reads from a deserializer, as a program that makes these calls. -/
abbrev FrameDecoder := Query Fetch Fetch.Answer Fault

namespace FrameDecoder

variable {α β : Type}

/-- The calls that are made from `d` on. -/
def fetches (p : FrameDecoder α) (d : Deserializer) : List (Deserializer × Fetch) := p.queries Fetch.get d

/-- What the function does. -/
def read (p : FrameDecoder α) : Reader α := p.run Fetch.get

def bytes (n : UInt32) : FrameDecoder (List UInt8) := Query.query (Fetch.bytes n)

def byte : FrameDecoder UInt8 := Query.query Fetch.byte

def number : FrameDecoder UInt32 := do
  let bytes ← bytes 4
  return ofLittleEndian bytes

def vector (size : ℕ) : FrameDecoder (List UInt8) := bytes (.ofNat size)

def bits (size : ℕ) : FrameDecoder (List Bool) := do
  let numBlocks : UInt32 := .ofNat (numBytes size)
  let blocks ← bytes numBlocks
  if numBlocks.toNat > 2 ^ 28 then .fail .outOfRange
  else
    let bits := (blocks.flatMap unpackByte).take size
    return bits ++ .replicate (size - bits.length) false

def idMessage : FrameDecoder (UInt32 × UInt8) := do
  let len ← number
  let id ← byte
  return (bigToNative len, id)

def haveMsg : FrameDecoder MessageObject := do
  let (len, id) ← idMessage
  let index ← number
  return ⟨len, id, .haveMsg (bigToNative index)⟩

def bitField : FrameDecoder MessageObject := do
  let (len, id) ← idMessage
  let bitfield ← bits ((len - 1) * 8).toNat
  return ⟨len, id, .bitField bitfield⟩

/-- A message about a block. -/
def blockMessage (content : UInt32 → UInt32 → UInt32 → Message) : FrameDecoder MessageObject := do
  let (len, id) ← idMessage
  let index ← number
  let begin ← number
  let length ← number
  return ⟨len, id, content (nativeToBig index) (nativeToBig begin) (nativeToBig length)⟩

def request : FrameDecoder MessageObject := blockMessage .request

def cancel : FrameDecoder MessageObject := blockMessage .cancel

def piece : FrameDecoder MessageObject := do
  let (len, id) ← idMessage
  let index ← number
  let begin ← number
  let block ← vector (len - 9).toNat
  return ⟨len, id, .piece (nativeToBig index) (nativeToBig begin) block⟩

/-- The `switch` of `recieve_message`. -/
def result (id : UInt8) : FrameDecoder (Option MessageObject) :=
  match EMessageId.ofValue id with
  | some .choke => return some Message.choke.object
  | some .unchoke => return some Message.unchoke.object
  | some .interested => return some Message.interested.object
  | some .notInterested => return some Message.notInterested.object
  | some .haveMsg => some <$> haveMsg
  | some .bitField => some <$> bitField
  | some .request => some <$> request
  | some .piece => some <$> piece
  | some .cancel => some <$> cancel
  | _ => return none

@[simp] theorem read_pure (a : α) : (pure a : FrameDecoder α).read = pure a := rfl

@[simp] theorem read_bind (p : FrameDecoder α) (f : α → FrameDecoder β) :
    (p >>= f).read = p.read >>= fun a => (f a).read := Query.run_bind _ p f

@[simp] theorem read_map (f : α → β) (p : FrameDecoder α) : (f <$> p).read = f <$> p.read :=
  Query.run_map _ f p

@[simp] theorem read_bytes (n : UInt32) : (bytes n).read = FTorrent.get n := Query.run_query _ _

@[simp] theorem read_byte : byte.read = getByte := Query.run_query _ _

@[simp] theorem read_number : number.read = deserializeU32 := by
  simp [number, deserializeU32]

@[simp] theorem read_vector (size : ℕ) : (vector size).read = deserializeVector size :=
  read_bytes _

@[simp] theorem read_bits (size : ℕ) : (bits size).read = deserializeBits size := by
  simp only [bits, deserializeBits, read_bind, read_bytes]
  congr 1
  funext blocks
  split_ifs <;> rfl

@[simp] theorem read_idMessage : idMessage.read = deserializeIdMessage := by
  simp [idMessage, deserializeIdMessage, deserializeMessage, deserializeU8]

@[simp] theorem read_haveMsg : haveMsg.read = deserializeHave := by
  simp [haveMsg, deserializeHave]

@[simp] theorem read_bitField : bitField.read = deserializeBitField := by
  simp [bitField, deserializeBitField]

@[simp] theorem read_request : request.read = deserializeRequest := by
  simp [request, blockMessage, deserializeRequest]

@[simp] theorem read_cancel : cancel.read = deserializeCancel := by
  simp [cancel, blockMessage, deserializeCancel]

@[simp] theorem read_piece : piece.read = deserializePiece := by
  simp [piece, deserializePiece]

/-- The program makes the calls of the functions. -/
theorem read_result (id : UInt8) : (result id).read = recieveResult id := by
  unfold result recieveResult
  rcases EMessageId.ofValue id with _ | k
  · rfl
  · cases k <;> simp

/-! ### Programs whose sums are exact -/

/-- From the offset `i` of `size` bytes on, the sums of all calls are exact, and the program ends with a
result of which `P` holds or with a failure of which `E` holds. -/
def Fits (size : ℕ) (E : Fault → Prop) (P : α → Prop) : FrameDecoder α → ℕ → Prop
  | .done a, _ => P a
  | .fail f, _ => E f
  | .ask q k, i => i + q.count.toNat < 2 ^ 32 ∧
    (i + q.count.toNat ≤ size → ∀ a, q.Returns a → Fits size E P (k a) (i + q.count.toNat))

/-- What holds of a run from `d` on. -/
structure Sound (E : Fault → Prop) (P : α → Prop) (p : FrameDecoder α) (d : Deserializer) : Prop where
  exact : ∀ x ∈ p.fetches d, x.2.Exact x.1
  result : ∀ a t, p.read d = .ok (a, t) → P a
  fault : ∀ f, p.read d = .error f → E f

variable {E : Fault → Prop} {P : α → Prop} {d : Deserializer}

theorem Sound.pure {a : α} (h : P a) : Sound E P (Pure.pure a) d := by
  refine ⟨fun x hx => absurd hx List.not_mem_nil, fun a t ht => ?_, fun f hf => ?_⟩
  · cases ht
    exact h
  · cases hf

theorem Sound.fail {f : Fault} (h : E f) : Sound E P (.fail f) d := by
  refine ⟨fun x hx => absurd hx List.not_mem_nil, fun a t ht => ?_, fun f hf => ?_⟩
  · cases ht
  · cases hf
    exact h

theorem Fits.sound (hE : E (.exception "Deserializer: read out of bounds")) {p : FrameDecoder α}
    (h : Fits d.data.length E P p d.offset.toNat) : Sound E P p d := by
  induction p generalizing d with
  | done a => exact .pure h
  | fail f => exact .fail h
  | ask q k ih =>
    have hexact : q.Exact d := by
      rw [Fetch.Exact, UInt32.toNat_add, Nat.mod_eq_of_lt h.1]
    have hread : read (.ask q k) d = (q.get d >>= fun x => read (k x.1) x.2) := rfl
    have hfetches : fetches (.ask q k) d =
        (d, q) :: Query.onward (fun a t => fetches (k a) t) (q.get d) := Query.queries_ask _ _ _ _
    rcases Fetch.get_of_exact hexact with ⟨a, hget, hreturns, hroom⟩ | hget
    · rw [hget] at hread hfetches
      have hrest : Sound E P (k a) { d with offset := d.offset + q.count } := by
        apply ih
        show Fits d.data.length E P (k a) (d.offset + q.count).toNat
        rw [hexact]
        exact h.2 hroom a hreturns
      refine ⟨?_, fun a t ht => hrest.result a t (hread.symm.trans ht), fun f hf =>
        hrest.fault f (hread.symm.trans hf)⟩
      rw [hfetches]
      exact List.forall_mem_cons.2 ⟨hexact, hrest.exact⟩
    · rw [hget] at hread hfetches
      refine ⟨?_, fun a t ht => ?_, fun f hf => ?_⟩
      · rw [hfetches]
        exact List.forall_mem_cons.2 ⟨hexact, fun x hx => absurd hx List.not_mem_nil⟩
      · cases hread.symm.trans ht
      · cases hread.symm.trans hf
        exact hE

/-- One program after the other. -/
theorem Sound.bind {p : FrameDecoder α} (h : Sound E P p d) {f : α → FrameDecoder β} {R : β → Prop}
    (hf : ∀ a t, p.read d = .ok (a, t) → Sound E R (f a) t) : Sound E R (p >>= f) d := by
  have hfetches : fetches (p >>= f) d =
      p.fetches d ++ Query.onward (fun a t => fetches (f a) t) (p.read d) := Query.queries_bind _ _ _ _
  have hread : read (p >>= f) d = (p.read d >>= fun x => read (f x.1) x.2) :=
    congrFun (read_bind p f) d
  rcases hp : p.read d with e | ⟨a, t⟩
  · rw [hp] at hread hfetches
    refine ⟨?_, fun b u hb => ?_, fun e' he => ?_⟩
    · rw [hfetches]
      exact fun x hx => h.exact x ((List.append_nil (p.fetches d)) ▸ hx)
    · cases hread.symm.trans hb
    · cases hread.symm.trans he
      exact h.fault e hp
  · rw [hp] at hread hfetches
    have hrest := hf a t hp
    refine ⟨?_, fun b u hb => hrest.result b u (hread.symm.trans hb), fun e he =>
      hrest.fault e (hread.symm.trans he)⟩
    rw [hfetches]
    exact fun x hx => (List.mem_append.1 hx).elim (h.exact x) (hrest.exact x)

theorem Sound.map {p : FrameDecoder α} (h : Sound E P p d) {f : α → β} {R : β → Prop}
    (hR : ∀ a, P a → R (f a)) : Sound E R (f <$> p) d := by
  apply h.bind (f := fun a => Pure.pure (f a))
  exact fun a t hp => .pure (hR a (h.result a t hp))

/-! ### Frames -/

section Frame

variable {len : UInt32} {id : UInt8} {payload : List UInt8}

/-- The number of bytes that the bits of a bit field are read from. -/
theorem bitField_blocks {n : ℕ} (hlen : len.toNat = 1 + n) (hn : n < 2 ^ 29) :
    (UInt32.ofNat (numBytes ((len - 1) * 8).toNat)).toNat = n := by
  have hlt : n < 2 ^ 32 := by omega
  rw [bitField_size hlen hn, numBytes_mul, UInt32.toNat_ofNat_of_lt' hlt]

theorem length_frameBytes (len : UInt32) (id : UInt8) (payload : List UInt8) :
    (frameBytes len id payload).length = 5 + payload.length := by
  rw [frameBytes_eq, List.length_append, List.length_append, bigEndian_length]
  rfl

/-- A frame with two numbers after the header has at least the length 9. -/
theorem le_of_room (hlen : len.toNat = 1 + payload.length)
    (h : 5 + 4 + 4 ≤ (frameBytes len id payload).length) : 9 ≤ len.toNat := by
  rw [length_frameBytes] at h
  omega

/-- The header of a frame. -/
theorem read_header (hroom : 5 + payload.length < 2 ^ 32) :
    idMessage.read ⟨frameBytes len id payload, 0⟩ =
      .ok ((len, id), ⟨frameBytes len id payload, 5⟩) := by
  have hlen := length_frameBytes len id payload
  have hnumber : deserializeU32 ⟨frameBytes len id payload, 0⟩ =
      .ok (byteSwap len, ⟨frameBytes len id payload, 4⟩) := by
    have hget : FTorrent.get 4 ⟨frameBytes len id payload, 0⟩ =
        .ok (bigEndian len, ⟨frameBytes len id payload, 4⟩) :=
      get_of_le (by omega) (show 0 + 4 ≤ _ by omega)
    rw [deserializeU32, Reader.bind_of_ok hget]
    rfl
  have hbyte : getByte ⟨frameBytes len id payload, 4⟩ =
      .ok (id, ⟨frameBytes len id payload, 5⟩) :=
    getByte_of_lt (d := ⟨frameBytes len id payload, 4⟩)
      (show 4 < (frameBytes len id payload).length by omega)
  rw [read_idMessage, deserializeIdMessage, deserializeMessage, bind_assoc,
    Reader.bind_of_ok hnumber, pure_bind, deserializeU8, Reader.bind_of_ok hbyte, bigToNative,
    byteSwap_byteSwap]
  rfl

variable {E : Fault → Prop} (hE : E (.exception "Deserializer: read out of bounds"))

include hE

/-- What holds of a program after the header, holds of it on the frame. -/
theorem sound_frame {P : α → Prop} (hroom : 5 + payload.length < 2 ^ 32)
    {f : UInt32 × UInt8 → FrameDecoder α}
    (h : Sound E P (f (len, id)) ⟨frameBytes len id payload, 5⟩) :
    Sound E P (idMessage >>= f) ⟨frameBytes len id payload, 0⟩ := by
  have hheader : Sound E (fun _ => True) idMessage ⟨frameBytes len id payload, 0⟩ := by
    apply Fits.sound hE
    have h4 : 0 + 4 < 2 ^ 32 := by decide
    have h5 : 0 + 4 + 1 < 2 ^ 32 := by decide
    exact ⟨h4, fun _ _ _ => ⟨h5, fun _ _ _ => trivial⟩⟩
  apply hheader.bind
  intro a t hread
  rw [read_header hroom] at hread
  cases hread
  exact h

/-- The bits have the number they are resized to. -/
theorem sound_bits {size : ℕ} {d : Deserializer}
    (hsum : d.offset.toNat + (UInt32.ofNat (numBytes size)).toNat < 2 ^ 32)
    (hover : 2 ^ 28 < (UInt32.ofNat (numBytes size)).toNat → E .outOfRange) :
    Sound E (·.length = size) (bits size) d := by
  have hbytes : Sound E (fun _ => True) (bytes (.ofNat (numBytes size))) d :=
    Fits.sound hE ⟨hsum, fun _ _ _ => trivial⟩
  apply hbytes.bind
  intro blocks t _
  split_ifs with hlong
  · exact .fail (hover hlong)
  · apply Sound.pure
    rw [List.length_append, List.length_replicate, List.length_take]
    omega

theorem sound_haveMsg (hroom : 5 + payload.length < 2 ^ 32) :
    Sound E (MessageObject.Fills len.toNat) haveMsg ⟨frameBytes len id payload, 0⟩ := by
  have h9 : 5 + 4 < 2 ^ 32 := by decide
  exact sound_frame hE hroom (Fits.sound hE ⟨h9, fun _ _ _ => trivial⟩)

theorem sound_blockMessage (hroom : 5 + payload.length < 2 ^ 32)
    {content : UInt32 → UInt32 → UInt32 → Message}
    (hcontent : ∀ len' i b l, MessageObject.Fills len.toNat ⟨len', id, content i b l⟩) :
    Sound E (MessageObject.Fills len.toNat) (blockMessage content) ⟨frameBytes len id payload, 0⟩ := by
  have h9 : 5 + 4 < 2 ^ 32 := by decide
  have h13 : 5 + 4 + 4 < 2 ^ 32 := by decide
  have h17 : 5 + 4 + 4 + 4 < 2 ^ 32 := by decide
  apply sound_frame hE hroom
  exact Fits.sound hE
    ⟨h9, fun _ _ _ => ⟨h13, fun _ _ _ => ⟨h17, fun _ _ _ => hcontent len _ _ _⟩⟩⟩

variable (hlen : len.toNat = 1 + payload.length)

include hlen

theorem sound_bitField (hroom : 5 + payload.length < 2 ^ 32) (hbits : payload.length < 2 ^ 29)
    (hover : 2 ^ 28 < payload.length → E .outOfRange) :
    Sound E (MessageObject.Fills len.toNat) bitField ⟨frameBytes len id payload, 0⟩ := by
  have hsize := bitField_size hlen hbits
  have hblocks := bitField_blocks hlen hbits
  apply sound_frame hE hroom
  have hread : Sound E (·.length = ((len - 1) * 8).toNat) (bits ((len - 1) * 8).toNat)
      ⟨frameBytes len id payload, 5⟩ := sound_bits hE (by rwa [hblocks]) (by rwa [hblocks])
  apply hread.bind
  intro bitfield t hok
  apply Sound.pure
  have hbitfield := hread.result bitfield t hok
  show bitfield.length = (len.toNat - 1) * 8
  omega

theorem sound_piece (hroom : 5 + payload.length < 2 ^ 32) :
    Sound E (MessageObject.Fills len.toNat) piece ⟨frameBytes len id payload, 0⟩ := by
  have h9 : 5 + 4 < 2 ^ 32 := by decide
  have h13 : 5 + 4 + 4 < 2 ^ 32 := by decide
  apply sound_frame hE hroom
  apply Fits.sound hE
  refine ⟨h9, fun _ _ _ => ⟨h13, fun hroom' _ _ => ?_⟩⟩
  have hsize : (len - 9).toNat + 9 = len.toNat := pieceBlock_size (le_of_room hlen hroom')
  have hblock : (UInt32.ofNat (len - 9).toNat).toNat = (len - 9).toNat := by
    rw [UInt32.ofNat_toNat]
  refine ⟨?_, fun _ block hcount => ?_⟩
  · show 5 + 4 + 4 + (UInt32.ofNat (len - 9).toNat).toNat < 2 ^ 32
    omega
  · have hcount' : block.length = (UInt32.ofNat (len - 9).toNat).toNat := hcount
    show block.length + 9 = len.toNat
    omega

/-- The sums of all calls are exact, and what is read fills the frame. -/
theorem sound_result (hroom : 5 + payload.length < 2 ^ 32)
    (hbits : id = EMessageId.bitField.value → payload.length < 2 ^ 29)
    (hover : id = EMessageId.bitField.value → 2 ^ 28 < payload.length → E .outOfRange) :
    Sound E (∀ o ∈ ·, o.Fills len.toNat) (result id) ⟨frameBytes len id payload, 0⟩ := by
  have hsome : ∀ {p : FrameDecoder MessageObject},
      Sound E (MessageObject.Fills len.toNat) p ⟨frameBytes len id payload, 0⟩ →
      Sound E (∀ o ∈ ·, o.Fills len.toNat) (some <$> p) ⟨frameBytes len id payload, 0⟩ := by
    intro p hp
    apply hp.map
    rintro o ho _ ⟨⟩
    exact ho
  unfold result
  rcases hk : EMessageId.ofValue id with _ | k
  · exact .pure nofun
  · obtain rfl := EMessageId.value_of_ofValue hk
    cases k with
    | choke | unchoke | interested | notInterested =>
      apply Sound.pure
      rintro _ ⟨⟩
      trivial
    | haveMsg => exact hsome (sound_haveMsg hE hroom)
    | bitField => exact hsome (sound_bitField hE hlen hroom (hbits rfl) (hover rfl))
    | request => exact hsome (sound_blockMessage hE hroom fun _ _ _ _ => trivial)
    | piece => exact hsome (sound_piece hE hlen hroom)
    | cancel => exact hsome (sound_blockMessage hE hroom fun _ _ _ _ => trivial)
    | port | handshake | keepAlive => exact .pure nofun

end Frame

end FrameDecoder

/-! ### The sizes -/

open FrameDecoder

variable {len : UInt32} {id : UInt8} {payload : List UInt8}

/-- The calls of `get` on a frame: for its length, and for the message. -/
def frameFetches (len : UInt32) (id : UInt8) (payload : List UInt8) : List (Deserializer × Fetch) :=
  number.fetches ⟨bigEndian len, 0⟩ ++ (result id).fetches ⟨frameBytes len id payload, 0⟩

/-- The part of `piece` before the size of the block. -/
def pieceStart : FrameDecoder (UInt32 × UInt8 × UInt32 × UInt32) := do
  let (len, id) ← idMessage
  let index ← number
  let begin ← number
  return (len, id, index, begin)

theorem deserializePiece_eq : deserializePiece = pieceStart.read >>= fun (len, id, index, begin) => do
    let block ← deserializeVector (len - 9).toNat
    return ⟨len, id, .piece (nativeToBig index) (nativeToBig begin) block⟩ := by
  simp [pieceStart, deserializePiece]

/-- The decoder of a `Piece` comes to the size of the block. -/
def ReachesBlock (len : UInt32) (id : UInt8) (payload : List UInt8) : Prop :=
  ∃ p, pieceStart.read ⟨frameBytes len id payload, 0⟩ = .ok p

/-- The sizes that are computed in 32 bits are the integers. -/
structure SizesExact (len : UInt32) (id : UInt8) (payload : List UInt8) : Prop where
  buffer : (4 + len).toNat = 4 + len.toNat
  bitfield : id = EMessageId.bitField.value → ((len - 1) * 8).toNat = (len.toNat - 1) * 8
  block : id = EMessageId.piece.value → ReachesBlock len id payload → (len - 9).toNat + 9 = len.toNat
  fetches : ∀ x ∈ frameFetches len id payload, x.2.Exact x.1

/-- The handlers of `recieve_message` stay inside their buffers, and a message fills the frame. -/
structure DecodesExact (len : UInt32) (id : UInt8) (payload : List UInt8) : Prop where
  inside : ∀ infoHash handled, PeerConnection.intake.run (.connected infoHash handled)
    (frameBytes len id payload) ≠ .error .outOfRange
  fills : ∀ infoHash handled c rest o, PeerConnection.intake.run (.connected infoHash handled)
    (frameBytes len id payload) = .ok (c, rest) → c.handled = handled ++ [some o] → o.Fills len.toNat

theorem le_of_reachesBlock (hlen : len.toNat = 1 + payload.length) (hroom : 5 + payload.length < 2 ^ 32)
    (h : ReachesBlock len id payload) : 9 ≤ len.toNat := by
  obtain ⟨⟨start, t⟩, ht⟩ := h
  have hstart : Sound (fun _ => True) (fun _ => 9 ≤ len.toNat) pieceStart
      ⟨frameBytes len id payload, 0⟩ := by
    have h9 : 5 + 4 < 2 ^ 32 := by decide
    have h13 : 5 + 4 + 4 < 2 ^ 32 := by decide
    apply sound_frame trivial hroom
    apply Fits.sound trivial
    exact ⟨h9, fun _ _ _ => ⟨h13, fun hroom' _ _ => le_of_room hlen hroom'⟩⟩
  exact hstart.result start t ht

theorem toNat_add_four (hroom : 4 + len.toNat < 2 ^ 32) : (4 + len).toNat = 4 + len.toNat := by
  rw [UInt32.toNat_add, show (4 : UInt32).toNat = 4 from rfl, Nat.mod_eq_of_lt hroom]

/-- Where the buffer has room for the frame, and the bits of a `BitField` can be counted. -/
theorem sizesExact_of_lt (hlen : len.toNat = 1 + payload.length) (hroom : 4 + len.toNat < 2 ^ 32)
    (hbits : id = EMessageId.bitField.value → payload.length < 2 ^ 29) : SizesExact len id payload := by
  have hroom' : 5 + payload.length < 2 ^ 32 := by omega
  refine ⟨toNat_add_four hroom, fun hid => ?_, fun _ h => ?_, ?_⟩
  · rw [bitField_size hlen (hbits hid)]
    omega
  · exact pieceBlock_size (le_of_reachesBlock hlen hroom' h)
  · have hnumber : Sound (fun _ => True) (fun _ => True) number ⟨bigEndian len, 0⟩ := by
      have h4 : 0 + 4 < 2 ^ 32 := by decide
      exact Fits.sound trivial ⟨h4, fun _ _ _ => trivial⟩
    have hresult := sound_result (E := fun _ => True) trivial hlen hroom' hbits fun _ _ => trivial
    exact fun x hx => (List.mem_append.1 hx).elim (hnumber.exact x) (hresult.exact x)

theorem decodesExact_of_lt (hlen : len.toNat = 1 + payload.length) (hroom : 4 + len.toNat < 2 ^ 32)
    (hbits : id = EMessageId.bitField.value → payload.length ≤ 2 ^ 28) :
    DecodesExact len id payload := by
  have hresult : Sound (· ≠ .outOfRange) (∀ o ∈ ·, o.Fills len.toNat) (result id)
      ⟨frameBytes len id payload, 0⟩ := sound_result nofun hlen (by omega)
    (fun hid => lt_of_le_of_lt (hbits hid) (by decide)) fun hid hover => absurd hover (hbits hid).not_gt
  refine ⟨fun infoHash handled hrun => ?_, fun infoHash handled c rest o hrun hhandled => ?_⟩
  · rw [PeerConnection.run_frame infoHash handled hlen hroom, ← read_result] at hrun
    rcases hread : (result id).read ⟨frameBytes len id payload, 0⟩ with f | p
    · rw [hread] at hrun
      exact hresult.fault f hread (Except.error.inj hrun)
    · rw [hread] at hrun
      cases hrun
  · rw [PeerConnection.run_frame infoHash handled hlen hroom, ← read_result] at hrun
    obtain ⟨⟨r, t⟩, hread, hc⟩ := bind_eq_ok.1 hrun
    cases hc
    have hr : r = some o := List.singleton_inj.1 (List.append_cancel_left hhandled)
    exact hresult.result r t hread o hr

/-- The index of a bit overflows. -/
theorem deserializeBits_overflow {size : ℕ} {buf : List UInt8} {i : UInt32} (hbuf : buf.length < 2 ^ 32)
    (hroom : i.toNat + (UInt32.ofNat (numBytes size)).toNat ≤ buf.length)
    (hover : 2 ^ 28 < (UInt32.ofNat (numBytes size)).toNat) :
    deserializeBits size ⟨buf, i⟩ = .error .outOfRange := by
  rw [deserializeBits, Reader.bind_of_ok (get_of_le hbuf hroom), if_pos hover]
  rfl

theorem recieveResult_overflow (hid : id = EMessageId.bitField.value)
    (hlen : len.toNat = 1 + payload.length) (hover : 2 ^ 28 < payload.length)
    (hbits : payload.length < 2 ^ 29) :
    recieveResult id ⟨frameBytes len id payload, 0⟩ = .error .outOfRange := by
  have hlength := length_frameBytes len id payload
  have hblocks := bitField_blocks hlen hbits
  have hheader : deserializeIdMessage ⟨frameBytes len id payload, 0⟩ =
      .ok ((len, id), ⟨frameBytes len id payload, 5⟩) := by
    rw [← read_idMessage]
    exact read_header (by omega)
  have hread : deserializeBits ((len - 1) * 8).toNat ⟨frameBytes len id payload, 5⟩ =
      .error .outOfRange := by
    apply deserializeBits_overflow
    · omega
    · rw [hblocks, hlength]
      exact le_rfl
    · rwa [hblocks]
  have hmessage : deserializeBitField ⟨frameBytes len id payload, 0⟩ = .error .outOfRange := by
    rw [deserializeBitField, Reader.bind_of_ok hheader]
    exact Reader.bind_of_error hread _
  subst hid
  show (some <$> deserializeBitField) _ = _
  rw [map_eq_pure_bind]
  exact Reader.bind_of_error hmessage _

theorem SizesExact.lt (h : SizesExact len id payload) : len.toNat ≤ 2 ^ 32 - 5 ∧
    (id = EMessageId.bitField.value → len.toNat - 1 < 2 ^ 29) := by
  have hlen := len.toNat_lt
  have hbuffer := h.buffer
  have hsum := (4 + len).toNat_lt
  refine ⟨by omega, fun hid => ?_⟩
  have hbits := h.bitfield hid
  have hmul := ((len - 1) * 8).toNat_lt
  omega

/-- The sizes are exact unless `4 + len` or the number of the bits of a `BitField` is 2 ^ 32 or more.
Decoding is exact, too, unless the index of such a bit is 2 ^ 31 or more. -/
theorem frameSizes_iff (hlen : len.toNat = 1 + payload.length) :
    (SizesExact len id payload ↔ len.toNat ≤ 2 ^ 32 - 5 ∧
      (id = EMessageId.bitField.value → len.toNat - 1 < 2 ^ 29)) ∧
    (SizesExact len id payload ∧ DecodesExact len id payload ↔ len.toNat ≤ 2 ^ 32 - 5 ∧
      (id = EMessageId.bitField.value → len.toNat - 1 ≤ 2 ^ 28)) := by
  have hexact : len.toNat ≤ 2 ^ 32 - 5 → (id = EMessageId.bitField.value → len.toNat - 1 < 2 ^ 29) →
      SizesExact len id payload := by
    intro hroom hbits
    exact sizesExact_of_lt hlen (by omega) fun hid => by have := hbits hid; omega
  refine ⟨⟨SizesExact.lt, fun h => hexact h.1 h.2⟩, ?_⟩
  constructor
  · rintro ⟨hsizes, hdecodes⟩
    obtain ⟨hroom, hbits⟩ := hsizes.lt
    refine ⟨hroom, fun hid => ?_⟩
    have hbits' := hbits hid
    by_contra hover
    apply hdecodes.inside (.replicate 20 0) []
    rw [PeerConnection.run_frame _ _ hlen (by omega),
      recieveResult_overflow hid hlen (by omega) (by omega)]
    rfl
  · rintro ⟨hroom, hbits⟩
    refine ⟨hexact hroom fun hid => ?_, decodesExact_of_lt hlen (by omega) fun hid => ?_⟩
    · have := hbits hid
      omega
    · have := hbits hid
      omega

/-- A `PIECE` with a block of one byte. -/
theorem frameSizes_piece : SizesExact 10 7 [0, 0, 0, 1, 0, 0, 0, 0, 5] ∧
    DecodesExact 10 7 [0, 0, 0, 1, 0, 0, 0, 0, 5] :=
  (frameSizes_iff rfl).2.2 ⟨by decide, by decide⟩

/-- The number of the bits of a `BITFIELD` with 2 ^ 29 bytes is computed as 0. -/
theorem not_frameSizes_bitField :
    ¬ ∀ (len : UInt32) (id : UInt8) (payload : List UInt8), len.toNat = 1 + payload.length →
      SizesExact len id payload ∧ DecodesExact len id payload := by
  intro h
  have hlen : (536870913 : UInt32).toNat = 1 + (List.replicate (2 ^ 29) (0 : UInt8)).length := by
    rw [List.length_replicate]
    rfl
  have hbits := (h 536870913 5 (.replicate (2 ^ 29) 0) hlen).1.bitfield rfl
  exact absurd hbits (by decide)

end FTorrent
