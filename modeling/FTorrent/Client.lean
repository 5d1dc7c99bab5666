import FTorrent.Messages
import FTorrent.Torrent
import FTorrent.Picker

/-!
# The client: peers, torrent and picker

The state of the program as `Manager` wires it together, and the handlers that run on it: the
handler of a peer message, the completion handlers of the disk operations, and the joining and
leaving of peers.  Each handler is atomic.  A handler that throws ends the process, so it has no
next state.

A pointer to a peer is its position in `peers`, which keeps every peer ever made; `registered` is
`PeerHandler::peers`.  `log` is a history variable, latest first.
-/

namespace FTorrent

open Lib

/-- `DataChannel`. -/
structure DataChannel where
  choked : Bool := true
  interested : Bool := false
  deriving DecidableEq

/-- `Peer`. -/
structure Peer where
  upload : DataChannel := {}
  download : DataChannel := {}
  piecePresent : List Bool
  blocksInQueue : ℕ := 0
  deriving DecidableEq

def DataChannel.setChoked (d : DataChannel) (b : Bool) : DataChannel := { d with choked := b }

def DataChannel.setInterested (d : DataChannel) (b : Bool) : DataChannel := { d with interested := b }

def Peer.setUpload (q : Peer) (f : DataChannel → DataChannel) : Peer := { q with upload := f q.upload }

def Peer.setDownload (q : Peer) (f : DataChannel → DataChannel) : Peer :=
  { q with download := f q.download }

/-- `block_pipeline_size`. -/
def blockPipelineSize : ℕ := 10

/-- `Peer::has_piece`. -/
def Peer.hasPiece (q : Peer) (index : ℕ) : Except Fault Bool := vectorAt q.piecePresent index

/-- What the history records: messages in both directions, resets of pieces after a failed hash, and
peers that left. -/
inductive Note where
  | sent (peer : ℕ) (msg : Message)
  | received (peer : ℕ) (msg : Message)
  | reset (pieceIndex : ℕ)
  | removed (peer : ℕ)
  deriving DecidableEq

structure Client where
  torrent : Torrent
  picker : RarestFirstPicker
  peers : List Peer := []
  registered : List ℕ := []
  log : List Note := []

/-- A block that `request_blocks` asks for. -/
def Block.free (b : Block) : Bool := !b.requested && !b.complete

namespace Piece

/-- The blocks that the inner loop of `request_blocks` asks for, in order. -/
def freeBlocks (p : Piece) : List Block := p.blocks.filter Block.free

/-- The piece after that loop. -/
def requestFree (p : Piece) : Piece :=
  { p with blocks := p.blocks.map fun b => if b.free then b.setRequested true else b }

/-- The REQUEST for a block of the piece. -/
def requestFor (p : Piece) (b : Block) : Message :=
  .request (.ofNat p.index) (.ofNat b.offset) (.ofNat b.size)

end Piece

namespace Client

/-- `Manager::Manager`. -/
def init (m : Metainfo) (content : ℕ → UInt8) : Client where
  torrent := .init m content
  picker := .create m.generatePieces

def note (c : Client) (n : Note) : Client := { c with log := n :: c.log }

/-- `PeerConnection::send`. -/
def send (c : Client) (p : ℕ) (msg : Message) : Client := c.note (.sent p msg)

def modifyPeer (c : Client) (p : ℕ) (f : Peer → Peer) : Client :=
  { c with peers := c.peers.modify p f }

theorem getElem?_modifyPeer {c : Client} {p : ℕ} {q : Peer} (hq : c.peers[p]? = some q)
    (f : Peer → Peer) : (c.modifyPeer p f).peers[p]? = some (f q) := by
  rw [modifyPeer, List.getElem?_modify, hq]
  simp

def setPieces (c : Client) (ps : List Piece) : Client :=
  { c with torrent := { c.torrent with pieces := ps } }

/-! ### A peer's part -/

/-- `Peer::refresh_download_interest`; both vectors have an entry for each piece. -/
def refreshDownloadInterest (c : Client) (p : ℕ) : Except Fault Client := do
  let q ← vectorAt c.peers p
  let interesting := (c.picker.getHaveBitfield.zip q.piecePresent).any fun (mine, theirs) =>
    !mine && theirs
  if interesting && !q.download.interested then
    return (c.send p .interested).modifyPeer p (·.setDownload (·.setInterested true))
  else if !interesting && q.download.interested then
    return (c.modifyPeer p (·.setDownload (·.setInterested false))).send p .notInterested
  else return c

/-- The inner loop of `request_blocks` on the piece behind the pointer `r`. -/
def requestPiece (c : Client) (p r : ℕ) : Client :=
  match c.torrent.pieces[r]? with
  | none => c
  | some piece =>
    { c.setPieces (c.torrent.pieces.set r piece.requestFree) with
      peers := c.peers.modify p fun q =>
        { q with blocksInQueue := u32 (q.blocksInQueue + piece.freeBlocks.length) }
      log := (piece.freeBlocks.map fun b => .sent p (piece.requestFor b)).reverse ++ c.log }

/-- The loop of `request_blocks`, at most `fuel` times. -/
def requestLoop (ch : SortChoice) (p : ℕ) : ℕ → ℕ → Client → Except Fault Client
  | 0, _, c => .ok c
  | fuel + 1, attempt, c => do
    let q ← vectorAt c.peers p
    if q.blocksInQueue < blockPipelineSize then
      let (picker, r) ← c.picker.next ch c.torrent.pieces q.hasPiece attempt
      let c := { c with picker }
      match r with
      | none => return c
      | some r => requestLoop ch p fuel (attempt + 1) (c.requestPiece p r)
    else return c

/-- `Peer::request_blocks`.  The candidates are pairwise different pieces of the picker, so the loop
ends by itself before this many rounds are over (`requestBlocks_eq_ok`). -/
def requestBlocks (ch : SortChoice) (p : ℕ) (c : Client) : Except Fault Client :=
  requestLoop ch p (c.picker.pieces.length + c.picker.availabilityBuckets.flatten.length + 1) 0 c

/-- HAVE, up to `request_blocks`. -/
def haveReceived (c : Client) (p : ℕ) (index : UInt32) : Except Fault Client := do
  let q ← vectorAt c.peers p
  let _ ← vectorAt q.piecePresent index.toNat
  let c := c.modifyPeer p fun q => { q with piecePresent := q.piecePresent.set index.toNat true }
  let (picker, ps) ← c.picker.onHave c.torrent.pieces index.toNat
  let c := { c.setPieces ps with picker }
  c.refreshDownloadInterest p

/-- BITFIELD: a bitfield that is too short is read beyond its end. -/
def bitfieldReceived (c : Client) (p : ℕ) (bitfield : List Bool) : Except Fault Client := do
  let q ← vectorAt c.peers p
  if bitfield.length < q.piecePresent.length then .error .outOfRange
  else
    let c := c.modifyPeer p fun q =>
      { q with piecePresent := List.zipWith (· || ·) q.piecePresent bitfield }
    let c ← c.refreshDownloadInterest p
    let (picker, ps) ← c.picker.onBitfield c.torrent.pieces bitfield
    return { c.setPieces ps with picker }

/-- PIECE, up to `request_blocks`: the flag is cleared on the block found through the picker, and the
data goes to the piece of the torrent with the index. -/
def pieceReceived (c : Client) (p : ℕ) (index begin : UInt32) (block : List UInt8) :
    Except Fault Client := do
  let r ← c.picker.getPiece index.toNat
  let piece ← vectorAt c.torrent.pieces r
  let _ ← piece.getBlockByOffset begin.toNat
  let c := c.setPieces (c.torrent.pieces.set r
    (piece.modifyBlock begin.toNat (Block.setRequested · false)))
  let c := c.modifyPeer p fun q => { q with blocksInQueue := u32 (q.blocksInQueue + 2 ^ 32 - 1) }
  let torrent ← c.torrent.writeBlock index.toNat begin.toNat block
  return { c with torrent }

/-- `Peer::message_handler` up to a call of `request_blocks`, which is the last thing a handler does;
the flag tells whether it does it. -/
def handleMessage (c : Client) (p : ℕ) (msg : Message) : Except Fault (Client × Bool) :=
  let c := c.note (.received p msg)
  match msg with
  | .keepAlive => .ok (c, false)
  | .choke => .ok (c.modifyPeer p (·.setDownload (·.setChoked true)), false)
  | .unchoke => .ok (c.modifyPeer p (·.setDownload (·.setChoked false)), true)
  | .interested => .ok (c.modifyPeer p (·.setUpload (·.setInterested true)), false)
  | .notInterested => .ok (c.modifyPeer p (·.setUpload (·.setInterested false)), false)
  | .haveMsg index => do
    let c ← c.haveReceived p index
    let q ← vectorAt c.peers p
    return (c, q.download.interested && !q.download.choked)
  | .bitField bitfield => do
    let c ← c.bitfieldReceived p bitfield
    return (c, false)
  | .request index begin length =>
    .ok ({ c with torrent := c.torrent.readBlock index.toNat begin.toNat length.toNat p }, false)
  | .piece index begin block => do
    let c ← c.pieceReceived p index begin block
    return (c, true)
  | .cancel _ _ _ => .ok (c, false)

/-- `Peer::message_handler`. -/
def messageHandler (c : Client) (ch : SortChoice) (p : ℕ) (msg : Message) : Except Fault Client := do
  let (c, requests) ← c.handleMessage p msg
  if requests then requestBlocks ch p c else return c

/-- `Peer::send_block`, with the values that its caller finds in the parameters of a call that has
returned. -/
def sendBlock (c : Client) (p : ℕ) (index begin : UInt32) (data : List UInt8) : Client :=
  c.send p (.piece index begin data)

/-- `Peer::choke_upload`. -/
def chokeUpload (c : Client) (p : ℕ) : Except Fault Client := do
  let q ← vectorAt c.peers p
  if q.upload.choked then return c
  else return (c.modifyPeer p (·.setUpload (·.setChoked true))).send p .choke

/-- `Peer::unchoke_upload`. -/
def unchokeUpload (c : Client) (p : ℕ) : Except Fault Client := do
  let q ← vectorAt c.peers p
  if q.upload.choked then return (c.modifyPeer p (·.setUpload (·.setChoked false))).send p .unchoke
  else return c

/-! ### The peer handler -/

/-- `PeerHandler::add_peer` and `accept_peer`; the constructor of `Peer` sends the bitfield. -/
def addPeer (c : Client) : Client :=
  let p := c.peers.length
  { c.send p (.bitField c.picker.getHaveBitfield) with
    peers := c.peers ++ [{ piecePresent := List.replicate c.torrent.pieces.length false }]
    registered := c.registered ++ [p] }

/-- `PeerHandler::remove_peer`. -/
def removePeer (c : Client) (p : ℕ) : Client :=
  if p ∈ c.registered then { c.note (.removed p) with registered := c.registered.erase p } else c

/-- `PeerHandler::piece_complete`. -/
def pieceComplete (c : Client) (pieceIndex : ℕ) : Except Fault Client :=
  c.registered.foldlM (fun c p =>
    (c.send p (.haveMsg (.ofNat pieceIndex))).refreshDownloadInterest p) c

/-! ### Completion handlers and events -/

/-- The completion handler of a validation read. -/
def validationDone (sha1 : List UInt8 → Hash) (c : Client) (op : ValidateOp) :
    Except Fault Client := do
  let piece ← vectorAt c.torrent.pieces op.pieceIndex
  let valid := hashValid sha1 op.buffer piece.hash
  let torrent ← c.torrent.validationHandler op valid
  let c := { c with torrent }
  if valid then c.pieceComplete (u32 op.pieceIndex) else return c.note (.reset op.pieceIndex)

/-- The completion handler of a block read, with `send_block` in it. -/
def readDone (c : Client) (op : ReadOp) (e : ErrorCode) (index begin : UInt32) :
    Except Fault Client := do
  let (torrent, data) ← c.torrent.readHandler op e
  let c := { c with torrent }
  return c.sendBlock op.peer index begin data

/-- What can happen next.  The messages come from registered peers; the choker can hold on to a peer
that has left. -/
inductive Event where
  | addPeer
  | removePeer (peer : ℕ)
  | message (ch : SortChoice) (peer : ℕ) (msg : Message)
  | chokeUpload (peer : ℕ)
  | unchokeUpload (peer : ℕ)
  | transfer (op : WriteOp) (n : ℕ)
  | reuse (op : WriteOp) (bytes : List UInt8)
  | written (op : WriteOp) (e : ErrorCode)
  | fetch (op : ValidateOp) (n : ℕ)
  | validated (op : ValidateOp)
  | fetchRead (op : ReadOp) (n : ℕ)
  | readDone (op : ReadOp) (e : ErrorCode) (index begin : UInt32)

def step (sha1 : List UInt8 → Hash) (c : Client) : Event → Except Fault Client
  | .addPeer => .ok c.addPeer
  | .removePeer p => .ok (c.removePeer p)
  | .message ch p msg => if p ∈ c.registered then c.messageHandler ch p msg else .error .notEnabled
  | .chokeUpload p => c.chokeUpload p
  | .unchokeUpload p => c.unchokeUpload p
  | .transfer op n => do
    let torrent ← c.torrent.transfer op n
    return { c with torrent }
  | .reuse op bytes => do
    let torrent ← c.torrent.reuse op bytes
    return { c with torrent }
  | .written op e => do
    let torrent ← c.torrent.writeHandler op e
    return { c with torrent }
  | .fetch op n => do
    let torrent ← c.torrent.fetchValidation op n
    return { c with torrent }
  | .validated op => c.validationDone sha1 op
  | .fetchRead op n => do
    let torrent ← c.torrent.fetchRead op n
    return { c with torrent }
  | .readDone op e index begin => c.readDone op e index begin

end Client

end FTorrent
