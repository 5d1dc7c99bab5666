import FTorrent.Lib.Run
import FTorrent.Lib.Extent
import FTorrent.Lib.ListCount
import FTorrent.Lib.Tiling
import FTorrent.Lib.Codec
import FTorrent.Lib.Bytes
import FTorrent.Lib.Intake
import FTorrent.Lib.Wire
import FTorrent.Basic
import FTorrent.Serialization
import FTorrent.Streams
import FTorrent.Messages
import FTorrent.PeerConnection
import FTorrent.Connection
import FTorrent.Handshaking
import FTorrent.OnWire
import FTorrent.Delivery
import FTorrent.Link
import FTorrent.KeepAlive
import FTorrent.Malformed
import FTorrent.Lib.Query
import FTorrent.FrameSizes
import FTorrent.Piece
import FTorrent.Layout
import FTorrent.Tiling
import FTorrent.Torrent
import FTorrent.Validation
import FTorrent.Counter
import FTorrent.Positions
import FTorrent.Client
import FTorrent.Lookup
import FTorrent.Effects
import FTorrent.Frame
import FTorrent.Integrity
import FTorrent.Announce
import FTorrent.Upload
import FTorrent.Replies
import FTorrent.Requests
import FTorrent.NoLoss
import FTorrent.NoDuplicates
import FTorrent.Peers
import FTorrent.Sound
import FTorrent.Disk
import FTorrent.Reports
import FTorrent.Download
import FTorrent.Queue
import FTorrent.InFlight
import FTorrent.Unchoked
import FTorrent.Interest
import FTorrent.Pipeline
import FTorrent.Range
import FTorrent.Completion
import FTorrent.Enumeration
import FTorrent.Holders
import FTorrent.Asking
import FTorrent.Truthful
import FTorrent.Choker
import FTorrent.Slots
import FTorrent.Registries
import FTorrent.Lib.Post
import FTorrent.TrackerMessages
import FTorrent.UdpTracker
import FTorrent.TrackerSteps
import FTorrent.PendingRequest
import FTorrent.ConnectionIds
import FTorrent.AnnounceCycle
import FTorrent.Datagrams
import FTorrent.Backoff
import FTorrent.Lib.Mean
import FTorrent.RateMeasure
import FTorrent.Lib.Decimal
import FTorrent.Lib.SortedMap
import FTorrent.Bencode
import FTorrent.Bencoding
import FTorrent.Decoding
import FTorrent.MetainfoFile
import FTorrent.Acceptance
import FTorrent.Lib.Blocks
import FTorrent.Lib.SecureHash
import FTorrent.Sha1
import FTorrent.Hashing
import FTorrent.Swarm
