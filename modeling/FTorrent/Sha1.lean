import FTorrent.Basic
import FTorrent.Lib.SecureHash

/-!
# SHA-1

`sha1_provider`, `absorb_bytes` and what `hasher` does with them, as `sha1::computeHash` uses it.  The
array `m` is not initialised; the words are read from and written to memory in little-endian order.
-/

namespace FTorrent

open Lib

/-! ### The provider -/

/-- `sha1_provider`, whatever it chains. -/
structure Sha1Provider (σ : Type) where
  H : σ
  m : List UInt8
  pos : ℕ
  total : ℕ

/-- `memcpy` into an array from a position on. -/
def copyTo (m : List UInt8) (pos : ℕ) (data : List UInt8) : List UInt8 :=
  m.take pos ++ data ++ m.drop (pos + data.length)

section Absorb

variable {σ : Type} (transform : σ → List UInt8 → ℕ → σ) (bs bschk : ℕ)

/-- The first part of `absorb_bytes`: the block in `m` is filled, if there is enough. -/
def fillBlock (data : List UInt8) (p : Sha1Provider σ) : Sha1Provider σ × List UInt8 :=
  if p.pos ≠ 0 ∧ p.pos + data.length ≥ bschk then
    let m := copyTo p.m p.pos (data.take (bs - p.pos))
    ({ H := transform p.H m 1, m, pos := 0, total := u64 (p.total + bs * 8) }, data.drop (bs - p.pos))
  else (p, data)

/-- The second part: the blocks in the data. -/
def takeBlocks (data : List UInt8) (p : Sha1Provider σ) : Sha1Provider σ × List UInt8 :=
  if data.length ≥ bschk then
    let blocks := (data.length + bs - bschk) / bs
    let bytes := blocks * bs
    ({ p with H := transform p.H data blocks, total := u64 (p.total + bytes * 8) }, data.drop bytes)
  else (p, data)

def absorbBytes (data : List UInt8) (p : Sha1Provider σ) : Sha1Provider σ :=
  let (p, data) := fillBlock transform bs bschk data p
  let (p, data) := takeBlocks transform bs bschk data p
  { p with m := copyTo p.m p.pos data, pos := p.pos + data.length }

end Absorb

/-! ### The transformation -/

namespace Sha1Provider

def Ch (x y z : UInt32) : UInt32 := (x &&& y) ^^^ (~~~x &&& z)

def Parity (x y z : UInt32) : UInt32 := x ^^^ y ^^^ z

def Maj (x y z : UInt32) : UInt32 := (x &&& y) ^^^ (x &&& z) ^^^ (y &&& z)

/-- `sha1_constants::K`. -/
def sha1Constants : Vector UInt32 4 := #v[0x5a827999, 0x6ed9eba1, 0x8f1bbcdc, 0xca62c1d6]

def rotateLeft (x n : UInt32) : UInt32 := (x <<< n) ||| (x >>> (32 - n))

/-- `M[i]` of a block. -/
def wordAt (data : List UInt8) (blk i : ℕ) : UInt32 :=
  byteSwap (ofLittleEndian ((data.drop (4 * (blk * 16 + i))).take 4))

/-- One more word of `W`. -/
def extend (W : List UInt32) (t : ℕ) : List UInt32 :=
  W ++ [rotateLeft (W.getD (t - 3) 0 ^^^ W.getD (t - 8) 0 ^^^ W.getD (t - 14) 0 ^^^ W.getD (t - 16) 0) 1]

/-- `W`. -/
def schedule (data : List UInt8) (blk : ℕ) : List UInt32 :=
  (List.range' 16 64).foldl extend ((List.range 16).map (wordAt data blk))

/-- The variables of the loop. -/
structure Round where
  a : UInt32
  b : UInt32
  c : UInt32
  d : UInt32
  e : UInt32
  K : UInt32
  f : UInt32 → UInt32 → UInt32 → UInt32

/-- An iteration. -/
def Round.next (W : List UInt32) (r : Round) (t : ℕ) : Round :=
  let T := rotateLeft r.a 5 + r.f r.b r.c r.d + r.e + r.K + W.getD t 0
  let r := { r with e := r.d, d := r.c, c := rotateLeft r.b 30, b := r.a, a := T }
  if t = 19 then { r with f := Parity, K := sha1Constants.get 1 }
  else if t = 39 then { r with f := Maj, K := sha1Constants.get 2 }
  else if t = 59 then { r with f := Parity, K := sha1Constants.get 3 }
  else r

/-- An iteration of the loop of `transform`. -/
def transformBlock (data : List UInt8) (H : Vector UInt32 5) (blk : ℕ) : Vector UInt32 5 :=
  let r := (List.range 80).foldl (Round.next (schedule data blk))
    ⟨H.get 0, H.get 1, H.get 2, H.get 3, H.get 4, sha1Constants.get 0, Ch⟩
  #v[H.get 0 + r.a, H.get 1 + r.b, H.get 2 + r.c, H.get 3 + r.d, H.get 4 + r.e]

/-- The chaining value that the words hold. -/
def chain (H : Vector UInt32 5) : SecureHash.Chain :=
  ⟨(H.get 0).toBitVec, (H.get 1).toBitVec, (H.get 2).toBitVec, (H.get 3).toBitVec, (H.get 4).toBitVec⟩

def transform (H : Vector UInt32 5) (data : List UInt8) (numBlks : ℕ) : Vector UInt32 5 :=
  (List.range numBlks).foldl (transformBlock data) H

/-! ### The digest -/

/-- `init`; the array holds any bytes. -/
def init (m : Vector UInt8 64) : Sha1Provider (Vector UInt32 5) where
  H := #v[0x67452301, 0xefcdab89, 0x98badcfe, 0x10325476, 0xc3d2e1f0]
  m := m.toList
  pos := 0
  total := 0

def update (data : List UInt8) (p : Sha1Provider (Vector UInt32 5)) : Sha1Provider (Vector UInt32 5) :=
  absorbBytes transform 64 64 data p

/-- The first part of `final`: the end of the message, and a block if the length does not fit any more. -/
def finish (p : Sha1Provider (Vector UInt32 5)) : Sha1Provider (Vector UInt32 5) :=
  let p := { p with total := u64 (p.total + p.pos * 8), m := copyTo p.m p.pos [0x80], pos := p.pos + 1 }
  if p.pos > 56 then
    let m := if p.pos ≠ 64 then copyTo p.m p.pos (.replicate (64 - p.pos) 0) else p.m
    { p with m, H := transform p.H m 1, pos := 0 }
  else p

/-- The bytes of `byteswap(total)` in memory are those of `total` the other way round. -/
def final (p : Sha1Provider (Vector UInt32 5)) : Vector UInt32 5 :=
  let p := p.finish
  let m := copyTo p.m p.pos (.replicate (56 - p.pos) 0)
  let m := copyTo m (64 - 8) (bytesOf 8 p.total).reverse
  transform p.H m 1

/-- The bytes that `final` writes. -/
def hash (H : Vector UInt32 5) : Hash :=
  .ofFn fun i => (H.toList.flatMap fun x => littleEndian (byteSwap x)).getD i 0

end Sha1Provider

/-- `hasher::absorb` for a pair of iterators. -/
def absorb (data : List UInt8) (p : Sha1Provider (Vector UInt32 5)) : Sha1Provider (Vector UInt32 5) :=
  data.foldl (fun p byte => p.update [byte]) p

/-- `sha1::computeHash`. -/
def computeHash (m : Vector UInt8 64) (data : List UInt8) : Hash :=
  Sha1Provider.hash (absorb data (.init m)).final

end FTorrent
