import FTorrent.Lib.Blocks
import FTorrent.Lib.Bytes

/-!
# The secure hash algorithm SHA-1

The algorithm as it is defined: a message is padded to whole blocks, each block is compressed in eighty
steps with words from its schedule, and the digest is the words of the last chaining value, the most
significant byte first.
-/

namespace Lib.SecureHash

abbrev Word := BitVec 32

/-! ### The compression of a block -/

/-- The function of a step. -/
def stepFunction (t : ℕ) (x y z : Word) : Word :=
  if t < 20 then (x &&& y) ^^^ (~~~x &&& z)
  else if t < 40 then x ^^^ y ^^^ z
  else if t < 60 then (x &&& y) ^^^ (x &&& z) ^^^ (y &&& z)
  else x ^^^ y ^^^ z

/-- The constant of a step. -/
def stepConstant (t : ℕ) : Word :=
  if t < 20 then 0x5a827999 else if t < 40 then 0x6ed9eba1 else if t < 60 then 0x8f1bbcdc else 0xca62c1d6

/-- The words of the steps, from the sixteen words of a block. -/
def schedule (M : ℕ → Word) (t : ℕ) : Word :=
  if t < 16 then M t
  else (schedule M (t - 3) ^^^ schedule M (t - 8) ^^^ schedule M (t - 14) ^^^
    schedule M (t - 16)).rotateLeft 1
termination_by t

theorem schedule_of_lt (M : ℕ → Word) {t : ℕ} (h : t < 16) : schedule M t = M t := by
  rw [schedule, if_pos h]

theorem schedule_of_le (M : ℕ → Word) {t : ℕ} (h : 16 ≤ t) :
    schedule M t = (schedule M (t - 3) ^^^ schedule M (t - 8) ^^^ schedule M (t - 14) ^^^
      schedule M (t - 16)).rotateLeft 1 := by
  rw [schedule, if_neg (not_lt.2 h)]

/-- The chaining value, and the variables of the steps. -/
structure Chain where
  a : Word
  b : Word
  c : Word
  d : Word
  e : Word

def step (M : ℕ → Word) (v : Chain) (t : ℕ) : Chain where
  a := v.a.rotateLeft 5 + stepFunction t v.b v.c v.d + v.e + stepConstant t + schedule M t
  b := v.a
  c := v.b.rotateLeft 30
  d := v.c
  e := v.d

/-- A word of a block. -/
def word (block : List UInt8) (i : ℕ) : Word := .ofNat 32 (bigEndianAt 4 block (4 * i))

def compress (H : Chain) (block : List UInt8) : Chain :=
  let v := (List.range 80).foldl (step (word block)) H
  ⟨H.a + v.a, H.b + v.b, H.c + v.c, H.d + v.d, H.e + v.e⟩

/-! ### The digest -/

def initial : Chain := ⟨0x67452301, 0xefcdab89, 0x98badcfe, 0x10325476, 0xc3d2e1f0⟩

/-- A one, zeros and the number of bits, so that a message of `n` bytes fills whole blocks. -/
def padding (n : ℕ) : List UInt8 :=
  0x80 :: .replicate ((119 - n % 64) % 64) 0 ++ (bytesOf 8 (8 * n)).reverse

def padded (msg : List UInt8) : List UInt8 := msg ++ padding msg.length

/-- The chaining value after all blocks. -/
def chained (msg : List UInt8) : Chain :=
  foldBlocks compress 64 initial ((padded msg).length / 64) (padded msg)

/-- The bytes of the chaining value. -/
def Chain.bytes (v : Chain) : List UInt8 :=
  [v.a, v.b, v.c, v.d, v.e].flatMap fun x => (bytesOf 4 x.toNat).reverse

def sha1 (msg : List UInt8) : List UInt8 := (chained msg).bytes

theorem length_bytes (v : Chain) : v.bytes.length = 20 := by
  simp [Chain.bytes]

end Lib.SecureHash
