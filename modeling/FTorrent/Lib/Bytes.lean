import Mathlib.Tactic

/-!
# Bytes of a number and bits of a byte

The two ways bytes stand for other data in a wire format: the bytes of a number, least significant
first, and eight bits to a byte, most significant first.  Splitting and joining are inverse to each
other, but for the last byte of a list of bits, which is filled up with `false`.
-/

namespace Lib

/-! ### The bytes of a 32-bit number -/

/-- The byte of `x` that counts `256 ^ i`. -/
def byteAt (x : UInt32) (i : ℕ) : UInt8 := ((x >>> .ofNat (8 * i)) &&& 0xFF).toUInt8

/-- The bytes of `x`, the least significant first. -/
def littleEndian (x : UInt32) : List UInt8 := [byteAt x 0, byteAt x 1, byteAt x 2, byteAt x 3]

/-- The bytes of `x`, the most significant first. -/
def bigEndian (x : UInt32) : List UInt8 := (littleEndian x).reverse

/-- The number with the given bytes, the least significant first. -/
def ofLittleEndian (bs : List UInt8) : UInt32 :=
  bs.zipIdx.foldl (fun num (b, i) => num ||| b.toUInt32 <<< .ofNat (8 * i)) 0

theorem byteAt_toNat (x : UInt32) {i : ℕ} (hi : i < 4) :
    (byteAt x i).toNat = x.toNat / 2 ^ (8 * i) % 2 ^ 8 := by
  have h : 8 * i % 4294967296 % 32 = 8 * i := by omega
  have hand : ∀ n : ℕ, n &&& 255 = n % 2 ^ 8 := fun n => Nat.and_two_pow_sub_one_eq_mod n 8
  simp [byteAt, Nat.shiftRight_eq_div_pow, h, hand]

theorem ofLittleEndian_toNat (a b c d : UInt8) :
    (ofLittleEndian [a, b, c, d]).toNat =
      a.toNat + 2 ^ 8 * b.toNat + 2 ^ 16 * c.toNat + 2 ^ 24 * d.toNat := by
  have ha := a.toNat_lt
  have hb := b.toNat_lt
  have hc := c.toNat_lt
  have hd := d.toNat_lt
  have hor : ∀ {k m n : ℕ}, m < 2 ^ k → m ||| 2 ^ k * n = m + 2 ^ k * n := fun h => by
    rw [Nat.or_comm, ← Nat.two_pow_add_eq_or_of_lt h, add_comm]
  show ((0 : UInt32) ||| a.toUInt32 <<< 0 ||| b.toUInt32 <<< 8 ||| c.toUInt32 <<< 16 |||
    d.toUInt32 <<< 24).toNat = _
  simp [Nat.shiftLeft_eq]
  have : a.toNat ||| b.toNat * 256 % 4294967296 ||| c.toNat * 65536 % 4294967296 |||
      d.toNat * 16777216 % 4294967296 =
      a.toNat ||| 2 ^ 8 * b.toNat ||| 2 ^ 16 * c.toNat ||| 2 ^ 24 * d.toNat := by
    congr
    all_goals omega
  rw [this]
  rw [hor (k := 8) (by omega), hor (k := 16) (by omega), hor (k := 24) (by omega)]
  rfl

theorem ofLittleEndian_littleEndian (x : UInt32) : ofLittleEndian (littleEndian x) = x := by
  have hx := x.toNat_lt
  apply UInt32.toNat_inj.1
  rw [littleEndian, ofLittleEndian_toNat]
  rw [byteAt_toNat x (by decide), byteAt_toNat x (by decide), byteAt_toNat x (by decide),
    byteAt_toNat x (by decide)]
  omega

theorem littleEndian_ofLittleEndian (a b c d : UInt8) :
    littleEndian (ofLittleEndian [a, b, c, d]) = [a, b, c, d] := by
  have ha := a.toNat_lt
  have hb := b.toNat_lt
  have hc := c.toNat_lt
  have hd := d.toNat_lt
  unfold littleEndian
  congr
  all_goals
    apply UInt8.toNat_inj.1
    rw [byteAt_toNat _ (by decide), ofLittleEndian_toNat]
    omega

/-- The number with the bytes of `x` in the other order. -/
def byteSwap (x : UInt32) : UInt32 := ofLittleEndian (bigEndian x)

theorem littleEndian_byteSwap (x : UInt32) : littleEndian (byteSwap x) = bigEndian x :=
  littleEndian_ofLittleEndian _ _ _ _

@[simp] theorem byteSwap_byteSwap (x : UInt32) : byteSwap (byteSwap x) = x := by
  rw [byteSwap, bigEndian, littleEndian_byteSwap, bigEndian, List.reverse_reverse,
    ofLittleEndian_littleEndian]

@[simp] theorem bigEndian_length (x : UInt32) : (bigEndian x).length = 4 := rfl

/-- Four bytes are a number. -/
theorem exists_bigEndian {bs : List UInt8} (h : 4 ≤ bs.length) :
    ∃ x rest, bs = bigEndian x ++ rest := by
  match bs, h with
  | a :: b :: c :: d :: rest, _ =>
    refine ⟨ofLittleEndian [d, c, b, a], rest, ?_⟩
    rw [bigEndian, littleEndian_ofLittleEndian]
    rfl

/-! ### The bytes of a number of any width -/

/-- The `n` lowest bytes of `x`, the least significant first. -/
def bytesOf (n x : ℕ) : List UInt8 := (List.range n).map fun i => .ofNat (x / 256 ^ i)

/-- The number with the given bytes, the least significant first. -/
def ofBytes : List UInt8 → ℕ
  | [] => 0
  | b :: bs => b.toNat + 256 * ofBytes bs

@[simp] theorem bytesOf_length (n x : ℕ) : (bytesOf n x).length = n := by simp [bytesOf]

theorem bytesOf_succ (n x : ℕ) : bytesOf (n + 1) x = .ofNat x :: bytesOf n (x / 256) := by
  have hshift : ∀ i, x / 256 ^ (i + 1) = x / 256 / 256 ^ i := fun i => by
    rw [pow_succ', Nat.div_div_eq_div_mul]
  rw [bytesOf, List.range_succ_eq_map, List.map_cons, List.map_map, pow_zero, Nat.div_one, bytesOf]
  congr 1
  exact List.map_congr_left fun i _ => congrArg UInt8.ofNat (hshift i)

/-- Joining the bytes of a number gives the number as far as they reach. -/
theorem ofBytes_bytesOf (n x : ℕ) : ofBytes (bytesOf n x) = x % 256 ^ n := by
  induction n generalizing x with
  | zero => rw [pow_zero, Nat.mod_one, bytesOf, List.range_zero, List.map_nil, ofBytes]
  | succ n ih =>
    rw [bytesOf_succ, ofBytes, ih, pow_succ', Nat.mod_mul, UInt8.toNat_ofNat']

theorem ofBytes_lt (bs : List UInt8) : ofBytes bs < 256 ^ bs.length := by
  induction bs with
  | nil => exact Nat.one_pos
  | cons b bs ih =>
    have hb := b.toNat_lt
    rw [ofBytes, List.length_cons, pow_succ']
    omega

/-- Splitting the number with some bytes gives these bytes. -/
theorem bytesOf_ofBytes (bs : List UInt8) : bytesOf bs.length (ofBytes bs) = bs := by
  induction bs with
  | nil => rfl
  | cons b bs ih =>
    have hb := b.toNat_lt
    have hhead : UInt8.ofNat (b.toNat + 256 * ofBytes bs) = b := by
      apply UInt8.toNat_inj.1
      rw [UInt8.toNat_ofNat']
      omega
    have htail : (b.toNat + 256 * ofBytes bs) / 256 = ofBytes bs := by omega
    rw [List.length_cons, bytesOf_succ, ofBytes, hhead, htail, ih]

/-- The `n` bytes from position `i` on as a number, the most significant first. -/
def bigEndianAt (n : ℕ) (bytes : List UInt8) (i : ℕ) : ℕ := ofBytes ((bytes.drop i).take n).reverse

/-- What follows the bytes of a number does not change it. -/
theorem bigEndianAt_append {n i : ℕ} {bytes : List UInt8} (h : i + n ≤ bytes.length)
    (rest : List UInt8) : bigEndianAt n (bytes ++ rest) i = bigEndianAt n bytes i := by
  have htake : ((bytes ++ rest).drop i).take n = (bytes.drop i).take n := by
    rw [List.drop_append_of_le_length (by omega), List.take_append_of_le_length]
    rw [List.length_drop]
    omega
  rw [bigEndianAt, htake, bigEndianAt]

/-- Swapping the bytes of a number that was read in one order gives the number read in the other. -/
theorem byteSwap_ofLittleEndian {bs : List UInt8} (h : bs.length = 4) :
    byteSwap (ofLittleEndian bs) = .ofNat (ofBytes bs.reverse) := by
  match bs, h with
  | [a, b, c, d], _ =>
    have hlt : ofBytes [d, c, b, a] < 2 ^ 32 := (ofBytes_lt [d, c, b, a]).trans_eq (by norm_num)
    apply UInt32.toNat_inj.1
    rw [byteSwap, bigEndian, littleEndian_ofLittleEndian]
    show (ofLittleEndian [d, c, b, a]).toNat = (UInt32.ofNat (ofBytes [d, c, b, a])).toNat
    rw [ofLittleEndian_toNat, UInt32.toNat_ofNat_of_lt' hlt]
    simp only [ofBytes]
    omega

/-! ### Eight bits to a byte -/

/-- The byte of at most eight bits, the most significant first. -/
def packByte (bits : List Bool) : UInt8 :=
  bits.zipIdx.foldl
    (fun block (bit, k) => block ||| ((1 : UInt8) <<< .ofNat (7 - k)) * (if bit then 1 else 0)) 0

/-- The bits of a byte, the most significant first. -/
def unpackByte (byte : UInt8) : List Bool :=
  (List.range 8).map fun j => decide ((byte <<< .ofNat j) &&& 0x80 > 0)

theorem length_flatMap_unpackByte (bs : List UInt8) :
    (bs.flatMap unpackByte).length = 8 * bs.length := by
  induction bs with
  | nil => rfl
  | cons b bs ih =>
    rw [List.flatMap_cons, List.length_append, ih, List.length_cons, unpackByte, List.length_map,
      List.length_range]
    omega

theorem unpackByte_packByte_full : ∀ b0 b1 b2 b3 b4 b5 b6 b7 : Bool,
    unpackByte (packByte [b0, b1, b2, b3, b4, b5, b6, b7]) = [b0, b1, b2, b3, b4, b5, b6, b7] := by
  decide +kernel
theorem packByte_append_false (bits : List Bool) (n : ℕ) :
    packByte (bits ++ .replicate n false) = packByte bits := by
  induction n with
  | zero => rw [List.replicate_zero, List.append_nil]
  | succ n ih =>
    rw [List.replicate_succ', ← List.append_assoc, ← ih, packByte, List.zipIdx_append,
      List.foldl_append]
    simp [packByte]

theorem unpackByte_packByte {bits : List Bool} (h : bits.length = 8) :
    unpackByte (packByte bits) = bits := by
  match bits, h with
  | [_, _, _, _, _, _, _, _], _ => exact unpackByte_packByte_full _ _ _ _ _ _ _ _

/-- The number of bytes that hold `n` bits. -/
def numBytes (n : ℕ) : ℕ := n / 8 + if n % 8 > 0 then 1 else 0

theorem le_numBytes (n : ℕ) : n ≤ 8 * numBytes n := by
  unfold numBytes
  split_ifs <;> omega

theorem numBytes_le {n k : ℕ} (h : n ≤ 8 * k) : numBytes n ≤ k := by
  unfold numBytes
  split_ifs <;> omega

@[simp] theorem numBytes_mul (n : ℕ) : numBytes (8 * n) = n := by
  unfold numBytes
  split_ifs <;> omega

/-- The eight bits from position `8 * i` on, or as many as there are. -/
def chunk (bits : List Bool) (i : ℕ) : List Bool := (bits.drop (8 * i)).take 8

/-- The bytes of the bits. -/
def packBits (bits : List Bool) : List UInt8 :=
  (List.range (numBytes bits.length)).map fun i => packByte (chunk bits i)

@[simp] theorem packBits_length (bits : List Bool) :
    (packBits bits).length = numBytes bits.length := by
  rw [packBits, List.length_map, List.length_range]

/-- The bits, extended with `false` up to the next multiple of eight. -/
def padBits (bits : List Bool) : List Bool :=
  bits ++ .replicate (8 * numBytes bits.length - bits.length) false

theorem padBits_length (bits : List Bool) : (padBits bits).length = 8 * numBytes bits.length := by
  have := le_numBytes bits.length
  rw [padBits, List.length_append, List.length_replicate]
  omega

theorem flatMap_chunk {bits : List Bool} {n : ℕ} (h : bits.length = 8 * n) :
    (List.range n).flatMap (chunk bits) = bits := by
  induction n generalizing bits with
  | zero => exact (List.length_eq_zero_iff.1 h).symm
  | succ n ih =>
    have hshift : ∀ i, chunk bits (i + 1) = chunk (bits.drop 8) i := fun i => by
      rw [chunk, chunk, List.drop_drop]
      congr 2
      omega
    rw [List.range_succ_eq_map, List.flatMap_cons, List.flatMap_map]
    simp only [Nat.succ_eq_add_one, hshift]
    rw [ih (by rw [List.length_drop]; omega)]
    exact List.take_append_drop 8 bits

theorem packByte_chunk_padBits (bits : List Bool) (i : ℕ) :
    packByte (chunk (padBits bits) i) = packByte (chunk bits i) := by
  rw [chunk, padBits, List.drop_append, List.take_append, List.drop_replicate, List.take_replicate,
    packByte_append_false]
  rfl

/-- Packing and unpacking extends the bits to a multiple of eight. -/
theorem flatMap_unpackByte_packBits (bits : List Bool) :
    (packBits bits).flatMap unpackByte = padBits bits := by
  have hlen := padBits_length bits
  rw [packBits, List.flatMap_map, ← flatMap_chunk hlen]
  refine List.flatMap_congr fun i hi => ?_
  have : (chunk (padBits bits) i).length = 8 := by
    have := List.mem_range.1 hi
    rw [chunk, List.length_take, List.length_drop, hlen]
    omega
  rw [← packByte_chunk_padBits, unpackByte_packByte this]

end Lib
