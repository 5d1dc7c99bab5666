import FTorrent.Lib.SecureHash
import FTorrent.Sha1
import FTorrent.Torrent

/-!
# The hashes are SHA-1

What the provider computes is SHA-1 of the message, however it is cut into chunks and whatever is in the
array before (`digest_eq_sha1`); so is what `computeHash` computes (`computeHash_eq_sha1`).
-/

namespace FTorrent

open Lib SecureHash

namespace Sha1Provider

/-! ### Words -/

theorem rotateLeft_toBitVec (x : UInt32) {n : UInt32} (hpos : 0 < n.toNat) (hlt : n.toNat < 32) :
    (rotateLeft x n).toBitVec = x.toBitVec.rotateLeft n.toNat := by
  have hmod : n.toNat % 32 = n.toNat := Nat.mod_eq_of_lt hlt
  have hsub : (32 - n).toNat % 32 = 32 - n.toNat := by
    rw [UInt32.toNat_sub_of_le _ _ (UInt32.le_iff_toNat_le.2 hlt.le)]
    exact Nat.mod_eq_of_lt (Nat.sub_lt (by decide) hpos)
  rw [rotateLeft, UInt32.toBitVec_or, UInt32.toBitVec_shiftLeft, UInt32.toBitVec_shiftRight,
    BitVec.rotateLeft_def, BitVec.shiftLeft_eq', BitVec.ushiftRight_eq', BitVec.toNat_umod,
    BitVec.toNat_umod, hmod]
  exact congrArg₂ _ (congrArg _ hmod) (congrArg _ hsub)

/-- The words of a block are read in big-endian order. -/
theorem wordAt_toBitVec {data : List UInt8} {blk i : ℕ} (hi : i < 16)
    (hlen : (blk + 1) * 64 ≤ data.length) :
    (wordAt data blk i).toBitVec = word ((data.drop (blk * 64)).take 64) i := by
  have htake : (((data.drop (blk * 64)).take 64).drop (4 * i)).take 4 =
      (data.drop (4 * (blk * 16 + i))).take 4 := by
    rw [List.drop_take, List.take_take, min_eq_left (by omega), List.drop_drop]
    congr 2
    omega
  have hfour : ((data.drop (4 * (blk * 16 + i))).take 4).length = 4 := by
    rw [List.length_take, List.length_drop]
    omega
  rw [wordAt, byteSwap_ofLittleEndian hfour, word, bigEndianAt, htake]
  rfl

/-! ### The schedule -/

theorem getD_extend {W : List UInt32} {t i : ℕ} (hlen : W.length = t) (hi : i < t) :
    (extend W t).getD i 0 = W.getD i 0 := by
  rw [extend, List.getD_eq_getElem?_getD, List.getElem?_append_left (by omega),
    List.getD_eq_getElem?_getD]

theorem getD_extend_length {W : List UInt32} {t : ℕ} (hlen : W.length = t) : (extend W t).getD t 0 =
    rotateLeft (W.getD (t - 3) 0 ^^^ W.getD (t - 8) 0 ^^^ W.getD (t - 14) 0 ^^^ W.getD (t - 16) 0) 1 := by
  rw [extend, List.getD_eq_getElem?_getD, ← hlen, List.getElem?_concat_length]
  rfl

/-- The words are those of the schedule, as far as there are any. -/
theorem schedule_upTo {M : ℕ → Word} {W : List UInt32} (hlen : W.length = 16)
    (hW : ∀ i < 16, (W.getD i 0).toBitVec = M i) (n : ℕ) :
    ((List.range' 16 n).foldl extend W).length = 16 + n ∧ ∀ i < 16 + n,
      (((List.range' 16 n).foldl extend W).getD i 0).toBitVec = SecureHash.schedule M i := by
  induction n with
  | zero =>
    refine ⟨hlen, fun i hi => ?_⟩
    rw [schedule_of_lt M hi]
    exact hW i hi
  | succ n ih =>
    obtain ⟨hlength, hprefix⟩ := ih
    rw [List.range'_concat, List.foldl_append, List.foldl_cons, List.foldl_nil, Nat.one_mul]
    refine ⟨by rw [extend, List.length_append, hlength]; rfl, fun i hi => ?_⟩
    rcases Nat.lt_or_ge i (16 + n) with hi' | hi'
    · rw [getD_extend hlength hi']
      exact hprefix i hi'
    · obtain rfl : i = 16 + n := by omega
      rw [getD_extend_length hlength, rotateLeft_toBitVec _ (by decide) (by decide),
        schedule_of_le M (by omega), UInt32.toBitVec_xor, UInt32.toBitVec_xor, UInt32.toBitVec_xor,
        hprefix _ (by omega), hprefix _ (by omega), hprefix _ (by omega), hprefix _ (by omega)]
      rfl

theorem schedule_toBitVec {data : List UInt8} {blk t : ℕ} (hlen : (blk + 1) * 64 ≤ data.length)
    (ht : t < 80) : ((schedule data blk).getD t 0).toBitVec =
      SecureHash.schedule (word ((data.drop (blk * 64)).take 64)) t := by
  refine (schedule_upTo (by simp) (fun i hi => ?_) 64).2 t ht
  rw [List.getD_eq_getElem?_getD, List.getElem?_map, List.getElem?_range hi]
  exact wordAt_toBitVec hi hlen

/-! ### The steps -/

/-- The variables hold those of the step, with its function and its constant. -/
structure Round.At (r : Round) (v : Chain) (t : ℕ) : Prop where
  a : r.a.toBitVec = v.a
  b : r.b.toBitVec = v.b
  c : r.c.toBitVec = v.c
  d : r.d.toBitVec = v.d
  e : r.e.toBitVec = v.e
  constant : t < 80 → r.K.toBitVec = stepConstant t
  function : t < 80 → ∀ x y z, (r.f x y z).toBitVec =
    stepFunction t x.toBitVec y.toBitVec z.toBitVec

/-- Until the next change, the function and the constant stay. -/
theorem step_succ {t : ℕ} (h19 : t ≠ 19) (h39 : t ≠ 39) (h59 : t ≠ 59) :
    stepFunction (t + 1) = stepFunction t ∧ stepConstant (t + 1) = stepConstant t := by
  have h20 : t + 1 < 20 ↔ t < 20 := by omega
  have h40 : t + 1 < 40 ↔ t < 40 := by omega
  have h60 : t + 1 < 60 ↔ t < 60 := by omega
  refine ⟨?_, ?_⟩
  · funext x y z
    simp only [stepFunction, h20, h40, h60]
  · simp only [stepConstant, h20, h40, h60]

/-- An iteration is a step. -/
theorem Round.At.next {r : Round} {v : Chain} {t : ℕ} (h : r.At v t) (ht : t < 80) {W : List UInt32}
    {M : ℕ → Word} (hW : (W.getD t 0).toBitVec = SecureHash.schedule M t) :
    (r.next W t).At (step M v t) (t + 1) := by
  have hvars : (rotateLeft r.a 5 + r.f r.b r.c r.d + r.e + r.K + W.getD t 0).toBitVec =
      v.a.rotateLeft 5 + stepFunction t v.b v.c v.d + v.e + stepConstant t +
        SecureHash.schedule M t := by
    rw [UInt32.toBitVec_add, UInt32.toBitVec_add, UInt32.toBitVec_add, UInt32.toBitVec_add,
      rotateLeft_toBitVec _ (by decide) (by decide), h.function ht, h.constant ht, h.a, h.b, h.c, h.d, h.e,
      hW]
    rfl
  have hrotated : (rotateLeft r.b 30).toBitVec = v.b.rotateLeft 30 := by
    rw [rotateLeft_toBitVec _ (by decide) (by decide), h.b]
    rfl
  unfold Round.next
  dsimp only
  split_ifs with h19 h39 h59
  · subst h19
    exact ⟨hvars, h.a, hrotated, h.c, h.d, fun _ => rfl, fun _ _ _ _ => rfl⟩
  · subst h39
    exact ⟨hvars, h.a, hrotated, h.c, h.d, fun _ => rfl, fun _ _ _ _ => rfl⟩
  · subst h59
    exact ⟨hvars, h.a, hrotated, h.c, h.d, fun _ => rfl, fun _ _ _ _ => rfl⟩
  · obtain ⟨hf, hk⟩ := step_succ h19 h39 h59
    exact ⟨hvars, h.a, hrotated, h.c, h.d, fun _ => hk ▸ h.constant ht, fun _ => hf ▸ h.function ht⟩

theorem Round.At.foldl {r : Round} {v : Chain} {W : List UInt32} {M : ℕ → Word} (h : r.At v 0)
    (hW : ∀ t < 80, (W.getD t 0).toBitVec = SecureHash.schedule M t) {n : ℕ} (hn : n ≤ 80) :
    ((List.range n).foldl (Round.next W) r).At ((List.range n).foldl (step M) v) n := by
  induction n with
  | zero => exact h
  | succ n ih =>
    rw [List.range_succ, List.foldl_append, List.foldl_append]
    exact (ih (by omega)).next (by omega) (hW n (by omega))

/-- A block is compressed. -/
theorem chain_transformBlock {data : List UInt8} {blk : ℕ} (hlen : (blk + 1) * 64 ≤ data.length)
    (H : Vector UInt32 5) :
    chain (transformBlock data H blk) = compress (chain H) ((data.drop (blk * 64)).take 64) := by
  have hstart : Round.At
      ⟨H.get 0, H.get 1, H.get 2, H.get 3, H.get 4, sha1Constants.get 0, Ch⟩ (chain H) 0 :=
    ⟨rfl, rfl, rfl, rfl, rfl, fun _ => rfl, fun _ _ _ _ => rfl⟩
  have hend := hstart.foldl (fun t ht => schedule_toBitVec hlen ht) le_rfl
  unfold transformBlock compress
  dsimp only
  rw [← hend.a, ← hend.b, ← hend.c, ← hend.d, ← hend.e]
  rfl

theorem chain_transform {data : List UInt8} {n : ℕ} (hlen : n * 64 ≤ data.length) (H : Vector UInt32 5) :
    chain (transform H data n) = foldBlocks compress 64 (chain H) n data := by
  induction n with
  | zero => rfl
  | succ n ih =>
    rw [foldBlocks_add, foldBlocks_one, ← ih (by omega), ← chain_transformBlock hlen]
    rw [transform, List.range_succ, List.foldl_append]
    rfl

/-! ### The stream -/

theorem length_copyTo {m data : List UInt8} {pos : ℕ} (h : pos + data.length ≤ m.length) :
    (copyTo m pos data).length = m.length := by
  simp only [copyTo, List.length_append, List.length_take, List.length_drop]
  omega

/-- What has been copied comes after what was there. -/
theorem take_copyTo {m data : List UInt8} {pos : ℕ} (h : pos ≤ m.length) :
    (copyTo m pos data).take (pos + data.length) = m.take pos ++ data := by
  have hlen : pos + data.length = (m.take pos ++ data).length := by
    rw [List.length_append, List.length_take, min_eq_left h]
  rw [copyTo, hlen, List.take_left]

/-- What the provider holds of a message. -/
structure Holds (msg : List UInt8) (p : Sha1Provider (Vector UInt32 5)) : Prop where
  streamed : Streamed compress 64 initial msg (chain p.H) (p.m.take p.pos)
  length : p.m.length = 64
  pos_lt : p.pos < 64
  pos_le : p.pos ≤ msg.length
  total : p.total = u64 (8 * (msg.length - p.pos))

theorem holds_init (m : Vector UInt8 64) : Holds [] (init m) :=
  ⟨.nil (by decide) _, m.length_toList, Nat.zero_lt_succ 63, le_rfl, rfl⟩

theorem u64_add (x y : ℕ) : u64 (u64 x + y) = u64 (x + y) := Nat.mod_add_mod _ _ _

namespace Holds

variable {msg data : List UInt8} {p : Sha1Provider (Vector UInt32 5)}

theorem length_take (h : Holds msg p) : (p.m.take p.pos).length = p.pos := by
  rw [List.length_take, h.length, min_eq_left h.pos_lt.le]

/-- What comes after whole blocks is in the array. -/
theorem of_streamed {H : Vector UInt32 5} {m rest : List UInt8} {pos : ℕ}
    (hs : Streamed compress 64 initial msg (chain H) (m.take pos ++ rest)) (hm : m.length = 64)
    (hpos : pos + rest.length < 64) :
    Holds msg ⟨H, copyTo m pos rest, pos + rest.length, u64 (8 * (msg.length - (pos + rest.length)))⟩ := by
  have hlen : (m.take pos ++ rest).length = pos + rest.length := by
    rw [List.length_append, List.length_take, hm, min_eq_left (by omega)]
  refine ⟨?_, ?_, hpos, ?_, rfl⟩
  · show Streamed compress 64 initial msg (chain H) ((copyTo m pos rest).take (pos + rest.length))
    rwa [take_copyTo (by omega)]
  · exact (length_copyTo (by omega)).trans hm
  · obtain ⟨n, -, hrest, hle⟩ := hs.folded
    have hdrop := congrArg List.length hrest
    rw [hlen, List.length_drop] at hdrop
    show pos + rest.length ≤ msg.length
    omega

/-- With nothing in the array, the blocks are taken from the data, and the rest is copied. -/
theorem takeBlocks {H : Vector UInt32 5} {m : List UInt8}
    (hs : Streamed compress 64 initial msg (chain H) []) (hm : m.length = 64) (data : List UInt8) :
    let r := takeBlocks transform 64 64 data ⟨H, m, 0, u64 (8 * msg.length)⟩
    Holds (msg ++ data) { r.1 with m := copyTo r.1.m r.1.pos r.2, pos := r.1.pos + r.2.length } := by
  have hblocks : data.length / 64 * 64 ≤ data.length := Nat.div_mul_le_self _ _
  have hrest : data.length - data.length / 64 * 64 < 64 := by omega
  have happ := hs.append (data.length / 64) data hblocks (by rw [List.nil_append]; omega)
  rw [List.nil_append, ← chain_transform hblocks] at happ
  have hstreamed : Streamed compress 64 initial (msg ++ data)
      (chain (transform H data (data.length / 64))) (m.take 0 ++ data.drop (data.length / 64 * 64)) := happ
  have hholds := of_streamed hstreamed hm (by rw [List.length_drop]; omega)
  have heq : FTorrent.takeBlocks transform 64 64 data ⟨H, m, 0, u64 (8 * msg.length)⟩ =
      (⟨transform H data (data.length / 64), m, 0,
        u64 (8 * (msg.length + data.length / 64 * 64))⟩, data.drop (data.length / 64 * 64)) := by
    unfold FTorrent.takeBlocks
    dsimp only
    split_ifs with hlen
    · rw [Nat.add_sub_cancel, u64_add]
      congr 4
      omega
    · rw [Nat.div_eq_of_lt (not_le.1 hlen)]
      rfl
  rw [heq]
  convert hholds using 3
  · rw [List.length_append, List.length_drop]
    omega

/-- A chunk comes in. -/
theorem update (h : Holds msg p) (data : List UInt8) : Holds (msg ++ data) (p.update data) := by
  have hrest := h.length_take
  have hpos := h.pos_lt
  have htotal := h.total
  by_cases hfill : p.pos ≠ 0 ∧ p.pos + data.length ≥ 64
  · -- the block in the array is filled
    obtain ⟨hne, hge⟩ := hfill
    have hlen : (data.take (64 - p.pos)).length = 64 - p.pos := by
      rw [List.length_take]
      omega
    have hfull : copyTo p.m p.pos (data.take (64 - p.pos)) = p.m.take p.pos ++ data.take (64 - p.pos) := by
      rw [copyTo, hlen, List.drop_eq_nil_of_le (by rw [h.length]; omega), List.append_nil]
    have hblock : (p.m.take p.pos ++ data.take (64 - p.pos)).length = 64 := by
      rw [List.length_append, hrest, hlen]
      omega
    have happ := h.streamed.append 1 (data.take (64 - p.pos)) (by omega) (by omega)
    rw [← chain_transform (by omega), Nat.one_mul, List.drop_eq_nil_of_le hblock.le] at happ
    have hholds := takeBlocks happ hblock (data.drop (64 - p.pos))
    rw [List.append_assoc, List.take_append_drop] at hholds
    have heq : fillBlock transform 64 64 data p = (⟨transform p.H (p.m.take p.pos ++
        data.take (64 - p.pos)) 1, p.m.take p.pos ++ data.take (64 - p.pos), 0,
        u64 (8 * (msg ++ data.take (64 - p.pos)).length)⟩, data.drop (64 - p.pos)) := by
      have hle := h.pos_le
      have hbits : 8 * (msg.length - p.pos) + 64 * 8 = 8 * (msg.length + (64 - p.pos)) := by omega
      rw [fillBlock, if_pos ⟨hne, hge⟩, hfull, htotal, u64_add, hbits, List.length_append, hlen]
    unfold Sha1Provider.update absorbBytes
    rw [heq]
    exact hholds
  · have heq : fillBlock transform 64 64 data p = (p, data) := if_neg hfill
    unfold Sha1Provider.update absorbBytes
    rw [heq]
    by_cases hzero : p.pos = 0
    · have hs := h.streamed
      rw [hzero, List.take_zero] at hs
      have hp : p = ⟨p.H, p.m, 0, u64 (8 * msg.length)⟩ := by
        rw [hzero, Nat.sub_zero] at htotal
        rw [← hzero, ← htotal]
      rw [hp]
      exact takeBlocks hs h.length data
    · -- there is not enough for a block
      have hlt : p.pos + data.length < 64 := by
        by_contra hge
        exact hfill ⟨hzero, not_lt.1 hge⟩
      have happ := h.streamed.append 0 data (by omega) (by rw [List.length_append, hrest]; omega)
      rw [Nat.zero_mul, List.drop_zero] at happ
      have hholds := of_streamed happ h.length hlt
      have htake : FTorrent.takeBlocks transform 64 64 data p = (p, data) := if_neg (by omega)
      dsimp only
      rw [htake]
      have hle := h.pos_le
      convert hholds using 3
      · rw [htotal, List.length_append]
        congr 2
        omega

/-- Chunk after chunk comes in. -/
theorem foldl_update (h : Holds msg p) (chunks : List (List UInt8)) :
    Holds (msg ++ chunks.flatten) (chunks.foldl (fun p chunk => p.update chunk) p) := by
  induction chunks generalizing msg p with
  | nil => rwa [List.flatten_nil, List.append_nil]
  | cons chunk chunks ih =>
    rw [List.flatten_cons, ← List.append_assoc]
    exact ih (h.update chunk)

end Holds

/-! ### The digest -/

theorem copyTo_length {m data : List UInt8} {pos : ℕ} (h : m.length = pos + data.length) :
    copyTo m pos data = m.take pos ++ data := by
  rw [copyTo, List.drop_eq_nil_of_le h.le, List.append_nil]

theorem bytesOf_u64 (x : ℕ) : bytesOf 8 (u64 x) = bytesOf 8 x := by
  have h := bytesOf_ofBytes (bytesOf 8 x)
  rwa [ofBytes_bytesOf, bytesOf_length] at h

/-- The last block, where the first part of it is in place. -/
theorem lastBlock {m : List UInt8} {pos : ℕ} (hm : m.length = 64) (hpos : pos ≤ 56) (len : List UInt8)
    (hlen : len.length = 8) : copyTo (copyTo m pos (.replicate (56 - pos) 0)) (64 - 8) len =
      m.take pos ++ .replicate (56 - pos) 0 ++ len := by
  have hzeros : pos + (List.replicate (56 - pos) (0 : UInt8)).length = 56 := by
    rw [List.length_replicate]
    omega
  have hlength : (copyTo m pos (.replicate (56 - pos) 0)).length = 64 := by
    rw [length_copyTo (by omega), hm]
  rw [copyTo_length (by omega)]
  congr 1
  have htake : (copyTo m pos (.replicate (56 - pos) 0)).take (pos + _) =
      m.take pos ++ .replicate (56 - pos) 0 :=
    take_copyTo (by omega)
  rwa [hzeros] at htake

namespace Holds

variable {msg : List UInt8} {p : Sha1Provider (Vector UInt32 5)}

/-- After the first part of `final`, there is room for the length. -/
theorem finish (h : Holds msg p) : ∃ zeros,
    Streamed compress 64 initial (msg ++ 0x80 :: .replicate zeros 0) (chain p.finish.H)
        (p.finish.m.take p.finish.pos) ∧
      p.finish.m.length = 64 ∧ p.finish.pos ≤ 56 ∧ p.finish.total = u64 (8 * msg.length) ∧
      zeros + (56 - p.finish.pos) = (119 - msg.length % 64) % 64 := by
  have hpos := h.pos_lt
  have hle := h.pos_le
  have hrest : p.pos = msg.length % 64 := by
    rw [← h.streamed.length_rest, h.length_take]
  have hbits : u64 (p.total + p.pos * 8) = u64 (8 * msg.length) := by
    rw [h.total, u64_add]
    exact congrArg u64 (by omega)
  have hone : (copyTo p.m p.pos [0x80]).length = 64 := by
    rw [length_copyTo (by simp [h.length]; omega), h.length]
  have htake : (copyTo p.m p.pos [0x80]).take (p.pos + [(0x80 : UInt8)].length) =
      p.m.take p.pos ++ [0x80] := take_copyTo (hpos.le.trans_eq h.length.symm)
  rw [List.length_singleton] at htake
  unfold Sha1Provider.finish
  dsimp only
  rw [hbits]
  split_ifs with hfull hlast
  · -- zeros fill the block
    have hlen : (p.m.take p.pos ++ 0x80 :: .replicate (63 - p.pos) 0).length = 64 := by
      rw [List.length_append, h.length_take, List.length_cons, List.length_replicate]
      omega
    have hblock : copyTo (copyTo p.m p.pos [0x80]) (p.pos + 1) (.replicate (64 - (p.pos + 1)) 0) =
        p.m.take p.pos ++ 0x80 :: .replicate (63 - p.pos) 0 := by
      rw [copyTo_length (by rw [hone, List.length_replicate]; omega), htake, List.append_assoc,
        List.singleton_append, show 64 - (p.pos + 1) = 63 - p.pos by omega]
    have happ := h.streamed.append 1 (0x80 :: .replicate (63 - p.pos) 0) (by omega) (by omega)
    rw [← chain_transform (by omega), List.drop_eq_nil_of_le (by omega)] at happ
    refine ⟨63 - p.pos, ?_, ?_, Nat.zero_le _, rfl, by dsimp only; omega⟩
    · rw [hblock]
      exact happ
    · rw [hblock]
      exact hlen
  · -- the one fills the block
    rw [not_not] at hlast
    have hlen : (p.m.take p.pos ++ [0x80]).length = 64 := by
      rw [List.length_append, h.length_take, List.length_singleton, hlast]
    have hblock : copyTo p.m p.pos [0x80] = p.m.take p.pos ++ [0x80] :=
      copyTo_length (by rw [h.length, List.length_singleton, hlast])
    have happ := h.streamed.append 1 [0x80] (by omega) (by omega)
    rw [← chain_transform (by omega), List.drop_eq_nil_of_le (by omega)] at happ
    refine ⟨0, ?_, ?_, Nat.zero_le _, rfl, by dsimp only; omega⟩
    · rw [hblock]
      exact happ
    · rw [hblock]
      exact hlen
  · have hlen : (p.m.take p.pos ++ [0x80]).length = p.pos + 1 := by
      rw [List.length_append, h.length_take, List.length_singleton]
    have happ := h.streamed.append 0 [0x80] (by omega) (by omega)
    rw [Nat.zero_mul, List.drop_zero, ← htake] at happ
    exact ⟨0, happ, hone, by dsimp only; omega, rfl, by dsimp only; omega⟩

/-- `final` computes the chaining value of the padded message. -/
theorem final (h : Holds msg p) : chain p.final = chained msg := by
  obtain ⟨zeros, hs, hm, hpos, htotal, hzeros⟩ := h.finish
  have hmsg : msg ++ 0x80 :: .replicate zeros 0 ++
      (.replicate (56 - p.finish.pos) 0 ++ (bytesOf 8 (8 * msg.length)).reverse) = padded msg := by
    rw [padded, padding, ← hzeros, List.replicate_add]
    simp only [List.append_assoc, List.cons_append]
  have hlen : (p.finish.m.take p.finish.pos ++
      (.replicate (56 - p.finish.pos) 0 ++ (bytesOf 8 (8 * msg.length)).reverse)).length = 1 * 64 := by
    simp only [List.length_append, List.length_take, hm, List.length_replicate, List.length_reverse,
      bytesOf_length]
    omega
  have hfold := hs.fold_eq 1 _ hlen
  rw [hmsg] at hfold
  unfold Sha1Provider.final
  dsimp only
  rw [htotal, bytesOf_u64, lastBlock hm hpos _ (by simp), List.append_assoc, chain_transform hlen.ge]
  exact hfold

end Holds

/-- The bytes of a word in memory, swapped. -/
theorem littleEndian_byteSwap_eq (x : UInt32) :
    littleEndian (byteSwap x) = (bytesOf 4 x.toBitVec.toNat).reverse := by
  have hbytes : littleEndian x = bytesOf 4 x.toNat := by
    have hbyte : ∀ i < 4, byteAt x i = .ofNat (x.toNat / 256 ^ i) := by
      intro i hi
      apply UInt8.toNat_inj.1
      rw [byteAt_toNat x hi, UInt8.toNat_ofNat', pow_mul]
      norm_num
    rw [littleEndian, hbyte 0 (by decide), hbyte 1 (by decide), hbyte 2 (by decide), hbyte 3 (by decide)]
    rfl
  rw [littleEndian_byteSwap, bigEndian, hbytes]
  rfl

theorem toList_hash (H : Vector UInt32 5) : (hash H).toList = (chain H).bytes := by
  have hbytes : (H.toList.flatMap fun x => littleEndian (byteSwap x)) = (chain H).bytes := by
    have hlist : H.toList = [H.get 0, H.get 1, H.get 2, H.get 3, H.get 4] := by
      refine List.ext_getElem (by simp) fun i hi _ => ?_
      rw [Vector.length_toList] at hi
      interval_cases i <;> rfl
    rw [hlist]
    simp only [littleEndian_byteSwap_eq, Chain.bytes, chain, List.flatMap_cons, List.flatMap_nil]
  have hlen := length_bytes (chain H)
  rw [hash, hbytes]
  refine List.ext_getElem (by simp [hlen]) fun i hi hi' => ?_
  rw [Vector.getElem_toList, Vector.getElem_ofFn, List.getD_eq_getElem?_getD, List.getElem?_eq_getElem hi',
    Option.getD_some]

/-- What `final` leaves is the digest of the message. -/
theorem Holds.toList_hash_final {msg : List UInt8} {p : Sha1Provider (Vector UInt32 5)} (h : Holds msg p) :
    (hash p.final).toList = sha1 msg := by
  rw [toList_hash, h.final]
  rfl

/-- The digest is SHA-1 of the message, however it is cut into chunks. -/
theorem digest_eq_sha1 (m : Vector UInt8 64) (chunks : List (List UInt8)) :
    (hash (chunks.foldl (fun p chunk => p.update chunk) (init m)).final).toList = sha1 chunks.flatten :=
  ((holds_init m).foldl_update chunks).toList_hash_final

theorem holds_absorb (m : Vector UInt8 64) (data : List UInt8) : Holds data (absorb data (init m)) := by
  have hchunks : (data.map fun byte => [byte]).flatten = data := by
    rw [← List.flatMap_def, List.flatMap_singleton']
  have h := (holds_init m).foldl_update (data.map fun byte => [byte])
  rwa [List.nil_append, hchunks, List.foldl_map] at h

end Sha1Provider

/-- `computeHash` is SHA-1. -/
theorem computeHash_eq_sha1 (m : Vector UInt8 64) (data : List UInt8) :
    (computeHash m data).toList = sha1 data :=
  (Sha1Provider.holds_absorb m data).toList_hash_final

/-- The digest of "abc", as the standard has it. -/
example : (computeHash (.replicate 64 7) [0x61, 0x62, 0x63]).toList =
    [0xa9, 0x99, 0x3e, 0x36, 0x47, 0x06, 0x81, 0x6a, 0xba, 0x3e, 0x25, 0x71, 0x78, 0x50, 0xc2, 0x6c, 0x9c,
      0xd0, 0xd8, 0x9d] := by
  decide +kernel

/-- Data are valid exactly if the hash is their SHA-1. -/
theorem hashValid_computeHash (m : Vector UInt8 64) (data : List UInt8) (hash : Hash) :
    hashValid (computeHash m) data hash = true ↔ sha1 data = hash.toList := by
  rw [hashValid, beq_iff_eq, ← computeHash_eq_sha1 m, Vector.toList_inj]

end FTorrent
