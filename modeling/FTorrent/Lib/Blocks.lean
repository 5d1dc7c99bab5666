import Mathlib.Tactic

/-!
# Folding over the blocks of a stream

A function that is folded over the blocks of a sequence (`foldBlocks`), and the state it is in while the
sequence comes in chunks of any length: what it has made of the whole blocks, and the rest that does not
fill a block (`Streamed`).  The state is the fold over the whole sequence, however it was cut into chunks
(`Streamed.fold_eq`).
-/

namespace Lib

variable {α σ : Type}

/-- The function is applied to `n` blocks of `bs` elements. -/
def foldBlocks (f : σ → List α → σ) (bs : ℕ) : σ → ℕ → List α → σ
  | h, 0, _ => h
  | h, n + 1, data => foldBlocks f bs (f h (data.take bs)) n (data.drop bs)

variable {f : σ → List α → σ} {bs : ℕ}

theorem foldBlocks_add (h : σ) (n k : ℕ) (data : List α) :
    foldBlocks f bs h (n + k) data =
      foldBlocks f bs (foldBlocks f bs h n data) k (data.drop (n * bs)) := by
  induction n generalizing h data with
  | zero => rw [Nat.zero_add, Nat.zero_mul, List.drop_zero, foldBlocks]
  | succ n ih =>
    rw [Nat.add_right_comm, foldBlocks, foldBlocks, ih, List.drop_drop, Nat.succ_mul, Nat.add_comm bs]

theorem foldBlocks_one (h : σ) (data : List α) : foldBlocks f bs h 1 data = f h (data.take bs) := rfl

/-- What comes after the blocks makes no difference. -/
theorem foldBlocks_append {n : ℕ} {data : List α} (hlen : n * bs ≤ data.length) (h : σ)
    (rest : List α) : foldBlocks f bs h n (data ++ rest) = foldBlocks f bs h n data := by
  induction n generalizing h data with
  | zero => rfl
  | succ n ih =>
    rw [Nat.succ_mul] at hlen
    rw [foldBlocks, foldBlocks, List.take_append_of_le_length (by omega),
      List.drop_append_of_le_length (by omega), ih (by rw [List.length_drop]; omega)]

/-- The function has been applied to the whole blocks of the sequence, and `rest` is what is left. -/
structure Streamed (f : σ → List α → σ) (bs : ℕ) (init : σ) (msg : List α) (h : σ) (rest : List α) :
    Prop where
  short : rest.length < bs
  folded : ∃ n, h = foldBlocks f bs init n msg ∧ rest = msg.drop (n * bs) ∧ n * bs ≤ msg.length

namespace Streamed

variable {init h : σ} {msg rest : List α}

theorem nil (hbs : 0 < bs) (init : σ) : Streamed f bs init [] init [] :=
  ⟨hbs, 0, rfl, by simp, by simp⟩

/-- There are as many blocks as fit. -/
theorem blocks_eq {n : ℕ} (hle : n * bs ≤ msg.length) (hlt : (msg.drop (n * bs)).length < bs) :
    n = msg.length / bs := by
  rw [List.length_drop] at hlt
  refine (Nat.div_eq_of_lt_le hle ?_).symm
  rw [Nat.succ_mul]
  omega

theorem length_rest (hs : Streamed f bs init msg h rest) : rest.length = msg.length % bs := by
  obtain ⟨n, -, rfl, hle⟩ := hs.folded
  rw [blocks_eq hle hs.short, List.length_drop, Nat.mod_eq_sub_div_mul]

/-- More comes in: blocks of the rest and the new part. -/
theorem append (hs : Streamed f bs init msg h rest) (n : ℕ) (data : List α)
    (hle : n * bs ≤ (rest ++ data).length) (hlt : (rest ++ data).length < (n + 1) * bs) :
    Streamed f bs init (msg ++ data) (foldBlocks f bs h n (rest ++ data))
      ((rest ++ data).drop (n * bs)) := by
  obtain ⟨k, rfl, rfl, hk⟩ := hs.folded
  have hdrop : (msg ++ data).drop (k * bs) = msg.drop (k * bs) ++ data :=
    List.drop_append_of_le_length hk
  refine ⟨?_, k + n, ?_, ?_, ?_⟩
  · rw [Nat.succ_mul] at hlt
    rw [List.length_drop]
    omega
  · rw [foldBlocks_add, foldBlocks_append hk, hdrop]
  · rw [Nat.add_mul, ← List.drop_drop, hdrop]
  · rw [List.length_append, List.length_drop] at hle
    rw [Nat.add_mul, List.length_append]
    omega

/-- Blocks that end with the sequence. -/
theorem fold_eq (hs : Streamed f bs init msg h rest) (n : ℕ) (data : List α)
    (hlen : (rest ++ data).length = n * bs) : foldBlocks f bs h n (rest ++ data) =
      foldBlocks f bs init ((msg ++ data).length / bs) (msg ++ data) := by
  have hbs : 0 < bs := (Nat.zero_le _).trans_lt hs.short
  have happ := hs.append n data hlen.ge (hlen ▸ Nat.mul_lt_mul_of_pos_right (Nat.lt_succ_self n) hbs)
  obtain ⟨k, heq, hrest, hle⟩ := happ.folded
  rw [heq, blocks_eq hle (hrest ▸ happ.short)]

end Streamed

end Lib
