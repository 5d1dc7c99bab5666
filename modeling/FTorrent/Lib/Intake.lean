import FTorrent.Lib.Run

/-!
# Machines that read a stream in pieces of their own choice

An intake machine waits for a number of items, and takes exactly so many off the stream when they
are there.  `Intake.run` is what the machine does with the items that have arrived; what it has not
taken stays for later.  The result does not depend on how the stream was cut when it arrived
(`Intake.foldlM_feed`).
-/

namespace Lib

variable {σ ι φ : Type}

/-- How many items a machine waits for in a state, if any, and what it does with them. -/
structure Intake (σ ι φ : Type) where
  wants : σ → Option ℕ
  accept : σ → List ι → Except φ σ
  pos_of_wants : ∀ s n, wants s = some n → 0 < n

namespace Intake

variable (M : Intake σ ι φ)

/-- At most `fuel` steps of the machine. -/
def steps : ℕ → σ → List ι → Except φ (σ × List ι)
  | 0, s, input => .ok (s, input)
  | fuel + 1, s, input =>
    match M.wants s with
    | none => .ok (s, input)
    | some n =>
      if n ≤ input.length then do
        let t ← M.accept s (input.take n)
        steps fuel t (input.drop n)
      else .ok (s, input)

/-- All steps of the machine: each takes an item. -/
def run (s : σ) (input : List ι) : Except φ (σ × List ι) := M.steps input.length s input

/-- More items arrive. -/
def feed (c : σ × List ι) (items : List ι) : Except φ (σ × List ι) := M.run c.1 (c.2 ++ items)

variable {M} {s t : σ}

theorem steps_nil (fuel : ℕ) (s : σ) : M.steps fuel s [] = .ok (s, []) := by
  cases fuel with
  | zero => rfl
  | succ fuel =>
    rw [steps]
    cases hw : M.wants s with
    | none => rfl
    | some n =>
      have := M.pos_of_wants s n hw
      exact if_neg (by simpa using Nat.pos_iff_ne_zero.1 this)

/-- More fuel than items changes nothing. -/
theorem steps_congr {f g : ℕ} {input : List ι} (hf : input.length ≤ f) (hg : input.length ≤ g) :
    M.steps f s input = M.steps g s input := by
  induction f generalizing g s input with
  | zero =>
    obtain rfl := List.length_eq_zero_iff.1 (Nat.le_zero.1 hf)
    rw [steps_nil, steps_nil]
  | succ f ih =>
    cases g with
    | zero =>
      obtain rfl := List.length_eq_zero_iff.1 (Nat.le_zero.1 hg)
      rw [steps_nil, steps_nil]
    | succ g =>
      rw [steps, steps]
      cases hw : M.wants s with
      | none => rfl
      | some n =>
        have := M.pos_of_wants s n hw
        have hf' : (input.drop n).length ≤ f := by
          rw [List.length_drop]
          omega
        have hg' : (input.drop n).length ≤ g := by
          rw [List.length_drop]
          omega
        simp only [ih hf' hg']

theorem steps_eq_run {fuel : ℕ} {input : List ι} (h : input.length ≤ fuel) :
    M.steps fuel s input = M.run s input :=
  steps_congr h le_rfl

theorem run_of_wants_none (h : M.wants s = none) (input : List ι) :
    M.run s input = .ok (s, input) := by
  rw [← steps_eq_run (Nat.le_succ _), steps, h]

theorem run_of_lt {n : ℕ} (h : M.wants s = some n) {input : List ι} (hlt : input.length < n) :
    M.run s input = .ok (s, input) := by
  rw [← steps_eq_run (Nat.le_succ _), steps, h]
  exact if_neg (by omega)

/-- A step, if there are enough items. -/
theorem run_of_le {n : ℕ} (h : M.wants s = some n) {input : List ι} (hle : n ≤ input.length) :
    M.run s input = M.accept s (input.take n) >>= fun t => M.run t (input.drop n) := by
  have hpos := M.pos_of_wants s n h
  have hf : input.length = (input.length - 1) + 1 := by omega
  rw [run, hf, steps, h]
  simp only [if_pos hle]
  congr 1
  funext t
  exact steps_eq_run (by rw [List.length_drop]; omega)

/-- A step that takes the first part of the items. -/
theorem run_append_of_accept {items : List ι} (rest : List ι)
    (h : M.wants s = some items.length) (ha : M.accept s items = .ok t) :
    M.run s (items ++ rest) = M.run t rest := by
  rw [run_of_le h (by rw [List.length_append]; omega), List.take_left, List.drop_left, ha]
  rfl

/-- What the machine does with items that arrive in two parts. -/
theorem run_append (s : σ) (a b : List ι) :
    M.run s (a ++ b) = M.run s a >>= fun c => M.run c.1 (c.2 ++ b) := by
  induction hn : a.length using Nat.strong_induction_on generalizing s a with
  | _ k ih =>
    cases hw : M.wants s with
    | none =>
      rw [run_of_wants_none hw a]
      rfl
    | some n =>
      by_cases hle : n ≤ a.length
      · have hpos := M.pos_of_wants s n hw
        rw [run_of_le hw hle, run_of_le hw (by rw [List.length_append]; omega),
          List.take_append_of_le_length hle, List.drop_append_of_le_length hle, bind_assoc]
        congr 1
        funext t
        exact ih (a.drop n).length (by rw [List.length_drop]; omega) t (a.drop n) rfl
      · rw [run_of_lt hw (Nat.lt_of_not_le hle)]
        rfl

/-- The machine has done all it can when a run ends. -/
theorem run_of_run_eq_ok {a : List ι} {c : σ × List ι} (h : M.run s a = .ok c) :
    M.run c.1 c.2 = .ok c := by
  have happ := run_append (M := M) s a []
  rw [List.append_nil, h] at happ
  have : M.run c.1 (c.2 ++ []) = .ok c := happ.symm
  rwa [List.append_nil] at this

/-- It does not matter how the items are cut when they arrive. -/
theorem foldlM_feed {c : σ × List ι} (hc : M.run c.1 c.2 = .ok c) (chunks : List (List ι)) :
    chunks.foldlM M.feed c = M.run c.1 (c.2 ++ chunks.flatten) := by
  induction chunks generalizing c with
  | nil => rw [List.foldlM_nil, List.flatten_nil, List.append_nil, hc]; rfl
  | cons chunk chunks ih =>
    rw [List.foldlM_cons, List.flatten_cons, ← List.append_assoc, run_append, feed]
    cases hr : M.run c.1 (c.2 ++ chunk) with
    | error => rfl
    | ok d => exact ih (run_of_run_eq_ok hr)

end Intake

end Lib
