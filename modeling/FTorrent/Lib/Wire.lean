import Mathlib.Tactic

/-!
# Writes that share a stream

A write moves its buffer to the stream in non-empty parts.  Several writes may be under way, and
nothing orders their parts.  As long as no part of one write is moved while another write is halfway
(`Free`), the stream is a sequence of whole buffers and at most one beginning of a buffer
(`Contiguous.framed`).  If moreover the writes are served in the order in which they were submitted
(`First`), the stream is a beginning of all buffers in a row (`Ordered.prefix`).
-/

namespace Lib

variable {β : Type}

/-- A write: what it has moved and what is left of its buffer. -/
structure Job (β : Type) where
  moved : List β := []
  left : List β

namespace Job

def buffer (j : Job β) : List β := j.moved ++ j.left

def Halfway (j : Job β) : Prop := j.moved ≠ [] ∧ j.left ≠ []

instance [DecidableEq β] (j : Job β) : Decidable j.Halfway := inferInstanceAs (Decidable (_ ∧ _))

/-- A part of the write is moved. -/
def advance (j : Job β) (n : ℕ) : Job β := ⟨j.moved ++ j.left.take n, j.left.drop n⟩

theorem buffer_advance (j : Job β) (n : ℕ) : (j.advance n).buffer = j.buffer := by
  rw [buffer, advance, List.append_assoc, List.take_append_drop, buffer]

end Job

/-- The writes in the order in which they were submitted, and what has been moved to the stream. -/
structure Wire (β : Type) where
  jobs : List (Job β) := []
  out : List β := []

/-- The list is a sequence of whole frames and at most one beginning of a frame. -/
def Framed (F : List β → Prop) (out : List β) : Prop :=
  ∃ (whole : List (List β)) (part : List β), (∀ b ∈ whole, F b) ∧ out = whole.flatten ++ part ∧
    (part = [] ∨ ∃ b, F b ∧ part <+: b ∧ part ≠ b)

/-- A framed list is part of a frame, or begins with a frame. -/
theorem Framed.cases {F : List β → Prop} {out : List β} (h : Framed F out) :
    out = [] ∨ (∃ b, F b ∧ out <+: b) ∨ ∃ b rest, F b ∧ out = b ++ rest ∧ Framed F rest := by
  obtain ⟨whole, part, hwhole, hout, hpart⟩ := h
  cases whole with
  | nil =>
    rw [List.flatten_nil, List.nil_append] at hout
    subst hout
    exact hpart.imp_right fun ⟨b, hb, hpre, _⟩ => .inl ⟨b, hb, hpre⟩
  | cons b whole =>
    have hb := List.forall_mem_cons.1 hwhole
    refine .inr (.inr ⟨b, whole.flatten ++ part, hb.1, ?_, whole, part, hb.2, rfl, hpart⟩)
    rw [hout, List.flatten_cons, List.append_assoc]

namespace Wire

/-- A new write. -/
def submit (w : Wire β) (buffer : List β) : Wire β :=
  { w with jobs := w.jobs ++ [{ left := buffer }] }

/-- The stream takes `n` items of a write. -/
def transfer (w : Wire β) (i n : ℕ) : Option (Wire β) :=
  match w.jobs[i]? with
  | none => none
  | some j =>
    if 0 < n ∧ n ≤ j.left.length then
      some ⟨w.jobs.set i (j.advance n), w.out ++ j.left.take n⟩
    else none

/-- Whether all of a write has been moved. -/
def finished (w : Wire β) (i : ℕ) : Bool := w.jobs[i]?.any fun j => j.left.isEmpty

/-- No other write is halfway. -/
def Free (w : Wire β) (i : ℕ) : Prop := ∀ k j, w.jobs[k]? = some j → j.Halfway → k = i

theorem free_iff {w : Wire β} {i : ℕ} :
    w.Free i ↔ ∀ k ∈ List.range w.jobs.length, ∀ j ∈ w.jobs[k]?, j.Halfway → k = i := by
  refine forall_congr' fun k => ⟨fun h _ j hj => h j hj, fun h j hj => h ?_ j hj⟩
  exact List.mem_range.2 (List.getElem?_eq_some_iff.1 hj).1

instance [DecidableEq β] (w : Wire β) (i : ℕ) : Decidable (w.Free i) := decidable_of_iff' _ free_iff

/-- At most one write is not finished. -/
def Single (w : Wire β) : Prop :=
  ∀ (i k : ℕ) (j j' : Job β), w.jobs[i]? = some j → w.jobs[k]? = some j' → j.left ≠ [] →
    j'.left ≠ [] → k = i

/-- What has been moved are whole frames, and then what the write that is halfway has moved. -/
inductive Aligned (F : List β → Prop) (w : Wire β) : Prop
  | between (whole : List (List β)) : (∀ b ∈ whole, F b) → w.out = whole.flatten →
      (∀ j ∈ w.jobs, ¬ j.Halfway) → Aligned F w
  | within (whole : List (List β)) (i : ℕ) (j : Job β) : (∀ b ∈ whole, F b) →
      w.jobs[i]? = some j → j.Halfway → w.out = whole.flatten ++ j.moved → w.Free i → Aligned F w

/-- The buffers are frames, and what has been moved is in line with them. -/
structure Contiguous (F : List β → Prop) (w : Wire β) : Prop where
  frames : ∀ j ∈ w.jobs, F j.buffer
  aligned : w.Aligned F

variable {F : List β → Prop} {w v : Wire β}

theorem Contiguous.framed (h : w.Contiguous F) : Framed F w.out := by
  cases h.aligned with
  | between whole hwhole hout _ => exact ⟨whole, [], hwhole, by simpa using hout, .inl rfl⟩
  | within whole i j hwhole hj hhalf hout _ =>
    refine ⟨whole, j.moved, hwhole, hout, .inr ⟨j.buffer, ?_, List.prefix_append _ _, ?_⟩⟩
    · exact h.frames j (List.mem_of_getElem? hj)
    · simpa [Job.buffer] using hhalf.2

theorem contiguous_empty : ({} : Wire β).Contiguous F where
  frames _ hj := absurd hj List.not_mem_nil
  aligned := .between [] (fun _ hb => absurd hb List.not_mem_nil) rfl
    (fun _ hj => absurd hj List.not_mem_nil)

theorem Contiguous.mono {G : List β → Prop} (hFG : ∀ b, F b → G b) (h : w.Contiguous F) :
    w.Contiguous G where
  frames j hj := hFG _ (h.frames j hj)
  aligned := by
    cases h.aligned with
    | between whole hwhole hout hhalf =>
      exact .between whole (fun b hb => hFG b (hwhole b hb)) hout hhalf
    | within whole i j hwhole hj hhalf hout hfree =>
      exact .within whole i j (fun b hb => hFG b (hwhole b hb)) hj hhalf hout hfree

theorem not_halfway_new (buffer : List β) : ¬ ({ left := buffer } : Job β).Halfway :=
  fun h => h.1 rfl

/-- A new write may be submitted at any time. -/
theorem Contiguous.submit (h : w.Contiguous F) {buffer : List β} (hb : F buffer) :
    (w.submit buffer).Contiguous F where
  frames j hj := by
    rcases List.mem_append.1 hj with hj | hj
    · exact h.frames j hj
    · rw [List.mem_singleton.1 hj]
      exact hb
  aligned := by
    cases h.aligned with
    | between whole hwhole hout hhalf =>
      refine .between whole hwhole hout fun j hj => ?_
      rcases List.mem_append.1 hj with hj | hj
      · exact hhalf j hj
      · rw [List.mem_singleton.1 hj]
        exact not_halfway_new buffer
    | within whole i j hwhole hj hhalf hout hfree =>
      have hlt : i < w.jobs.length := (List.getElem?_eq_some_iff.1 hj).1
      refine .within whole i j hwhole ?_ hhalf hout fun k j' hj' hhalf' => ?_
      · rw [Wire.submit, List.getElem?_append_left hlt]
        exact hj
      · by_cases hk : k < w.jobs.length
        · rw [Wire.submit, List.getElem?_append_left hk] at hj'
          exact hfree k j' hj' hhalf'
        · rw [Wire.submit, List.getElem?_append_right (by omega)] at hj'
          have hnew : j' = { left := buffer } := by
            simpa using List.mem_of_getElem? hj'
          rw [hnew] at hhalf'
          exact absurd hhalf' (not_halfway_new buffer)

theorem Contiguous.foldl_submit (h : w.Contiguous F) {buffers : List (List β)}
    (hb : ∀ b ∈ buffers, F b) : (buffers.foldl Wire.submit w).Contiguous F := by
  induction buffers generalizing w with
  | nil => exact h
  | cons b buffers ih =>
    have hb' := List.forall_mem_cons.1 hb
    exact ih (h.submit hb'.1) hb'.2

theorem transfer_eq_some {i n : ℕ} :
    w.transfer i n = some v ↔ ∃ j, w.jobs[i]? = some j ∧ 0 < n ∧ n ≤ j.left.length ∧
      v = ⟨w.jobs.set i (j.advance n), w.out ++ j.left.take n⟩ := by
  unfold transfer
  cases hj : w.jobs[i]? with
  | none => simp
  | some j =>
    by_cases hn : 0 < n ∧ n ≤ j.left.length
    · simp [hn, eq_comm]
    · have : ¬ (0 < n ∧ n ≤ j.left.length ∧
          v = ⟨w.jobs.set i (j.advance n), w.out ++ j.left.take n⟩) :=
        fun h => hn ⟨h.1, h.2.1⟩
      simp [hn, this]

/-- What has been moved before the write goes on is whole frames and the write's own part. -/
theorem Aligned.before (h : w.Aligned F) {i : ℕ} {j : Job β} (hj : w.jobs[i]? = some j)
    (hleft : j.left ≠ []) (hfree : w.Free i) :
    ∃ whole : List (List β), (∀ b ∈ whole, F b) ∧ w.out = whole.flatten ++ j.moved := by
  cases h with
  | between whole hwhole hout hhalf =>
    have hmoved : j.moved = [] := by
      by_contra hne
      exact hhalf j (List.mem_of_getElem? hj) ⟨hne, hleft⟩
    exact ⟨whole, hwhole, by rw [hout, hmoved, List.append_nil]⟩
  | within whole k j' hwhole hj' hhalf hout _ =>
    obtain rfl := hfree k j' hj' hhalf
    obtain rfl : j' = j := Option.some.inj (hj'.symm.trans hj)
    exact ⟨whole, hwhole, hout⟩

/-- A write may go on while no other write is halfway. -/
theorem Contiguous.transfer (h : w.Contiguous F) {i n : ℕ} (ht : w.transfer i n = some v)
    (hfree : w.Free i) : v.Contiguous F := by
  obtain ⟨j, hj, hn, hle, rfl⟩ := transfer_eq_some.1 ht
  have hlt : i < w.jobs.length := (List.getElem?_eq_some_iff.1 hj).1
  have hF : F j.buffer := h.frames j (List.mem_of_getElem? hj)
  have hleft : j.left ≠ [] := List.ne_nil_of_length_pos (by omega)
  obtain ⟨whole, hwhole, hout⟩ := h.aligned.before hj hleft hfree
  have hother : ∀ k j', (w.jobs.set i (j.advance n))[k]? = some j' → j'.Halfway → k = i := by
    intro k j' hj' hhalf'
    by_contra hk
    rw [List.getElem?_set_ne (Ne.symm hk)] at hj'
    exact hk (hfree k j' hj' hhalf')
  refine ⟨fun j' hj' => ?_, ?_⟩
  · rcases List.mem_or_eq_of_mem_set hj' with hj' | rfl
    · exact h.frames j' hj'
    · rwa [Job.buffer_advance]
  · by_cases hrest : j.left.drop n = []
    · have htake : j.left.take n = j.left :=
        List.take_of_length_le (List.drop_eq_nil_iff.1 hrest)
      refine .between (whole ++ [j.buffer]) ?_ ?_ fun j' hj' hhalf' => ?_
      · intro b hb
        rcases List.mem_append.1 hb with hb | hb
        · exact hwhole b hb
        · rwa [List.mem_singleton.1 hb]
      · simp [hout, htake, Job.buffer]
      · obtain ⟨k, hk⟩ := List.getElem?_of_mem hj'
        obtain rfl := hother k j' hk hhalf'
        rw [List.getElem?_set_self hlt] at hk
        obtain rfl := Option.some.inj hk
        exact hhalf'.2 hrest
    · refine .within whole i (j.advance n) hwhole (List.getElem?_set_self hlt) ⟨?_, hrest⟩ ?_ hother
      · exact List.append_ne_nil_of_right_ne_nil _ (by simpa using ⟨by omega, hleft⟩)
      · rw [hout, Job.advance, List.append_assoc]

/-- The only write that is not finished is free to go on. -/
theorem Single.free (h : w.Single) {i n : ℕ} (ht : w.transfer i n = some v) : w.Free i := by
  obtain ⟨j, hj, hn, hle, -⟩ := transfer_eq_some.1 ht
  have hleft : j.left ≠ [] := List.ne_nil_of_length_pos (by omega)
  intro k j' hj' hhalf
  exact h i k j j' hj hj' hleft hhalf.2

/-! ### Writes that are served in order -/

/-- All writes that were submitted before it are finished. -/
def First (w : Wire β) (i : ℕ) : Prop := ∀ k < i, w.finished k = true

instance (w : Wire β) (i : ℕ) : Decidable (w.First i) :=
  inferInstanceAs (Decidable (∀ k < i, w.finished k = true))

/-- The stream is what the writes have moved, and a write has moved nothing before the earlier ones are
finished. -/
structure Ordered (w : Wire β) : Prop where
  out : w.out = w.jobs.flatMap Job.moved
  order : w.jobs.Pairwise fun j j' => j.left = [] ∨ j'.moved = []

@[simp] theorem out_foldl_submit (w : Wire β) (buffers : List (List β)) :
    (buffers.foldl Wire.submit w).out = w.out := by
  induction buffers generalizing w with
  | nil => rfl
  | cons b buffers ih => exact ih (w.submit b)

theorem finished_iff {i : ℕ} : w.finished i = true ↔ ∃ j, w.jobs[i]? = some j ∧ j.left = [] := by
  rw [finished]
  cases w.jobs[i]? with
  | none => simp
  | some j => simp

theorem ordered_empty : ({} : Wire β).Ordered := ⟨rfl, .nil⟩

theorem Ordered.submit (h : w.Ordered) (buffer : List β) : (w.submit buffer).Ordered where
  out := by
    rw [Wire.submit, List.flatMap_append, List.flatMap_singleton, List.append_nil]
    exact h.out
  order := by
    refine List.pairwise_append.2 ⟨h.order, List.pairwise_singleton _ _, fun j _ j' hj' => ?_⟩
    rw [List.mem_singleton.1 hj']
    exact .inr rfl

theorem Ordered.foldl_submit (h : w.Ordered) (buffers : List (List β)) :
    (buffers.foldl Wire.submit w).Ordered := by
  induction buffers generalizing w with
  | nil => exact h
  | cons b buffers ih => exact ih (h.submit b)

theorem flatMap_moved_eq_nil {js : List (Job β)} (h : ∀ j ∈ js, j.moved = []) :
    js.flatMap Job.moved = [] :=
  List.flatMap_eq_nil_iff.2 h

theorem Ordered.transfer (h : w.Ordered) {i n : ℕ} (ht : w.transfer i n = some v) (hfirst : w.First i) :
    v.Ordered := by
  obtain ⟨j, hj, hn, hle, rfl⟩ := transfer_eq_some.1 ht
  obtain ⟨hlt, rfl⟩ := List.getElem?_eq_some_iff.1 hj
  have hleft : w.jobs[i].left ≠ [] := List.ne_nil_of_length_pos (by omega)
  have hsplit : w.jobs = w.jobs.take i ++ w.jobs[i] :: w.jobs.drop (i + 1) := by
    rw [List.getElem_cons_drop, List.take_append_drop]
  obtain ⟨hbefore, hafter, -⟩ := List.pairwise_append.1 (hsplit ▸ h.order)
  obtain ⟨hlater, hrest⟩ := List.pairwise_cons.1 hafter
  have hunmoved : ∀ j' ∈ w.jobs.drop (i + 1), j'.moved = [] :=
    fun j' hj' => (hlater j' hj').resolve_left hleft
  have hdone : ∀ j' ∈ w.jobs.take i, j'.left = [] := by
    intro j' hj'
    obtain ⟨k, hk, rfl⟩ := List.getElem_of_mem hj'
    rw [List.length_take] at hk
    obtain ⟨j'', hj'', hnil⟩ := finished_iff.1 (hfirst k (by omega))
    rw [List.getElem_take]
    rwa [(List.getElem?_eq_some_iff.1 hj'').2]
  have hset : w.jobs.set i (w.jobs[i].advance n) =
      w.jobs.take i ++ w.jobs[i].advance n :: w.jobs.drop (i + 1) := by
    rw [List.set_eq_take_append_cons_drop, if_pos hlt]
  constructor
  · show w.out ++ w.jobs[i].left.take n = (w.jobs.set i (w.jobs[i].advance n)).flatMap Job.moved
    have hmoved : w.jobs.flatMap Job.moved = (w.jobs.take i).flatMap Job.moved ++ w.jobs[i].moved := by
      have hmap := congrArg (List.flatMap Job.moved) hsplit
      rwa [List.flatMap_append, List.flatMap_cons, flatMap_moved_eq_nil hunmoved, List.append_nil] at hmap
    rw [hset, h.out, hmoved, List.flatMap_append, List.flatMap_cons, flatMap_moved_eq_nil hunmoved,
      List.append_nil, List.append_assoc]
    rfl
  · show (w.jobs.set i (w.jobs[i].advance n)).Pairwise _
    rw [hset]
    refine List.pairwise_append.2 ⟨hbefore, List.pairwise_cons.2 ⟨?_, hrest⟩, ?_⟩
    · exact fun j' hj' => .inr (hunmoved j' hj')
    · exact fun j' hj' _ _ => .inl (hdone j' hj')

/-- What the writes have moved is a beginning of their buffers. -/
theorem flatMap_moved_prefix {js : List (Job β)}
    (h : js.Pairwise fun j j' => j.left = [] ∨ j'.moved = []) :
    js.flatMap Job.moved <+: js.flatMap Job.buffer := by
  induction js with
  | nil => exact List.prefix_rfl
  | cons j js ih =>
    obtain ⟨hj, hjs⟩ := List.pairwise_cons.1 h
    rw [List.flatMap_cons, List.flatMap_cons]
    by_cases hleft : j.left = []
    · rw [Job.buffer, hleft, List.append_nil]
      exact (List.prefix_append_right_inj _).2 (ih hjs)
    · rw [flatMap_moved_eq_nil fun j' hj' => (hj j' hj').resolve_left hleft, List.append_nil,
        Job.buffer, List.append_assoc]
      exact List.prefix_append _ _

theorem Ordered.prefix (h : w.Ordered) : w.out <+: w.jobs.flatMap Job.buffer := by
  rw [h.out]
  exact flatMap_moved_prefix h.order

/-- When all writes are finished the stream is all buffers. -/
theorem Ordered.out_of_finished (h : w.Ordered) (hdone : ∀ j ∈ w.jobs, j.left = []) :
    w.out = w.jobs.flatMap Job.buffer := by
  rw [h.out]
  refine List.flatMap_congr fun j hj => ?_
  rw [Job.buffer, hdone j hj, List.append_nil]

/-- While a write is not finished, the first such write can go on. -/
theorem exists_transfer (h : ∃ j ∈ w.jobs, j.left ≠ []) :
    ∃ i, w.First i ∧ ∃ v, w.transfer i 1 = some v := by
  have hex : ∃ i, i < w.jobs.length ∧ w.finished i = false := by
    obtain ⟨j, hj, hleft⟩ := h
    obtain ⟨i, hi, rfl⟩ := List.getElem_of_mem hj
    refine ⟨i, hi, ?_⟩
    rw [← Bool.not_eq_true, finished_iff]
    rintro ⟨j, hj, hnil⟩
    exact hleft ((List.getElem?_eq_some_iff.1 hj).2 ▸ hnil)
  classical
  obtain ⟨hlt, hfin⟩ := Nat.find_spec hex
  refine ⟨Nat.find hex, fun k hk => ?_, _, transfer_eq_some.2 ⟨w.jobs[Nat.find hex], ?_, ?_, ?_, rfl⟩⟩
  · have hmin := Nat.find_min hex hk
    rw [not_and, Bool.not_eq_false] at hmin
    exact hmin (by omega)
  · exact List.getElem?_eq_getElem hlt
  · exact Nat.one_pos
  · rw [← Bool.not_eq_true, finished_iff] at hfin
    refine List.length_pos_iff.2 fun hnil => hfin ⟨_, List.getElem?_eq_getElem hlt, hnil⟩

end Wire

end Lib
