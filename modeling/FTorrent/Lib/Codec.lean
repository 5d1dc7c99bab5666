import Mathlib.Tactic

/-!
# Writers and readers of streams

A writer is a computation on the state of a sink, a reader a computation on the state of a source;
both can fail.  `Sink.Writes` and `Source.Reads` say what a computation appends to the stream or
takes off its front.  Both compose along `bind`, so that a format is described by the list of what
its parts write and a reader is checked part by part against that list.
-/

namespace Lib

variable {σ ι φ α β : Type}

/-! ### Writers -/

/-- A view of a sink: the states in which everything reserved has been written, and what has. -/
structure Sink (σ ι : Type) where
  Valid : σ → Prop
  written : σ → List ι

namespace Sink

variable {S : Sink σ ι}

/-- From every valid state the computation succeeds and appends `bs`. -/
def Writes (S : Sink σ ι) (m : StateT σ (Except φ) Unit) (bs : List ι) : Prop :=
  ∀ s, S.Valid s → ∃ t, m s = .ok ((), t) ∧ S.Valid t ∧ S.written t = S.written s ++ bs

theorem Writes.pure : S.Writes (φ := φ) (Pure.pure ()) [] :=
  fun s hs => ⟨s, rfl, hs, (List.append_nil _).symm⟩

theorem Writes.bind {m : StateT σ (Except φ) Unit} {k : Unit → StateT σ (Except φ) Unit}
    {bs cs : List ι} (hm : S.Writes m bs) (hk : S.Writes (k ()) cs) :
    S.Writes (m >>= k) (bs ++ cs) := by
  intro s hs
  obtain ⟨t, ht, hvt, hwt⟩ := hm s hs
  obtain ⟨u, hu, hvu, hwu⟩ := hk t hvt
  refine ⟨u, ?_, hvu, ?_⟩
  · show (m s >>= fun p => k p.1 p.2) = _
    rw [ht]
    exact hu
  · rw [hwu, hwt, List.append_assoc]

end Sink

/-! ### Readers -/

/-- A view of a source: its consistent states, and what is left to read. -/
structure Source (σ ι : Type) where
  Valid : σ → Prop
  left : σ → List ι

/-- The results of `n` runs of a reader. -/
def readVector (m : StateT σ (Except φ) α) : (n : ℕ) → StateT σ (Except φ) (Vector α n)
  | 0 => Pure.pure #v[]
  | n + 1 => do
    let v ← readVector m n
    let a ← m
    return v.push a

namespace Source

variable {S : Source σ ι}

/-- From every valid state with `bs` in front the computation takes `bs` and returns `a`. -/
def Reads (S : Source σ ι) (m : StateT σ (Except φ) α) (bs : List ι) (a : α) : Prop :=
  ∀ s rest, S.Valid s → S.left s = bs ++ rest → ∃ t, m s = .ok (a, t) ∧ S.Valid t ∧ S.left t = rest

theorem Reads.pure (a : α) : S.Reads (φ := φ) (Pure.pure a) [] a :=
  fun s _ hs hl => ⟨s, rfl, hs, hl⟩

theorem Reads.bind {m : StateT σ (Except φ) α} {k : α → StateT σ (Except φ) β} {bs cs : List ι}
    {a : α} {b : β} (hm : S.Reads m bs a) (hk : S.Reads (k a) cs b) :
    S.Reads (m >>= k) (bs ++ cs) b := by
  intro s rest hs hl
  rw [List.append_assoc] at hl
  obtain ⟨t, ht, hvt, hlt⟩ := hm s _ hs hl
  obtain ⟨u, hu, hvu, hlu⟩ := hk t _ hvt hlt
  refine ⟨u, ?_, hvu, hlu⟩
  show (m s >>= fun p => k p.1 p.2) = _
  rw [ht]
  exact hu

/-- A reader that ends by computing its result from what it read. -/
theorem Reads.bind_pure {m : StateT σ (Except φ) α} {f : α → β} {bs : List ι} {a : α}
    (hm : S.Reads m bs a) : S.Reads (m >>= fun x => Pure.pure (f x)) bs (f a) := by
  have h := hm.bind (k := fun x => Pure.pure (f x)) (.pure (f a))
  rwa [List.append_nil] at h

/-- From every valid state with nothing but `bs` left the computation fails. -/
def Lacks (S : Source σ ι) (m : StateT σ (Except φ) α) (bs : List ι) : Prop :=
  ∀ s, S.Valid s → S.left s = bs → ∃ e, m s = .error e

theorem Lacks.bind {m : StateT σ (Except φ) α} {bs : List ι} (hm : S.Lacks m bs)
    (k : α → StateT σ (Except φ) β) : S.Lacks (m >>= k) bs := by
  intro s hs hl
  obtain ⟨e, he⟩ := hm s hs hl
  refine ⟨e, ?_⟩
  show (m s >>= fun p => k p.1 p.2) = _
  rw [he]
  rfl

/-- The first part succeeds, and the second lacks something. -/
theorem Reads.bind_lacks {m : StateT σ (Except φ) α} {k : α → StateT σ (Except φ) β}
    {bs cs : List ι} {a : α} (hm : S.Reads m bs a) (hk : S.Lacks (k a) cs) :
    S.Lacks (m >>= k) (bs ++ cs) := by
  intro s hs hl
  obtain ⟨t, ht, hvt, hlt⟩ := hm s _ hs hl
  obtain ⟨e, he⟩ := hk t hvt hlt
  refine ⟨e, ?_⟩
  show (m s >>= fun p => k p.1 p.2) = _
  rw [ht]
  exact he

theorem Reads.readVector {m : StateT σ (Except φ) α} {g : α → List ι}
    (hm : ∀ a, S.Reads m (g a) a) {n : ℕ} (v : Vector α n) :
    S.Reads (Lib.readVector m n) (v.toList.flatMap g) v := by
  induction n with
  | zero =>
    cases v.eq_empty
    exact .pure _
  | succ n ih =>
    have hv : v.toList = v.pop.toList ++ [v.back] := by
      rw [← Vector.toList_push, Vector.push_pop_back]
    have h : S.Reads (m >>= fun a => Pure.pure (v.pop.push a)) (g v.back) v := by
      have := (hm v.back).bind_pure (f := fun a => v.pop.push a)
      rwa [Vector.push_pop_back] at this
    rw [hv, List.flatMap_append, List.flatMap_singleton]
    exact (ih v.pop).bind h

/-- Values that are read one after the other. -/
theorem Reads.mapM {m : β → StateT σ (Except φ) α} {g : β → List ι} {f : β → α} {bs : List β}
    (hm : ∀ b ∈ bs, S.Reads (m b) (g b) (f b)) :
    S.Reads (bs.mapM m) (bs.flatMap g) (bs.map f) := by
  induction bs with
  | nil =>
    rw [List.mapM_nil]
    exact .pure []
  | cons b bs ih =>
    obtain ⟨hb, hbs⟩ := List.forall_mem_cons.1 hm
    rw [List.mapM_cons, List.flatMap_cons]
    exact hb.bind ((ih hbs).bind_pure (f := fun as => f b :: as))

end Source

end Lib
