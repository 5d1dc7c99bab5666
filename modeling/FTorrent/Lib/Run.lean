import Mathlib.Tactic

/-!
# Runs of a step relation

A system is a relation `R s e t`: in the state `s` the event `e` can lead to the state `t`.
`Run R s es t` says that the events `es`, taken in order, lead from `s` to `t`.  An invariant of
the steps is an invariant of the runs (`Run.invariant`); a condition on the steps restricts the
relation (`Along`), and a run all of whose steps meet the condition is a run of the restricted
relation.  For a system given by a step function into `Except`, runs are computed by `List.foldlM`
(`run_iff_foldlM`).
-/

namespace Lib

variable {σ ε φ : Type}

/-- The events lead from the first state to the last. -/
inductive Run (R : σ → ε → σ → Prop) : σ → List ε → σ → Prop
  | nil (s : σ) : Run R s [] s
  | cons {s t u : σ} {e : ε} {es : List ε} : R s e t → Run R t es u → Run R s (e :: es) u

/-- The steps that meet the condition `C` on the state before the step and the event. -/
def Along (R : σ → ε → σ → Prop) (C : σ → ε → Prop) : σ → ε → σ → Prop :=
  fun s e t => R s e t ∧ C s e

/-- The steps of a fallible step function. -/
def StepOf (step : σ → ε → Except φ σ) : σ → ε → σ → Prop := fun s e t => step s e = .ok t

namespace Run

variable {R : σ → ε → σ → Prop}

theorem single {s t : σ} {e : ε} (h : R s e t) : Run R s [e] t := .cons h (.nil t)

theorem append {s t u : σ} {es fs : List ε} (h₁ : Run R s es t) (h₂ : Run R t fs u) :
    Run R s (es ++ fs) u := by
  induction h₁ with
  | nil => exact h₂
  | cons h _ ih => exact .cons h (ih h₂)

theorem snoc {s t u : σ} {e : ε} {es : List ε} (h₁ : Run R s es t) (h₂ : R t e u) :
    Run R s (es ++ [e]) u :=
  h₁.append (single h₂)

/-- Induction on a run from its first state on, one step added at the end. -/
@[elab_as_elim]
theorem snoc_induction {s : σ} {motive : (es : List ε) → (u : σ) → Run R s es u → Prop}
    (nil : motive [] s (.nil s))
    (snoc : ∀ es t e u (hr : Run R s es t) (hs : R t e u), motive es t hr →
      motive (es ++ [e]) u (hr.snoc hs)) {es : List ε} {u : σ} (h : Run R s es u) :
    motive es u h := by
  have key : ∀ {t u : σ} {fs : List ε} (_ : Run R t fs u) (es : List ε) (hes : Run R s es t),
      motive es t hes → ∃ h', motive (es ++ fs) u h' := by
    intro t u fs hr
    induction hr with
    | nil =>
      intro es hes hm
      rw [List.append_nil]
      exact ⟨hes, hm⟩
    | cons hs _ ih =>
      intro es hes hm
      have := ih (es ++ [_]) (hes.snoc hs) (snoc es _ _ _ hes hs hm)
      rwa [List.append_assoc, List.singleton_append] at this
  obtain ⟨_, hm⟩ := key h [] (.nil s) nil
  exact hm

/-- What every step preserves, every run preserves. -/
theorem invariant {J : σ → Prop} (hstep : ∀ s e t, J s → R s e t → J t) {s t : σ}
    {es : List ε} (h : Run R s es t) (h0 : J s) : J t := by
  induction h with
  | nil => exact h0
  | cons hs _ ih => exact ih (hstep _ _ _ h0 hs)

theorem mono {R' : σ → ε → σ → Prop} (hR : ∀ s e t, R s e t → R' s e t) {s t : σ} {es : List ε}
    (h : Run R s es t) : Run R' s es t := by
  induction h with
  | nil => exact .nil _
  | cons hs _ ih => exact .cons (hR _ _ _ hs) ih

/-- If some events lower a measure wherever it is not zero, then some events bring it to zero. -/
theorem exists_measure_eq_zero {J : σ → Prop} {P : ε → Prop} (f : σ → ℕ)
    (hlower : ∀ s, J s → 0 < f s → ∃ es t, Run R s es t ∧ J t ∧ f t < f s ∧ ∀ e ∈ es, P e) {s : σ}
    (h : J s) : ∃ es t, Run R s es t ∧ J t ∧ f t = 0 ∧ ∀ e ∈ es, P e := by
  induction hn : f s using Nat.strong_induction_on generalizing s with
  | _ n ih =>
    rcases Nat.eq_zero_or_pos (f s) with hzero | hpos
    · exact ⟨[], s, .nil s, h, hzero, nofun⟩
    · obtain ⟨es, t, hr, ht, hlt, hes⟩ := hlower s h hpos
      obtain ⟨fs, u, hr', hu, hzero, hfs⟩ := ih (f t) (hn ▸ hlt) ht rfl
      exact ⟨es ++ fs, u, hr.append hr', hu, hzero,
        fun e he => (List.mem_append.1 he).elim (hes e) (hfs e)⟩

end Run

/-! ### Properties that hold throughout a run -/

/-- `P` holds in the first state and in every state the events lead to. -/
def Always (R : σ → ε → σ → Prop) (P : σ → Prop) : σ → List ε → Prop
  | s, [] => P s
  | s, e :: es => P s ∧ ∀ t, R s e t → Always R P t es

/-- Every step that the events take meets `C`. -/
def Each (R : σ → ε → σ → Prop) (C : σ → ε → Prop) : σ → List ε → Prop
  | _, [] => True
  | s, e :: es => ∀ t, R s e t → C s e ∧ Each R C t es

variable {R : σ → ε → σ → Prop}

theorem Always.head {P : σ → Prop} {s : σ} {es : List ε} (h : Always R P s es) : P s := by
  cases es with
  | nil => exact h
  | cons e es => exact h.1

theorem Always.of_run {P : σ → Prop} {s t : σ} {es : List ε} (h : Always R P s es)
    (hr : Run R s es t) : P t := by
  induction hr with
  | nil => exact h
  | cons hs _ ih => exact ih (h.2 _ hs)

/-- What an invariant of the steps implies holds throughout every run. -/
theorem always_of_invariant {J P : σ → Prop} (hJP : ∀ s, J s → P s)
    (hstep : ∀ s e t, J s → R s e t → J t) {s : σ} {es : List ε} (h0 : J s) : Always R P s es := by
  induction es generalizing s with
  | nil => exact hJP s h0
  | cons e es ih => exact ⟨hJP s h0, fun t ht => ih (hstep s e t h0 ht)⟩

/-- If the steps that meet `C` keep the invariant `J`, which implies `P`, and a step from a state of
`J` that misses `C` can break `P`, then `P` holds throughout exactly if every step meets `C`. -/
theorem always_iff_each {J P : σ → Prop} {C : σ → ε → Prop} (hJP : ∀ s, J s → P s)
    (good : ∀ s e t, J s → R s e t → C s e → J t)
    (bad : ∀ s e t, J s → R s e t → ¬ C s e → ∃ t', R s e t' ∧ ¬ P t') {s : σ} {es : List ε}
    (h0 : J s) : Always R P s es ↔ Each R C s es := by
  induction es generalizing s with
  | nil => exact iff_of_true (hJP s h0) trivial
  | cons e es ih =>
    constructor
    · rintro ⟨-, h⟩ t ht
      have hC : C s e := by
        by_contra hC
        obtain ⟨t', ht', hP⟩ := bad s e t h0 ht hC
        exact hP (h t' ht').head
      exact ⟨hC, (ih (good s e t h0 ht hC)).1 (h t ht)⟩
    · intro h
      refine ⟨hJP s h0, fun t ht => ?_⟩
      obtain ⟨hC, hE⟩ := h t ht
      exact (ih (good s e t h0 ht hC)).2 hE

/-- The runs of a step function are the successful folds over the events. -/
theorem run_iff_foldlM {step : σ → ε → Except φ σ} {s t : σ} {es : List ε} :
    Run (StepOf step) s es t ↔ es.foldlM step s = .ok t := by
  constructor
  · intro h
    induction h with
    | nil => rfl
    | cons hs _ ih =>
      simp only [StepOf] at hs
      rw [List.foldlM_cons, hs]
      exact ih
  · induction es generalizing s with
    | nil =>
      intro h
      cases h
      exact .nil _
    | cons e es ih =>
      intro h
      rw [List.foldlM_cons] at h
      rcases he : step s e with f | u
      · rw [he] at h
        cases h
      · rw [he] at h
        exact .cons he (ih h)

/-- The last state of a run whose steps all meet `C`, if there is one. -/
def checkRun (step : σ → ε → Except φ σ) (C : σ → ε → Prop) [∀ s e, Decidable (C s e)] :
    σ → List ε → Option σ
  | s, [] => some s
  | s, e :: es =>
    if C s e then
      match step s e with
      | .ok t => checkRun step C t es
      | .error _ => none
    else none

theorem run_along_of_checkRun {step : σ → ε → Except φ σ} {C : σ → ε → Prop}
    [∀ s e, Decidable (C s e)] {s t : σ} {es : List ε} (h : checkRun step C s es = some t) :
    Run (Along (StepOf step) C) s es t := by
  induction es generalizing s with
  | nil =>
    cases h
    exact .nil _
  | cons e es ih =>
    unfold checkRun at h
    split_ifs at h with hC
    split at h
    · next u hu => exact .cons ⟨hu, hC⟩ (ih h)
    · cases h

/-- A run found by computation, with a computed property of its last state. -/
theorem exists_run_along {step : σ → ε → Except φ σ} {C : σ → ε → Prop}
    [∀ s e, Decidable (C s e)] {P : σ → Prop} [DecidablePred P] {s : σ} {es : List ε}
    (h : (checkRun step C s es).any (fun t => decide (P t)) = true) :
    ∃ t, Run (Along (StepOf step) C) s es t ∧ P t := by
  rcases ht : checkRun step C s es with _ | t
  · rw [ht] at h
    cases h
  · rw [ht] at h
    exact ⟨t, run_along_of_checkRun ht, by simpa using h⟩

/-- Such a run whose steps meet two conditions. -/
theorem exists_run_along_along {step : σ → ε → Except φ σ} {C D : σ → ε → Prop}
    [∀ s e, Decidable (C s e)] [∀ s e, Decidable (D s e)] {P : σ → Prop} [DecidablePred P] {s : σ}
    {es : List ε}
    (h : (checkRun step (fun s e => C s e ∧ D s e) s es).any (fun t => decide (P t)) = true) :
    ∃ t, Run (Along (Along (StepOf step) C) D) s es t ∧ P t := by
  obtain ⟨t, hr, ht⟩ := exists_run_along h
  exact ⟨t, hr.mono fun _ _ _ hs => ⟨⟨hs.1, hs.2.1⟩, hs.2.2⟩, ht⟩

/-- Such a run with no condition on its steps. -/
theorem exists_run {step : σ → ε → Except φ σ} {P : σ → Prop} [DecidablePred P] {s : σ} {es : List ε}
    (h : (checkRun step (fun _ _ => True) s es).any (fun t => decide (P t)) = true) :
    ∃ t, Run (StepOf step) s es t ∧ P t := by
  obtain ⟨t, hr, ht⟩ := exists_run_along h
  exact ⟨t, hr.mono fun _ _ _ hs => hs.1, ht⟩

/-- The result of a computation that succeeds. -/
theorem toOption_eq_some {α : Type} {x : Except φ α} {a : α} : x.toOption = some a ↔ x = .ok a := by
  cases x with
  | error e => exact ⟨fun h => (by cases h), fun h => (by cases h)⟩
  | ok b =>
    exact ⟨fun h => congrArg Except.ok (Option.some.inj h), fun h => congrArg some (Except.ok.inj h)⟩

/-- A successful computation of two parts: the first succeeds, and the second on its result. -/
theorem bind_eq_ok {α β : Type} {x : Except φ α} {f : α → Except φ β} {b : β} :
    x >>= f = .ok b ↔ ∃ a, x = .ok a ∧ f a = .ok b := by
  cases x with
  | error e => exact ⟨fun h => (by cases h), fun ⟨_, h, _⟩ => (by cases h)⟩
  | ok a => exact ⟨fun h => ⟨a, rfl, h⟩, fun ⟨_, h, hf⟩ => (by cases h; exact hf)⟩

end Lib
