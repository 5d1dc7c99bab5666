import Mathlib.Tactic

/-!
# Programs that make queries

A program ends with a result, fails, or makes a query and goes on with the answer.  Running it means to
answer the queries by computations on a state, which can fail; `queries` are those that a run makes, each
with the state in which it is made, up to the first that fails.  Two readings of one program, as a
computation and as the list of its queries, so that what a computation asks for can be spoken about.
-/

namespace Lib

/-- A program with the queries `Q`, whose answers are of the types `A`. -/
inductive Query (Q : Type) (A : Q → Type) (φ α : Type) where
  | done (a : α)
  | fail (f : φ)
  | ask (q : Q) (k : A q → Query Q A φ α)

namespace Query

variable {Q : Type} {A : Q → Type} {σ φ α β : Type}

/-- One program after the other. -/
def andThen (f : α → Query Q A φ β) : Query Q A φ α → Query Q A φ β
  | done a => f a
  | fail e => fail e
  | ask q k => ask q fun a => (k a).andThen f

instance : Monad (Query Q A φ) where
  pure := done
  bind p f := p.andThen f

/-- The query and its answer. -/
def query (q : Q) : Query Q A φ (A q) := ask q done

/-- What comes after a success, and nothing after a failure. -/
def onward {γ : Type} (f : α → σ → List γ) : Except φ (α × σ) → List γ
  | .ok (a, t) => f a t
  | .error _ => []

section Run

variable (answer : (q : Q) → StateT σ (Except φ) (A q))

/-- The program as a computation. -/
def run : Query Q A φ α → StateT σ (Except φ) α
  | done a => pure a
  | fail e => throw e
  | ask q k => answer q >>= fun a => (k a).run

/-- The queries of a run. -/
def queries : Query Q A φ α → σ → List (σ × Q)
  | done _, _ => []
  | fail _, _ => []
  | ask q k, s => (s, q) :: onward (fun a t => (k a).queries t) (answer q s)

@[simp] theorem run_pure (a : α) : (pure a : Query Q A φ α).run answer = pure a := rfl


@[simp] theorem run_query (q : Q) : (query q : Query Q A φ (A q)).run answer = answer q := bind_pure _

theorem run_ask (q : Q) (k : A q → Query Q A φ α) :
    (ask q k).run answer = answer q >>= fun a => (k a).run answer := rfl

@[simp] theorem run_bind (p : Query Q A φ α) (f : α → Query Q A φ β) :
    (p >>= f).run answer = p.run answer >>= fun a => (f a).run answer := by
  induction p with
  | done a => exact (pure_bind a fun a => (f a).run answer).symm
  | fail e => rfl
  | ask q k ih =>
    have hbind : (ask q k >>= f).run answer = answer q >>= fun a => (k a >>= f).run answer := rfl
    rw [hbind, run_ask, bind_assoc]
    exact congrArg _ (funext ih)

@[simp] theorem run_map (f : α → β) (p : Query Q A φ α) :
    (f <$> p).run answer = f <$> p.run answer := by
  have hmap : f <$> p = p >>= fun a => pure (f a) := rfl
  rw [hmap, run_bind, map_eq_pure_bind]
  rfl

theorem queries_ask (q : Q) (k : A q → Query Q A φ α) (s : σ) : (ask q k).queries answer s =
    (s, q) :: onward (fun a t => (k a).queries answer t) (answer q s) := rfl

theorem queries_bind (p : Query Q A φ α) (f : α → Query Q A φ β) (s : σ) :
    (p >>= f).queries answer s =
      p.queries answer s ++ onward (fun a t => (f a).queries answer t) (p.run answer s) := by
  induction p generalizing s with
  | done a => rfl
  | fail e => rfl
  | ask q k ih =>
    have hbind : ask q k >>= f = ask q fun a => k a >>= f := rfl
    have hrun : (ask q k).run answer s = answer q s >>= fun p => (k p.1).run answer p.2 := rfl
    rw [hbind, queries_ask, queries_ask, hrun, List.cons_append]
    rcases answer q s with e | ⟨a, t⟩
    · rfl
    · exact congrArg _ (ih a t)

end Run

end Query

end Lib
