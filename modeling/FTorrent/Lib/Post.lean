import Mathlib.Tactic

/-!
# Postconditions of computations that can fail

`Post Q E x` says that `x` succeeds with a result that satisfies `Q` or fails with an error that
satisfies `E`.  Where the errors are states, as in a program that ends in the state in which it throws,
`E` is what holds of the state of such an end.
-/

namespace Lib

variable {φ α β : Type} {Q Q' : α → Prop} {E E' : φ → Prop} {x : Except φ α}

/-- A result satisfies `Q`, and an error satisfies `E`. -/
def Post (Q : α → Prop) (E : φ → Prop) : Except φ α → Prop
  | .ok a => Q a
  | .error e => E e

@[simp] theorem post_ok {a : α} : Post Q E (.ok a) ↔ Q a := Iff.rfl

@[simp] theorem post_error {e : φ} : Post Q E (.error e) ↔ E e := Iff.rfl

theorem Post.bind {R : β → Prop} {f : α → Except φ β} (h : Post Q E x)
    (hf : ∀ a, Q a → Post R E (f a)) : Post R E (x >>= f) := by
  cases x with
  | ok a => exact hf a h
  | error e => exact h

theorem Post.mono (h : Post Q E x) (hQ : ∀ a, Q a → Q' a) (hE : ∀ e, E e → E' e) :
    Post Q' E' x := by
  cases x with
  | ok a => exact hQ a h
  | error e => exact hE e h

end Lib
