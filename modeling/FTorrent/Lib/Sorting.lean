import Mathlib.Data.List.Sort
import Mathlib.Tactic

/-!
# Outcomes of an unstable sort and of a shuffle

A library call whose result is not determined by its arguments is modelled by the results it may
have: an unstable sort may return any sorted arrangement, a shuffle any arrangement.  A list that
every unstable sort leaves alone is one whose keys strictly increase (`reverseTies_sort_eq_iff`).
-/

namespace Lib

/-- A sort by keys that may order equal keys in any way. -/
structure UnstableSort (α : Type) where
  sort : (α → ℕ) → List α → List α
  perm : ∀ key l, (sort key l).Perm l
  sorted : ∀ key l, (sort key l).Pairwise fun a b => key a ≤ key b

/-- An arrangement of the entries of a list. -/
structure Shuffle (α : Type) where
  shuffle : List α → List α
  perm : ∀ l, (shuffle l).Perm l

/-- The shuffle that changes nothing. -/
def Shuffle.still (α : Type) : Shuffle α := ⟨id, fun _ => .refl _⟩

namespace UnstableSort

variable {α : Type}

/-- Strictly increasing keys leave no choice. -/
theorem sort_eq_self (s : UnstableSort α) {key : α → ℕ} {l : List α}
    (h : l.Pairwise fun a b => key a < key b) : s.sort key l = l := by
  have hanti : ∀ a b, a ∈ s.sort key l → b ∈ l → (a = b ∨ key a < key b) →
      (b = a ∨ key b < key a) → a = b := by
    rintro a b - - (hab | hab) (hba | hba)
    · exact hab
    · exact hab
    · exact hba.symm
    · omega
  have hinj : ∀ a ∈ s.sort key l, ∀ b ∈ s.sort key l, key a = key b → a = b := by
    intro a ha b hb hab
    have hne : (l.map key).Pairwise (· < ·) := List.pairwise_map.2 h
    have hnd : (l.map key).Nodup := hne.imp fun hlt => by omega
    exact List.inj_on_of_nodup_map hnd ((s.perm key l).mem_iff.1 ha) ((s.perm key l).mem_iff.1 hb) hab
  have hsorted : (s.sort key l).Pairwise fun a b => a = b ∨ key a < key b := by
    refine (s.sorted key l).imp_of_mem fun {a b} ha hb hle => ?_
    rcases Nat.lt_or_eq_of_le hle with hlt | heq
    · exact .inr hlt
    · exact .inl (hinj a ha b hb heq)
  exact List.Perm.eq_of_pairwise hanti hsorted (h.imp fun hlt => .inr hlt) (s.perm key l)

/-- The order in which `reverseTies` sorts: by key, and larger numbers first where keys are
equal. -/
def TieOrder (key : ℕ → ℕ) (a b : ℕ) : Prop := key a < key b ∨ key a = key b ∧ b ≤ a

instance (key : ℕ → ℕ) : DecidableRel (TieOrder key) := fun _ _ => inferInstanceAs (Decidable (_ ∨ _))

instance (key : ℕ → ℕ) : Std.Total (TieOrder key) := ⟨fun a b => by unfold TieOrder; omega⟩

instance (key : ℕ → ℕ) : IsTrans ℕ (TieOrder key) := ⟨fun a b c => by unfold TieOrder; omega⟩

/-- The sort that puts equal keys in decreasing order. -/
def reverseTies : UnstableSort ℕ where
  sort key l := l.insertionSort (TieOrder key)
  perm key l := List.perm_insertionSort _ l
  sorted key l := (List.pairwise_insertionSort (TieOrder key) l).imp fun h => by
    unfold TieOrder at h
    omega

/-- An increasing list stays as it is under `reverseTies` only if its keys strictly increase. -/
theorem reverseTies_sort_eq_iff {key : ℕ → ℕ} {l : List ℕ} (hl : l.Pairwise (· < ·)) :
    reverseTies.sort key l = l ↔ l.Pairwise fun a b => key a < key b := by
  constructor
  · intro h
    have hs : l.Pairwise (TieOrder key) := by
      have := List.pairwise_insertionSort (TieOrder key) l
      rwa [show l.insertionSort (TieOrder key) = l from h] at this
    refine (hl.and hs).imp fun ⟨hlt, ht⟩ => ?_
    unfold TieOrder at ht
    omega
  · exact sort_eq_self _

end UnstableSort

end Lib
