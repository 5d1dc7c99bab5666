import Mathlib.Tactic

/-!
# Lists with one entry changed

How counts, images and membership change when one entry of a list is modified, set or replaced.
-/

namespace Lib

variable {α : Type}

/-- Modifying one entry moves a count by what the entry counted before and counts after. -/
theorem countP_modify (p : α → Bool) (f : α → α) {l : List α} {i : ℕ} {a : α}
    (h : l[i]? = some a) :
    (l.modify i f).countP p + (if p a then 1 else 0) = l.countP p + if p (f a) then 1 else 0 := by
  induction l generalizing i with
  | nil => simp at h
  | cons b l ih =>
    cases i with
    | zero =>
      obtain rfl : b = a := by simpa using h
      simp only [List.modify_zero_cons, List.countP_cons]
      omega
    | succ i =>
      have := ih (i := i) (by simpa using h)
      simp only [List.modify_succ_cons, List.countP_cons]
      omega

theorem getElem?_set_of_some {l : List α} {i j : ℕ} {a b : α} (h : l[i]? = some a) :
    (l.set i b)[j]? = if i = j then some b else l[j]? := by
  rw [List.getElem?_set]
  split_ifs with hij hlt
  · rfl
  · exact absurd (List.getElem?_eq_some_iff.1 h).1 hlt
  · rfl

/-- What holds of the elements of a list holds of them after one is set, if it holds of that one. -/
theorem forall_set {l : List α} {i : ℕ} {a b : α} {P : ℕ → α → Prop} (h : l[i]? = some a)
    (hb : P i a → P i b) (hl : ∀ (j : ℕ) (c : α), l[j]? = some c → P j c) (j : ℕ) (c : α)
    (hc : (l.set i b)[j]? = some c) : P j c := by
  rw [getElem?_set_of_some h] at hc
  split_ifs at hc with hi
  · obtain rfl := Option.some.inj hc
    rw [← hi]
    exact hb (hl i a h)
  · exact hl j c hc

/-- Setting an entry to one with the same image keeps the list of images. -/
theorem map_set_eq {β : Type} {f : α → β} {l : List α} {i : ℕ} {a b : α} (h : l[i]? = some a)
    (hab : f b = f a) : (l.set i b).map f = l.map f := by
  apply List.ext_getElem? fun j => ?_
  rw [List.getElem?_map, List.getElem?_map, getElem?_set_of_some h]
  split_ifs with hij
  · rw [← hij, h, Option.map_some, Option.map_some, hab]
  · rfl

/-- Letting one member of a list without repetitions count adds one unless it counted. -/
theorem countP_or_eq [DecidableEq α] {l : List α} (hl : l.Nodup) {a : α} (ha : a ∈ l) (f : α → Bool)
    (b : Bool) : l.countP (fun x => f x || (decide (a = x) && b)) =
      l.countP f + if b && !f a then 1 else 0 := by
  induction l with
  | nil => cases ha
  | cons x l ih =>
    rw [List.nodup_cons] at hl
    rw [List.countP_cons, List.countP_cons]
    by_cases hx : a = x
    · subst hx
      have hrest : l.countP (fun x => f x || (decide (a = x) && b)) = l.countP f := by
        apply List.countP_congr
        intro y hy
        have hne : a ≠ y := by
          rintro rfl
          exact hl.1 hy
        simp [hne]
      rw [hrest]
      cases hf : f a with
      | false => simp
      | true => simp
    · have hmem : a ∈ l := (List.mem_cons.1 ha).resolve_left hx
      rw [ih hl.2 hmem]
      simp only [hx, decide_false, Bool.false_and, Bool.or_false]
      omega

section Erase

variable [BEq α] [LawfulBEq α]

/-- Erasing a member takes what it counted. -/
theorem countP_erase_add (p : α → Bool) {l : List α} {a : α} (h : a ∈ l) :
    (l.erase a).countP p + (if p a then 1 else 0) = l.countP p := by
  have := (List.perm_cons_erase h).countP_eq p
  rw [this, List.countP_cons]

/-- Replacing a member by one that counts the same changes no count. -/
theorem countP_replace {p : α → Bool} {l : List α} {a b : α} (h : a ∈ l) (hab : p b = p a) :
    (b :: l.erase a).countP p = l.countP p := by
  rw [List.countP_cons, hab, countP_erase_add p h]

/-- Where images are pairwise different, erasing a member leaves none with its image. -/
theorem ne_of_mem_erase {β : Type} {f : α → β} {l : List α} {a b : α} (h : (l.map f).Nodup)
    (ha : a ∈ l) (hb : b ∈ l.erase a) : f b ≠ f a := by
  have hnd := ((List.perm_cons_erase ha).map f).nodup_iff.1 h
  rw [List.map_cons, List.nodup_cons] at hnd
  intro heq
  exact hnd.1 (heq ▸ List.mem_map_of_mem hb)

omit [LawfulBEq α] in
theorem forall_mem_replace {P : α → Prop} {l : List α} {a b : α} (h : ∀ x ∈ l, P x) (hb : P b) :
    ∀ x ∈ b :: l.erase a, P x := by
  intro x hx
  rcases List.mem_cons.1 hx with rfl | hx
  · exact hb
  · exact h x (List.mem_of_mem_erase hx)

end Erase

end Lib
