import Mathlib.Tactic

/-!
# Maps as sorted lists

A map whose keys are ordered is the list of its entries in the order of the keys.  `emplace` adds an entry
if the key is new, and `bracket` looks a key up, after adding it with a default value if it is new.
-/

namespace Lib

variable {κ α : Type} [LT κ]

/-- The keys ascend. -/
def SortedKeys (m : List (κ × α)) : Prop := m.Pairwise fun x y => x.1 < y.1

instance [DecidableLT κ] (m : List (κ × α)) : Decidable (SortedKeys m) :=
  inferInstanceAs (Decidable (m.Pairwise _))

/-- A sorted map has one entry for a key. -/
theorem lookup_append [BEq κ] [LawfulBEq κ] [Std.Asymm (α := κ) (· < ·)] {k : κ} {a : α}
    {pre post : List (κ × α)} (h : SortedKeys (pre ++ (k, a) :: post)) :
    (pre ++ (k, a) :: post).lookup k = some a := by
  refine List.lookup_eq_some_iff.2 ⟨pre, post, rfl, fun x hx => ?_⟩
  simpa using ne_of_irrefl' ((List.pairwise_append.1 h).2.2 x hx _ List.mem_cons_self)

variable [BEq κ] [DecidableLT κ]

/-- The entry in its place, if its key is new. -/
def emplace (k : κ) (a : α) : List (κ × α) → Option (List (κ × α))
  | [] => some [(k, a)]
  | (k', a') :: m =>
    if k == k' then none
    else if k < k' then some ((k, a) :: (k', a') :: m)
    else (emplace k a m).map ((k', a') :: ·)

/-- The value of the key, and the map in which it has one. -/
def bracket [Inhabited α] (k : κ) (m : List (κ × α)) : List (κ × α) × α :=
  match m.lookup k with
  | some a => (m, a)
  | none => ((emplace k default m).getD m, default)

theorem perm_emplace {k : κ} {a : α} {m m' : List (κ × α)} (h : emplace k a m = some m') :
    m'.Perm ((k, a) :: m) := by
  induction m generalizing m' with
  | nil =>
    cases h
    exact .refl _
  | cons x m ih =>
    unfold emplace at h
    split_ifs at h with heq hlt
    · cases h
      exact .refl _
    · obtain ⟨m₁, hm, rfl⟩ := Option.map_eq_some_iff.1 h
      exact ((ih hm).cons x).trans (.swap ..)

theorem bracket_of_some [Inhabited α] {k : κ} {a : α} {m : List (κ × α)} (h : m.lookup k = some a) :
    bracket k m = (m, a) := by
  rw [bracket, h]

variable [LawfulBEq κ] {k : κ} {m : List (κ × α)}

theorem exists_emplace (hk : ∀ x ∈ m, k ≠ x.1) (a : α) : ∃ m', emplace k a m = some m' := by
  induction m with
  | nil => exact ⟨_, rfl⟩
  | cons x m ih =>
    obtain ⟨hx, hm⟩ := List.forall_mem_cons.1 hk
    obtain ⟨m', hm'⟩ := ih hm
    unfold emplace
    rw [if_neg (by simpa using hx), hm']
    split_ifs
    · exact ⟨_, rfl⟩
    · exact ⟨_, rfl⟩

/-- A key that is new is added. -/
theorem bracket_of_none [Inhabited α] (h : m.lookup k = none) :
    (bracket k m).1.Perm ((k, default) :: m) ∧ (bracket k m).2 = default := by
  have hk : ∀ x ∈ m, k ≠ x.1 := by
    intro x hx
    simpa using List.lookup_eq_none_iff.1 h x hx
  obtain ⟨m', hm'⟩ := exists_emplace hk (default : α)
  rw [bracket, h, hm']
  exact ⟨perm_emplace hm', rfl⟩

/-- Adding a key leaves the values of the others. -/
theorem lookup_emplace_ne {k' : κ} {a : α} {m' : List (κ × α)} (hne : k' ≠ k)
    (h : emplace k a m = some m') : m'.lookup k' = m.lookup k' := by
  have hbeq : (k' == k) = false := by simpa using hne
  induction m generalizing m' with
  | nil =>
    cases h
    rw [List.lookup_cons, hbeq]
  | cons x m ih =>
    unfold emplace at h
    split_ifs at h with heq hlt
    · cases h
      rw [List.lookup_cons, hbeq]
    · obtain ⟨m₁, hm₁, rfl⟩ := Option.map_eq_some_iff.1 h
      rw [List.lookup_cons, List.lookup_cons, ih hm₁]

variable [Std.Asymm (α := κ) (· < ·)]

/-- An entry with a key after all others comes last. -/
theorem emplace_last (hk : ∀ x ∈ m, x.1 < k) (a : α) : emplace k a m = some (m ++ [(k, a)]) := by
  induction m with
  | nil => rfl
  | cons x m ih =>
    obtain ⟨hx, hm⟩ := List.forall_mem_cons.1 hk
    have hnot : ¬ k < x.1 := Std.Asymm.asymm _ _ hx
    rw [emplace, if_neg (by simpa using ne_of_irrefl' hx), if_neg hnot, ih hm]
    rfl

/-! ### Adding entries in any order -/

omit [BEq κ] [DecidableLT κ] [LawfulBEq κ] in
/-- The order of the keys leaves one way to list the entries. -/
theorem SortedKeys.eq_of_perm {m m' : List (κ × α)} (h : SortedKeys m) (h' : SortedKeys m')
    (hperm : m.Perm m') : m = m' :=
  hperm.eq_of_pairwise (fun _ _ _ _ hxy hyx => absurd hyx (Std.Asymm.asymm _ _ hxy)) h h'

omit [BEq κ] [DecidableLT κ] [LawfulBEq κ] in
/-- Where the map stays sorted, what is added is new. -/
theorem SortedKeys.ne_of_perm {a : α} {m m' : List (κ × α)} (h : SortedKeys m')
    (hperm : m'.Perm ((k, a) :: m)) : ∀ x ∈ m, k ≠ x.1 := by
  have hne : m'.Pairwise fun x y => x.1 ≠ y.1 :=
    h.imp fun {x y} hlt => ne_of_irrefl (x := x.1) (y := y.1) hlt
  exact (List.pairwise_cons.1 (hne.perm hperm fun hne => hne.symm)).1

omit [Std.Asymm (α := κ) (· < ·)] in
/-- The map stays sorted. -/
theorem sortedKeys_emplace [Std.Trichotomous (α := κ) (· < ·)] [IsTrans κ (· < ·)] {a : α}
    {m' : List (κ × α)} (hm : SortedKeys m) (h : emplace k a m = some m') : SortedKeys m' := by
  induction m generalizing m' with
  | nil =>
    cases h
    exact List.pairwise_singleton _ _
  | cons x m ih =>
    obtain ⟨hx, hm'⟩ := List.pairwise_cons.1 hm
    unfold emplace at h
    split_ifs at h with heq hlt
    · cases h
      refine List.pairwise_cons.2 ⟨List.forall_mem_cons.2 ⟨hlt, fun y hy => ?_⟩, hm⟩
      exact IsTrans.trans _ _ _ hlt (hx y hy)
    · obtain ⟨m₁, hm₁, rfl⟩ := Option.map_eq_some_iff.1 h
      refine List.pairwise_cons.2 ⟨fun y hy => ?_, ih hm' hm₁⟩
      rcases List.mem_cons.1 ((perm_emplace hm₁).subset hy) with rfl | hy
      · by_contra hnot
        exact absurd (Std.Trichotomous.trichotomous k x.1 hlt hnot) (by simpa using heq)
      · exact hx y hy

/-- An entry is added exactly if there is a sorted map with it. -/
theorem emplace_eq_some [Std.Trichotomous (α := κ) (· < ·)] [IsTrans κ (· < ·)] {a : α}
    {m' : List (κ × α)} (hm : SortedKeys m) :
    emplace k a m = some m' ↔ SortedKeys m' ∧ m'.Perm ((k, a) :: m) := by
  constructor
  · exact fun h => ⟨sortedKeys_emplace hm h, perm_emplace h⟩
  · rintro ⟨hsorted, hperm⟩
    obtain ⟨m₁, hm₁⟩ := exists_emplace (hsorted.ne_of_perm hperm) a
    rw [hm₁, (sortedKeys_emplace hm hm₁).eq_of_perm hsorted ((perm_emplace hm₁).trans hperm.symm)]

end Lib
