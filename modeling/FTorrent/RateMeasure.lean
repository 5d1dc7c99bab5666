import FTorrent.Lib.Mean
import FTorrent.Lib.Run

/-!
# The measured rate

`RateMeasure` with exact numbers for the times in seconds and the rate.  An update makes the rate the
mean of what it was, over the window up to the last update, and the rate since then.  So it stays between
the rates of the single updates, is exact until the window slides, and never accounts for more than was
transferred (`rate_average`).
-/

namespace FTorrent

open Lib

/-- `RateMeasure`. -/
structure RateMeasure where
  rateSince : ℚ
  last : ℚ
  maxRatePeriod : ℚ
  rate : ℚ := 0
  deriving DecidableEq

namespace RateMeasure

/-- The constructor, called at the time `now`. -/
def create (ratePeriod now : ℚ) : RateMeasure where
  rateSince := now
  last := now
  maxRatePeriod := ratePeriod

/-- `update`, called at the time `t`. -/
def update (m : RateMeasure) (t : ℚ) (amount : ℕ) : RateMeasure :=
  let prevAmount := (m.last - m.rateSince) * m.rate
  let m := { m with rate := (prevAmount + amount) / (t - m.rateSince), last := t }
  if m.rateSince < t - m.maxRatePeriod then
    let newRateSince := t - m.maxRatePeriod
    let offset := newRateSince - m.rateSince
    { m with rateSince := m.rateSince + offset }
  else m

/-- An update at a later time than the last. -/
def Updates (m : RateMeasure) (u : ℚ × ℕ) (m' : RateMeasure) : Prop :=
  m.last < u.1 ∧ m' = m.update u.1 u.2

/-! ### What was transferred -/

/-- The time of the last update, or `t₀`. -/
def lastTime (t₀ : ℚ) : List (ℚ × ℕ) → ℚ
  | [] => t₀
  | (t, _) :: us => lastTime t us

/-- The rate of each update since the one before it. -/
def singleRates (t₀ : ℚ) : List (ℚ × ℕ) → List ℚ
  | [] => []
  | (t, amount) :: us => amount / (t - t₀) :: singleRates t us

/-- The amounts of all updates. -/
def transferred (us : List (ℚ × ℕ)) : ℕ := (us.map Prod.snd).sum

theorem lastTime_snoc (t₀ : ℚ) (us : List (ℚ × ℕ)) (u : ℚ × ℕ) : lastTime t₀ (us ++ [u]) = u.1 := by
  induction us generalizing t₀ with
  | nil => rfl
  | cons v us ih => exact ih v.1

theorem singleRates_snoc (t₀ : ℚ) (us : List (ℚ × ℕ)) (u : ℚ × ℕ) :
    singleRates t₀ (us ++ [u]) = singleRates t₀ us ++ [u.2 / (u.1 - lastTime t₀ us)] := by
  induction us generalizing t₀ with
  | nil => rfl
  | cons v us ih => exact congrArg (_ :: ·) (ih v.1)

theorem transferred_snoc (us : List (ℚ × ℕ)) (u : ℚ × ℕ) :
    (transferred (us ++ [u]) : ℚ) = transferred us + u.2 := by
  simp [transferred]

/-! ### One update -/

section Update

variable (m : RateMeasure) (t : ℚ) (amount : ℕ)

@[simp] theorem update_last : (m.update t amount).last = t := by
  unfold update
  dsimp only
  split_ifs <;> rfl

@[simp] theorem update_maxRatePeriod : (m.update t amount).maxRatePeriod = m.maxRatePeriod := by
  unfold update
  dsimp only
  split_ifs <;> rfl

/-- The window slides to have at most the length of the period. -/
theorem update_rateSince : (m.update t amount).rateSince = max m.rateSince (t - m.maxRatePeriod) := by
  unfold update
  dsimp only
  split_ifs with h
  · rw [max_eq_right h.le]
    exact add_sub_cancel _ _
  · rw [max_eq_left (not_lt.1 h)]

theorem update_rate :
    (m.update t amount).rate = ((m.last - m.rateSince) * m.rate + amount) / (t - m.rateSince) := by
  unfold update
  dsimp only
  split_ifs <;> rfl

variable {m t} in
/-- The new rate is the mean of the old one and that of the update. -/
theorem update_rate_eq_weightedMean (ht : m.last < t) : (m.update t amount).rate =
    weightedMean (m.last - m.rateSince) (t - m.last) m.rate (amount / (t - m.last)) := by
  have hpos : t - m.last ≠ 0 := (sub_pos.2 ht).ne'
  rw [update_rate, weightedMean, mul_div_cancel₀ _ hpos, sub_add_sub_cancel']

end Update

/-! ### Runs -/

/-- What holds after the updates `us`, of a meter made at the time `t₀`. -/
structure Averages (period t₀ : ℚ) (us : List (ℚ × ℕ)) (m : RateMeasure) : Prop where
  maxRatePeriod : m.maxRatePeriod = period
  last : m.last = lastTime t₀ us
  started : t₀ ≤ m.last
  window : m.rateSince ≤ m.last
  fresh : us = [] → m.rateSince = m.last
  nonneg : 0 ≤ m.rate
  between : us ≠ [] → ∃ lo ∈ singleRates t₀ us, ∃ hi ∈ singleRates t₀ us, lo ≤ m.rate ∧ m.rate ≤ hi
  exact : m.last - t₀ ≤ period → m.rateSince = t₀ ∧ m.rate * (m.last - t₀) = transferred us
  most : m.rate * (m.last - m.rateSince) ≤ transferred us

namespace Averages

variable {period t₀ t : ℚ} {us : List (ℚ × ℕ)} {m : RateMeasure}

theorem create (period t₀ : ℚ) : Averages period t₀ [] (create period t₀) :=
  ⟨rfl, rfl, le_rfl, le_rfl, fun _ => rfl, le_rfl, fun h => absurd rfl h,
    fun _ => ⟨rfl, by simp [RateMeasure.create, transferred]⟩,
    by simp [RateMeasure.create, transferred]⟩

/-- The new rate lies between the rates of single updates. -/
theorem between_update (h : Averages period t₀ us m) (ht : m.last < t) (amount : ℕ) :
    ∃ lo ∈ singleRates t₀ (us ++ [(t, amount)]), ∃ hi ∈ singleRates t₀ (us ++ [(t, amount)]),
      lo ≤ (m.update t amount).rate ∧ (m.update t amount).rate ≤ hi := by
  have hw : 0 < t - m.last := sub_pos.2 ht
  have hv : 0 ≤ m.last - m.rateSince := sub_nonneg.2 h.window
  rw [update_rate_eq_weightedMean amount ht, singleRates_snoc, ← h.last]
  by_cases hus : us = []
  · -- the first update decides alone
    rw [h.fresh hus, sub_self, weightedMean_zero hw]
    have hmem := List.mem_append_right (singleRates t₀ us)
      (List.mem_singleton_self ((amount : ℚ) / (t - m.last)))
    exact ⟨_, hmem, _, hmem, le_rfl, le_rfl⟩
  · obtain ⟨lo, hlo, hi, hhi, hle, hge⟩ := h.between hus
    refine ⟨min lo (amount / (t - m.last)), ?_, max hi (amount / (t - m.last)), ?_, ?_, ?_⟩
    · rcases min_choice lo ((amount : ℚ) / (t - m.last)) with heq | heq <;> simp [heq, hlo]
    · rcases max_choice hi ((amount : ℚ) / (t - m.last)) with heq | heq <;> simp [heq, hhi]
    · exact le_weightedMean hv hw ((min_le_left _ _).trans hle) (min_le_right _ _)
    · exact weightedMean_le hv hw (hge.trans (le_max_left _ _)) (le_max_right _ _)

theorem update (h : Averages period t₀ us m) (hperiod : 0 < period) (ht : m.last < t) (amount : ℕ) :
    Averages period t₀ (us ++ [(t, amount)]) (m.update t amount) := by
  have hlen : 0 < t - m.rateSince := by linarith [h.window]
  have hamount : (0 : ℚ) ≤ amount := Nat.cast_nonneg amount
  have hprev : 0 ≤ (m.last - m.rateSince) * m.rate :=
    mul_nonneg (sub_nonneg.2 h.window) h.nonneg
  -- what the new rate accounts for in the window before it slides
  have hmass : (m.update t amount).rate * (t - m.rateSince) =
      (m.last - m.rateSince) * m.rate + amount := by
    rw [update_rate, div_mul_cancel₀ _ hlen.ne']
  have hnonneg : 0 ≤ (m.update t amount).rate := by
    rw [update_rate]
    exact div_nonneg (add_nonneg hprev hamount) hlen.le
  refine ⟨?_, ?_, ?_, ?_, fun hnil => ?_, hnonneg, fun _ => h.between_update ht amount, ?_, ?_⟩
  · rw [update_maxRatePeriod, h.maxRatePeriod]
  · rw [update_last, lastTime_snoc]
  · rw [update_last]
    exact h.started.trans ht.le
  · rw [update_rateSince, update_last, h.maxRatePeriod]
    exact max_le (h.window.trans ht.le) (by linarith)
  · simp at hnil
  · rw [update_last]
    intro hearly
    obtain ⟨hsince, hexact⟩ := h.exact (by linarith)
    refine ⟨?_, ?_⟩
    · rw [update_rateSince, hsince, h.maxRatePeriod]
      exact max_eq_left (by linarith)
    · rw [hsince] at hmass
      rw [hmass, transferred_snoc, ← hexact, mul_comm]
  · have hslide : t - (m.update t amount).rateSince ≤ t - m.rateSince := by
      rw [update_rateSince]
      exact sub_le_sub_left (le_max_left _ _) t
    rw [update_last, transferred_snoc]
    calc (m.update t amount).rate * (t - (m.update t amount).rateSince)
        ≤ (m.update t amount).rate * (t - m.rateSince) := mul_le_mul_of_nonneg_left hslide hnonneg
      _ = (m.last - m.rateSince) * m.rate + amount := hmass
      _ ≤ transferred us + amount := by linarith [h.most, mul_comm m.rate (m.last - m.rateSince)]

end Averages

/-- After every update the rate lies between those of single updates; until the period is over it accounts
for exactly what was transferred; and over the window it never accounts for more. -/
theorem rate_average {period t₀ : ℚ} (hperiod : 0 < period) {us : List (ℚ × ℕ)} {m : RateMeasure}
    (hr : Run Updates (create period t₀) us m) :
    (us ≠ [] → ∃ lo ∈ singleRates t₀ us, ∃ hi ∈ singleRates t₀ us, lo ≤ m.rate ∧ m.rate ≤ hi) ∧
      (lastTime t₀ us - t₀ ≤ period → m.rate * (lastTime t₀ us - t₀) = transferred us) ∧
      m.rate * (m.last - m.rateSince) ≤ transferred us := by
  have h : Averages period t₀ us m := by
    induction hr using Run.snoc_induction with
    | nil => exact .create period t₀
    | snoc us m u m' _ hs ih =>
      obtain ⟨ht, rfl⟩ := hs
      exact ih.update hperiod ht u.2
  rw [← h.last]
  exact ⟨h.between, fun hearly => (h.exact hearly).2, h.most⟩

/-- Two updates within the period and one after it. -/
def threeUpdates : List (ℚ × ℕ) := [(1, 100), (3, 20), (30, 40)]

theorem rate_average_threeUpdates : ∃ m, Run Updates (create 20 0) threeUpdates m ∧
    (∃ lo ∈ singleRates 0 threeUpdates, ∃ hi ∈ singleRates 0 threeUpdates,
      lo ≤ m.rate ∧ m.rate ≤ hi) ∧ m.rate * (m.last - m.rateSince) ≤ 160 := by
  have hr : Run Updates (create 20 0) threeUpdates
      ((((create 20 0).update 1 100).update 3 20).update 30 40) :=
    .cons ⟨by decide, rfl⟩ <| .cons ⟨by norm_num, rfl⟩ <| .single ⟨by norm_num, rfl⟩
  obtain ⟨hbetween, -, hmost⟩ := rate_average (by decide) hr
  exact ⟨_, hr, hbetween (by decide), hmost⟩

end RateMeasure

end FTorrent
