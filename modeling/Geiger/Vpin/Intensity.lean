import Geiger.Library.OrderStatistic
import Geiger.Library.SlidingWindow
import Geiger.Vpin.Bucket
import Mathlib.Algebra.Field.Rat
import Mathlib.Algebra.Order.Ring.Rat
import Mathlib.Data.UInt

/-!
# Ranks within an intensity cohort

The window is split at its upper median.  The busy cohort always holds the median; the
quiet one is empty as soon as more than half of the window is at the minimum.
-/

namespace Geiger

def medianU32 (values : List UInt32) (hne : values ≠ []) : UInt32 :=
  OrderStatistic.orderStatistic values (values.length / 2)
    (Nat.div_lt_self (List.length_pos_iff.mpr hne) Nat.one_lt_two)

/-- At most half of the entries are minimal. -/
def MinimumInMinority (intensities : List UInt32) : Prop :=
  ∀ m ∈ intensities, (∀ t ∈ intensities, m ≤ t) →
    intensities.count m ≤ intensities.length / 2

theorem medianU32_mem (values : List UInt32) (hne : values ≠ []) :
    medianU32 values hne ∈ values :=
  OrderStatistic.orderStatistic_mem (Nat.div_lt_self (List.length_pos_iff.mpr hne) Nat.one_lt_two)

theorem exists_lt_medianU32_iff (values : List UInt32) (hne : values ≠ []) :
    (∃ t ∈ values, ¬ medianU32 values hne ≤ t) ↔ MinimumInMinority values :=
  OrderStatistic.exists_lt_orderStatistic_iff
    (Nat.div_lt_self (List.length_pos_iff.mpr hne) Nat.one_lt_two)

structure IntensityAdjustedCdf (K : Type*) where
  window : ℕ
  four_le_window : 4 ≤ window
  history : List (K × UInt32)
  length_history_le : history.length ≤ window

namespace IntensityAdjustedCdf

variable {K : Type}

def new (window : ℕ) : Except (VpinError K) (IntensityAdjustedCdf K) :=
  if h : window < 4 then .error (.invalidWindow window 4)
  else .ok {
    window
    four_le_window := not_lt.mp h
    history := []
    length_history_le := Nat.zero_le _ }

theorem new_eq_ok {window : ℕ} {c : IntensityAdjustedCdf K} (h : new window = .ok c) :
    c.window = window ∧ c.history = [] := by
  unfold new at h
  split at h
  · cases h
  · cases h
    exact ⟨rfl, rfl⟩

def medianIntensity (history : List (K × UInt32)) (hne : history ≠ []) : UInt32 :=
  medianU32 (history.map Prod.snd) (by simpa using hne)

def cohort (history : List (K × UInt32)) (median : UInt32) (busy : Bool) : List K :=
  (history.filter fun p ↦ decide (median ≤ p.2) = busy).map Prod.fst

section Push

variable [Field K] [LinearOrder K]

def rank (history : List (K × UInt32)) (hne : history ≠ []) (vpin : K)
    (tradesInBucket : UInt32) : K :=
  let median := medianIntensity history hne
  let thisCohortIsBusy := decide (median ≤ tradesInBucket)
  let cohort := cohort history median thisCohortIsBusy
  let leCount := (cohort.filter fun v ↦ v ≤ vpin).length
  (leCount : K) / (cohort.length : K)

/-- The history once the oldest entry of a full window is gone and the new one is in. -/
def pushed (c : IntensityAdjustedCdf K) (vpin : K) (tradesInBucket : UInt32) :
    List (K × UInt32) :=
  SlidingWindow.push c.window c.history (vpin, tradesInBucket)

omit [Field K] [LinearOrder K] in
theorem pushed_ne_nil (c : IntensityAdjustedCdf K) (vpin : K) (tradesInBucket : UInt32) :
    c.pushed vpin tradesInBucket ≠ [] :=
  List.ne_nil_of_mem (SlidingWindow.self_mem_push _ _ _)

def push (c : IntensityAdjustedCdf K) (vpin : K) (tradesInBucket : UInt32) :
    Option K × IntensityAdjustedCdf K :=
  let history := c.pushed vpin tradesInBucket
  (if history.length < c.window then none
    else some (rank history (c.pushed_ne_nil vpin tradesInBucket) vpin tradesInBucket),
    { c with
      history
      length_history_le :=
        SlidingWindow.length_push_le _ ((by decide : 1 ≤ 4).trans c.four_le_window)
          c.length_history_le })

def pushAll (c : IntensityAdjustedCdf K) : List (K × UInt32) → IntensityAdjustedCdf K
  | [] => c
  | p :: pushes => pushAll (c.push p.1 p.2).2 pushes

theorem window_pushAll (c : IntensityAdjustedCdf K) (pushes : List (K × UInt32)) :
    (c.pushAll pushes).window = c.window := by
  induction pushes generalizing c with
  | nil => rfl
  | cons p pushes ih => exact ih (c.push p.1 p.2).2

theorem history_pushAll (c : IntensityAdjustedCdf K) {before : List (K × UInt32)}
    (hbefore : c.history = before.rtake c.window) (pushes : List (K × UInt32)) :
    (c.pushAll pushes).history = (before ++ pushes).rtake c.window := by
  induction pushes generalizing c before with
  | nil => simpa [pushAll] using hbefore
  | cons p pushes ih =>
      have hstep : (c.push p.1 p.2).2.history = (before ++ [p]).rtake c.window := by
        rw [← SlidingWindow.push_rtake ((by decide : 1 ≤ 4).trans c.four_le_window), ← hbefore]
        rfl
      have hrun := ih (c.push p.1 p.2).2 hstep
      rwa [List.append_assoc] at hrun

theorem history_pushAll_new {window : ℕ} {c : IntensityAdjustedCdf K} (h : new window = .ok c)
    (pushes : List (K × UInt32)) : (c.pushAll pushes).history = pushes.rtake window := by
  obtain ⟨rfl, hhistory⟩ := new_eq_ok h
  have hstart : c.history = ([] : List (K × UInt32)).rtake c.window := by
    simp [hhistory, List.rtake]
  exact history_pushAll c hstart pushes

end Push

/-! ## Where the split collapses -/

variable [Field K] [LinearOrder K]

/-- Both cohorts hold something, so the one that the reading is ranked in is not the whole
window. -/
structure Splits (c : IntensityAdjustedCdf K) (vpin : K) (tradesInBucket : UInt32) : Prop where
  busy : cohort (c.pushed vpin tradesInBucket)
    (medianIntensity _ (c.pushed_ne_nil vpin tradesInBucket)) true ≠ []
  quiet : cohort (c.pushed vpin tradesInBucket)
    (medianIntensity _ (c.pushed_ne_nil vpin tradesInBucket)) false ≠ []
  apart : (cohort (c.pushed vpin tradesInBucket)
    (medianIntensity _ (c.pushed_ne_nil vpin tradesInBucket))
    (medianIntensity _ (c.pushed_ne_nil vpin tradesInBucket) ≤ tradesInBucket)).length <
      (c.pushed vpin tradesInBucket).length

def Varied (intensities : List UInt32) : Prop :=
  ∃ t ∈ intensities, ∃ u ∈ intensities, t ≠ u

omit [Field K] [LinearOrder K] in
theorem cohort_ne_nil_iff {history : List (K × UInt32)} {median : UInt32} {busy : Bool} :
    cohort history median busy ≠ [] ↔ ∃ p ∈ history, decide (median ≤ p.2) = busy := by
  simp [cohort, List.filter_eq_nil_iff]

omit [Field K] [LinearOrder K] in
theorem busy_ne_nil (history : List (K × UInt32)) (hne : history ≠ []) :
    cohort history (medianIntensity history hne) true ≠ [] := by
  have hmem : medianIntensity history hne ∈ history.map Prod.snd := medianU32_mem _ _
  obtain ⟨p, hp, hmedian⟩ := List.mem_map.mp hmem
  exact cohort_ne_nil_iff.mpr ⟨p, hp, decide_eq_true (hmedian ▸ UInt32.le_refl _)⟩

omit [Field K] [LinearOrder K] in
theorem quiet_ne_nil_iff (history : List (K × UInt32)) (hne : history ≠ []) :
    cohort history (medianIntensity history hne) false ≠ [] ↔
      MinimumInMinority (history.map Prod.snd) := by
  rw [cohort_ne_nil_iff, ← exists_lt_medianU32_iff _ (by simpa using hne)]
  simp only [decide_eq_false_iff_not, List.mem_map, exists_exists_and_eq_and]
  rfl

omit [Field K] [LinearOrder K] in
/-- A cohort is smaller than the window when the other one holds something. -/
theorem length_cohort_lt {history : List (K × UInt32)} {median : UInt32} {busy : Bool}
    (hother : cohort history median (!busy) ≠ []) :
    (cohort history median busy).length < history.length := by
  obtain ⟨p, hp, hbusy⟩ := cohort_ne_nil_iff.mp hother
  rw [cohort, List.length_map, List.length_filter_lt_length_iff_exists]
  exact ⟨p, hp, by simp [hbusy]⟩

omit [Field K] [LinearOrder K] in
theorem splits_iff_quiet {c : IntensityAdjustedCdf K} {vpin : K} {tradesInBucket : UInt32} :
    Splits c vpin tradesInBucket ↔
      MinimumInMinority ((c.pushed vpin tradesInBucket).map Prod.snd) := by
  have hne := c.pushed_ne_nil vpin tradesInBucket
  rw [← quiet_ne_nil_iff _ hne]
  constructor
  · exact Splits.quiet
  · intro hquiet
    have hbusy := busy_ne_nil _ hne
    refine ⟨hbusy, hquiet, length_cohort_lt ?_⟩
    cases decide (medianIntensity _ hne ≤ tradesInBucket) with
    | false => exact hbusy
    | true => exact hquiet

theorem pushed_pushAll_new {window : ℕ} {c : IntensityAdjustedCdf K} (h : new window = .ok c)
    (pushes : List (K × UInt32)) (vpin : K) (tradesInBucket : UInt32) :
    (c.pushAll pushes).pushed vpin tradesInBucket =
      (pushes ++ [(vpin, tradesInBucket)]).rtake window := by
  obtain ⟨rfl, -⟩ := new_eq_ok h
  rw [pushed, history_pushAll_new h, window_pushAll]
  exact SlidingWindow.push_rtake ((by decide : 1 ≤ 4).trans c.four_le_window) pushes _

/-- In a full window with two different intensities, the split leaves no cohort empty
exactly when the minimum does not fill more than half of it. -/
theorem splits_iff (window : ℕ) (c : IntensityAdjustedCdf K) (hnew : new window = .ok c)
    (pushes : List (K × UInt32)) (vpin : K) (tradesInBucket : UInt32)
    (hfull : window ≤ (pushes ++ [(vpin, tradesInBucket)]).length) :
    let last := ((pushes ++ [(vpin, tradesInBucket)]).rtake window).map Prod.snd
    last.length = window ∧
      ((Varied last → Splits (c.pushAll pushes) vpin tradesInBucket) ↔
        (Varied last → MinimumInMinority last)) := by
  intro last
  constructor
  · simpa [last] using hfull
  · rw [splits_iff_quiet, pushed_pushAll_new hnew]

theorem splits_iff_balanced : ∃ c : IntensityAdjustedCdf ℚ, new 4 = .ok c ∧
    ((Varied [5, 200, 5, 200] → Splits (c.pushAll [(0, 5), (1, 200), (0, 5)]) 1 200) ↔
      (Varied [5, 200, 5, 200] → MinimumInMinority [5, 200, 5, 200])) := by
  obtain ⟨c, hnew⟩ : ∃ c : IntensityAdjustedCdf ℚ, new 4 = .ok c := ⟨_, rfl⟩
  exact ⟨c, hnew, (splits_iff 4 c hnew [(0, 5), (1, 200), (0, 5)] 1 200 (by decide)).2⟩

/-- Three quiet buckets and a busy one: the busy one is ranked in the whole window. -/
theorem three_quiet_not_split : ∃ c : IntensityAdjustedCdf ℚ, new 4 = .ok c ∧
    Varied [5, 5, 5, 200] ∧ ¬ Splits (c.pushAll [(0, 5), (0, 5), (0, 5)]) 1 200 := by
  obtain ⟨c, hnew⟩ : ∃ c : IntensityAdjustedCdf ℚ, new 4 = .ok c := ⟨_, rfl⟩
  refine ⟨c, hnew, ⟨5, by decide, 200, by decide, by decide⟩, ?_⟩
  have hlast : (([(0, 5), (0, 5), (0, 5)] ++ [(1, 200)] : List (ℚ × UInt32)).rtake 4).map Prod.snd =
      [5, 5, 5, 200] := rfl
  rw [splits_iff_quiet, pushed_pushAll_new hnew, hlast]
  intro hminority
  have hhalf := hminority 5 (by decide) (by simp)
  revert hhalf
  decide

end IntensityAdjustedCdf

end Geiger
