import Geiger.Vpin.Intensity
import Geiger.Vpin.Window
import Mathlib.Data.List.Forall2

/-!
# What a cohort rank depends on

A rank is a fraction of the latest reading's own cohort.  It does not see the VPIN
values of the other cohort, and with one intensity throughout it is the rank of
the empirical distribution.
-/

namespace Geiger

variable {K : Type} [Field K] [LinearOrder K]

/-- The results of a run of pushes, in order. -/
def IntensityAdjustedCdf.ranks (c : IntensityAdjustedCdf K) :
    List (K × UInt32) → List (Option K)
  | [] => []
  | p :: pushes => (c.push p.1 p.2).1 :: (c.push p.1 p.2).2.ranks pushes

def EmpiricalCdf.ranks (e : EmpiricalCdf K) : List K → List (Option K)
  | [] => []
  | v :: values => (e.push v).1 :: (e.push v).2.ranks values

namespace IntensityAdjustedCdf

/-- The latest reading's own cohort in the window it has just been pushed into. -/
def ownCohort (history : List (K × UInt32)) (hne : history ≠ []) (tradesInBucket : UInt32) :
    List K :=
  cohort history (medianIntensity history hne) (medianIntensity history hne ≤ tradesInBucket)

/-- Equal intensities, and equal VPIN values unless both entries are in the cohort
opposite to a reading of intensity `t`. -/
def AgreesFor (median t : UInt32) (p q : K × UInt32) : Prop :=
  p.2 = q.2 ∧ ((median ≤ p.2 ↔ median ≤ t) → p.1 = q.1)

section Cohort

variable {history history' : List (K × UInt32)} {median t : UInt32}

omit [Field K] [LinearOrder K] in
theorem intensities_congr (h : List.Forall₂ (AgreesFor median t) history history') :
    history.map Prod.snd = history'.map Prod.snd := by
  induction h with
  | nil => rfl
  | cons hpq _ ih => rw [List.map_cons, List.map_cons, hpq.1, ih]

omit [Field K] [LinearOrder K] in
theorem cohort_congr (h : List.Forall₂ (AgreesFor median t) history history') :
    cohort history median (decide (median ≤ t)) =
      cohort history' median (decide (median ≤ t)) := by
  unfold cohort
  induction h with
  | nil => rfl
  | @cons p q history history' hpq _ ih =>
      obtain ⟨hintensity, hvpin⟩ := hpq
      rw [List.filter_cons, List.filter_cons, ← hintensity]
      by_cases hown : median ≤ p.2 ↔ median ≤ t
      · rw [if_pos (by simp [hown]), if_pos (by simp [hown]), List.map_cons, List.map_cons,
          hvpin hown, ih]
      · rw [if_neg (by simpa using hown), if_neg (by simpa using hown), ih]

theorem rank_congr {hne : history ≠ []} {hne' : history' ≠ []}
    (h : List.Forall₂ (AgreesFor (medianIntensity history hne) t) history history') (vpin : K) :
    rank history hne vpin t = rank history' hne' vpin t := by
  have hmedian : medianIntensity history' hne' = medianIntensity history hne := by
    simp only [medianIntensity, ← intensities_congr h]
  simp only [rank, hmedian, cohort_congr h]

omit [Field K] [LinearOrder K] in
theorem mem_ownCohort {hne : history ≠ []} {vpin : K} (hmem : (vpin, t) ∈ history) :
    vpin ∈ ownCohort history hne t :=
  List.mem_map.mpr ⟨(vpin, t), List.mem_filter.mpr ⟨hmem, by simp⟩, rfl⟩

/-- The latest reading is counted in its own rank, and at most its cohort is. -/
theorem rank_mem_Icc [IsStrictOrderedRing K] (hne : history ≠ []) {vpin : K}
    (hmem : (vpin, t) ∈ history) :
    rank history hne vpin t ∈ Set.Icc (1 / ((ownCohort history hne t).length : K)) 1 := by
  have hself : vpin ∈ (ownCohort history hne t).filter fun v ↦ v ≤ vpin := by
    simp [mem_ownCohort hmem]
  have hone : 1 ≤ ((ownCohort history hne t).filter fun v ↦ v ≤ vpin).length :=
    List.length_pos_of_mem hself
  have hall := List.length_filter_le (fun v ↦ decide (v ≤ vpin)) (ownCohort history hne t)
  have hpos : (0 : K) < (ownCohort history hne t).length := by
    exact_mod_cast hone.trans hall
  have hrank : rank history hne vpin t =
      (((ownCohort history hne t).filter fun v ↦ v ≤ vpin).length : K) /
        ((ownCohort history hne t).length : K) := rfl
  rw [hrank]
  constructor
  · gcongr
    exact_mod_cast hone
  · rw [div_le_one hpos]
    exact_mod_cast hall

end Cohort

/-! ## Runs of pushes -/

theorem push_fst (c : IntensityAdjustedCdf K) (vpin : K) (t : UInt32) :
    (c.push vpin t).1 = if (c.pushed vpin t).length < c.window then none
      else some (rank (c.pushed vpin t) (c.pushed_ne_nil vpin t) vpin t) := rfl

theorem push_fst_eq_none_iff {c : IntensityAdjustedCdf K} {vpin : K} {t : UInt32} :
    (c.push vpin t).1 = none ↔ (c.pushed vpin t).length < c.window := by
  rw [push_fst]
  split <;> simp [*]

theorem length_pushed_pushAll {window : ℕ} {c : IntensityAdjustedCdf K} (h : new window = .ok c)
    (pushes : List (K × UInt32)) (vpin : K) (t : UInt32) :
    ((c.pushAll pushes).pushed vpin t).length = min window (pushes.length + 1) := by
  rw [pushed_pushAll_new h, SlidingWindow.length_rtake, List.length_append, List.length_singleton]

/-- Both estimators after pushes of one intensity. -/
structure Uniform (n : UInt32) (c : IntensityAdjustedCdf K) (e : EmpiricalCdf K) : Prop where
  window : e.window = c.window
  buf : e.buf = c.history.map Prod.fst
  intensity : ∀ p ∈ c.history, p.2 = n

section Uniform

variable {n : UInt32} {c : IntensityAdjustedCdf K} {e : EmpiricalCdf K}

omit [Field K] [LinearOrder K] in
theorem ownCohort_of_uniform {history : List (K × UInt32)} (hne : history ≠ [])
    (h : ∀ p ∈ history, p.2 = n) : ownCohort history hne n = history.map Prod.fst := by
  obtain ⟨q, hq, hmedian⟩ := List.mem_map.mp (medianU32_mem _ (by simpa using hne))
  have hmedian' : medianIntensity history hne = n := hmedian.symm.trans (h q hq)
  rw [ownCohort, hmedian', cohort, List.filter_eq_self.mpr]
  intro p hp
  rw [h p hp]
  simp

theorem Uniform.push (h : Uniform n c e) (vpin : K) :
    (c.push vpin n).1 = (e.push vpin).1 ∧ Uniform n (c.push vpin n).2 (e.push vpin).2 := by
  have hbuf : SlidingWindow.push e.window e.buf vpin = (c.pushed vpin n).map Prod.fst := by
    rw [h.window, h.buf]
    exact SlidingWindow.push_map Prod.fst _ _ (vpin, n)
  have hintensity : ∀ p ∈ c.pushed vpin n, p.2 = n := by
    intro p hp
    rcases SlidingWindow.mem_push hp with hp | rfl
    · exact h.intensity p hp
    · rfl
  refine ⟨?_, h.window, hbuf, hintensity⟩
  have hcdf : (e.push vpin).1 =
      EmpiricalCdf.rank e.window (SlidingWindow.push e.window e.buf vpin) vpin := rfl
  rw [push_fst, hcdf, hbuf, EmpiricalCdf.rank, List.length_map, h.window]
  split
  · rfl
  · rename_i hfull
    have hlength : (c.pushed vpin n).length = c.window :=
      le_antisymm (c.push vpin n).2.length_history_le (not_lt.mp hfull)
    have hcohort := ownCohort_of_uniform (c.pushed_ne_nil vpin n) hintensity
    have hrank : rank (c.pushed vpin n) (c.pushed_ne_nil vpin n) vpin n =
        (((ownCohort (c.pushed vpin n) (c.pushed_ne_nil vpin n) n).filter
          fun v ↦ v ≤ vpin).length : K) /
            ((ownCohort (c.pushed vpin n) (c.pushed_ne_nil vpin n) n).length : K) := rfl
    rw [hrank, hcohort, List.length_map, hlength]

theorem Uniform.ranks (h : Uniform n c e) {pushes : List (K × UInt32)}
    (hpushes : ∀ p ∈ pushes, p.2 = n) : c.ranks pushes = e.ranks (pushes.map Prod.fst) := by
  induction pushes generalizing c e with
  | nil => rfl
  | cons p pushes ih =>
      obtain ⟨hp, hrest⟩ := List.forall_mem_cons.mp hpushes
      obtain ⟨hrank, hnext⟩ := h.push p.1
      rw [IntensityAdjustedCdf.ranks, List.map_cons, EmpiricalCdf.ranks, hp, hrank, ih hnext hrest]

omit [Field K] [LinearOrder K] in
theorem uniform_new {window : ℕ} (hc : new window = .ok c)
    (he : EmpiricalCdf.new window = .ok e) (n : UInt32) : Uniform n c e := by
  obtain ⟨hcwindow, hhistory⟩ := new_eq_ok hc
  obtain ⟨hewindow, hbuf⟩ := EmpiricalCdf.new_eq_ok he
  refine ⟨hewindow.trans hcwindow.symm, by rw [hbuf, hhistory]; rfl, ?_⟩
  rw [hhistory]
  rintro p ⟨⟩

end Uniform

/-- After any pushes the next rank is a fraction of the reading's own cohort in the
window, is there from push `window` on, and depends on nothing but the intensities
of the window and the VPIN values of that cohort. -/
theorem cohort_ranks [IsStrictOrderedRing K] {window : ℕ} {c : IntensityAdjustedCdf K}
    (hnew : new window = .ok c) :
    (∀ pushes pushes' vpin t,
      List.Forall₂
        (AgreesFor (medianIntensity _ ((c.pushAll pushes).pushed_ne_nil vpin t)) t)
        ((c.pushAll pushes).pushed vpin t) ((c.pushAll pushes').pushed vpin t) →
      ((c.pushAll pushes).push vpin t).1 = ((c.pushAll pushes').push vpin t).1) ∧
    (∀ pushes vpin t r, ((c.pushAll pushes).push vpin t).1 = some r →
      ownCohort _ ((c.pushAll pushes).pushed_ne_nil vpin t) t ≠ [] ∧
      r ∈ Set.Icc
        (1 / ((ownCohort _ ((c.pushAll pushes).pushed_ne_nil vpin t) t).length : K)) 1) ∧
    (∀ pushes vpin t,
      ((c.pushAll pushes).push vpin t).1 = none ↔ pushes.length < window - 1) ∧
    ∃ e, EmpiricalCdf.new window = .ok e ∧ ∀ n pushes, (∀ p ∈ pushes, p.2 = n) →
      c.ranks pushes = e.ranks (pushes.map Prod.fst) := by
  obtain ⟨hwindow, -⟩ := new_eq_ok hnew
  refine ⟨?_, ?_, ?_, ?_⟩
  · intro pushes pushes' vpin t hagree
    rw [push_fst, push_fst, hagree.length_eq, window_pushAll, window_pushAll,
      rank_congr hagree]
  · intro pushes vpin t r hr
    rw [push_fst] at hr
    split at hr
    · cases hr
    · obtain rfl := Option.some.inj hr
      have hmem : (vpin, t) ∈ (c.pushAll pushes).pushed vpin t := SlidingWindow.self_mem_push _ _ _
      exact ⟨List.ne_nil_of_mem (mem_ownCohort hmem), rank_mem_Icc _ hmem⟩
  · intro pushes vpin t
    rw [push_fst_eq_none_iff, length_pushed_pushAll hnew, window_pushAll, hwindow]
    omega
  · have hfour : 4 ≤ window := hwindow ▸ c.four_le_window
    obtain ⟨e, he⟩ : ∃ e : EmpiricalCdf K, EmpiricalCdf.new window = .ok e :=
      ⟨_, dif_neg (by omega)⟩
    exact ⟨e, he, fun n _ hpushes ↦ (uniform_new hnew he n).ranks hpushes⟩

theorem medianU32_balanced (hne : ([5, 200, 5, 200] : List UInt32) ≠ []) :
    medianU32 [5, 200, 5, 200] hne = 200 := by
  have hminority : MinimumInMinority [5, 200, 5, 200] := by
    intro m hm _
    simp only [List.mem_cons, List.not_mem_nil, or_false] at hm
    rcases hm with rfl | rfl | rfl | rfl <;> decide
  obtain ⟨t, ht, hlt⟩ := (exists_lt_medianU32_iff _ hne).mpr hminority
  have hmem := medianU32_mem _ hne
  simp only [List.mem_cons, List.not_mem_nil, or_false] at hmem ht
  grind

/-- Two quiet readings of other VPIN values leave the rank of a busy one as it is. -/
theorem cohort_ranks_quietDiffer : ∃ c : IntensityAdjustedCdf ℚ, new 4 = .ok c ∧
    ((c.pushAll [(0, 5), (1, 200), (0, 5)]).push 1 200).1 =
      ((c.pushAll [(7, 5), (1, 200), (9, 5)]).push 1 200).1 ∧
    (((c.pushAll [(0, 5), (1, 200)]).push 0 5).1 = none) := by
  obtain ⟨c, hnew⟩ : ∃ c : IntensityAdjustedCdf ℚ, new 4 = .ok c := ⟨_, rfl⟩
  obtain ⟨hagree, -, hnone, -⟩ := cohort_ranks hnew
  refine ⟨c, hnew, hagree _ _ _ _ ?_, (hnone _ _ _).mpr (by decide)⟩
  obtain rfl := Except.ok.inj hnew
  have hmedian := medianU32_balanced (List.cons_ne_nil _ _)
  have hquiet {median : UInt32} (h : median = 200) (v w : ℚ) :
      AgreesFor median 200 (v, 5) (w, 5) := by
    have hopposite : ¬ (200 : UInt32) ≤ 5 := by decide
    subst h
    exact ⟨rfl, fun hown ↦ absurd (hown.mpr (UInt32.le_refl 200)) hopposite⟩
  have hbusy (median : UInt32) (v : ℚ) : AgreesFor median 200 (v, 200) (v, 200) :=
    ⟨rfl, fun _ ↦ rfl⟩
  exact .cons (hquiet hmedian 0 7) (.cons (hbusy _ 1) (.cons (hquiet hmedian 0 9)
    (.cons (hbusy _ 1) .nil)))

end IntensityAdjustedCdf

end Geiger
