import Geiger.Calibrate.Mirror
import Geiger.Calibrate.Significance
import Geiger.Library.Numbering
import Geiger.Library.Selection

/-!
# Sweeps over a grid of configurations

Every result of a sweep is compared with the best one; of equally good results the
last in grid order is the reference.
-/

namespace Geiger.Calibrate

open Fallible Selection

section Code

variable {K : Type} [Field K] [LinearOrder K]

structure SweepResult (K : Type) where
  bucketVolume : K
  sigmaWindow : ℕ
  vpinWindow : ℕ
  stats : Except (VpinError K) (Stats K)

namespace SweepResult

variable (r : SweepResult K)

def accuracy : Option K := r.stats.toOption.bind Stats.bvcAccuracy

def pValue : Option K := r.stats.toOption.bind Stats.bvcAccuracyPValue

def withoutPValue : SweepResult K :=
  { r with stats := r.stats.map fun s ↦ { s with bvcAccuracyPValue := none } }

/-- The p-value of a result against the reference `best`. -/
def compareWith (m : Libm K) (best : Stats K) : SweepResult K :=
  { r with
    stats := r.stats.map fun s ↦
      { s with
        bvcAccuracyPValue := twoProportionPValue m s.bvcAccuracy (UInt64.ofNat s.bvcCompared)
          best.bvcAccuracy (UInt64.ofNat best.bvcCompared) } }

end SweepResult

/-- The index of the last result with the highest accuracy. -/
def bestIdx (out : List (SweepResult K)) : Option ℕ :=
  (lastMax Prod.snd (out.zipIdx.filterMap fun p ↦ p.1.accuracy.map fun a ↦ (p.2, a))).map Prod.fst

def best (out : List (SweepResult K)) : Option (ℕ × Stats K) :=
  (bestIdx out).bind fun i ↦ (out[i]?.bind fun r ↦ r.stats.toOption).map fun s ↦ (i, s)

def fillPValues (m : Libm K) (out : List (SweepResult K)) : List (SweepResult K) :=
  (best out).elim out fun b ↦ out.mapIdx fun i r ↦ if i = b.1 then r else r.compareWith m b.2

variable [FloorSemiring K] (m : Libm K) (trades : List (Trade K))

def sweepCell (cdfWindow : Option ℕ) (bucketVolume : K) (sigmaWindow vpinWindow : ℕ) :
    Except (VpinError K) (BvcStats K) → Except Fault (SweepResult K)
  | .ok bvc => do
    let stats ← (calibrateOne m trades bucketVolume sigmaWindow vpinWindow cdfWindow bvc).run
    return { bucketVolume, sigmaWindow, vpinWindow, stats }
  | .error e => .ok { bucketVolume, sigmaWindow, vpinWindow, stats := .error e }

/-- The three nested loops. -/
def sweepGrid (bucketVolumes : List K) (sigmaWindows vpinWindows : List ℕ)
    (cdfWindow : Option ℕ) : Except Fault (List (SweepResult K)) := do
  let rows ← bucketVolumes.mapM fun bv ↦ do
    let row ← sigmaWindows.mapM fun sw ↦ do
      let bvc ← (bvcAccuracyStats m trades bv sw).run
      vpinWindows.mapM fun vw ↦ sweepCell m trades cdfWindow bv sw vw bvc
    return row.flatten
  return rows.flatten

def runSweep (bucketVolumes : List K) (sigmaWindows vpinWindows : List ℕ)
    (cdfWindow : Option ℕ) : Except Fault (List (SweepResult K)) := do
  let out ← sweepGrid m trades bucketVolumes sigmaWindows vpinWindows cdfWindow
  return fillPValues m out

end Code

/-! ## The reference of a sweep -/

section Reference

variable {K : Type}

namespace SweepResult

/-- Accuracy and number of compared buckets of a result that has an accuracy. -/
def trial (r : SweepResult K) : Option (K × UInt64) :=
  r.stats.toOption.bind fun s ↦ s.bvcAccuracy.map fun a ↦ (a, UInt64.ofNat s.bvcCompared)

theorem accuracy_eq (r : SweepResult K) : r.accuracy = r.trial.map Prod.fst := by
  unfold accuracy trial
  cases r.stats.toOption with
  | none => rfl
  | some s => cases hs : s.bvcAccuracy <;> simp [hs]

theorem accuracy_of_trial {r : SweepResult K} {t : K × UInt64} (h : r.trial = some t) :
    r.accuracy = some t.1 := by
  rw [accuracy_eq, h, Option.map_some]

theorem trial_eq_some {r : SweepResult K} {t : K × UInt64} (h : r.trial = some t) :
    ∃ s, r.stats = .ok s ∧ s.bvcAccuracy = some t.1 ∧ UInt64.ofNat s.bvcCompared = t.2 := by
  unfold trial at h
  cases hstats : r.stats with
  | error e => simp [hstats, Except.toOption] at h
  | ok s =>
      simp only [hstats, Except.toOption, Option.bind_some, Option.map_eq_some_iff] at h
      obtain ⟨a, ha, rfl⟩ := h
      exact ⟨s, rfl, ha, rfl⟩

theorem trial_of_stats {r : SweepResult K} {s : Stats K} (h : r.stats = .ok s) :
    r.trial = s.bvcAccuracy.map fun a ↦ (a, UInt64.ofNat s.bvcCompared) := by
  rw [trial, h]
  rfl

theorem trial_withoutPValue (r : SweepResult K) : r.withoutPValue.trial = r.trial := by
  unfold trial withoutPValue
  cases r.stats <;> rfl

variable [Field K] [LinearOrder K]

theorem withoutPValue_compareWith (m : Libm K) (best : Stats K) (r : SweepResult K) :
    (r.compareWith m best).withoutPValue = r.withoutPValue := by
  unfold compareWith withoutPValue
  cases r.stats <;> rfl

theorem pValue_compareWith (m : Libm K) (best : Stats K) {r : SweepResult K} {t : K × UInt64}
    (h : r.trial = some t) :
    (r.compareWith m best).pValue =
      twoProportionPValue m (some t.1) t.2 best.bvcAccuracy (UInt64.ofNat best.bvcCompared) := by
  obtain ⟨s, hstats, haccuracy, hcompared⟩ := trial_eq_some h
  rw [pValue, compareWith, hstats, ← haccuracy, ← hcompared]
  rfl

end SweepResult

theorem mem_trials_iff {out : List (SweepResult K)} {i : ℕ} {a : K} :
    (i, a) ∈ out.zipIdx.filterMap (fun p ↦ p.1.accuracy.map fun a ↦ (p.2, a)) ↔
      ∃ r, out[i]? = some r ∧ r.accuracy = some a := by
  simp only [List.mem_filterMap, List.mem_zipIdx_iff_getElem?, Option.map_eq_some_iff,
    Prod.exists, Prod.mk.injEq]
  constructor
  · rintro ⟨r, _, hr, a, ha, rfl, rfl⟩
    exact ⟨r, hr, ha⟩
  · rintro ⟨r, hr, ha⟩
    exact ⟨r, i, hr, a, ha, rfl, rfl⟩

variable [LinearOrder K]

/-- The reference is one of the results with the highest accuracy. -/
structure IsReference (out : List (SweepResult K)) (i : ℕ) (t : K × UInt64) (s : Stats K) :
    Prop where
  best : best out = some (i, s)
  result : ∃ r, out[i]? = some r ∧ r.trial = some t
  accuracy : s.bvcAccuracy = some t.1
  compared : UInt64.ofNat s.bvcCompared = t.2
  highest : ∀ r ∈ out, ∀ u, r.trial = some u → u.1 ≤ t.1

theorem best_of_trial {out : List (SweepResult K)} {i : ℕ} {r : SweepResult K} {t : K × UInt64}
    (hindex : bestIdx out = some i) (hr : out[i]? = some r) (ht : r.trial = some t) :
    ∃ s, best out = some (i, s) ∧ s.bvcAccuracy = some t.1 ∧
      UInt64.ofNat s.bvcCompared = t.2 := by
  obtain ⟨s, hstats, haccuracy, hcompared⟩ := SweepResult.trial_eq_some ht
  refine ⟨s, ?_, haccuracy, hcompared⟩
  simp [best, hindex, hr, hstats, Except.toOption]

theorem exists_reference {out : List (SweepResult K)} {r : SweepResult K} {t : K × UInt64}
    (hr : r ∈ out) (ht : r.trial = some t) : ∃ i u s, IsReference out i u s := by
  have haccuracy := SweepResult.accuracy_of_trial ht
  obtain ⟨j, hj⟩ := List.mem_iff_getElem?.mp hr
  cases hlast : lastMax Prod.snd
      (out.zipIdx.filterMap fun p ↦ p.1.accuracy.map fun a ↦ (p.2, a)) with
  | none =>
      have hmem := mem_trials_iff.mpr ⟨r, hj, haccuracy⟩
      rw [lastMax_eq_none_iff.mp hlast] at hmem
      cases hmem
  | some x =>
      obtain ⟨i, a⟩ := x
      obtain ⟨hmem, hmax⟩ := lastMax_spec hlast
      obtain ⟨b, hb, hba⟩ := mem_trials_iff.mp hmem
      rw [SweepResult.accuracy_eq, Option.map_eq_some_iff] at hba
      obtain ⟨u, hu, rfl⟩ := hba
      have hindex : bestIdx out = some i := by rw [bestIdx, hlast, Option.map_some]
      obtain ⟨s, hbest, hs, hcompared⟩ := best_of_trial hindex hb hu
      refine ⟨i, u, s, hbest, ⟨b, hb, hu⟩, hs, hcompared, ?_⟩
      intro r' hr' u' hu'
      obtain ⟨k, hk⟩ := List.mem_iff_getElem?.mp hr'
      have haccuracy' := SweepResult.accuracy_of_trial hu'
      exact hmax (k, u'.1) (mem_trials_iff.mpr ⟨r', hk, haccuracy'⟩)

/-- A best result is the reference when it comes last. -/
theorem isReference_concat {out : List (SweepResult K)} {r : SweepResult K} {t : K × UInt64}
    (ht : r.trial = some t) (hmax : ∀ r' ∈ out, ∀ u, r'.trial = some u → u.1 ≤ t.1) :
    ∃ s, IsReference (out ++ [r]) out.length t s := by
  have haccuracy := SweepResult.accuracy_of_trial ht
  have hlast : lastMax Prod.snd
      ((out ++ [r]).zipIdx.filterMap fun p ↦ p.1.accuracy.map fun a ↦ (p.2, a)) =
        some (out.length, t.1) := by
    rw [List.zipIdx_append, List.filterMap_append]
    simp only [List.zipIdx_singleton, Nat.zero_add, List.filterMap_cons, haccuracy,
      Option.map_some, List.filterMap_nil]
    apply lastMax_concat
    rintro ⟨i, a⟩ hmem
    obtain ⟨r', hr', ha⟩ := mem_trials_iff.mp hmem
    rw [SweepResult.accuracy_eq, Option.map_eq_some_iff] at ha
    obtain ⟨u, hu, rfl⟩ := ha
    exact hmax r' (List.mem_of_getElem? hr') u hu
  have hindex : bestIdx (out ++ [r]) = some out.length := by
    rw [bestIdx, hlast, Option.map_some]
  have hr : (out ++ [r])[out.length]? = some r := List.getElem?_concat_length
  obtain ⟨s, hbest, hs, hcompared⟩ := best_of_trial hindex hr ht
  refine ⟨s, hbest, ⟨r, hr, ht⟩, hs, hcompared, ?_⟩
  intro r' hr' u hu
  rcases List.mem_append.mp hr' with hr' | hr'
  · exact hmax r' hr' u hu
  · obtain rfl := List.mem_singleton.mp hr'
    obtain rfl := Option.some.inj (ht.symm.trans hu)
    exact le_rfl

variable [Field K]

/-- A result and what the sweep makes of it under the reference `t`. -/
structure ComparedWith (m : Libm K) (t : K × UInt64) (r r' : SweepResult K) : Prop where
  same : r'.withoutPValue = r.withoutPValue
  pValue : ∀ u, r.trial = some u → u.1 < t.1 →
    r'.pValue = twoProportionPValue m (some u.1) u.2 (some t.1) t.2

theorem ComparedWith.trial {m : Libm K} {t : K × UInt64} {r r' : SweepResult K}
    (h : ComparedWith m t r r') : r'.trial = r.trial := by
  rw [← SweepResult.trial_withoutPValue, h.same, SweepResult.trial_withoutPValue]

theorem IsReference.comparedWith (m : Libm K) {out : List (SweepResult K)} {i : ℕ} {t : K × UInt64}
    {s : Stats K} (h : IsReference out i t s) :
    List.Forall₂ (ComparedWith m t) out (fillPValues m out) := by
  have hfill : fillPValues m out =
      out.mapIdx fun j r ↦ if j = i then r else r.compareWith m s := by
    rw [fillPValues, h.best]
    rfl
  rw [hfill]
  apply List.forall₂_of_length_eq_of_get List.length_mapIdx.symm
  intro j hj hj'
  rw [List.get_eq_getElem, List.get_eq_getElem, List.getElem_mapIdx]
  by_cases hji : j = i
  · rw [if_pos hji]
    refine ⟨rfl, ?_⟩
    intro u hu hlt
    obtain ⟨r, hr, ht⟩ := h.result
    subst hji
    rw [List.getElem?_eq_getElem hj] at hr
    rw [Option.some.inj hr, ht] at hu
    obtain rfl := Option.some.inj hu
    exact absurd hlt (lt_irrefl _)
  · rw [if_neg hji]
    refine ⟨SweepResult.withoutPValue_compareWith m s _, ?_⟩
    intro u hu _
    rw [SweepResult.pValue_compareWith m s hu, h.accuracy, h.compared]

theorem fillPValues_of_no_trial (m : Libm K) {out : List (SweepResult K)}
    (h : ∀ r ∈ out, r.trial = none) : fillPValues m out = out := by
  have hnone : out.zipIdx.filterMap (fun p ↦ p.1.accuracy.map fun a ↦ (p.2, a)) = [] := by
    apply List.filterMap_eq_nil_iff.mpr
    intro p hp
    have hmem := List.mem_of_getElem? (List.mem_zipIdx_iff_getElem?.mp hp)
    rw [SweepResult.accuracy_eq, h _ hmem]
    rfl
  have hbest : best out = none := by
    rw [best, bestIdx, hnone]
    rfl
  rw [fillPValues, hbest]
  rfl

end Reference

/-! ## The results on a grid -/

section Grid

theorem mapM_eq_ok {ε α β : Type} {f : α → Except ε β} {g : α → β}
    (h : ∀ a, f a = .ok (g a)) (as : List α) : as.mapM f = .ok (as.map g) := by
  rw [funext h]
  exact List.mapM_pure

variable {K : Type} [Field K] [LinearOrder K] (m : Libm K) (trades : List (Trade K))

theorem exists_bvcAccuracyStats (bucketVolume : K) (sigmaWindow : ℕ) :
    ∃ bvc, (bvcAccuracyStats m trades bucketVolume sigmaWindow).run = .ok bvc := by
  cases hbucketer : VolumeBucketer.new bucketVolume with
  | error e =>
      refine ⟨.error e, ?_⟩
      simp only [bvcAccuracyStats, hbucketer]
      rfl
  | ok bucketer =>
      cases hsigma : RollingSigma.new (K := K) sigmaWindow with
      | error e =>
          refine ⟨.error e, ?_⟩
          simp only [bvcAccuracyStats, hbucketer, hsigma]
          rfl
      | ok sigma => exact ⟨_, returns_summary hbucketer hsigma m trades⟩

variable [FloorSemiring K] (cdfWindow : Option ℕ)

/-- What the configuration `c` contributes to the choice of the reference. -/
def Measures (c : K × ℕ × ℕ) (t : K × UInt64) : Prop :=
  (engineConfig c.1 c.2.1 c.2.2 cdfWindow).Valid ∧
    ∃ bvc, Returns (bvcAccuracyStats m trades c.1 c.2.1) bvc ∧ bvc.accuracy = some t.1 ∧
      UInt64.ofNat bvc.compared = t.2

/-- The result of one configuration, before any comparison. -/
structure IsCell (c : K × ℕ × ℕ) (r : SweepResult K) : Prop where
  run : ∃ bvc, (bvcAccuracyStats m trades c.1 c.2.1).run = .ok bvc ∧
    sweepCell m trades cdfWindow c.1 c.2.1 c.2.2 bvc = .ok r
  withoutPValue : r.withoutPValue = r
  trial_iff : ∀ t, r.trial = some t ↔ Measures m trades cdfWindow c t

variable {m trades cdfWindow}

theorem calibrateOne_pValue {bucketVolume : K} {sigmaWindow vpinWindow : ℕ} {bvc : BvcStats K}
    {stats : Stats K} (h : Returns
      (calibrateOne m trades bucketVolume sigmaWindow vpinWindow cdfWindow bvc) stats) :
    stats.bvcAccuracyPValue = none := by
  simp only [calibrateOne, returns_bind, returns_check, returns_attempt, returns_pure] at h
  obtain ⟨_, _, _, _, rfl⟩ := h
  rfl

theorem isCell_of_not_valid {c : K × ℕ × ℕ}
    (h : ¬ (engineConfig c.1 c.2.1 c.2.2 cdfWindow).Valid) :
    ∃ r, IsCell m trades cdfWindow c r := by
  obtain ⟨bvc, hbvc⟩ := exists_bvcAccuracyStats m trades c.1 c.2.1
  obtain ⟨e, hrun⟩ : ∃ e, sweepCell m trades cdfWindow c.1 c.2.1 c.2.2 bvc =
      .ok ⟨c.1, c.2.1, c.2.2, .error e⟩ := by
    cases bvc with
    | error e => exact ⟨e, rfl⟩
    | ok bvc =>
        cases hnew : VpinEngine.new (engineConfig c.1 c.2.1 c.2.2 cdfWindow) with
        | ok engine => exact absurd (VpinEngine.valid_of_new hnew) h
        | error e =>
            refine ⟨e, ?_⟩
            simp only [sweepCell, calibrateOne, hnew]
            rfl
  refine ⟨_, ⟨bvc, hbvc, hrun⟩, rfl, fun t ↦ ?_⟩
  exact iff_of_false (fun ht ↦ by cases ht) fun hmeasures ↦ h hmeasures.1

/-- The loops visit the product of the three lists in order. -/
theorem sweepGrid_eq {g : K × ℕ × ℕ → SweepResult K}
    (hg : ∀ c, IsCell m trades cdfWindow c (g c)) (bucketVolumes : List K)
    (sigmaWindows vpinWindows : List ℕ) :
    sweepGrid m trades bucketVolumes sigmaWindows vpinWindows cdfWindow =
      .ok ((bucketVolumes ×ˢ sigmaWindows ×ˢ vpinWindows).map g) := by
  have hpair (bv : K) (sw : ℕ) : (do
      let bvc ← (bvcAccuracyStats m trades bv sw).run
      vpinWindows.mapM fun vw ↦ sweepCell m trades cdfWindow bv sw vw bvc) =
        .ok (vpinWindows.map fun vw ↦ g (bv, sw, vw)) := by
    obtain ⟨bvc, hbvc⟩ := exists_bvcAccuracyStats m trades bv sw
    rw [hbvc]
    apply mapM_eq_ok
    intro vw
    obtain ⟨bvc', hbvc', hcell⟩ := (hg (bv, sw, vw)).run
    obtain rfl := Except.ok.inj (hbvc.symm.trans hbvc')
    exact hcell
  have hrow (bv : K) : (do
      let row ← sigmaWindows.mapM fun sw ↦ do
        let bvc ← (bvcAccuracyStats m trades bv sw).run
        vpinWindows.mapM fun vw ↦ sweepCell m trades cdfWindow bv sw vw bvc
      return row.flatten) = .ok ((sigmaWindows ×ˢ vpinWindows).map fun c ↦ g (bv, c)) := by
    rw [mapM_eq_ok (hpair bv), map_product]
    rfl
  unfold sweepGrid
  rw [mapM_eq_ok hrow, map_product]
  rfl

variable [IsStrictOrderedRing K]

theorem isCell_of_valid {c : K × ℕ × ℕ} (h : (engineConfig c.1 c.2.1 c.2.2 cdfWindow).Valid) :
    ∃ r, IsCell m trades cdfWindow c r := by
  obtain ⟨engine, hnew⟩ := VpinEngine.new_of_valid h
  have hfresh := VpinEngine.fresh_of_new hnew
  obtain ⟨engine', hfeed, -⟩ :=
    Refinement.feed_eq_readings (m := m) hnew (trades.map Trade.toTrade)
  obtain ⟨bvc, hbvc⟩ : ∃ bvc, Returns (bvcAccuracyStats m trades c.1 c.2.1) bvc :=
    ⟨_, returns_summary hfresh.bucketer hfresh.sigma m trades⟩
  obtain ⟨stats, hstats, -, -, haccuracy, -, hcompared⟩ := calibrateOne_returns hnew hfeed bvc
  have hpvalue := calibrateOne_pValue hstats
  refine ⟨⟨c.1, c.2.1, c.2.2, .ok stats⟩, ⟨_, hbvc, ?_⟩, ?_, ?_⟩
  · rw [sweepCell, hstats]
    rfl
  · cases stats
    cases hpvalue
    rfl
  · intro t
    rw [SweepResult.trial_of_stats rfl, Option.map_eq_some_iff, haccuracy, hcompared]
    constructor
    · rintro ⟨a, ha, rfl⟩
      exact ⟨h, bvc, hbvc, ha, rfl⟩
    · rintro ⟨-, bvc', hbvc', ha, hn⟩
      obtain rfl := Except.ok.inj (Except.ok.inj (hbvc.symm.trans hbvc'))
      exact ⟨t.1, ha, by rw [hn]⟩

theorem exists_isCell (c : K × ℕ × ℕ) : ∃ r, IsCell m trades cdfWindow c r := by
  by_cases h : (engineConfig c.1 c.2.1 c.2.2 cdfWindow).Valid
  · exact isCell_of_valid h
  · exact isCell_of_not_valid h

theorem exists_cells (m : Libm K) (trades : List (Trade K)) (cdfWindow : Option ℕ) :
    ∃ g : K × ℕ × ℕ → SweepResult K, ∀ c, IsCell m trades cdfWindow c (g c) :=
  Classical.axiomOfChoice exists_isCell

end Grid

end Geiger.Calibrate
