import Geiger.Vpin.Refinement

/-!
# Ranges of the reported values

`Sound` is the invariant of the engine on positive tapes: window entries with a
positive volume that bounds the imbalance, and estimators as configured.  The
mediant inequality and the quantile bounds turn it into the ranges of a reading.
-/

namespace Geiger.Ranges

open RatioOfSums VpinEngine

variable {K : Type} [Field K] [LinearOrder K]

structure Entry (p : K × K) : Prop where
  volume_pos : 0 < p.2
  imbalance_nonneg : 0 ≤ p.1
  imbalance_le : p.1 ≤ p.2

/-- `x` lies between the smallest and the largest ratio of the window. -/
def Bracketed (window : List (K × K)) (x : K) : Prop :=
  (∃ p ∈ window, p.1 / p.2 ≤ x) ∧ ∃ p ∈ window, x ≤ p.1 / p.2

structure Sound (cfg : VpinEngineConfig K) (e : VpinEngine K) : Prop where
  entries : ∀ p ∈ e.imbalances, Entry p
  cdf : e.cdf.map EmpiricalCdf.window = cfg.cdfWindow
  ci : e.ci.isSome ↔ cfg.confidenceInterval.isSome

/-- What a reading may report, given the VPIN window it was computed from. -/
structure InRange (cfg : VpinEngineConfig K) (window : List (K × K)) (r : VpinReading K) :
    Prop where
  ciLow_isSome : r.vpinCiLow.isSome ↔ cfg.confidenceInterval.isSome ∧ r.vpin.isSome
  ciHigh_isSome : r.vpinCiHigh.isSome ↔ cfg.confidenceInterval.isSome ∧ r.vpin.isSome
  bracketed : ∀ x, r.vpin = some x ∨ r.vpinCiLow = some x ∨ r.vpinCiHigh = some x →
    Bracketed window x ∧ x ∈ Set.Icc 0 1
  ci_le : ∀ low ∈ r.vpinCiLow, ∀ high ∈ r.vpinCiHigh, low ≤ high
  cdf : ∀ c ∈ r.vpinCdf, ∃ n ∈ cfg.cdfWindow, c ∈ Set.Icc (1 / (n : K)) 1

section Windows

variable [IsStrictOrderedRing K]

theorem Entry.ratio_mem {p : K × K} (h : Entry p) : p.1 / p.2 ∈ Set.Icc (0 : K) 1 :=
  ⟨div_nonneg h.imbalance_nonneg h.volume_pos.le, (div_le_one h.volume_pos).mpr h.imbalance_le⟩

theorem Bracketed.mem_Icc {window : List (K × K)} {x : K} (h : Bracketed window x)
    (hentries : ∀ p ∈ window, Entry p) : x ∈ Set.Icc (0 : K) 1 := by
  obtain ⟨⟨p, hp, hpx⟩, q, hq, hxq⟩ := h
  exact ⟨(hentries p hp).ratio_mem.1.trans hpx, hxq.trans (hentries q hq).ratio_mem.2⟩

omit [IsStrictOrderedRing K] in
/-- A nonempty window attains its extreme ratios, so bounds for every interval
around the ratios give brackets. -/
theorem bracketed_of_forall {window : List (K × K)} {x : K} (hne : window ≠ [])
    (h : ∀ lo hi, (∀ p ∈ window, p.1 / p.2 ∈ Set.Icc lo hi) → x ∈ Set.Icc lo hi) :
    Bracketed window x := by
  have hne' : window.toFinset.Nonempty := by simpa using hne
  obtain ⟨p, hp, hmin⟩ := window.toFinset.exists_min_image (fun p ↦ p.1 / p.2) hne'
  obtain ⟨q, hq, hmax⟩ := window.toFinset.exists_max_image (fun p ↦ p.1 / p.2) hne'
  have hx := h (p.1 / p.2) (q.1 / q.2) fun r hr ↦
    ⟨hmin r (List.mem_toFinset.mpr hr), hmax r (List.mem_toFinset.mpr hr)⟩
  exact ⟨⟨p, List.mem_toFinset.mp hp, hx.1⟩, q, List.mem_toFinset.mp hq, hx.2⟩

theorem ratio_bracketed {window : List (K × K)} (hne : window ≠ [])
    (hentries : ∀ p ∈ window, Entry p) : Bracketed window (ratio window) :=
  bracketed_of_forall hne fun _ _ h ↦
    ratio_mem_Icc hne (fun p hp ↦ (hentries p hp).volume_pos) h

theorem interval_bracketed [FloorSemiring K] {c : ConfidenceIntervalConfig K} (hc : c.Valid)
    {window : List (K × K)} (hne : window ≠ []) (hentries : ∀ p ∈ window, Entry p)
    (rng : SplitMix64) :
    Bracketed window (Bootstrap.interval window c rng).1 ∧
      Bracketed window (Bootstrap.interval window c rng).2 := by
  have hpos : ∀ p ∈ window, 0 < p.2 := fun p hp ↦ (hentries p hp).volume_pos
  constructor
  · exact bracketed_of_forall hne fun _ _ h ↦ (Bootstrap.interval_mem_Icc hc hne hpos rng h).1
  · exact bracketed_of_forall hne fun _ _ h ↦ (Bootstrap.interval_mem_Icc hc hne hpos rng h).2

end Windows

section Bucket

variable [IsStrictOrderedRing K] {m : Libm K} {cfg : VpinEngineConfig K} {e : VpinEngine K}
  {closed : ClosedBucket K}

omit [IsStrictOrderedRing K] in
theorem Sound.positiveVolumes (h : Sound cfg e) : e.PositiveVolumes :=
  fun p hp ↦ (h.entries p hp).volume_pos

/-- `|2Φ - 1| ≤ 1`, so an imbalance never exceeds its volume. -/
theorem entry_of_imbalanceOf (hcdf : ∀ x, m.standardNormalCdf x ∈ Set.Icc (0 : K) 1)
    (hvol : 0 < closed.volume) {imbalance : K}
    (h : imbalanceOf m e closed = some imbalance) : Entry (imbalance, closed.volume) := by
  obtain ⟨s, _, himb⟩ := Option.bind_eq_some_iff.mp h
  rcases lt_or_ge 0 s with hs | hs
  · rw [Refinement.bucketImbalance_of_pos hvol hs] at himb
    obtain rfl := Option.some.inj himb
    obtain ⟨hlow, hhigh⟩ := hcdf (closed.deltaP / s)
    have habs : |2 * m.standardNormalCdf (closed.deltaP / s) - 1| ≤ 1 := by
      rw [abs_le]
      constructor <;> linarith
    exact ⟨hvol, mul_nonneg (abs_nonneg _) hvol.le, mul_le_of_le_one_left hvol.le habs⟩
  · rw [Refinement.bucketImbalance_of_not_pos (not_lt.mpr hs)] at himb
    cases himb

theorem Sound.classifyInto_entries (h : Sound cfg e)
    (hcdf : ∀ x, m.standardNormalCdf x ∈ Set.Icc (0 : K) 1) (hvol : 0 < closed.volume) :
    ∀ p ∈ (classifyInto m e closed).imbalances, Entry p := by
  intro p hp
  unfold classifyInto at hp
  split at hp
  · exact h.entries p hp
  · rename_i imbalance himb
    rcases SlidingWindow.mem_push hp with hold | rfl
    · exact h.entries p hold
    · exact entry_of_imbalanceOf hcdf hvol himb

omit [IsStrictOrderedRing K] in
theorem ratio_of_vpinOf {v : K} (h : vpinOf m e closed = some v) :
    v = ratio (classifyInto m e closed).imbalances := by
  obtain ⟨_, _, hscore⟩ := Option.bind_eq_some_iff.mp h
  unfold score at hscore
  split at hscore
  · cases hscore
  · exact (Option.some.inj hscore).symm

omit [IsStrictOrderedRing K] in
theorem pushCdf_window (vpin : Option K) (cdf : Option (EmpiricalCdf K)) :
    (pushCdf vpin cdf).2.map EmpiricalCdf.window = cdf.map EmpiricalCdf.window := by
  rcases vpin with _ | v
  · rfl
  · rcases cdf with _ | c <;> rfl

theorem pushCdf_mem {vpin : Option K} {cdf : Option (EmpiricalCdf K)} {r : K}
    (h : (pushCdf vpin cdf).1 = some r) :
    ∃ c ∈ cdf, r ∈ Set.Icc (1 / (c.window : K)) 1 := by
  rcases vpin with _ | v
  · cases h
  · rcases cdf with _ | c
    · cases h
    · exact ⟨c, rfl, c.rank_push_mem_Icc h⟩

variable [FloorSemiring K]

omit [IsStrictOrderedRing K] [FloorSemiring K] in
theorem ciNext_isSome (vpin : Option K) (window : List (K × K))
    (ci : Option ({c : ConfidenceIntervalConfig K // c.Valid} × SplitMix64)) :
    (ciNext vpin window ci).isSome ↔ ci.isSome := by
  rcases vpin with _ | v
  · rfl
  · rcases ci with _ | ⟨c, rng⟩ <;> rfl

omit [IsStrictOrderedRing K] in
theorem ciBounds_isSome (vpin : Option K) (window : List (K × K))
    (ci : Option ({c : ConfidenceIntervalConfig K // c.Valid} × SplitMix64)) :
    (ciBounds vpin window ci).isSome ↔ ci.isSome ∧ vpin.isSome := by
  rcases vpin with _ | v <;> rcases ci with _ | ⟨c, rng⟩ <;> simp [ciBounds]

theorem ciBounds_bracketed {vpin : Option K} {window : List (K × K)}
    {ci : Option ({c : ConfidenceIntervalConfig K // c.Valid} × SplitMix64)} {bounds : K × K}
    (hne : vpin.isSome → window ≠ []) (hentries : ∀ p ∈ window, Entry p)
    (h : ciBounds vpin window ci = some bounds) :
    Bracketed window bounds.1 ∧ Bracketed window bounds.2 ∧ bounds.1 ≤ bounds.2 := by
  rcases vpin with _ | v
  · cases h
  · rcases ci with _ | ⟨c, rng⟩
    · cases h
    · obtain rfl := Option.some.inj h
      obtain ⟨hlow, hhigh⟩ := interval_bracketed c.2 (hne rfl) hentries rng
      exact ⟨hlow, hhigh, Bootstrap.interval_fst_le_snd c.2 window rng⟩

omit [FloorSemiring K] in
theorem Sound.afterBucket (h : Sound cfg e)
    (hcdf : ∀ x, m.standardNormalCdf x ∈ Set.Icc (0 : K) 1) (hvol : 0 < closed.volume) :
    Sound cfg (afterBucket m e closed) where
  entries := h.classifyInto_entries hcdf hvol
  cdf := (pushCdf_window _ _).trans h.cdf
  ci := (ciNext_isSome _ _ _).trans h.ci

theorem Sound.readingOf_inRange (h : Sound cfg e)
    (hcdf : ∀ x, m.standardNormalCdf x ∈ Set.Icc (0 : K) 1) (hvol : 0 < closed.volume) :
    InRange cfg (VpinEngine.afterBucket m e closed).imbalances (readingOf m e closed) := by
  have hentries := h.classifyInto_entries (m := m) hcdf hvol
  have hne : (vpinOf m e closed).isSome → (classifyInto m e closed).imbalances ≠ [] :=
    classifyInto_ne_nil
  have hsome := ciBounds_isSome (vpinOf m e closed) (classifyInto m e closed).imbalances e.ci
  rw [h.ci] at hsome
  have hbounds : ∀ bounds,
      ciBounds (vpinOf m e closed) (classifyInto m e closed).imbalances e.ci = some bounds → _ :=
    fun bounds ↦ ciBounds_bracketed hne hentries
  refine ⟨?_, ?_, ?_, ?_, ?_⟩
  · simpa [readingOf] using hsome
  · simpa [readingOf] using hsome
  · intro x hx
    have hbracket : Bracketed (classifyInto m e closed).imbalances x := by
      rcases hx with hv | hlow | hhigh
      · rw [ratio_of_vpinOf hv]
        exact ratio_bracketed (hne (Option.isSome_of_eq_some hv)) hentries
      · obtain ⟨bounds, hb, rfl⟩ := Option.map_eq_some_iff.mp hlow
        exact (hbounds bounds hb).1
      · obtain ⟨bounds, hb, rfl⟩ := Option.map_eq_some_iff.mp hhigh
        exact (hbounds bounds hb).2.1
    exact ⟨hbracket, hbracket.mem_Icc hentries⟩
  · intro low hlow high hhigh
    obtain ⟨bounds, hb, rfl⟩ := Option.map_eq_some_iff.mp hlow
    obtain ⟨bounds', hb', rfl⟩ := Option.map_eq_some_iff.mp hhigh
    obtain rfl := Option.some.inj (hb.symm.trans hb')
    exact (hbounds bounds hb).2.2
  · intro r hr
    obtain ⟨c, hc, hmem⟩ := pushCdf_mem hr
    refine ⟨c.window, ?_, hmem⟩
    rw [← h.cdf, Option.mem_def.mp hc]
    rfl

/-- One trade: no fault, the engine stays sound and any reading is in range. -/
theorem Sound.pushTrade (h : Sound cfg e)
    (hcdf : ∀ x, m.standardNormalCdf x ∈ Set.Icc (0 : K) 1) (t : Trade K) :
    ∃ out e', e.pushTrade m t = .ok (out, e') ∧ Sound cfg e' ∧
      ∀ r ∈ out, InRange cfg e'.imbalances r := by
  have hkeep : Sound cfg { e with bucketer := (e.bucketer.push t.price t.volume t.tsNs).2 } :=
    { h with }
  cases hout : (e.bucketer.push t.price t.volume t.tsNs).1 with
  | none => exact ⟨none, _, pushTrade_of_none hout, hkeep, by simp⟩
  | some closed =>
      have hvol := VolumeBucketer.volume_pos_of_push hout
      have hclose := closeBucket_eq m hkeep.positiveVolumes hvol
      refine ⟨_, _, pushTrade_of_some hout hclose, hkeep.afterBucket hcdf hvol, ?_⟩
      rintro r ⟨rfl⟩
      exact hkeep.readingOf_inRange hcdf hvol

theorem Sound.feed (hcdf : ∀ x, m.standardNormalCdf x ∈ Set.Icc (0 : K) 1)
    (tape : List (Trade K)) : ∀ {e : VpinEngine K}, Sound cfg e →
      ∃ rs e', VpinEngine.feed m e tape = .ok (rs, e') ∧ Sound cfg e' := by
  induction tape with
  | nil => exact fun {e} h ↦ ⟨[], e, rfl, h⟩
  | cons t tape ih =>
      intro e h
      obtain ⟨out, e', hpush, h', _⟩ := h.pushTrade hcdf t
      obtain ⟨rs, e'', hfeed, h''⟩ := ih h'
      exact ⟨_, e'', feed_cons hpush hfeed, h''⟩

end Bucket

theorem sound_of_new {cfg : VpinEngineConfig K} {e : VpinEngine K}
    (h : VpinEngine.new cfg = .ok e) : Sound cfg e := by
  have hfresh := fresh_of_new h
  refine ⟨by simp [hfresh.imbalances], ?_, ?_⟩
  · simpa [Function.comp_def] using congrArg (Option.map Prod.fst) hfresh.cdf_eq
  · simpa using congrArg Option.isSome hfresh.ci_eq

/-- After any tape, the next trade is processed without a fault and its reading,
if it closes a bucket, is in range for the VPIN window it leaves behind. -/
theorem reading_inRange (Φ : ℝ → Set.Icc (0 : ℝ) 1) (cfg : VpinEngineConfig ℝ)
    (e : VpinEngine ℝ) (hnew : VpinEngine.new cfg = .ok e) (tape : List (Trade ℝ))
    (t : Trade ℝ) :
    ∃ rs e₁ out e₂, VpinEngine.feed (Libm.exact Φ) e tape = .ok (rs, e₁) ∧
      e₁.pushTrade (Libm.exact Φ) t = .ok (out, e₂) ∧
      ∀ r ∈ out, InRange cfg e₂.imbalances r := by
  have hcdf : ∀ x, (Libm.exact Φ).standardNormalCdf x ∈ Set.Icc (0 : ℝ) 1 := fun x ↦ (Φ x).2
  obtain ⟨rs, e₁, hfeed, h₁⟩ := (sound_of_new hnew).feed hcdf tape
  obtain ⟨out, e₂, hpush, _, hout⟩ := h₁.pushTrade hcdf t
  exact ⟨rs, e₁, out, e₂, hfeed, hpush, hout⟩

open Refinement in
theorem reading_inRange_unit :
    ∃ e, VpinEngine.new unitConfig = .ok e ∧
      ∃ rs e₁ out e₂, VpinEngine.feed (Libm.exact stepCdf) e (unitTape [1, 2]) = .ok (rs, e₁) ∧
        e₁.pushTrade (Libm.exact stepCdf) ⟨2, 1, 0⟩ = .ok (out, e₂) ∧
        ∀ r ∈ out, InRange unitConfig e₂.imbalances r := by
  obtain ⟨e, he⟩ := VpinEngine.new_of_valid unitConfig_valid
  exact ⟨e, he, reading_inRange stepCdf unitConfig e he _ _⟩

end Geiger.Ranges
