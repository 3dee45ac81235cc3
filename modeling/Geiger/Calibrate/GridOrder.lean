import Geiger.Calibrate.Sweep
import Geiger.Vpin.Warmup

/-!
# The order of a grid

The p-values of a sweep depend on the order of the grid exactly through the number of
buckets that the reference was measured on.
-/

namespace Geiger.Calibrate

open Fallible Selection

section Order

variable {K : Type} [Field K] [LinearOrder K]

/-- Some result of the sweep is more accurate. -/
def Below (out : List (SweepResult K)) (r : SweepResult K) : Prop :=
  ∃ r' ∈ out, ∃ a ∈ r.accuracy, ∃ b ∈ r'.accuracy, a < b

structure SameResult (out : List (SweepResult K)) (r r' : SweepResult K) : Prop where
  same : r.withoutPValue = r'.withoutPValue
  pValue : Below out r → r.pValue = r'.pValue

omit [Field K] in
theorem SameResult.trial {out : List (SweepResult K)} {r r' : SweepResult K}
    (h : SameResult out r r') : r.trial = r'.trial := by
  rw [← SweepResult.trial_withoutPValue, h.same, SweepResult.trial_withoutPValue]

variable (m : Libm K) (trades : List (Trade K)) (bucketVolumes : List K)
  (sigmaWindows vpinWindows : List ℕ) (cdfWindow : Option ℕ)

def OnGrid (t : K × UInt64) : Prop :=
  ∃ c ∈ bucketVolumes ×ˢ sigmaWindows ×ˢ vpinWindows, Measures m trades cdfWindow c t

def IsBest (t : K × UInt64) : Prop :=
  OnGrid m trades bucketVolumes sigmaWindows vpinWindows cdfWindow t ∧
    ∀ u, OnGrid m trades bucketVolumes sigmaWindows vpinWindows cdfWindow u → u.1 ≤ t.1

/-- Permuted lists give the same results in another order: stats or error of each
configuration, and the p-value of each that is not among the best. -/
def OrderFree [FloorSemiring K] : Prop :=
  ∀ bvs sws vws, bvs.Perm bucketVolumes → sws.Perm sigmaWindows → vws.Perm vpinWindows →
    ∃ out out', runSweep m trades bucketVolumes sigmaWindows vpinWindows cdfWindow = .ok out ∧
      runSweep m trades bvs sws vws cdfWindow = .ok out' ∧
      ∃ out'', out''.Perm out' ∧ List.Forall₂ (SameResult out) out out''

variable {m trades bucketVolumes sigmaWindows vpinWindows cdfWindow}

theorem onGrid_perm {bvs : List K} {sws vws : List ℕ} (hbvs : bvs.Perm bucketVolumes)
    (hsws : sws.Perm sigmaWindows) (hvws : vws.Perm vpinWindows) {t : K × UInt64} :
    OnGrid m trades bvs sws vws cdfWindow t ↔
      OnGrid m trades bucketVolumes sigmaWindows vpinWindows cdfWindow t := by
  have hgrid := hbvs.product (hsws.product hvws)
  constructor
  · rintro ⟨c, hc, hmeasures⟩
    exact ⟨c, hgrid.mem_iff.mp hc, hmeasures⟩
  · rintro ⟨c, hc, hmeasures⟩
    exact ⟨c, hgrid.mem_iff.mpr hc, hmeasures⟩

theorem isBest_perm {bvs : List K} {sws vws : List ℕ} (hbvs : bvs.Perm bucketVolumes)
    (hsws : sws.Perm sigmaWindows) (hvws : vws.Perm vpinWindows) {t : K × UInt64} :
    IsBest m trades bvs sws vws cdfWindow t ↔
      IsBest m trades bucketVolumes sigmaWindows vpinWindows cdfWindow t := by
  simp only [IsBest, onGrid_perm hbvs hsws hvws]

/-- In a sweep compared with `t`, what is below another result is below `t`. -/
theorem trial_of_below {t : K × UInt64} {out0 out : List (SweepResult K)}
    (hout : List.Forall₂ (ComparedWith m t) out0 out)
    (hmax : ∀ r ∈ out0, ∀ u, r.trial = some u → u.1 ≤ t.1) {r : SweepResult K}
    (h : Below out r) : ∃ u, r.trial = some u ∧ u.1 < t.1 := by
  obtain ⟨r', hr', a, ha, b, hb, hlt⟩ := h
  rw [Option.mem_def, SweepResult.accuracy_eq, Option.map_eq_some_iff] at ha hb
  obtain ⟨u, hu, rfl⟩ := ha
  obtain ⟨v, hv, rfl⟩ := hb
  obtain ⟨r0, hr0, hcompared⟩ := Numbering.exists_of_mem_right hout hr'
  rw [hcompared.trial] at hv
  exact ⟨u, hu, hlt.trans_le (hmax r0 hr0 v hv)⟩

variable [FloorSemiring K]

theorem onGrid_iff {g : K × ℕ × ℕ → SweepResult K}
    (hg : ∀ c, IsCell m trades cdfWindow c (g c)) {t : K × UInt64} :
    OnGrid m trades bucketVolumes sigmaWindows vpinWindows cdfWindow t ↔
      ∃ r ∈ (bucketVolumes ×ˢ sigmaWindows ×ˢ vpinWindows).map g, r.trial = some t := by
  simp only [OnGrid, List.mem_map, exists_exists_and_eq_and, (hg _).trial_iff]

theorem runSweep_eq {g : K × ℕ × ℕ → SweepResult K}
    (hg : ∀ c, IsCell m trades cdfWindow c (g c)) :
    runSweep m trades bucketVolumes sigmaWindows vpinWindows cdfWindow =
      .ok (fillPValues m ((bucketVolumes ×ˢ sigmaWindows ×ˢ vpinWindows).map g)) := by
  rw [runSweep, sweepGrid_eq hg]
  rfl

theorem IsReference.isBest {g : K × ℕ × ℕ → SweepResult K}
    (hg : ∀ c, IsCell m trades cdfWindow c (g c)) {i : ℕ} {t : K × UInt64} {s : Stats K}
    (h : IsReference ((bucketVolumes ×ˢ sigmaWindows ×ˢ vpinWindows).map g) i t s) :
    IsBest m trades bucketVolumes sigmaWindows vpinWindows cdfWindow t := by
  obtain ⟨r, hr, ht⟩ := h.result
  refine ⟨(onGrid_iff hg).mpr ⟨r, List.mem_of_getElem? hr, ht⟩, ?_⟩
  intro u hu
  obtain ⟨r', hr', hu'⟩ := (onGrid_iff hg).mp hu
  exact h.highest r' hr' u hu'

variable [IsStrictOrderedRing K]

/-- With any best result in the last place the p-values refer to that result. -/
theorem OrderFree.pValue
    (h : OrderFree m trades bucketVolumes sigmaWindows vpinWindows cdfWindow) {t : K × UInt64}
    (ht : IsBest m trades bucketVolumes sigmaWindows vpinWindows cdfWindow t)
    {out : List (SweepResult K)}
    (hout : runSweep m trades bucketVolumes sigmaWindows vpinWindows cdfWindow = .ok out)
    {r : SweepResult K} (hr : r ∈ out) {u : K × UInt64} (hu : r.trial = some u)
    (hlt : u.1 < t.1) : r.pValue = twoProportionPValue m (some u.1) u.2 (some t.1) t.2 := by
  obtain ⟨g, hg⟩ := exists_cells m trades cdfWindow
  obtain ⟨⟨⟨bv, sw, vw⟩, hmem, hmeasures⟩, hmax⟩ := ht
  have hgt : (g (bv, sw, vw)).trial = some t := ((hg _).trial_iff t).mpr hmeasures
  simp only [List.mem_product] at hmem
  obtain ⟨hbv, hsw, hvw⟩ := hmem
  obtain ⟨bvs, hbvs⟩ := exists_perm_concat hbv
  obtain ⟨sws, hsws⟩ := exists_perm_concat hsw
  obtain ⟨vws, hvws⟩ := exists_perm_concat hvw
  -- the permuted grid ends with the configuration of `t`
  obtain ⟨pairs, hpairs⟩ := product_concat sws sw vws vw
  obtain ⟨cells, hcells⟩ := product_concat bvs bv pairs (sw, vw)
  have hgrid : (cells ++ [(bv, sw, vw)]).Perm (bucketVolumes ×ˢ sigmaWindows ×ˢ vpinWindows) := by
    rw [← hcells, ← hpairs]
    exact hbvs.product (hsws.product hvws)
  have hlower : ∀ r' ∈ cells.map g, ∀ u, r'.trial = some u → u.1 ≤ t.1 := by
    intro r' hr' u hu
    obtain ⟨c, hc, rfl⟩ := List.mem_map.mp hr'
    exact hmax u ⟨c, hgrid.mem_iff.mp (List.mem_append_left _ hc), ((hg c).trial_iff u).mp hu⟩
  obtain ⟨s, hreference⟩ := isReference_concat hgt hlower
  have hcompared := hreference.comparedWith m
  obtain ⟨out₁, out', hout₁, hout', out'', hperm, hsame⟩ := h _ _ _ hbvs hsws hvws
  obtain rfl := Except.ok.inj (hout.symm.trans hout₁)
  rw [runSweep_eq hg, hpairs, hcells, List.map_append, List.map_singleton] at hout'
  obtain rfl := Except.ok.inj hout'
  -- the entry of `r` in the permuted sweep, and the entry of `t` in the given one
  obtain ⟨r', hr', hrr'⟩ := Numbering.exists_of_mem_left hsame hr
  obtain ⟨r0, hr0, hr0'⟩ := Numbering.exists_of_mem_right hcompared (hperm.mem_iff.mp hr')
  obtain ⟨b', hb', hlast⟩ := Numbering.exists_of_mem_left hcompared
    (List.mem_append_right _ (List.mem_singleton_self (g (bv, sw, vw))))
  obtain ⟨b, hb, hbb'⟩ := Numbering.exists_of_mem_right hsame (hperm.mem_iff.mpr hb')
  have hbelow : Below out r := by
    refine ⟨b, hb, u.1, ?_, t.1, ?_, hlt⟩
    · exact SweepResult.accuracy_of_trial hu
    · exact SweepResult.accuracy_of_trial (hbb'.trial.trans (hlast.trial.trans hgt))
  rw [hrr'.pValue hbelow]
  apply hr0'.pValue u _ hlt
  rw [← hr0'.trial, ← hrr'.trial, hu]

theorem OrderFree.pValue_eq
    (h : OrderFree m trades bucketVolumes sigmaWindows vpinWindows cdfWindow)
    {t t' u : K × UInt64}
    (ht : IsBest m trades bucketVolumes sigmaWindows vpinWindows cdfWindow t)
    (ht' : IsBest m trades bucketVolumes sigmaWindows vpinWindows cdfWindow t')
    (hu : OnGrid m trades bucketVolumes sigmaWindows vpinWindows cdfWindow u) (hlt : u.1 < t.1) :
    twoProportionPValue m (some u.1) u.2 (some t.1) t.2 =
      twoProportionPValue m (some u.1) u.2 (some t'.1) t'.2 := by
  obtain ⟨g, hg⟩ := exists_cells m trades cdfWindow
  obtain ⟨r0, hr0, hu0⟩ := (onGrid_iff hg).mp hu
  obtain ⟨i, v, s, href⟩ := exists_reference hr0 hu0
  obtain ⟨r, hr, hcompared⟩ := Numbering.exists_of_mem_left (href.comparedWith m) hr0
  have hur : r.trial = some u := hcompared.trial.trans hu0
  have hlt' : u.1 < t'.1 := hlt.trans_le (ht'.2 t ht.1)
  rw [← h.pValue ht (runSweep_eq hg) hr hur hlt, ← h.pValue ht' (runSweep_eq hg) hr hur hlt']

/-- The p-values keep their order when all best results give them alike. -/
theorem orderFree_of_forall
    (h : ∀ t t' u, IsBest m trades bucketVolumes sigmaWindows vpinWindows cdfWindow t →
      IsBest m trades bucketVolumes sigmaWindows vpinWindows cdfWindow t' →
      OnGrid m trades bucketVolumes sigmaWindows vpinWindows cdfWindow u → u.1 < t.1 →
      twoProportionPValue m (some u.1) u.2 (some t.1) t.2 =
        twoProportionPValue m (some u.1) u.2 (some t'.1) t'.2) :
    OrderFree m trades bucketVolumes sigmaWindows vpinWindows cdfWindow := by
  obtain ⟨g, hg⟩ := exists_cells m trades cdfWindow
  intro bvs sws vws hbvs hsws hvws
  refine ⟨_, _, runSweep_eq hg, runSweep_eq hg, ?_⟩
  have hgrid : ((bucketVolumes ×ˢ sigmaWindows ×ˢ vpinWindows).map g).Perm
      ((bvs ×ˢ sws ×ˢ vws).map g) := (hbvs.product (hsws.product hvws)).symm.map g
  by_cases hnone : ∀ r ∈ (bucketVolumes ×ˢ sigmaWindows ×ˢ vpinWindows).map g, r.trial = none
  · have hnone' : ∀ r ∈ (bvs ×ˢ sws ×ˢ vws).map g, r.trial = none :=
      fun r hr ↦ hnone r (hgrid.mem_iff.mpr hr)
    rw [fillPValues_of_no_trial m hnone, fillPValues_of_no_trial m hnone']
    exact ⟨_, hgrid, List.forall₂_same.mpr fun r _ ↦ ⟨rfl, fun _ ↦ rfl⟩⟩
  · simp only [not_forall] at hnone
    obtain ⟨r, hr, htrial⟩ := hnone
    obtain ⟨v, hv⟩ := Option.ne_none_iff_exists'.mp htrial
    obtain ⟨i, t, s, href⟩ := exists_reference hr hv
    obtain ⟨i', t', s', href'⟩ := exists_reference (hgrid.mem_iff.mp hr) hv
    have hbest := href.isBest hg
    have hbest' : IsBest m trades bucketVolumes sigmaWindows vpinWindows cdfWindow t' :=
      (isBest_perm hbvs hsws hvws).mp (href'.isBest hg)
    have hcompared := href.comparedWith m
    obtain ⟨out'', hcompared', hperm⟩ := List.perm_comp_forall₂ hgrid (href'.comparedWith m)
    refine ⟨out'', hperm, Numbering.forall₂_of_common hcompared hcompared' ?_⟩
    intro r hr b c hb hc
    refine ⟨hb.same.trans hc.same.symm, fun hbelow ↦ ?_⟩
    obtain ⟨u, hu, hlt⟩ := trial_of_below hcompared href.highest hbelow
    rw [hb.trial] at hu
    rw [hb.pValue u hu hlt, hc.pValue u hu (hlt.trans_le (hbest'.2 t hbest.1))]
    exact h t t' u hbest hbest' ((onGrid_iff hg).mpr ⟨r, hr, hu⟩) hlt

end Order

/-! ## Equally good results -/

section Ties

theorem Comparison.accuracy_mem_Icc {K : Type} [Field K] [LinearOrder K] [IsStrictOrderedRing K]
    {vs : List (Comparison K)} {a : K} (h : (Comparison.summary vs).accuracy = some a) :
    a ∈ Set.Icc 0 1 := by
  have hle : (vs.countP (decide ·.Agrees) : K) ≤ vs.length := by
    exact_mod_cast List.countP_le_length
  simp only [Comparison.summary, Option.ite_none_right_eq_some, Option.some.injEq] at h
  obtain ⟨-, rfl⟩ := h
  exact ⟨div_nonneg (Nat.cast_nonneg _) (Nat.cast_nonneg _),
    div_le_one_of_le₀ hle (Nat.cast_nonneg _)⟩

theorem OnGrid.accuracy_mem_Icc {K : Type} [Field K] [LinearOrder K] [IsStrictOrderedRing K]
    {m : Libm K} {trades : List (Trade K)} {bucketVolumes : List K}
    {sigmaWindows vpinWindows : List ℕ} {cdfWindow : Option ℕ} {t : K × UInt64}
    (h : OnGrid m trades bucketVolumes sigmaWindows vpinWindows cdfWindow t) :
    t.1 ∈ Set.Icc 0 1 := by
  obtain ⟨c, -, hvalid, bvc, hbvc, haccuracy, -⟩ := h
  obtain ⟨engine, hnew⟩ := VpinEngine.new_of_valid hvalid
  have hfresh := VpinEngine.fresh_of_new hnew
  have hsummary := returns_summary hfresh.bucketer hfresh.sigma m trades
  obtain rfl := Except.ok.inj (Except.ok.inj (hbvc.symm.trans hsummary))
  exact Comparison.accuracy_mem_Icc haccuracy

variable {Φ : ℝ → ℝ} (trades : List (Trade ℝ)) (bucketVolumes : List ℝ)
  (sigmaWindows vpinWindows : List ℕ) (cdfWindow : Option ℕ)

/-- The best results agree on the size of the sample as far as the test of a lower
result looks at it. -/
def PositionFree (m : Libm ℝ) : Prop :=
  ∀ t t' u, IsBest m trades bucketVolumes sigmaWindows vpinWindows cdfWindow t →
    IsBest m trades bucketVolumes sigmaWindows vpinWindows cdfWindow t' →
    OnGrid m trades bucketVolumes sigmaWindows vpinWindows cdfWindow u → u.1 < t.1 →
    minCompared ≤ u.2 → AlikeFor t.1 t.2 t'.2

/-- The p-values of a sweep are free of the order of its grid exactly when all the best
results make the same reference. -/
theorem orderFree_iff (hΦ : StrictMono Φ) :
    OrderFree ⟨Real.sqrt, Φ⟩ trades bucketVolumes sigmaWindows vpinWindows cdfWindow ↔
      PositionFree trades bucketVolumes sigmaWindows vpinWindows cdfWindow ⟨Real.sqrt, Φ⟩ := by
  constructor
  · intro h t t' u ht ht' hu hlt htested
    have heq : t'.1 = t.1 := le_antisymm (ht.2 t' ht'.1) (ht'.2 t ht.1)
    have hvalue := h.pValue_eq ht ht' hu hlt
    rw [heq] at hvalue
    exact (twoProportionPValue_eq_iff hΦ hu.accuracy_mem_Icc.1 hlt ht.1.accuracy_mem_Icc.2
      htested).mp hvalue
  · intro h
    apply orderFree_of_forall
    intro t t' u ht ht' hu hlt
    have heq : t'.1 = t.1 := le_antisymm (ht.2 t' ht'.1) (ht'.2 t ht.1)
    rw [heq]
    by_cases htested : minCompared ≤ u.2
    · exact (twoProportionPValue_eq_iff hΦ hu.accuracy_mem_Icc.1 hlt ht.1.accuracy_mem_Icc.2
        htested).mpr (h t t' u ht ht' hu hlt htested)
    · have hfew (n : UInt64) : u.2 < minCompared ∨ n < minCompared :=
        .inl (UInt64.not_le.mp htested)
      rw [(twoProportionPValue_eq_none_iff _).mpr (hfew t.2),
        (twoProportionPValue_eq_none_iff _).mpr (hfew t'.2)]

theorem orderFree_iff_sigmoid :
    OrderFree ⟨Real.sqrt, Real.sigmoid⟩ (sidedTape [(1, .buy), (2, .buy), (1, .sell)]) [1] [2, 3]
        [1] none ↔
      PositionFree (sidedTape [(1, .buy), (2, .buy), (1, .sell)]) [1] [2, 3] [1] none
        ⟨Real.sqrt, Real.sigmoid⟩ :=
  orderFree_iff _ _ _ _ _ Real.sigmoid_strictMono

end Ties

/-! ## A tape that swings between two prices -/

section Swings

variable {K : Type} [Field K] [LinearOrder K]

/-- The buy fraction of a bucket of one trade. -/
def sideFrac : TakerSide → K
  | .buy => 1
  | .sell => 0

/-- What the pass compares when a unit trade moves the price by `deltaP`. -/
def unitComparison (m : Libm K) (sigma : Option K) (deltaP : K) (side : TakerSide) :
    Option (Comparison K) :=
  (sigma.bind (Bvc.buyFraction m deltaP)).map fun bvcFrac ↦ ⟨bvcFrac, sideFrac side⟩

namespace BvcPass

/-- The next unit trade closes a bucket, its change measured from `reference`. -/
structure Unfilled (p : BvcPass K) (reference : K → K) : Prop where
  targetVolume : p.bucketer.targetVolume = 1
  accVolume : p.bucketer.accVolume = 0
  referencePrice : ∀ price, p.bucketer.referencePrice price = some (reference price)
  buyVol : p.buyVol = 0
  sellVol : p.sellVol = 0

variable {p : BvcPass K} {reference : K → K}

theorem Unfilled.push (h : p.Unfilled reference) (price : K) : ∃ closed bucketer,
    p.bucketer.push price 1 0 = (some closed, bucketer) ∧ closed.volume = 1 ∧
      closed.deltaP = price - reference price ∧ bucketer.targetVolume = 1 ∧
      bucketer.accVolume = 0 ∧ ∀ next, bucketer.referencePrice next = some price := by
  have hle : p.bucketer.targetVolume ≤ p.bucketer.accVolume + 1 := by
    rw [h.targetVolume, h.accVolume, zero_add]
  refine ⟨_, _, VolumeBucketer.push_of_le 0 hle, ?_, ?_, h.targetVolume, rfl, fun _ ↦ rfl⟩
  · rw [h.accVolume, zero_add]
  · rw [h.referencePrice, Option.getD_some]

theorem Unfilled.step (m : Libm K) (h : p.Unfilled reference) (price : K) (side : TakerSide) :
    ∃ p' : BvcPass K, p.pushTrade m ⟨⟨price, 1, 0⟩, side⟩ = .ok p' ∧
      p'.Unfilled (fun _ ↦ price) ∧ p'.sigma = p.sigma.push m (price - reference price) ∧
      p.comparison m ⟨⟨price, 1, 0⟩, side⟩ =
        unitComparison m p.sigma.current (price - reference price) side := by
  obtain ⟨closed, bucketer, hpush, hvolume, hdelta, htarget, hacc, href⟩ := h.push price
  have hbalanced : p.Balanced := by
    rw [Balanced, h.buyVol, h.sellVol, VolumeBucketer.partialVolume, h.accVolume, add_zero]
  have hclosed := congrArg Prod.fst hpush
  refine ⟨_, pushTrade_close (t := ⟨⟨price, 1, 0⟩, side⟩) hclosed hbalanced, ?_, ?_, ?_⟩
  · constructor <;> simp only [judge_bucketer, hpush] <;> assumption
  · rw [hdelta]
  · rw [comparison_of_some hclosed hbalanced, ← hdelta]
    have hside : (p.addSide ⟨⟨price, 1, 0⟩, side⟩).buyVol = sideFrac side := by
      cases side
      · exact (congrArg (· + 1) h.buyVol).trans (zero_add 1)
      · exact h.buyVol
    rw [hside, hvolume, div_one]
    cases p.sigma.current with
    | none => rfl
    | some sigma =>
        by_cases hsigma : 0 < sigma <;>
          simp [Closing.buyFrac, Bvc.classify, Bvc.buyFraction, unitComparison, hvolume, hsigma]

end BvcPass

variable {Φ : ℝ → ℝ}

theorem NormalShape.half_lt_iff (hΦ : NormalShape Φ) {deltaP sigma : ℝ} (hsigma : 0 < sigma) :
    0.5 < Φ (deltaP / sigma) ↔ 0 < deltaP := by
  rw [← hΦ.zero, hΦ.strictMono.lt_iff_lt, div_pos_iff_of_pos_right hsigma]

/-- A unit trade agrees with a move to its own side. -/
theorem exists_unitComparison (hΦ : NormalShape Φ) {sigma : ℝ} (hsigma : 0 < sigma) (deltaP : ℝ)
    (side : TakerSide) : ∃ v, unitComparison ⟨Real.sqrt, Φ⟩ (some sigma) deltaP side = some v ∧
      (v.Agrees ↔ (0 < deltaP ↔ side = .buy)) := by
  refine ⟨⟨Φ (deltaP / sigma), sideFrac side⟩, ?_, ?_⟩
  · simp [unitComparison, Bvc.buyFraction, hsigma]
  · rw [Comparison.Agrees, hΦ.half_lt_iff hsigma]
    cases side <;> simp [sideFrac] <;> norm_num

noncomputable def level : TakerSide → ℝ
  | .buy => ((2 : ℕ) : ℝ)
  | .sell => 1

noncomputable def move : TakerSide → ℝ
  | .buy => 1
  | .sell => -1

noncomputable def zigzag : TakerSide → ℕ → List (ℝ × TakerSide)
  | _, 0 => []
  | side, n + 1 => (level side, side) :: zigzag side.flip n

theorem level_sub (side : TakerSide) : level side - level side.flip = move side := by
  cases side <;> norm_num [level, move, TakerSide.flip]

theorem move_pos_iff (side : TakerSide) : 0 < move side ↔ side = .buy := by
  cases side <;> simp [move]

theorem move_ne (side : TakerSide) : move side ≠ move side.flip := by
  cases side <;> norm_num [move, TakerSide.flip]

theorem estimate_swings (Φ : ℝ → ℝ) {w : ℕ} (hw : 2 ≤ w) {buf : List ℝ} (hlen : buf.length = w)
    {a b : ℝ} (ha : a ∈ buf) (hb : b ∈ buf) (hab : a ≠ b) :
    ∃ sigma, RollingSigma.estimate ⟨Real.sqrt, Φ⟩ w buf = some sigma ∧ 0 < sigma := by
  refine ⟨_, RollingSigma.estimate_of_length_eq _ hlen, ?_⟩
  apply (Warmup.sampleStd_pos_iff (fun _ ↦ 0) (hlen ▸ hw)).mpr
  rintro ⟨d, hd⟩
  exact hab ((hd a ha).trans (hd b hb).symm)

/-- The pass has just seen a trade on the other side of the swing. -/
structure BvcPass.Swinging (Φ : ℝ → ℝ) (p : BvcPass ℝ) (side : TakerSide) : Prop where
  unfilled : p.Unfilled fun _ ↦ level side.flip
  buf : ∃ earlier, p.sigma.buf = earlier ++ [move side, move side.flip]
  current : p.sigma.current = RollingSigma.estimate ⟨Real.sqrt, Φ⟩ p.sigma.window p.sigma.buf

variable {p : BvcPass ℝ} {side : TakerSide}

theorem BvcPass.Swinging.step (hΦ : NormalShape Φ) (h : p.Swinging Φ side)
    (trades : List (ℝ × TakerSide)) : ∃ (p' : BvcPass ℝ) (vs : List (Comparison ℝ)),
      p'.Swinging Φ side.flip ∧ p'.sigma.window = p.sigma.window ∧
      p'.sigma.buf.length = min (p.sigma.buf.length + 1) p.sigma.window ∧
      p.comparisons ⟨Real.sqrt, Φ⟩ (sidedTape ((level side, side) :: trades)) =
        vs ++ p'.comparisons ⟨Real.sqrt, Φ⟩ (sidedTape trades) ∧
      (∀ v ∈ vs, v.Agrees) ∧ vs.length = if p.sigma.buf.length = p.sigma.window then 1 else 0 := by
  obtain ⟨p', hpush, hunfilled, hsigma, hcomparison⟩ :=
    h.unfilled.step ⟨Real.sqrt, Φ⟩ (level side) side
  rw [level_sub] at hsigma hcomparison
  obtain ⟨earlier, hbuf⟩ := h.buf
  have hw := p.sigma.two_le_window
  have hle := p.sigma.length_buf_le
  refine ⟨p', (unitComparison ⟨Real.sqrt, Φ⟩ p.sigma.current (move side) side).toList,
    ⟨?_, ?_, ?_⟩, ?_, ?_, ?_, ?_⟩
  · rwa [TakerSide.flip_flip]
  · rw [TakerSide.flip_flip, hsigma, RollingSigma.push_buf, SlidingWindow.push, hbuf]
    split
    · cases earlier with
      | nil => exact ⟨[], rfl⟩
      | cons a earlier => exact ⟨earlier ++ [move side], by simp⟩
    · exact ⟨earlier ++ [move side], by simp⟩
  · rw [hsigma]
    rfl
  · rw [hsigma]
    rfl
  · rw [hsigma, RollingSigma.push_buf, SlidingWindow.length_push _ (by omega) hle]
  · rw [sidedTape, List.map_cons, comparisons, hpush, hcomparison]
    rfl
  · rw [h.current]
    by_cases hfull : p.sigma.buf.length = p.sigma.window
    · obtain ⟨sigma, hestimate, hpos⟩ := estimate_swings Φ hw hfull
        (a := move side) (b := move side.flip) (by simp [hbuf]) (by simp [hbuf]) (move_ne side)
      obtain ⟨v, hv, hagrees⟩ := exists_unitComparison hΦ hpos (move side) side
      rw [hestimate, hv, if_pos hfull]
      refine ⟨fun v' hv' ↦ ?_, rfl⟩
      obtain rfl := List.mem_singleton.mp hv'
      exact hagrees.mpr (move_pos_iff side)
    · rw [RollingSigma.estimate_of_lt _ (lt_of_le_of_ne hle hfull), if_neg hfull]
      exact ⟨List.forall_mem_nil _, rfl⟩

theorem BvcPass.Swinging.run (hΦ : NormalShape Φ) (h : p.Swinging Φ side) (n : ℕ) :
    (∀ v ∈ p.comparisons ⟨Real.sqrt, Φ⟩ (sidedTape (zigzag side n)), v.Agrees) ∧
      (p.comparisons ⟨Real.sqrt, Φ⟩ (sidedTape (zigzag side n))).length =
        n - (p.sigma.window - p.sigma.buf.length) := by
  induction n generalizing p side with
  | zero => exact ⟨List.forall_mem_nil _, (Nat.zero_sub _).symm⟩
  | succ n ih =>
      obtain ⟨p', vs, hnext, hwindow, hlen, hcomparisons, hagree, hcount⟩ :=
        h.step hΦ (zigzag side.flip n)
      obtain ⟨hagree', hcount'⟩ := ih hnext
      have hle := p.sigma.length_buf_le
      rw [zigzag, hcomparisons]
      constructor
      · intro v hv
        exact (List.mem_append.mp hv).elim (hagree v) (hagree' v)
      · rw [List.length_append, hcount, hcount', hwindow, hlen]
        split <;> omega

/-- A fall that was bought, and a zigzag after it. -/
noncomputable def swingTape (n : ℕ) : List (ℝ × TakerSide) :=
  (level .sell, .buy) :: (level .buy, .buy) :: (level .sell, .buy) :: zigzag .buy n

/-- A sigma from `[0, 1]` is there only for the window of two. -/
theorem fall_bought (hΦ : NormalShape Φ) {w : ℕ} (hw : 2 ≤ w) {vs : List (Comparison ℝ)}
    (hvs : vs = (unitComparison ⟨Real.sqrt, Φ⟩
      (RollingSigma.estimate ⟨Real.sqrt, Φ⟩ w [0, 1]) (-1) .buy).toList) :
    (∀ v ∈ vs, ¬ v.Agrees) ∧ vs.length = 3 - w := by
  rcases hw.eq_or_lt with rfl | hw
  · obtain ⟨sigma, hestimate, hpos⟩ := estimate_swings Φ le_rfl
      (show [(0 : ℝ), 1].length = 2 from rfl) (a := 0) (b := 1) (by simp) (by simp) zero_ne_one
    obtain ⟨v, hv, hagrees⟩ := exists_unitComparison hΦ hpos (-1) .buy
    rw [hestimate, hv] at hvs
    subst hvs
    refine ⟨?_, rfl⟩
    intro v' hv' hagrees'
    obtain rfl := List.mem_singleton.mp hv'
    have hrise := (hagrees.mp hagrees').mpr rfl
    norm_num at hrise
  · rw [RollingSigma.estimate_of_lt _ hw] at hvs
    subst hvs
    exact ⟨List.forall_mem_nil _, (Nat.sub_eq_zero_of_le hw).symm⟩

/-- Sigma after no change, a rise and a fall. -/
theorem sigma_of_swing (m : Libm ℝ) {w : ℕ} {s s₁ s₂ s₃ : RollingSigma ℝ}
    (hnew : RollingSigma.new w = .ok s) (h₁ : s₁ = s.push m 0) (h₂ : s₂ = s₁.push m 1)
    (h₃ : s₃ = s₂.push m (-1)) : s₁.current = none ∧ s₂.current = RollingSigma.estimate m w [0, 1] ∧
      s₃.window = w ∧ s₃.buf.length = min 3 w ∧
      ∃ earlier, s₃.buf = earlier ++ [1, -1] := by
  obtain ⟨hw, rfl, hbuf, -⟩ := RollingSigma.new_eq_ok hnew
  have hbuf₁ : s₁.buf = [0] := by
    rw [h₁, RollingSigma.push_buf, hbuf, SlidingWindow.push]
    simp
  have hbuf₂ : s₂.buf = [0, 1] := by
    have hroom : [(0 : ℝ)].length ≠ s.window := Nat.ne_of_lt hw
    rw [h₂, RollingSigma.push_buf, hbuf₁, h₁, SlidingWindow.push]
    exact congrArg (· ++ [1]) (if_neg hroom)
  have hbuf₃ : s₃.buf = (if [(0 : ℝ), 1].length = s.window then [1] else [0, 1]) ++ [-1] := by
    rw [h₃, RollingSigma.push_buf, hbuf₂, h₂, h₁]
    rfl
  refine ⟨?_, ?_, ?_, ?_, ?_⟩
  · rw [h₁, RollingSigma.push_current, ← h₁, hbuf₁]
    exact RollingSigma.estimate_of_lt m hw
  · rw [h₂, RollingSigma.push_current, ← h₂, hbuf₂, h₁]
    rfl
  · rw [h₃, h₂, h₁]
    rfl
  · rw [hbuf₃]
    split <;> simp_all <;> omega
  · rw [hbuf₃]
    split
    · exact ⟨[], rfl⟩
    · exact ⟨[0], rfl⟩

theorem comparisons_swingTape (hΦ : NormalShape Φ) {w : ℕ} {bucketer : VolumeBucketer ℝ}
    {sigma : RollingSigma ℝ} (hbucketer : VolumeBucketer.new 1 = .ok bucketer)
    (hsigma : RollingSigma.new w = .ok sigma) (n : ℕ) : ∃ vs vs' : List (Comparison ℝ),
      (BvcPass.new bucketer sigma).comparisons ⟨Real.sqrt, Φ⟩ (sidedTape (swingTape n)) =
        vs ++ vs' ∧ (∀ v ∈ vs, ¬ v.Agrees) ∧ vs.length = 3 - w ∧ (∀ v ∈ vs', v.Agrees) ∧
      vs'.length = n - (w - 3) := by
  obtain ⟨-, htarget, -, hacc, -, href⟩ := VolumeBucketer.new_eq_ok hbucketer
  have hunfilled : (BvcPass.new bucketer sigma).Unfilled id := ⟨htarget, hacc, href, rfl, rfl⟩
  obtain ⟨p₁, hp₁, hunfilled₁, hsigma₁, hcomparison₁⟩ :=
    hunfilled.step ⟨Real.sqrt, Φ⟩ (level .sell) .buy
  obtain ⟨p₂, hp₂, hunfilled₂, hsigma₂, hcomparison₂⟩ :=
    hunfilled₁.step ⟨Real.sqrt, Φ⟩ (level .buy) .buy
  obtain ⟨p₃, hp₃, hunfilled₃, hsigma₃, hcomparison₃⟩ :=
    hunfilled₂.step ⟨Real.sqrt, Φ⟩ (level .sell) .buy
  have hrise : level .buy - level .sell = 1 := level_sub .buy
  have hfall : level .sell - level .buy = -1 := level_sub .sell
  rw [id_eq, sub_self] at hsigma₁
  rw [hrise] at hsigma₂
  rw [hfall] at hsigma₃ hcomparison₃
  obtain ⟨hcurrent₁, hcurrent₂, hwindow, hlen, earlier, hbuf⟩ :=
    sigma_of_swing _ hsigma hsigma₁ hsigma₂ hsigma₃
  obtain ⟨hw, -, -, hcurrent⟩ := RollingSigma.new_eq_ok hsigma
  have hnone : (BvcPass.new bucketer sigma).sigma.current = none := hcurrent
  have hswinging : p₃.Swinging Φ .buy := by
    refine ⟨hunfilled₃, ⟨earlier, hbuf⟩, ?_⟩
    rw [hsigma₃]
    rfl
  obtain ⟨hagree, hcount⟩ := hswinging.run hΦ n
  obtain ⟨hwrong, hcount'⟩ := fall_bought hΦ hw rfl
  refine ⟨_, _, ?_, hwrong, hcount', hagree, ?_⟩
  · rw [← hcurrent₂]
    simp only [swingTape, sidedTape, List.map_cons, BvcPass.comparisons, hp₁, hp₂, hp₃,
      hcomparison₁, hcomparison₂, hcomparison₃, hnone, hcurrent₁]
    rfl
  · rw [hcount, hwindow, hlen]
    omega

theorem summary_of_split {vs vs' : List (Comparison ℝ)} (hwrong : ∀ v ∈ vs, ¬ v.Agrees)
    (hagree : ∀ v ∈ vs', v.Agrees) (hpos : 0 < vs.length + vs'.length) :
    (Comparison.summary (vs ++ vs')).accuracy =
        some ((vs'.length : ℝ) / ((vs.length + vs'.length : ℕ) : ℝ)) ∧
      (Comparison.summary (vs ++ vs')).compared = vs.length + vs'.length := by
  have hwrong' : vs.countP (decide ·.Agrees) = 0 :=
    List.countP_eq_zero.mpr fun v hv ↦ by simpa using hwrong v hv
  have hagree' : vs'.countP (decide ·.Agrees) = vs'.length :=
    List.countP_eq_length.mpr fun v hv ↦ by simpa using hagree v hv
  simp only [Comparison.summary, List.countP_append, List.length_append, hwrong', hagree',
    zero_add, if_pos hpos, and_self]

/-- The fall that was bought is compared only with the shortest window. -/
theorem measures_swingTape (hΦ : NormalShape Φ) {w n : ℕ} (hw : 2 ≤ w) (hn : w < n + 3) :
    Measures ⟨Real.sqrt, Φ⟩ (sidedTape (swingTape n)) none (1, w, 1)
      (((n - (w - 3) : ℕ) : ℝ) / ((3 - w + (n - (w - 3)) : ℕ) : ℝ),
        UInt64.ofNat (3 - w + (n - (w - 3)))) := by
  have hvalid : (engineConfig (1 : ℝ) w 1 none).Valid := by
    refine ⟨one_pos, hw, le_rfl, ?_, ?_⟩ <;> rintro _ ⟨⟩
  have hbucketer : VolumeBucketer.new (1 : ℝ) = .ok _ := dif_pos one_pos
  have hsigma : RollingSigma.new (K := ℝ) w = .ok _ := dif_neg (not_lt.mpr hw)
  obtain ⟨vs, vs', hcomparisons, hwrong, hlen, hagree, hlen'⟩ :=
    comparisons_swingTape hΦ hbucketer hsigma n
  obtain ⟨haccuracy, hcompared⟩ := summary_of_split hwrong hagree (by omega)
  refine ⟨hvalid, _, returns_summary hbucketer hsigma _ _, ?_, ?_⟩
  · rw [hcomparisons, haccuracy, hlen, hlen']
  · rw [hcomparisons, hcompared, hlen, hlen']

/-- One grid in two orders: against a best result with a single bucket there is no
p-value, against one with thirty there is. -/
theorem swings_depend_on_order :
    ¬ OrderFree ⟨Real.sqrt, Real.sigmoid⟩ (sidedTape (swingTape 30)) [1] [2, 3, 32] [1] none := by
  intro h
  have hmeasures {w : ℕ} (hw : 2 ≤ w) (hw' : w < 33) :=
    measures_swingTape normalShape_sigmoid hw (n := 30) hw'
  have hgrid {w : ℕ} (hw : w ∈ [2, 3, 32]) :
      ((1 : ℝ), w, 1) ∈ [(1 : ℝ)] ×ˢ [2, 3, 32] ×ˢ [1] := by simpa using hw
  have hlow := hmeasures (w := 2) le_rfl (by decide)
  have hmany := hmeasures (w := 3) (by decide) (by decide)
  have hfew := hmeasures (w := 32) (by decide) (by decide)
  norm_num at hlow hmany hfew
  have hbest {n : UInt64} {w : ℕ} (hw : w ∈ [2, 3, 32])
      (ht : Measures ⟨Real.sqrt, Real.sigmoid⟩ (sidedTape (swingTape 30)) none (1, w, 1) (1, n)) :
      IsBest ⟨Real.sqrt, Real.sigmoid⟩ (sidedTape (swingTape 30)) [1] [2, 3, 32] [1] none (1, n) :=
    ⟨⟨_, hgrid hw, ht⟩, fun u hu ↦ hu.accuracy_mem_Icc.2⟩
  have hvalue := h.pValue_eq (hbest (by decide) hmany) (hbest (by decide) hfew)
    ⟨_, hgrid (by decide), hlow⟩ (by norm_num)
  have hnone := (twoProportionPValue_eq_none_iff ⟨Real.sqrt, Real.sigmoid⟩).mp
    (hvalue.trans ((twoProportionPValue_eq_none_iff _).mpr (.inr (by decide))))
  exact absurd hnone (by decide)

end Swings

end Geiger.Calibrate
