import Geiger.Library.Fallible
import Geiger.Vpin.Bootstrap
import Geiger.Vpin.Window

/-!
# The streaming engine

`closeBucket` is the part of `push_trade` that runs when the bucketer closes a
bucket: classify with the sigma of the buckets before, then advance sigma.
-/

namespace Geiger

variable {K : Type}

structure VpinReading (K : Type) where
  bucketId : ℕ
  tsCloseNs : UInt64
  tradesInBucket : UInt32
  vpin : Option K
  vpinCdf : Option K
  vpinCiLow : Option K
  vpinCiHigh : Option K

structure VpinEngineConfig (K : Type) where
  bucketVolume : K
  sigmaWindow : ℕ
  vpinWindow : ℕ
  cdfWindow : Option ℕ
  confidenceInterval : Option (ConfidenceIntervalConfig K)

variable [Field K] [LinearOrder K]

structure VpinEngineConfig.Valid (cfg : VpinEngineConfig K) : Prop where
  bucketVolume_pos : 0 < cfg.bucketVolume
  two_le_sigmaWindow : 2 ≤ cfg.sigmaWindow
  one_le_vpinWindow : 1 ≤ cfg.vpinWindow
  two_le_cdfWindow : ∀ n ∈ cfg.cdfWindow, 2 ≤ n
  confidenceInterval : ∀ c ∈ cfg.confidenceInterval, c.Valid

def bucketImbalance (m : Libm K) (bucket : ClosedBucket K) (sigma : K) : Option K := do
  let (buy, sell) ← Bvc.classify m bucket.deltaP sigma bucket.volume
  return |buy - sell|

structure VpinEngine (K : Type) [Field K] [LinearOrder K] where
  bucketer : VolumeBucketer K
  sigma : RollingSigma K
  /-- (imbalance, actual bucket volume) pairs. -/
  imbalances : List (K × K)
  vpinWindow : ℕ
  vpinWindow_pos : 1 ≤ vpinWindow
  length_imbalances_le : imbalances.length ≤ vpinWindow
  cdf : Option (EmpiricalCdf K)
  ci : Option ({c : ConfidenceIntervalConfig K // c.Valid} × SplitMix64)

namespace VpinEngine

def newCi : Option (ConfidenceIntervalConfig K) →
    Except (VpinError K) (Option ({c : ConfidenceIntervalConfig K // c.Valid} × SplitMix64))
  | none => .ok none
  | some c =>
    if hlevel : 0 < c.confidenceLevel ∧ c.confidenceLevel < 1 then
      if hsamples : c.bootstrapSamples < 2 then
        .error (.invalidBootstrapSamples c.bootstrapSamples 2)
      else
        .ok (some (⟨c, hlevel.1, hlevel.2, not_lt.mp hsamples⟩, SplitMix64.new c.seed))
    else .error (.invalidConfidenceLevel c.confidenceLevel)

def newCdf : Option ℕ → Except (VpinError K) (Option (EmpiricalCdf K))
  | none => .ok none
  | some window => (EmpiricalCdf.new window).map some

def new (cfg : VpinEngineConfig K) : Except (VpinError K) (VpinEngine K) :=
  if hwindow : cfg.vpinWindow < 1 then .error (.invalidWindow cfg.vpinWindow 1)
  else do
    let ci ← newCi cfg.confidenceInterval
    let bucketer ← VolumeBucketer.new cfg.bucketVolume
    let sigma ← RollingSigma.new cfg.sigmaWindow
    let cdf ← newCdf cfg.cdfWindow
    return {
      bucketer
      sigma
      imbalances := []
      vpinWindow := cfg.vpinWindow
      vpinWindow_pos := not_lt.mp hwindow
      length_imbalances_le := Nat.zero_le _
      cdf
      ci }

/-! ## What `new` accepts -/

structure Fresh (cfg : VpinEngineConfig K) (e : VpinEngine K) : Prop where
  bucketer : VolumeBucketer.new cfg.bucketVolume = .ok e.bucketer
  sigma : RollingSigma.new cfg.sigmaWindow = .ok e.sigma
  imbalances : e.imbalances = []
  vpinWindow : e.vpinWindow = cfg.vpinWindow
  cdf : newCdf cfg.cdfWindow = .ok e.cdf
  ci : newCi cfg.confidenceInterval = .ok e.ci

theorem fresh_of_new {cfg : VpinEngineConfig K} {e : VpinEngine K} (h : new cfg = .ok e) :
    Fresh cfg e := by
  unfold new at h
  split at h
  · cases h
  · simp only [bind, Except.bind] at h
    split at h
    · cases h
    · rename_i ci hci
      split at h
      · cases h
      · rename_i bucketer hbucketer
        split at h
        · cases h
        · rename_i sigma hsigma
          split at h
          · cases h
          · rename_i cdf hcdf
            cases h
            exact ⟨hbucketer, hsigma, rfl, rfl, hcdf, hci⟩

theorem Fresh.cdf_eq {cfg : VpinEngineConfig K} {e : VpinEngine K} (h : Fresh cfg e) :
    e.cdf.map (fun c ↦ (c.window, c.buf)) = cfg.cdfWindow.map fun n ↦ (n, []) := by
  have hcdf := h.cdf
  cases hn : cfg.cdfWindow with
  | none =>
      obtain hnone : none = e.cdf := by simpa [hn, newCdf] using hcdf
      simp [← hnone]
  | some n =>
      cases hc : (EmpiricalCdf.new n : Except (VpinError K) (EmpiricalCdf K)) with
      | error err => simp [hn, newCdf, hc, Except.map] at hcdf
      | ok c =>
          obtain hsome : some c = e.cdf := by simpa [hn, newCdf, hc, Except.map] using hcdf
          obtain ⟨hwindow, hbuf⟩ := EmpiricalCdf.new_eq_ok hc
          simp [← hsome, hwindow, hbuf]

theorem Fresh.ci_eq {cfg : VpinEngineConfig K} {e : VpinEngine K} (h : Fresh cfg e) :
    e.ci.map (fun c ↦ (c.1.1, c.2)) =
      cfg.confidenceInterval.map fun c ↦ (c, SplitMix64.new c.seed) := by
  have hci := h.ci
  unfold newCi at hci
  split at hci
  · simp [← Except.ok.inj hci, *]
  · split at hci
    · split at hci
      · cases hci
      · simp [← Except.ok.inj hci, *]
    · cases hci

theorem new_of_valid {cfg : VpinEngineConfig K} (h : cfg.Valid) : ∃ e, new cfg = .ok e := by
  obtain ⟨bucketer, hbucketer⟩ : ∃ b, VolumeBucketer.new cfg.bucketVolume = .ok b := by
    simp [VolumeBucketer.new, h.bucketVolume_pos]
  obtain ⟨sigma, hsigma⟩ : ∃ s : RollingSigma K, RollingSigma.new cfg.sigmaWindow = .ok s := by
    simp [RollingSigma.new, not_lt.mpr h.two_le_sigmaWindow]
  obtain ⟨cdf, hcdf⟩ : ∃ c : Option (EmpiricalCdf K), newCdf cfg.cdfWindow = .ok c := by
    have hwindow := h.two_le_cdfWindow
    cases hn : cfg.cdfWindow with
    | none => exact ⟨none, rfl⟩
    | some n =>
        simp [newCdf, EmpiricalCdf.new, not_lt.mpr (hwindow n hn), Except.map]
  obtain ⟨ci, hci⟩ : ∃ c, newCi cfg.confidenceInterval = .ok c := by
    have hvalid := h.confidenceInterval
    cases hc : cfg.confidenceInterval with
    | none => exact ⟨none, rfl⟩
    | some c =>
        have hc' := hvalid c hc
        simp [newCi, hc'.level_pos, hc'.level_lt_one, not_lt.mpr hc'.two_le_samples]
  simp [new, not_lt.mpr h.one_le_vpinWindow, hbucketer, hsigma, hcdf, hci, bind, Except.bind,
    pure, Except.pure]

theorem valid_of_new {cfg : VpinEngineConfig K} {e : VpinEngine K} (h : new cfg = .ok e) :
    cfg.Valid := by
  have hfresh := fresh_of_new h
  refine ⟨(VolumeBucketer.new_eq_ok hfresh.bucketer).1, (RollingSigma.new_eq_ok hfresh.sigma).1,
    hfresh.vpinWindow ▸ e.vpinWindow_pos, ?_, ?_⟩
  · intro n hn
    have hcdf := hfresh.cdf_eq
    rw [Option.mem_def.mp hn] at hcdf
    obtain ⟨c, -, heq⟩ := Option.map_eq_some_iff.mp hcdf
    obtain ⟨rfl, -⟩ := Prod.mk.inj heq
    exact c.two_le_window
  · intro c hc
    have hci := hfresh.ci_eq
    rw [Option.mem_def.mp hc] at hci
    obtain ⟨⟨valid, rng⟩, -, heq⟩ := Option.map_eq_some_iff.mp hci
    obtain ⟨rfl, -⟩ := Prod.mk.inj heq
    exact valid.2

def pushImbalance (e : VpinEngine K) (pair : K × K) : VpinEngine K :=
  { e with
    imbalances := SlidingWindow.push e.vpinWindow e.imbalances pair
    length_imbalances_le :=
      SlidingWindow.length_push_le _ e.vpinWindow_pos e.length_imbalances_le }

def updateVpin (m : Libm K) (e : VpinEngine K) (closed : ClosedBucket K) (sigma : Option K) :
    Except Fault (Option K × VpinEngine K) :=
  match sigma.bind (bucketImbalance m closed) with
  | none => .ok (none, e)
  | some imbalance =>
    let e := e.pushImbalance (imbalance, closed.volume)
    if e.imbalances.length < e.vpinWindow then .ok (none, e)
    else do
      let (imbSum, volSum) := e.imbalances.foldl
        (fun (i, v) (bi, bv) ↦ (i + bi, v + bv)) ((0, 0) : K × K)
      let vpin ← divide imbSum volSum
      return (some vpin, e)

/-- `self.cdf.as_mut().and_then(|c| c.push(v))`, under `vpin.and_then`. -/
def pushCdf (vpin : Option K) (cdf : Option (EmpiricalCdf K)) :
    Option K × Option (EmpiricalCdf K) :=
  match vpin, cdf with
  | some v, some c => ((c.push v).1, some (c.push v).2)
  | _, cdf => (none, cdf)

variable [FloorSemiring K]

/-- The bootstrap runs only when the interval is configured and `vpin` is present. -/
def pushCi (vpin : Option K) (imbalances : List (K × K))
    (ci : Option ({c : ConfidenceIntervalConfig K // c.Valid} × SplitMix64)) :
    Except Fault ((Option K × Option K) ×
      Option ({c : ConfidenceIntervalConfig K // c.Valid} × SplitMix64)) :=
  match vpin, ci with
  | some _, some (ciCfg, rng) => do
    let ((low, high), rng) ← bootstrapCi imbalances ciCfg.1 rng
    return ((some low, some high), some (ciCfg, rng))
  | _, ci => .ok ((none, none), ci)

def closeBucket (m : Libm K) (e : VpinEngine K) (closed : ClosedBucket K) :
    Except Fault (VpinReading K × VpinEngine K) := do
  let sigmaForThisBucket := e.sigma.current
  let (vpin, e) ← updateVpin m e closed sigmaForThisBucket
  let sigma := e.sigma.push m closed.deltaP
  let (vpinCdf, cdf) := pushCdf vpin e.cdf
  let ((vpinCiLow, vpinCiHigh), ci) ← pushCi vpin e.imbalances e.ci
  return ({
    bucketId := closed.bucketId
    tsCloseNs := closed.tsCloseNs
    tradesInBucket := closed.tradeCount
    vpin
    vpinCdf
    vpinCiLow
    vpinCiHigh }, { e with sigma, cdf, ci })

def pushTrade (m : Libm K) (e : VpinEngine K) (t : Trade K) :
    Except Fault (Option (VpinReading K) × VpinEngine K) :=
  match e.bucketer.push t.price t.volume t.tsNs with
  | (none, bucketer) => .ok (none, { e with bucketer })
  | (some closed, bucketer) => do
    let (reading, e) ← closeBucket m { e with bucketer } closed
    return (some reading, e)

def feed (m : Libm K) (e : VpinEngine K) : List (Trade K) →
    Except Fault (List (VpinReading K) × VpinEngine K)
  | [] => .ok ([], e)
  | t :: tape => do
    let (reading, e) ← e.pushTrade m t
    let (readings, e) ← feed m e tape
    return (reading.toList ++ readings, e)

/-! ## One step of each part -/

section Steps

open RatioOfSums

omit [LinearOrder K] [FloorSemiring K] in
/-- The loop that totals the window computes both sums at once. -/
theorem foldl_pairs (ps : List (K × K)) (a b : K) :
    ps.foldl (fun (i, v) (bi, bv) ↦ (i + bi, v + bv)) ((a, b) : K × K) =
      (a + (ps.map Prod.fst).sum, b + (ps.map Prod.snd).sum) := by
  induction ps generalizing a b with
  | nil => simp
  | cons p ps ih => simp [ih, add_assoc]

def score (vpinWindow : ℕ) (imbalances : List (K × K)) : Option K :=
  if imbalances.length < vpinWindow then none else some (ratio imbalances)

omit [FloorSemiring K] in
theorem updateVpin_of_none {m : Libm K} {e : VpinEngine K} {closed : ClosedBucket K}
    {sigma : Option K} (h : sigma.bind (bucketImbalance m closed) = none) :
    updateVpin m e closed sigma = .ok (none, e) := by
  simp only [updateVpin, h]

omit [FloorSemiring K] in
theorem updateVpin_of_some [IsStrictOrderedRing K] {m : Libm K} {e : VpinEngine K}
    {closed : ClosedBucket K} {sigma : Option K} {imbalance : K}
    (hpos : ∀ p ∈ e.imbalances, 0 < p.2) (hvol : 0 < closed.volume)
    (h : sigma.bind (bucketImbalance m closed) = some imbalance) :
    updateVpin m e closed sigma =
      .ok (score e.vpinWindow (e.pushImbalance (imbalance, closed.volume)).imbalances,
        e.pushImbalance (imbalance, closed.volume)) := by
  have hweights : ((e.pushImbalance (imbalance, closed.volume)).imbalances.map
      Prod.snd).sum ≠ 0 := by
    apply (sum_weights_pos _ _).ne'
    · exact List.ne_nil_of_mem (SlidingWindow.self_mem_push _ _ _)
    · intro p hp
      rcases SlidingWindow.mem_push hp with hold | rfl
      · exact hpos p hold
      · exact hvol
  have hwindow : (e.pushImbalance (imbalance, closed.volume)).vpinWindow = e.vpinWindow := rfl
  simp only [updateVpin, h, score, hwindow]
  split
  · rfl
  · rw [foldl_pairs, zero_add, zero_add]
    simp only [divide_of_ne _ hweights, ratio]
    rfl

def ciBounds (vpin : Option K) (imbalances : List (K × K))
    (ci : Option ({c : ConfidenceIntervalConfig K // c.Valid} × SplitMix64)) : Option (K × K) :=
  match vpin, ci with
  | some _, some (ciCfg, rng) => some (Bootstrap.interval imbalances ciCfg.1 rng)
  | _, _ => none

def ciNext (vpin : Option K) (imbalances : List (K × K))
    (ci : Option ({c : ConfidenceIntervalConfig K // c.Valid} × SplitMix64)) :
    Option ({c : ConfidenceIntervalConfig K // c.Valid} × SplitMix64) :=
  match vpin, ci with
  | some _, some (ciCfg, rng) =>
      some (ciCfg, SplitMix64.advance^[ciCfg.1.bootstrapSamples * imbalances.length] rng)
  | _, ci => ci

theorem pushCi_eq [IsStrictOrderedRing K] {vpin : Option K} {imbalances : List (K × K)}
    (ci : Option ({c : ConfidenceIntervalConfig K // c.Valid} × SplitMix64))
    (hne : vpin.isSome → imbalances ≠ []) (hpos : ∀ p ∈ imbalances, 0 < p.2) :
    pushCi vpin imbalances ci =
      .ok (((ciBounds vpin imbalances ci).map Prod.fst,
        (ciBounds vpin imbalances ci).map Prod.snd), ciNext vpin imbalances ci) := by
  rcases vpin with _ | v
  · rcases ci with _ | ⟨ciCfg, rng⟩ <;> rfl
  · rcases ci with _ | ⟨ciCfg, rng⟩
    · rfl
    · simp only [pushCi, ciBounds, ciNext,
        Bootstrap.bootstrapCi_eq ciCfg.2 (hne rfl) hpos rng]
      rfl

/-- The imbalance of a bucket under the current sigma, if it can be classified. -/
def imbalanceOf (m : Libm K) (e : VpinEngine K) (closed : ClosedBucket K) : Option K :=
  e.sigma.current.bind (bucketImbalance m closed)

def classifyInto (m : Libm K) (e : VpinEngine K) (closed : ClosedBucket K) : VpinEngine K :=
  match imbalanceOf m e closed with
  | none => e
  | some imbalance => e.pushImbalance (imbalance, closed.volume)

omit [FloorSemiring K] in
@[simp] theorem classifyInto_sigma (m : Libm K) (e : VpinEngine K) (closed : ClosedBucket K) :
    (classifyInto m e closed).sigma = e.sigma := by
  unfold classifyInto
  split <;> rfl

omit [FloorSemiring K] in
@[simp] theorem classifyInto_cdf (m : Libm K) (e : VpinEngine K) (closed : ClosedBucket K) :
    (classifyInto m e closed).cdf = e.cdf := by
  unfold classifyInto
  split <;> rfl

omit [FloorSemiring K] in
@[simp] theorem classifyInto_ci (m : Libm K) (e : VpinEngine K) (closed : ClosedBucket K) :
    (classifyInto m e closed).ci = e.ci := by
  unfold classifyInto
  split <;> rfl

omit [FloorSemiring K] in
@[simp] theorem classifyInto_vpinWindow (m : Libm K) (e : VpinEngine K)
    (closed : ClosedBucket K) : (classifyInto m e closed).vpinWindow = e.vpinWindow := by
  unfold classifyInto
  split <;> rfl

omit [FloorSemiring K] in
@[simp] theorem classifyInto_bucketer (m : Libm K) (e : VpinEngine K) (closed : ClosedBucket K) :
    (classifyInto m e closed).bucketer = e.bucketer := by
  unfold classifyInto
  split <;> rfl

def vpinOf (m : Libm K) (e : VpinEngine K) (closed : ClosedBucket K) : Option K :=
  (imbalanceOf m e closed).bind fun _ ↦
    score e.vpinWindow (classifyInto m e closed).imbalances

def readingOf (m : Libm K) (e : VpinEngine K) (closed : ClosedBucket K) : VpinReading K :=
  let bounds := ciBounds (vpinOf m e closed) (classifyInto m e closed).imbalances e.ci
  { bucketId := closed.bucketId
    tsCloseNs := closed.tsCloseNs
    tradesInBucket := closed.tradeCount
    vpin := vpinOf m e closed
    vpinCdf := (pushCdf (vpinOf m e closed) e.cdf).1
    vpinCiLow := bounds.map Prod.fst
    vpinCiHigh := bounds.map Prod.snd }

def afterBucket (m : Libm K) (e : VpinEngine K) (closed : ClosedBucket K) : VpinEngine K :=
  { classifyInto m e closed with
    sigma := e.sigma.push m closed.deltaP
    cdf := (pushCdf (vpinOf m e closed) e.cdf).2
    ci := ciNext (vpinOf m e closed) (classifyInto m e closed).imbalances e.ci }

omit [FloorSemiring K] in
@[simp] theorem afterBucket_bucketer (m : Libm K) (e : VpinEngine K) (closed : ClosedBucket K) :
    (afterBucket m e closed).bucketer = e.bucketer :=
  classifyInto_bucketer m e closed

omit [FloorSemiring K] in
@[simp] theorem afterBucket_vpinWindow (m : Libm K) (e : VpinEngine K)
    (closed : ClosedBucket K) : (afterBucket m e closed).vpinWindow = e.vpinWindow :=
  classifyInto_vpinWindow m e closed

def PositiveVolumes (e : VpinEngine K) : Prop := ∀ p ∈ e.imbalances, 0 < p.2

omit [FloorSemiring K] in
theorem updateVpin_eq [IsStrictOrderedRing K] (m : Libm K) {e : VpinEngine K}
    {closed : ClosedBucket K} (hpos : e.PositiveVolumes) (hvol : 0 < closed.volume) :
    updateVpin m e closed e.sigma.current =
      .ok (vpinOf m e closed, classifyInto m e closed) := by
  cases h : imbalanceOf m e closed with
  | none => simp only [updateVpin_of_none h, vpinOf, classifyInto, h, Option.bind_none]
  | some imbalance =>
      simp only [updateVpin_of_some hpos hvol h, vpinOf, classifyInto, h, Option.bind_some]

omit [FloorSemiring K] in
theorem classifyInto_positive (m : Libm K) {e : VpinEngine K} {closed : ClosedBucket K}
    (hpos : e.PositiveVolumes) (hvol : 0 < closed.volume) :
    (classifyInto m e closed).PositiveVolumes := by
  intro p hp
  unfold classifyInto at hp
  split at hp
  · exact hpos p hp
  · rcases SlidingWindow.mem_push hp with hold | rfl
    · exact hpos p hold
    · exact hvol

omit [FloorSemiring K] in
theorem classifyInto_ne_nil {m : Libm K} {e : VpinEngine K} {closed : ClosedBucket K}
    (h : (vpinOf m e closed).isSome) : (classifyInto m e closed).imbalances ≠ [] := by
  unfold vpinOf at h
  unfold classifyInto
  cases himb : imbalanceOf m e closed with
  | none => simp [himb] at h
  | some imbalance => exact List.ne_nil_of_mem (SlidingWindow.self_mem_push _ _ _)

/-- The spec of `closeBucket`: no fault, and the reading and next state above. -/
theorem closeBucket_eq [IsStrictOrderedRing K] (m : Libm K) {e : VpinEngine K}
    {closed : ClosedBucket K} (hpos : e.PositiveVolumes) (hvol : 0 < closed.volume) :
    closeBucket m e closed = .ok (readingOf m e closed, afterBucket m e closed) := by
  have hne : (vpinOf m e closed).isSome → (classifyInto m e closed).imbalances ≠ [] :=
    classifyInto_ne_nil
  have hrun := pushCi_eq e.ci hne (classifyInto_positive m hpos hvol)
  simp only [closeBucket, updateVpin_eq m hpos hvol, bind, Except.bind, classifyInto_sigma,
    classifyInto_cdf, classifyInto_ci, hrun]
  rfl

end Steps

open Fallible

theorem pushTrade_of_none {m : Libm K} {e : VpinEngine K} {t : Trade K}
    (h : (e.bucketer.push t.price t.volume t.tsNs).1 = none) :
    e.pushTrade m t =
      .ok (none, { e with bucketer := (e.bucketer.push t.price t.volume t.tsNs).2 }) := by
  unfold pushTrade
  generalize e.bucketer.push t.price t.volume t.tsNs = r at h
  obtain ⟨closed, bucketer⟩ := r
  obtain rfl : closed = none := h
  rfl

theorem pushTrade_of_some {m : Libm K} {e e' : VpinEngine K} {t : Trade K}
    {closed : ClosedBucket K} {reading : VpinReading K}
    (h : (e.bucketer.push t.price t.volume t.tsNs).1 = some closed)
    (hclose : closeBucket m
      { e with bucketer := (e.bucketer.push t.price t.volume t.tsNs).2 } closed =
        .ok (reading, e')) :
    e.pushTrade m t = .ok (some reading, e') := by
  unfold pushTrade
  generalize e.bucketer.push t.price t.volume t.tsNs = r at h hclose
  obtain ⟨closed', bucketer⟩ := r
  obtain rfl : closed' = some closed := h
  simp only [hclose]
  rfl

omit [FloorSemiring K] in
theorem updateVpin_bucketer {m : Libm K} {e e' : VpinEngine K} {closed : ClosedBucket K}
    {sigma vpin : Option K} (h : updateVpin m e closed sigma = .ok (vpin, e')) :
    e'.bucketer = e.bucketer := by
  unfold updateVpin at h
  split at h
  · cases h
    rfl
  · simp only at h
    split at h
    · cases h
      rfl
    · obtain ⟨_, _, h⟩ := ok_of_bind h
      cases h
      rfl

theorem closeBucket_bucketer {m : Libm K} {e e' : VpinEngine K} {closed : ClosedBucket K}
    {reading : VpinReading K} (h : closeBucket m e closed = .ok (reading, e')) :
    reading.bucketId = closed.bucketId ∧ e'.bucketer = e.bucketer := by
  obtain ⟨⟨vpin, e₁⟩, hvpin, h⟩ := ok_of_bind h
  obtain ⟨_, _, h⟩ := ok_of_bind h
  cases h
  have hkeep := updateVpin_bucketer hvpin
  exact ⟨rfl, hkeep⟩

theorem pushTrade_bucketId {m : Libm K} {e e' : VpinEngine K} {t : Trade K}
    {out : Option (VpinReading K)} (h : e.pushTrade m t = .ok (out, e')) :
    (out = none ∧ e'.bucketer.bucketId = e.bucketer.bucketId) ∨
      ∃ r, out = some r ∧ r.bucketId = e.bucketer.bucketId ∧
        e'.bucketer.bucketId = e.bucketer.bucketId + 1 := by
  unfold pushTrade at h
  rcases lt_or_ge (e.bucketer.accVolume + t.volume) e.bucketer.targetVolume with hlt | hle
  · rw [VolumeBucketer.push_of_lt t.tsNs hlt] at h
    cases h
    exact .inl ⟨rfl, rfl⟩
  · rw [VolumeBucketer.push_of_le t.tsNs hle] at h
    obtain ⟨⟨reading, e₁⟩, hclose, h⟩ := ok_of_bind h
    cases h
    obtain ⟨hid, hbucketer⟩ := closeBucket_bucketer hclose
    exact .inr ⟨reading, rfl, hid, by rw [hbucketer]⟩

theorem feed_cons {m : Libm K} {e e' e'' : VpinEngine K} {t : Trade K}
    {tape : List (Trade K)} {reading : Option (VpinReading K)} {readings : List (VpinReading K)}
    (hpush : e.pushTrade m t = .ok (reading, e')) (hfeed : feed m e' tape = .ok (readings, e'')) :
    feed m e (t :: tape) = .ok (reading.toList ++ readings, e'') := by
  simp only [feed, hpush, bind, Except.bind, hfeed]
  rfl

end VpinEngine

end Geiger
