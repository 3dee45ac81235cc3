import Geiger.Library.Fallible
import Geiger.Library.Runs
import Geiger.Vpin.Engine

/-!
# Panics of the engine

The engine again, with what its exact arithmetic leaves out: floats that are not
finite, the assertions and overflow checks of a debug build, and allocations that
exceed the largest size.
-/

namespace Geiger

open Fallible

inductive Build where
  | debug
  | release
deriving DecidableEq

inductive Panic where
  | assertion
  | overflow
  | capacity
  | fault (f : Fault)
deriving DecidableEq

def isizeMax : ℕ := 2 ^ 63 - 1

def withCapacity (elemSize n : ℕ) : Except Panic Unit :=
  if isizeMax < n * elemSize then .error .capacity else .ok ()

@[simp] theorem exists_withCapacity_error {elemSize n : ℕ} :
    (∃ p, withCapacity elemSize n = .error p) ↔ isizeMax < n * elemSize := by
  by_cases h : isizeMax < n * elemSize <;> simp [withCapacity, h]

@[simp] theorem withCapacity_eq_ok {elemSize n : ℕ} {u : Unit} :
    withCapacity elemSize n = .ok u ↔ n * elemSize ≤ isizeMax := by
  by_cases h : isizeMax < n * elemSize
  · simp [withCapacity, h, not_le.mpr h]
  · simp [withCapacity, h, not_lt.mp h]

inductive RawFloat (K : Type) where
  | finite (x : K)
  /-- An infinity or NaN. -/
  | notFinite
deriving DecidableEq

def RawFloat.getD {K : Type} (default : K) : RawFloat K → K
  | .finite x => x
  | .notFinite => default

def VpinError.map {K L : Type} (f : K → L) : VpinError K → VpinError L
  | .invalidBucketVolume got => .invalidBucketVolume (f got)
  | .invalidWindow got min => .invalidWindow got min
  | .invalidConfidenceLevel got => .invalidConfidenceLevel (f got)
  | .invalidBootstrapSamples got min => .invalidBootstrapSamples got min

variable {K : Type}

@[simp] theorem VpinError.map_getD_finite (default : K) (e : VpinError K) :
    (e.map RawFloat.finite).map (RawFloat.getD default) = e := by
  cases e <;> rfl

/-- `Ok`, `Err` or a panic of a constructor. -/
abbrev Construction (K α : Type) := ExceptT (VpinError (RawFloat K)) (Except Panic) α

def checkFinite {α : Type} (r : Except (VpinError K) α) : Construction K α :=
  check (r.mapError (VpinError.map .finite))

@[simp] theorem not_panics_checkFinite {α : Type} (r : Except (VpinError K) α) :
    ¬ Panics (checkFinite r) := not_panics_check _

@[simp] theorem returns_checkFinite {α : Type} {r : Except (VpinError K) α} {a : α} :
    Returns (checkFinite r) a ↔ r = .ok a :=
  (returns_check _).trans mapError_eq_ok

variable [Field K] [LinearOrder K]

def VolumeBucketer.create : RawFloat K → Construction K (VolumeBucketer K)
  | .finite targetVolume => checkFinite (VolumeBucketer.new targetVolume)
  | .notFinite => check (.error (.invalidBucketVolume .notFinite))

omit [Field K] [LinearOrder K] in
def RollingSigma.create (window : ℕ) : Construction K (RollingSigma K) := do
  let sigma ← checkFinite (RollingSigma.new window)
  attempt (withCapacity 8 window)
  return sigma

omit [Field K] [LinearOrder K] in
def EmpiricalCdf.create (window : ℕ) : Construction K (EmpiricalCdf K) := do
  let cdf ← checkFinite (EmpiricalCdf.new window)
  attempt (withCapacity 8 window)
  return cdf

namespace VpinEngine

def createCi : Option (ConfidenceIntervalConfig (RawFloat K)) →
    Construction K (Option ({c : ConfidenceIntervalConfig K // c.Valid} × SplitMix64))
  | none => return none
  | some ⟨.finite level, samples, seed⟩ => checkFinite (newCi (some ⟨level, samples, seed⟩))
  | some ⟨.notFinite, _, _⟩ => check (.error (.invalidConfidenceLevel .notFinite))

omit [Field K] [LinearOrder K] in
def createCdf : Option ℕ → Construction K (Option (EmpiricalCdf K))
  | none => return none
  | some window => do return some (← EmpiricalCdf.create window)

/-- `VpinEngine::new` with its allocations, in the order of the source. -/
def create (cfg : VpinEngineConfig (RawFloat K)) : Construction K (VpinEngine K) :=
  if hwindow : cfg.vpinWindow < 1 then check (.error (.invalidWindow cfg.vpinWindow 1))
  else do
    let ci ← createCi cfg.confidenceInterval
    let bucketer ← VolumeBucketer.create cfg.bucketVolume
    let sigma ← RollingSigma.create cfg.sigmaWindow
    attempt (withCapacity 16 cfg.vpinWindow)
    let cdf ← createCdf cfg.cdfWindow
    return {
      bucketer
      sigma
      imbalances := []
      vpinWindow := cfg.vpinWindow
      vpinWindow_pos := not_lt.mp hwindow
      length_imbalances_le := Nat.zero_le _
      cdf
      ci }

end VpinEngine

/-! ## When a constructor panics -/

/-- The checks that `VpinEngine::new` makes before the last of its large buffers. -/
structure PassesChecks (cfg : VpinEngineConfig (RawFloat K)) : Prop where
  one_le_vpinWindow : 1 ≤ cfg.vpinWindow
  confidenceInterval : ∀ c ∈ cfg.confidenceInterval,
    2 ≤ c.bootstrapSamples ∧ ∃ level, c.confidenceLevel = .finite level ∧ 0 < level ∧ level < 1
  bucketVolume : ∃ v, cfg.bucketVolume = .finite v ∧ 0 < v
  two_le_sigmaWindow : 2 ≤ cfg.sigmaWindow

def Oversized {F : Type} (cfg : VpinEngineConfig F) : Prop :=
  2 ^ 60 ≤ cfg.sigmaWindow ∨ 2 ^ 59 ≤ cfg.vpinWindow ∨ ∃ n ∈ cfg.cdfWindow, 2 ^ 60 ≤ n

section Components

theorem not_panics_createCi (ci : Option (ConfidenceIntervalConfig (RawFloat K))) :
    ¬ Panics (VpinEngine.createCi ci) := by
  unfold VpinEngine.createCi
  split <;> simp

theorem exists_returns_createCi {ci : Option (ConfidenceIntervalConfig (RawFloat K))} :
    (∃ r, Returns (VpinEngine.createCi ci) r) ↔ ∀ c ∈ ci, 2 ≤ c.bootstrapSamples ∧
      ∃ level, c.confidenceLevel = .finite level ∧ 0 < level ∧ level < 1 := by
  rcases ci with _ | ⟨level | _, samples, seed⟩
  · simp [VpinEngine.createCi]
  · by_cases hlevel : 0 < level ∧ level < 1 <;> by_cases hsamples : samples < 2 <;>
      simp [VpinEngine.createCi, VpinEngine.newCi, hlevel, hsamples]
    all_goals omega
  · simp [VpinEngine.createCi]

theorem not_panics_createBucketer (v : RawFloat K) : ¬ Panics (VolumeBucketer.create v) := by
  unfold VolumeBucketer.create
  split <;> simp

theorem exists_returns_createBucketer {v : RawFloat K} :
    (∃ b, Returns (VolumeBucketer.create v) b) ↔ ∃ x, v = .finite x ∧ 0 < x := by
  rcases v with x | _
  · by_cases hx : 0 < x <;> simp [VolumeBucketer.create, VolumeBucketer.new, hx]
  · simp [VolumeBucketer.create]

omit [Field K] [LinearOrder K]

theorem eight_bytes {n : ℕ} : isizeMax < n * 8 ↔ 2 ^ 60 ≤ n := by
  unfold isizeMax
  omega

theorem sixteen_bytes {n : ℕ} : isizeMax < n * 16 ↔ 2 ^ 59 ≤ n := by
  unfold isizeMax
  omega

theorem panics_createSigma {window : ℕ} :
    Panics (RollingSigma.create window : Construction K (RollingSigma K)) ↔ 2 ^ 60 ≤ window := by
  by_cases hwindow : window < 2
  · simp [RollingSigma.create, panics_bind, RollingSigma.new, hwindow]
    omega
  · simp [RollingSigma.create, panics_bind, RollingSigma.new, hwindow, eight_bytes]

theorem returns_createSigma {window : ℕ} {s : RollingSigma K} :
    Returns (RollingSigma.create window) s ↔ RollingSigma.new window = .ok s ∧ window < 2 ^ 60 := by
  rw [← not_le, ← eight_bytes, not_lt]
  simp [RollingSigma.create, returns_bind, and_comm]

theorem exists_newSigma {window : ℕ} :
    (∃ s : RollingSigma K, RollingSigma.new window = .ok s) ↔ 2 ≤ window := by
  by_cases hwindow : window < 2 <;> simp [RollingSigma.new, hwindow]
  omega

theorem panics_createCdf {window : Option ℕ} :
    Panics (VpinEngine.createCdf window : Construction K (Option (EmpiricalCdf K))) ↔
      ∃ n ∈ window, 2 ^ 60 ≤ n := by
  rcases window with _ | n
  · simp [VpinEngine.createCdf]
  · by_cases hn : n < 2
    · simp [VpinEngine.createCdf, EmpiricalCdf.create, panics_bind, EmpiricalCdf.new, hn]
      omega
    · simp [VpinEngine.createCdf, EmpiricalCdf.create, panics_bind, EmpiricalCdf.new, hn,
        eight_bytes]

theorem returns_createCdf {window : Option ℕ} {c : Option (EmpiricalCdf K)} :
    Returns (VpinEngine.createCdf window) c ↔
      VpinEngine.newCdf window = .ok c ∧ ∀ n ∈ window, n < 2 ^ 60 := by
  rcases window with _ | n
  · simp [VpinEngine.createCdf, VpinEngine.newCdf]
  · have hsize : n * 8 ≤ isizeMax ↔ n < 2 ^ 60 := by
      rw [← not_lt, eight_bytes, not_le]
    cases hnew : (EmpiricalCdf.new n : Except (VpinError K) (EmpiricalCdf K)) <;>
      simp [VpinEngine.createCdf, EmpiricalCdf.create, VpinEngine.newCdf, returns_bind, hnew,
        Except.map, hsize, and_comm]

end Components

namespace VpinEngine

/-- `VpinEngine::new` panics exactly on the configurations that pass the checks and
ask for a buffer that is too large. -/
theorem panics_create {cfg : VpinEngineConfig (RawFloat K)} :
    Panics (create cfg) ↔ PassesChecks cfg ∧ Oversized cfg := by
  unfold create
  split
  · rename_i hwindow
    simp only [not_panics_check, false_iff, not_and]
    intro hpasses
    exact absurd hpasses.one_le_vpinWindow (Nat.not_le.mpr hwindow)
  · rename_i hwindow
    simp only [panics_bind, not_panics_createCi, not_panics_createBucketer, panics_createSigma,
      panics_attempt, returns_attempt, exists_withCapacity_error, withCapacity_eq_ok,
      panics_createCdf, returns_createSigma, not_panics_pure, false_or, exists_and_right,
      exists_returns_createCi, exists_returns_createBucketer, exists_newSigma, sixteen_bytes,
      and_false, exists_false, or_false]
    constructor
    · rintro ⟨hci, hbucket, hsigma | ⟨⟨htwo, -⟩, hvpin | ⟨-, hcdf⟩⟩⟩
      · exact ⟨⟨not_lt.mp hwindow, hci, hbucket, by omega⟩, .inl hsigma⟩
      · exact ⟨⟨not_lt.mp hwindow, hci, hbucket, htwo⟩, .inr (.inl hvpin)⟩
      · exact ⟨⟨not_lt.mp hwindow, hci, hbucket, htwo⟩, .inr (.inr hcdf)⟩
    · rintro ⟨hpasses, hsize⟩
      refine ⟨hpasses.confidenceInterval, hpasses.bucketVolume, ?_⟩
      by_cases hsigma : 2 ^ 60 ≤ cfg.sigmaWindow
      · exact .inl hsigma
      · refine .inr ⟨⟨hpasses.two_le_sigmaWindow, not_le.mp hsigma⟩, ?_⟩
        by_cases hvpin : 2 ^ 59 ≤ cfg.vpinWindow
        · exact .inl hvpin
        · refine .inr ⟨⟨(), ?_⟩, hsize.resolve_left hsigma |>.resolve_left hvpin⟩
          rwa [← not_lt, sixteen_bytes]

theorem imbalances_of_create {cfg : VpinEngineConfig (RawFloat K)} {e : VpinEngine K}
    (h : Returns (create cfg) e) : e.imbalances = [] ∧ e.vpinWindow < 2 ^ 59 := by
  unfold create at h
  split at h
  · simp at h
  · simp only [returns_bind, returns_attempt, withCapacity_eq_ok, returns_pure, exists_and_left] at h
    obtain ⟨_, -, _, -, _, -, hsize, -, _, -, rfl⟩ := h
    refine ⟨rfl, ?_⟩
    rw [← not_lt, sixteen_bytes] at hsize
    exact not_le.mp hsize

end VpinEngine

/-! ## The constructor without panics -/

def VpinEngineConfig.raw (cfg : VpinEngineConfig K) : VpinEngineConfig (RawFloat K) :=
  { cfg with
    bucketVolume := .finite cfg.bucketVolume
    confidenceInterval := cfg.confidenceInterval.map fun c ↦
      ⟨.finite c.confidenceLevel, c.bootstrapSamples, c.seed⟩ }

namespace VpinEngine

theorem createCi_raw (ci : Option (ConfidenceIntervalConfig K)) :
    createCi (ci.map fun c ↦ ⟨.finite c.confidenceLevel, c.bootstrapSamples, c.seed⟩) =
      checkFinite (newCi ci) := by
  cases ci <;> rfl

/-- On finite floats and buffers that fit, the constructor is that of the exact engine. -/
theorem returns_create_raw {cfg : VpinEngineConfig K} {e : VpinEngine K} :
    Returns (create cfg.raw) e ↔ new cfg = .ok e ∧ ¬ Oversized cfg := by
  have hsize : cfg.vpinWindow * 16 ≤ isizeMax ↔ ¬ 2 ^ 59 ≤ cfg.vpinWindow := by
    rw [← not_lt, sixteen_bytes]
  unfold create new Oversized
  by_cases hwindow : cfg.vpinWindow < 1
  · have hraw : cfg.raw.vpinWindow < 1 := hwindow
    simp [hwindow, hraw]
  · simp only [dif_neg hwindow, VpinEngineConfig.raw, createCi_raw, returns_bind,
      returns_checkFinite, VolumeBucketer.create, returns_createSigma, returns_createCdf,
      bind_eq_ok, returns_attempt, withCapacity_eq_ok, returns_pure, hsize]
    constructor
    · rintro ⟨ci, hci, b, hb, s, ⟨hs, hsigma⟩, -, hvpin, c, ⟨hc, hcdf⟩, rfl⟩
      refine ⟨⟨ci, hci, b, hb, s, hs, c, hc, rfl⟩, ?_⟩
      rintro (h | h | ⟨n, hn, h⟩)
      · omega
      · exact hvpin h
      · exact absurd (hcdf n hn) (Nat.not_lt.mpr h)
    · rintro ⟨⟨ci, hci, b, hb, s, hs, c, hc, he⟩, hfits⟩
      rw [not_or, not_or] at hfits
      obtain ⟨hsigma, hvpin, hcdf⟩ := hfits
      refine ⟨ci, hci, b, hb, s, ⟨hs, not_le.mp hsigma⟩, (), hvpin, c, ⟨hc, ?_⟩, Except.ok.inj he⟩
      intro n hn
      by_contra hlarge
      exact hcdf ⟨n, hn, not_lt.mp hlarge⟩

end VpinEngine

/-! ## Panics while running -/

/-- The assertions and the overflow check at the head of `VolumeBucketer::push`. -/
def VolumeBucketer.asserts (build : Build) (b : VolumeBucketer K) (price volume : K) :
    Except Panic Unit :=
  match build with
  | .release => .ok ()
  | .debug =>
    if ¬ 0 < price then .error .assertion
    else if ¬ 0 < volume then .error .assertion
    else if b.tradeCount = 4294967295 then .error .overflow
    else .ok ()

namespace VpinEngine

def arithmetic {α : Type} (x : Except Fault α) : Except Panic α := x.mapError .fault

variable [FloorSemiring K]

/-- `bootstrap_ci` copies the window and reserves room for its samples. -/
def pushCiIn (vpin : Option K) (imbalances : List (K × K))
    (ci : Option ({c : ConfidenceIntervalConfig K // c.Valid} × SplitMix64)) :
    Except Panic ((Option K × Option K) ×
      Option ({c : ConfidenceIntervalConfig K // c.Valid} × SplitMix64)) :=
  match vpin, ci with
  | some _, some (ciCfg, rng) => do
    withCapacity 16 imbalances.length
    withCapacity 8 ciCfg.1.bootstrapSamples
    let ((low, high), rng) ← arithmetic (bootstrapCi imbalances ciCfg.1 rng)
    return ((some low, some high), some (ciCfg, rng))
  | _, ci => .ok ((none, none), ci)

def closeBucketIn (m : Libm K) (e : VpinEngine K) (closed : ClosedBucket K) :
    Except Panic (VpinReading K × VpinEngine K) := do
  let sigmaForThisBucket := e.sigma.current
  let (vpin, e) ← arithmetic (updateVpin m e closed sigmaForThisBucket)
  let sigma := e.sigma.push m closed.deltaP
  let (vpinCdf, cdf) := pushCdf vpin e.cdf
  let ((vpinCiLow, vpinCiHigh), ci) ← pushCiIn vpin e.imbalances e.ci
  return ({
    bucketId := closed.bucketId
    tsCloseNs := closed.tsCloseNs
    tradesInBucket := closed.tradeCount
    vpin
    vpinCdf
    vpinCiLow
    vpinCiHigh }, { e with sigma, cdf, ci })

def pushTradeIn (build : Build) (m : Libm K) (e : VpinEngine K) (t : Trade K) :
    Except Panic (Option (VpinReading K) × VpinEngine K) := do
  e.bucketer.asserts build t.price t.volume
  match e.bucketer.push t.price t.volume t.tsNs with
  | (none, bucketer) => return (none, { e with bucketer })
  | (some closed, bucketer) => do
    let (reading, e) ← closeBucketIn m { e with bucketer } closed
    return (some reading, e)

def feedIn (build : Build) (m : Libm K) (e : VpinEngine K) : List (Trade K) →
    Except Panic (List (VpinReading K) × VpinEngine K)
  | [] => .ok ([], e)
  | t :: tape => do
    let (reading, e) ← e.pushTradeIn build m t
    let (readings, e) ← feedIn build m e tape
    return (reading.toList ++ readings, e)

/-! ## One step -/

/-- The trade closes a bucket that gets a reading, and its bootstrap asks for a buffer
that is too large. -/
structure Overdraws (e : VpinEngine K) (t : Trade K) : Prop where
  samples : ∃ c ∈ e.ci, 2 ^ 60 ≤ c.1.1.bootstrapSamples
  closes : e.bucketer.targetVolume ≤ e.bucketer.accVolume + t.volume
  classified : ∃ s ∈ e.sigma.current, 0 < s
  full : e.vpinWindow ≤ e.imbalances.length + 1

/-- Neither the trade counter nor a buffer of the bootstrap overflows. -/
structure Roomy (build : Build) (e : VpinEngine K) (t : Trade K) : Prop where
  tradeCount : build = .debug → e.bucketer.tradeCount ≠ 4294967295
  bootstrap : ¬ Overdraws e t

structure Fits (build : Build) (e : VpinEngine K) (t : Trade K) : Prop
    extends Roomy build e t where
  positive : build = .debug → t.Positive

/-- What holds of every engine that is in use. -/
structure InUse (e : VpinEngine K) : Prop where
  positive : e.PositiveVolumes
  vpinWindow_lt : e.ci.isSome → e.vpinWindow < 2 ^ 59

section Step

omit [FloorSemiring K]

theorem asserts_cases (build : Build) (b : VolumeBucketer K) (t : Trade K) :
    (b.asserts build t.price t.volume = .ok () ∧
      (build = .debug → t.Positive ∧ b.tradeCount ≠ 4294967295)) ∨
    ((∃ p, b.asserts build t.price t.volume = .error p) ∧
      ¬ (build = .debug → t.Positive ∧ b.tradeCount ≠ 4294967295)) := by
  unfold VolumeBucketer.asserts
  cases build with
  | release => exact .inl ⟨rfl, by simp⟩
  | debug =>
      by_cases hprice : 0 < t.price
      · by_cases hvolume : 0 < t.volume
        · have hpositive : t.Positive := ⟨hprice, hvolume⟩
          by_cases hcount : b.tradeCount = 4294967295 <;> simp [hprice, hvolume, hcount, hpositive]
        · right
          simp only [hprice, hvolume, not_true_eq_false, not_false_eq_true, if_true, if_false]
          exact ⟨⟨_, rfl⟩, fun h ↦ hvolume (h trivial).1.volume_pos⟩
      · right
        simp only [hprice, not_false_eq_true, if_true]
        exact ⟨⟨_, rfl⟩, fun h ↦ hprice (h trivial).1.price_pos⟩

theorem asserts_eq_ok {build : Build} {b : VolumeBucketer K} {t : Trade K} :
    b.asserts build t.price t.volume = .ok () ↔
      (build = .debug → t.Positive ∧ b.tradeCount ≠ 4294967295) := by
  rcases asserts_cases build b t with ⟨hasserts, h⟩ | ⟨⟨p, hasserts⟩, h⟩
  · exact iff_of_true hasserts h
  · exact iff_of_false (by simp [hasserts]) h

theorem vpinOf_isSome_iff {m : Libm K} {e : VpinEngine K} {closed : ClosedBucket K} :
    (vpinOf m e closed).isSome ↔
      (∃ s ∈ e.sigma.current, 0 < s) ∧ e.vpinWindow ≤ e.imbalances.length + 1 := by
  have hlength : ∀ pair, (e.pushImbalance pair).imbalances.length < e.vpinWindow ↔
      ¬ e.vpinWindow ≤ e.imbalances.length + 1 := by
    intro pair
    have hpush := SlidingWindow.length_push pair e.vpinWindow_pos e.length_imbalances_le
    simp only [pushImbalance, hpush]
    omega
  unfold vpinOf classifyInto imbalanceOf
  cases e.sigma.current with
  | none => simp
  | some s =>
      by_cases hs : 0 < s
      · simp only [Option.bind_some, bucketImbalance, Bvc.classify_of_pos m _ _ hs, score, hlength,
          Option.pure_def, Option.bind_eq_bind]
        by_cases hfull : e.vpinWindow ≤ e.imbalances.length + 1 <;> simp [hfull, hs]
      · simp [bucketImbalance, Bvc.classify_of_not_pos m _ _ hs, hs]

end Step

section CloseBucket

variable {vpin : Option K} {imbalances : List (K × K)}
  {ci : Option ({c : ConfidenceIntervalConfig K // c.Valid} × SplitMix64)}

theorem pushCiIn_of_fits (hlength : ci.isSome → imbalances.length < 2 ^ 59)
    (h : vpin.isSome → ∀ c ∈ ci, c.1.1.bootstrapSamples < 2 ^ 60) :
    pushCiIn vpin imbalances ci = arithmetic (pushCi vpin imbalances ci) := by
  rcases vpin with _ | v
  · rfl
  · rcases ci with _ | ⟨ciCfg, rng⟩
    · rfl
    · have hwindow : withCapacity 16 imbalances.length = .ok () := by
        rw [withCapacity_eq_ok, ← not_lt, sixteen_bytes]
        exact not_le.mpr (hlength rfl)
      have hsamples : withCapacity 8 ciCfg.1.bootstrapSamples = .ok () := by
        rw [withCapacity_eq_ok, ← not_lt, eight_bytes]
        exact not_le.mpr (h rfl _ rfl)
      simp only [pushCiIn, pushCi, hwindow, hsamples, bind, Except.bind]
      cases bootstrapCi imbalances ciCfg.1 rng <;> rfl

theorem pushCiIn_of_overdraws (hlength : imbalances.length < 2 ^ 59) (hvpin : vpin.isSome)
    (h : ∃ c ∈ ci, 2 ^ 60 ≤ c.1.1.bootstrapSamples) :
    pushCiIn vpin imbalances ci = .error .capacity := by
  obtain ⟨v, rfl⟩ := Option.isSome_iff_exists.mp hvpin
  obtain ⟨⟨ciCfg, rng⟩, rfl, hlarge⟩ := h
  have hwindow : withCapacity 16 imbalances.length = .ok () := by
    rw [withCapacity_eq_ok, ← not_lt, sixteen_bytes]
    exact not_le.mpr hlength
  have hsamples : withCapacity 8 ciCfg.1.bootstrapSamples = .error .capacity := by
    unfold withCapacity
    rw [if_pos (eight_bytes.mpr hlarge)]
  simp only [pushCiIn, hwindow, hsamples, bind, Except.bind]

variable [IsStrictOrderedRing K] {m : Libm K} {e : VpinEngine K} {closed : ClosedBucket K}

omit [FloorSemiring K] [IsStrictOrderedRing K] in
theorem InUse.length_lt (h : InUse e) (m : Libm K) (closed : ClosedBucket K)
    (hci : e.ci.isSome) : (classifyInto m e closed).imbalances.length < 2 ^ 59 := by
  have hwindow := h.vpinWindow_lt hci
  have hle := (classifyInto m e closed).length_imbalances_le
  rw [classifyInto_vpinWindow] at hle
  omega

theorem closeBucketIn_of_fits (h : InUse e) (hvol : 0 < closed.volume)
    (hfits : (vpinOf m e closed).isSome → ∀ c ∈ e.ci, c.1.1.bootstrapSamples < 2 ^ 60) :
    closeBucketIn m e closed = arithmetic (closeBucket m e closed) := by
  have hlength := h.length_lt m closed
  rw [← classifyInto_ci m e closed] at hfits hlength
  have hci := pushCiIn_of_fits hlength hfits
  simp only [closeBucketIn, closeBucket, updateVpin_eq m h.positive hvol, arithmetic,
    Except.mapError, bind, Except.bind, hci]
  cases pushCi (vpinOf m e closed) (classifyInto m e closed).imbalances
    (classifyInto m e closed).ci <;> rfl

theorem closeBucketIn_of_overdraws (h : InUse e) (hvol : 0 < closed.volume)
    (hvpin : (vpinOf m e closed).isSome) (hlarge : ∃ c ∈ e.ci, 2 ^ 60 ≤ c.1.1.bootstrapSamples) :
    closeBucketIn m e closed = .error .capacity := by
  have hsome : e.ci.isSome := by
    obtain ⟨c, hc, -⟩ := hlarge
    exact Option.isSome_of_mem hc
  rw [← classifyInto_ci m e closed] at hlarge
  have hci := pushCiIn_of_overdraws (h.length_lt m closed hsome) hvpin hlarge
  simp only [closeBucketIn, updateVpin_eq m h.positive hvol, arithmetic, Except.mapError, bind,
    Except.bind, hci]

omit [FloorSemiring K] [IsStrictOrderedRing K] in
theorem ci_afterBucket (h : e.ci = none) : (afterBucket m e closed).ci = none := by
  simp only [afterBucket, h]
  cases vpinOf m e closed <;> rfl

omit [FloorSemiring K] [IsStrictOrderedRing K] in
theorem InUse.afterBucket (h : InUse e) (hvol : 0 < closed.volume) :
    InUse (afterBucket m e closed) := by
  refine ⟨classifyInto_positive m h.positive hvol, ?_⟩
  intro hsome
  rw [afterBucket_vpinWindow]
  apply h.vpinWindow_lt
  by_contra hnone
  rw [ci_afterBucket (Option.not_isSome_iff_eq_none.mp hnone)] at hsome
  cases hsome

end CloseBucket

/-! ## One trade -/

section PushTrade

variable [IsStrictOrderedRing K] {m : Libm K} {e : VpinEngine K} {t : Trade K} {build : Build}

omit [FloorSemiring K] [IsStrictOrderedRing K] in
theorem InUse.of_bucketer (h : InUse e) (bucketer : VolumeBucketer K) :
    InUse { e with bucketer } := ⟨h.positive, h.vpinWindow_lt⟩

/-- The arithmetic of the engine never faults. -/
theorem InUse.pushTrade (h : InUse e) (t : Trade K) :
    ∃ out e', e.pushTrade m t = .ok (out, e') ∧ InUse e' ∧ (e.ci = none → e'.ci = none) := by
  have hkeep := h.of_bucketer (e.bucketer.push t.price t.volume t.tsNs).2
  cases hout : (e.bucketer.push t.price t.volume t.tsNs).1 with
  | none => exact ⟨none, _, pushTrade_of_none hout, hkeep, id⟩
  | some closed =>
      have hvol := VolumeBucketer.volume_pos_of_push hout
      exact ⟨_, _, pushTrade_of_some hout (closeBucket_eq m hkeep.positive hvol),
        hkeep.afterBucket hvol, fun hci ↦ ci_afterBucket hci⟩

omit [IsStrictOrderedRing K] in
theorem pushTradeIn_of_none (hasserts : e.bucketer.asserts build t.price t.volume = .ok ())
    (h : (e.bucketer.push t.price t.volume t.tsNs).1 = none) :
    e.pushTradeIn build m t = arithmetic (e.pushTrade m t) := by
  rw [pushTrade_of_none h]
  simp only [pushTradeIn, hasserts, bind, Except.bind]
  generalize e.bucketer.push t.price t.volume t.tsNs = r at h
  obtain ⟨closed, bucketer⟩ := r
  obtain rfl : closed = none := h
  rfl

omit [IsStrictOrderedRing K] in
theorem pushTradeIn_of_some {closed : ClosedBucket K}
    (hasserts : e.bucketer.asserts build t.price t.volume = .ok ())
    (h : (e.bucketer.push t.price t.volume t.tsNs).1 = some closed) :
    e.pushTradeIn build m t =
      (closeBucketIn m { e with bucketer := (e.bucketer.push t.price t.volume t.tsNs).2 } closed).map
        fun r ↦ (some r.1, r.2) := by
  simp only [pushTradeIn, hasserts, bind, Except.bind]
  generalize e.bucketer.push t.price t.volume t.tsNs = r at h
  obtain ⟨closed', bucketer⟩ := r
  obtain rfl : closed' = some closed := h
  simp only
  cases closeBucketIn m { e with bucketer } closed <;> rfl

omit [FloorSemiring K] [IsStrictOrderedRing K] in
theorem closes_of_push {closed : ClosedBucket K}
    (h : (e.bucketer.push t.price t.volume t.tsNs).1 = some closed) :
    e.bucketer.targetVolume ≤ e.bucketer.accVolume + t.volume := by
  rw [← (VolumeBucketer.volume_of_push_some h).1]
  exact VolumeBucketer.target_le_of_push h

theorem pushTradeIn_of_fits (h : InUse e) (hfits : Fits build e t) :
    e.pushTradeIn build m t = arithmetic (e.pushTrade m t) := by
  rcases asserts_cases build e.bucketer t with ⟨hasserts, -⟩ | ⟨-, hnot⟩
  · cases hout : (e.bucketer.push t.price t.volume t.tsNs).1 with
    | none => exact pushTradeIn_of_none hasserts hout
    | some closed =>
        have hvol := VolumeBucketer.volume_pos_of_push hout
        have hkeep := h.of_bucketer (e.bucketer.push t.price t.volume t.tsNs).2
        have hclose := closeBucket_eq m hkeep.positive hvol
        rw [pushTradeIn_of_some hasserts hout, closeBucketIn_of_fits hkeep hvol, hclose,
          pushTrade_of_some hout hclose]
        · rfl
        · intro hvpin c hc
          by_contra hlarge
          obtain ⟨hclassified, hfull⟩ := vpinOf_isSome_iff.mp hvpin
          exact hfits.bootstrap
            ⟨⟨c, hc, not_lt.mp hlarge⟩, closes_of_push hout, hclassified, hfull⟩
  · exact absurd (fun hdebug ↦ ⟨hfits.positive hdebug, hfits.tradeCount hdebug⟩) hnot

theorem pushTradeIn_of_not_fits (h : InUse e) (hfits : ¬ Fits build e t) :
    ∃ p, e.pushTradeIn build m t = .error p := by
  rcases asserts_cases build e.bucketer t with ⟨hasserts, hdebug⟩ | ⟨⟨p, hasserts⟩, -⟩
  · have hover : Overdraws e t := by
      by_contra hnot
      exact hfits ⟨⟨fun hb ↦ (hdebug hb).2, hnot⟩, fun hb ↦ (hdebug hb).1⟩
    obtain ⟨closed, hout⟩ : ∃ closed, (e.bucketer.push t.price t.volume t.tsNs).1 = some closed := by
      rw [VolumeBucketer.push_of_le t.tsNs hover.closes]
      exact ⟨_, rfl⟩
    have hvol := VolumeBucketer.volume_pos_of_push hout
    have hkeep := h.of_bucketer (e.bucketer.push t.price t.volume t.tsNs).2
    refine ⟨.capacity, ?_⟩
    rw [pushTradeIn_of_some hasserts hout, closeBucketIn_of_overdraws hkeep hvol
      (vpinOf_isSome_iff.mpr ⟨hover.classified, hover.full⟩) hover.samples]
    rfl
  · refine ⟨p, ?_⟩
    simp only [pushTradeIn, hasserts, bind, Except.bind]

omit [IsStrictOrderedRing K] in
theorem closeBucketIn_bucketer {e' : VpinEngine K} {closed : ClosedBucket K}
    {reading : VpinReading K} (h : closeBucketIn m e closed = .ok (reading, e')) :
    reading.bucketId = closed.bucketId ∧ reading.tradesInBucket = closed.tradeCount ∧
      e'.bucketer = e.bucketer := by
  obtain ⟨⟨vpin, e₁⟩, hvpin, h⟩ := ok_of_bind h
  obtain ⟨_, _, h⟩ := ok_of_bind h
  cases h
  have hkeep := updateVpin_bucketer (mapError_eq_ok.mp hvpin)
  exact ⟨rfl, rfl, hkeep⟩

omit [IsStrictOrderedRing K] in
/-- A trade that does not panic is counted in its bucket, and a closed bucket reports
its count. -/
theorem pushTradeIn_bucketer {e' : VpinEngine K} {out : Option (VpinReading K)}
    (h : e.pushTradeIn build m t = .ok (out, e')) :
    (out = none ∧ e'.bucketer.bucketId = e.bucketer.bucketId ∧
        e'.bucketer.tradeCount = e.bucketer.tradeCount + 1) ∨
      ∃ r, out = some r ∧ r.bucketId = e.bucketer.bucketId ∧
        r.tradesInBucket = e.bucketer.tradeCount + 1 ∧
        e'.bucketer.bucketId = e.bucketer.bucketId + 1 ∧ e'.bucketer.tradeCount = 0 := by
  obtain ⟨_, -, h⟩ := ok_of_bind h
  rcases lt_or_ge (e.bucketer.accVolume + t.volume) e.bucketer.targetVolume with hlt | hle
  · rw [VolumeBucketer.push_of_lt t.tsNs hlt] at h
    cases h
    exact .inl ⟨rfl, rfl, rfl⟩
  · rw [VolumeBucketer.push_of_le t.tsNs hle] at h
    obtain ⟨⟨reading, e₁⟩, hclose, h⟩ := ok_of_bind h
    cases h
    obtain ⟨hid, htrades, hbucketer⟩ := closeBucketIn_bucketer hclose
    exact .inr ⟨reading, rfl, hid, htrades, by rw [hbucketer], by rw [hbucketer]⟩

end PushTrade

/-! ## A whole tape -/

omit [FloorSemiring K] in
theorem inUse_of_create {cfg : VpinEngineConfig (RawFloat K)} {e : VpinEngine K}
    (h : Returns (create cfg) e) : InUse e := by
  obtain ⟨himbalances, hwindow⟩ := imbalances_of_create h
  exact ⟨by simp [PositiveVolumes, himbalances], fun _ ↦ hwindow⟩

omit [FloorSemiring K] in
theorem inUse_of_new {cfg : VpinEngineConfig K} {e : VpinEngine K} (h : new cfg = .ok e)
    (hci : cfg.confidenceInterval = none) : InUse e ∧ e.ci = none := by
  have hfresh := fresh_of_new h
  have hnone : e.ci = none := by simpa [hci] using hfresh.ci_eq
  exact ⟨⟨by simp [PositiveVolumes, hfresh.imbalances], by simp [hnone]⟩, hnone⟩

open Runs

def next (m : Libm K) (e : VpinEngine K) (t : Trade K) : Option (VpinEngine K) :=
  (e.pushTrade m t).toOption.map Prod.snd

theorem feedIn_isOk_iff [IsStrictOrderedRing K] {build : Build} {m : Libm K} {e : VpinEngine K}
    (h : InUse e) (tape : List (Trade K)) :
    (∃ out, feedIn build m e tape = .ok out) ↔ Along (next m) (Fits build) e tape := by
  induction tape generalizing e with
  | nil => exact ⟨fun _ ↦ trivial, fun _ ↦ ⟨_, rfl⟩⟩
  | cons t tape ih =>
      obtain ⟨out, e', hpush, h', -⟩ := h.pushTrade (m := m) t
      have hnext : next m e t = some e' := by simp [next, hpush, Except.toOption]
      simp only [Along, hnext, Option.mem_def, Option.some.injEq, forall_eq']
      by_cases hfits : Fits build e t
      · have hstep : e.pushTradeIn build m t = .ok (out, e') := by
          rw [pushTradeIn_of_fits h hfits, hpush]
          rfl
        rw [← ih h']
        simp only [feedIn, hstep, bind, Except.bind, hfits, true_and]
        cases feedIn build m e' tape <;> simp [pure, Except.pure]
      · obtain ⟨p, hstep⟩ := pushTradeIn_of_not_fits (m := m) h hfits
        simp [feedIn, hstep, bind, Except.bind, hfits]

theorem feedIn_isOk_iff_of_positive [IsStrictOrderedRing K] {build : Build} {m : Libm K}
    {e : VpinEngine K} (h : InUse e) {tape : List (Trade K)} (hpositive : ∀ t ∈ tape, t.Positive) :
    (∃ out, feedIn build m e tape = .ok out) ↔ Along (next m) (Roomy build) e tape := by
  rw [feedIn_isOk_iff h]
  apply along_congr
  intro t ht e
  exact ⟨fun hfits ↦ hfits.toRoomy, fun hroomy ↦ ⟨hroomy, fun _ ↦ hpositive t ht⟩⟩

/-! ## The versions without panics -/

omit [Field K] [LinearOrder K] [FloorSemiring K] in
theorem implements_checkFinite {α φ : Type} (r : Except (VpinError K) α) :
    Implements (VpinError.map .finite) (checkFinite r)
      (check r : ExceptT (VpinError K) (Except φ) α) := implements_check _ r

omit [Field K] [LinearOrder K] [FloorSemiring K] in
theorem implements_createSigma {φ : Type} (window : ℕ) :
    Implements (VpinError.map .finite) (RollingSigma.create window : Construction K _)
      (check (RollingSigma.new window) : ExceptT (VpinError K) (Except φ) _) := by
  rw [← bind_pure (check (RollingSigma.new window))]
  refine (implements_checkFinite _).bind fun sigma ↦ Implements.attempt_bind fun _ ↦ ?_
  exact implements_pure _ sigma

omit [Field K] [LinearOrder K] [FloorSemiring K] in
theorem implements_createCdf {φ : Type} (window : Option ℕ) :
    Implements (VpinError.map .finite) (createCdf window : Construction K _)
      (check (newCdf window) : ExceptT (VpinError K) (Except φ) _) := by
  cases window with
  | none => exact implements_pure _ none
  | some n =>
      have hcdf : (check (newCdf (some n)) : ExceptT (VpinError K) (Except φ) _) =
          check (EmpiricalCdf.new n) >>= fun cdf ↦ pure (some cdf) := by
        rw [newCdf]
        cases (EmpiricalCdf.new n : Except (VpinError K) (EmpiricalCdf K)) <;> rfl
      rw [hcdf]
      simp only [createCdf, EmpiricalCdf.create, bind_assoc, pure_bind]
      refine (implements_checkFinite _).bind fun cdf ↦ Implements.attempt_bind fun _ ↦ ?_
      exact implements_pure _ (some cdf)

omit [FloorSemiring K] in
/-- On finite floats the constructor does what that of the exact engine does, if it does
not panic. -/
theorem implements_create_raw {φ : Type} (cfg : VpinEngineConfig K) :
    Implements (VpinError.map .finite) (create cfg.raw)
      (check (new cfg) : ExceptT (VpinError K) (Except φ) _) := by
  unfold create new
  by_cases hwindow : cfg.vpinWindow < 1
  · have hraw : cfg.raw.vpinWindow < 1 := hwindow
    rw [dif_pos hwindow, dif_pos hraw]
    exact implements_check (VpinError.map RawFloat.finite)
      (.error (.invalidWindow cfg.vpinWindow 1))
  · have hraw : ¬ cfg.raw.vpinWindow < 1 := hwindow
    rw [dif_neg hwindow, dif_neg hraw]
    simp only [VpinEngineConfig.raw, createCi_raw, VolumeBucketer.create, check_bind]
    refine (implements_checkFinite _).bind fun ci ↦ (implements_checkFinite _).bind fun b ↦
      (implements_createSigma _).bind fun sigma ↦ Implements.attempt_bind fun _ ↦
        (implements_createCdf _).bind fun cdf ↦ ?_
    exact implements_pure _ _

theorem approximates_arithmetic {α : Type} (x : Except Fault α) :
    Approximates (arithmetic x) x := fun _ h ↦ mapError_eq_ok.mp h

theorem approximates_pushCiIn (vpin : Option K) (imbalances : List (K × K))
    (ci : Option ({c : ConfidenceIntervalConfig K // c.Valid} × SplitMix64)) :
    Approximates (pushCiIn vpin imbalances ci) (pushCi vpin imbalances ci) := by
  rcases vpin with _ | v
  · exact approximates_pure ((none, none), ci)
  · rcases ci with _ | ⟨ciCfg, rng⟩
    · exact approximates_pure ((none, none), none)
    · intro r hr
      obtain ⟨_, -, hr⟩ := ok_of_bind hr
      obtain ⟨_, -, hr⟩ := ok_of_bind hr
      exact (approximates_arithmetic _).bind (fun _ ↦ approximates_pure _) r hr

theorem approximates_closeBucketIn (m : Libm K) (e : VpinEngine K) (closed : ClosedBucket K) :
    Approximates (closeBucketIn m e closed) (closeBucket m e closed) :=
  (approximates_arithmetic _).bind fun _ ↦
    (approximates_pushCiIn _ _ _).bind fun _ ↦ approximates_pure _

theorem approximates_pushTradeIn (build : Build) (m : Libm K) (e : VpinEngine K) (t : Trade K) :
    Approximates (e.pushTradeIn build m t) (e.pushTrade m t) := by
  intro r hr
  obtain ⟨_, -, hr⟩ := ok_of_bind hr
  unfold pushTrade
  generalize e.bucketer.push t.price t.volume t.tsNs = pushed at hr ⊢
  obtain ⟨closed | closed, bucketer⟩ := pushed
  · exact approximates_pure _ r hr
  · exact (approximates_closeBucketIn m _ closed).bind (fun _ ↦ approximates_pure _) r hr

theorem approximates_feedIn (build : Build) (m : Libm K) (e : VpinEngine K)
    (tape : List (Trade K)) : Approximates (feedIn build m e tape) (feed m e tape) := by
  induction tape generalizing e with
  | nil => exact approximates_pure ([], e)
  | cons t tape ih =>
      exact (approximates_pushTradeIn build m e t).bind fun p ↦
        (ih p.2).bind fun _ ↦ approximates_pure _

/-- One more trade after a tape that has been fed. -/
theorem feedIn_concat {build : Build} {m : Libm K} {e e' : VpinEngine K} {tape : List (Trade K)}
    {readings : List (VpinReading K)} (h : feedIn build m e tape = .ok (readings, e'))
    (t : Trade K) :
    feedIn build m e (tape ++ [t]) =
      (e'.pushTradeIn build m t).map fun r ↦ (readings ++ r.1.toList, r.2) := by
  induction tape generalizing e readings with
  | nil =>
      obtain ⟨rfl, rfl⟩ := Prod.mk.inj (Except.ok.inj h)
      rw [List.nil_append, feedIn]
      cases e.pushTradeIn build m t with
      | error p => rfl
      | ok r => simp [feedIn, bind, Except.bind, pure, Except.pure, Except.map]
  | cons t' tape ih =>
      obtain ⟨⟨out, e₁⟩, hpush, h⟩ := ok_of_bind h
      obtain ⟨⟨rest, e₂⟩, hrest, h⟩ := ok_of_bind h
      obtain ⟨rfl, rfl⟩ := Prod.mk.inj (Except.ok.inj h)
      have hmore := ih hrest
      simp only [List.cons_append, feedIn, hpush, hmore, bind, Except.bind]
      cases e₂.pushTradeIn build m t <;>
        simp [Except.map, pure, Except.pure, List.append_assoc]

end VpinEngine

/-! ## The bucketer alone -/

section Bucketer

open Runs

/-- The trade passes the head of `VolumeBucketer::push`. -/
def VolumeBucketer.Takes (build : Build) (b : VolumeBucketer K) (t : Trade K) : Prop :=
  build = .debug → t.Positive ∧ b.tradeCount ≠ 4294967295

def VolumeBucketer.next (b : VolumeBucketer K) (t : Trade K) : Option (VolumeBucketer K) :=
  some (b.push t.price t.volume t.tsNs).2

/-- A bucketer of this target takes the whole tape. -/
def TakesAll (build : Build) (targetVolume : K) (tape : List (Trade K)) : Prop :=
  ∀ b, VolumeBucketer.new targetVolume = .ok b →
    Along VolumeBucketer.next (VolumeBucketer.Takes build) b tape

theorem takesAll_release (targetVolume : K) (tape : List (Trade K)) :
    TakesAll .release targetVolume tape :=
  fun b _ ↦ along_of_forall (fun _ _ hbuild ↦ absurd hbuild (by decide)) b tape

theorem VolumeBucketer.tradeCount_push_le (b : VolumeBucketer K) (t : Trade K) :
    (b.push t.price t.volume t.tsNs).2.tradeCount.toNat ≤ b.tradeCount.toNat + 1 := by
  rcases lt_or_ge (b.accVolume + t.volume) b.targetVolume with hlt | hle
  · rw [VolumeBucketer.push_of_lt t.tsNs hlt]
    change (b.tradeCount + 1).toNat ≤ _
    rw [UInt32.toNat_add]
    exact Nat.mod_le _ _
  · rw [VolumeBucketer.push_of_le t.tsNs hle]
    exact Nat.zero_le _

theorem VolumeBucketer.along_takes {b : VolumeBucketer K} {tape : List (Trade K)}
    (hpositive : ∀ t ∈ tape, t.Positive) (hroom : b.tradeCount.toNat + tape.length ≤ 4294967295)
    (build : Build) : Along VolumeBucketer.next (VolumeBucketer.Takes build) b tape := by
  induction tape generalizing b with
  | nil => trivial
  | cons t tape ih =>
      obtain ⟨ht, htape⟩ := List.forall_mem_cons.mp hpositive
      rw [List.length_cons] at hroom
      refine ⟨fun _ ↦ ⟨ht, fun hfull ↦ ?_⟩, ?_⟩
      · rw [hfull] at hroom
        have hmax : (4294967295 : UInt32).toNat = 4294967295 := rfl
        omega
      · rintro b' ⟨⟩
        have hle := b.tradeCount_push_le t
        exact ih htape (by omega)

theorem takesAll_of_positive {tape : List (Trade K)} (hpositive : ∀ t ∈ tape, t.Positive)
    (hlength : tape.length ≤ 4294967295) (build : Build) (targetVolume : K) :
    TakesAll build targetVolume tape := by
  intro b hb
  obtain ⟨-, -, -, -, hcount, -⟩ := VolumeBucketer.new_eq_ok hb
  refine VolumeBucketer.along_takes hpositive ?_ build
  rw [hcount]
  exact (Nat.zero_add _).trans_le hlength

namespace VpinEngine

theorem fits_iff {build : Build} {e : VpinEngine K} (hci : e.ci = none) (t : Trade K) :
    e.Fits build t ↔ e.bucketer.Takes build t := by
  have hover : ¬ e.Overdraws t := by
    rintro ⟨⟨c, hc, -⟩, -, -, -⟩
    rw [hci] at hc
    cases hc
  exact ⟨fun h hb ↦ ⟨h.positive hb, h.tradeCount hb⟩,
    fun h ↦ ⟨⟨fun hb ↦ (h hb).2, hover⟩, fun hb ↦ (h hb).1⟩⟩

variable [FloorSemiring K] [IsStrictOrderedRing K] {m : Libm K} {e e' : VpinEngine K}

theorem InUse.bucketer_pushTrade (h : InUse e) {t : Trade K} {out : Option (VpinReading K)}
    (hpush : e.pushTrade m t = .ok (out, e')) :
    e'.bucketer = (e.bucketer.push t.price t.volume t.tsNs).2 := by
  have hkeep := h.of_bucketer (e.bucketer.push t.price t.volume t.tsNs).2
  cases hout : (e.bucketer.push t.price t.volume t.tsNs).1 with
  | none =>
      rw [pushTrade_of_none hout] at hpush
      obtain ⟨-, rfl⟩ := Prod.mk.inj (Except.ok.inj hpush)
      rfl
  | some closed =>
      have hvol := VolumeBucketer.volume_pos_of_push hout
      rw [pushTrade_of_some hout (closeBucket_eq m hkeep.positive hvol)] at hpush
      obtain ⟨-, rfl⟩ := Prod.mk.inj (Except.ok.inj hpush)
      exact afterBucket_bucketer m _ closed

/-- Without a bootstrap only the bucketer can refuse a trade. -/
theorem feedIn_isOk_iff_takes {build : Build} (h : InUse e) (hci : e.ci = none)
    (tape : List (Trade K)) :
    (∃ out, feedIn build m e tape = .ok out) ↔
      Along VolumeBucketer.next (VolumeBucketer.Takes build) e.bucketer tape := by
  rw [feedIn_isOk_iff h]
  induction tape generalizing e with
  | nil => exact Iff.rfl
  | cons t tape ih =>
      obtain ⟨out, e', hpush, h', hci'⟩ := h.pushTrade (m := m) t
      have hnext : next m e t = some e' := by simp [next, hpush, Except.toOption]
      have hbucketer : e.bucketer.next t = some e'.bucketer := by
        rw [VolumeBucketer.next, h.bucketer_pushTrade hpush]
      simp only [Along, hnext, hbucketer, Option.mem_def, Option.some.injEq, forall_eq',
        fits_iff hci, ih h' (hci' hci)]

end VpinEngine

end Bucketer

end Geiger
