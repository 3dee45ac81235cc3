import Geiger.Service.Validation
import Geiger.Service.Worker

/-!
# The liveness flag of a worker

The steps of a stream again, with the panics of the engine in a given build.  The
flag is set before the heartbeat timer is created and cleared only when the trade
channel has closed.
-/

namespace Geiger.Stream

open Runs

variable {K : Type} [Field K] [LinearOrder K] [FloorSemiring K]

def onTradeIn (build : Build) (m : Libm K) (s : Stream K) (engine : VpinEngine K)
    (t : NormalizedTrade) : Stream K :=
  let s := { s with health := s.health.countTrade t }
  match engine.pushTradeIn build m (toTrade t) with
  | .error _ => { s with worker := .panicked }
  | .ok (none, engine) => { s with worker := .running engine .select }
  | .ok (some r, engine) =>
    { s with worker := .running engine (.store (s.readingMessage r)) }

def stepIn (build : Build) (m : Libm K) (s : Stream K) : Event → Option (Stream K)
  | .trade t =>
    match s.worker with
    | .running engine .select => some (s.onTradeIn build m engine t)
    | _ => none
  | e => s.step m e

/-- The flag is up exactly while the worker runs. -/
def Truthful (s : Stream K) : Prop :=
  s.health.workerAlive = true ↔ ∃ engine await, s.worker = .running engine await

/-- No panic lies in this step: the timer is not created with a zero interval, and in
a debug build the trade passes the assertions of the bucketer and can be counted. -/
def Harmless (build : Build) (s : Stream K) : Event → Prop
  | .start => s.heartbeatInterval ≠ 0
  | .trade t => build = .debug → (toTrade t : Trade K).Positive ∧
      ∀ engine await, s.worker = .running engine await → engine.bucketer.tradeCount ≠ 4294967295
  | _ => True

/-! ## What the states of a run look like -/

/-- A panicked worker has left the flag up. -/
def WorkerInv (s : Stream K) : Prop :=
  match s.worker with
  | .starting => s.health.workerAlive = false ∧ ∃ engine, VpinEngine.new s.engineCfg = .ok engine ∧
      engine.InUse ∧ engine.ci = none
  | .running engine _ => s.health.workerAlive = true ∧ engine.InUse ∧ engine.ci = none
  | .exited => s.health.workerAlive = false
  | .panicked => s.health.workerAlive = true

omit [FloorSemiring K] in
theorem truthful_iff {s : Stream K} (h : WorkerInv s) : Truthful s ↔ s.worker ≠ .panicked := by
  unfold WorkerInv at h
  unfold Truthful
  split at h <;> simp_all

section Steps

variable [IsStrictOrderedRing K] {build : Build} {m : Libm K} {s s' : Stream K}

omit [FloorSemiring K] [IsStrictOrderedRing K] in
theorem WorkerInv.of_same (h : WorkerInv s) (hworker : s'.worker = s.worker)
    (hhealth : s'.health.workerAlive = s.health.workerAlive) (hcfg : s'.engineCfg = s.engineCfg) :
    WorkerInv s' := by
  unfold WorkerInv
  rw [hworker, hhealth, hcfg]
  exact h

omit [FloorSemiring K] [LinearOrder K] [Field K] [IsStrictOrderedRing K] in
theorem workerAlive_account (h : StreamHealth) (msg : ServerMessage K) :
    (h.account msg).workerAlive = h.workerAlive := by
  cases msg <;> rfl

omit [IsStrictOrderedRing K] in
theorem WorkerInv.start (h : WorkerInv s) (hworker : s.worker = .starting) :
    WorkerInv s.startWorker ∧
      (s.startWorker.worker ≠ .panicked ↔ s.heartbeatInterval ≠ 0) := by
  simp only [WorkerInv, hworker] at h
  obtain ⟨-, engine, hnew, huse, hci⟩ := h
  by_cases hzero : s.heartbeatInterval = 0
  · simp [startWorker, hnew, hzero, WorkerInv]
  · simp [startWorker, hnew, hzero, WorkerInv, huse, hci]

theorem WorkerInv.trade (h : WorkerInv s) {engine : VpinEngine K}
    (hworker : s.worker = .running engine .select) (t : NormalizedTrade) :
    WorkerInv (s.onTradeIn build m engine t) ∧
      ((s.onTradeIn build m engine t).worker ≠ .panicked ↔ engine.Fits build (toTrade t)) := by
  simp only [WorkerInv, hworker] at h
  obtain ⟨halive, huse, hci⟩ := h
  by_cases hfits : engine.Fits build (toTrade t)
  · obtain ⟨out, engine', hpush, huse', hci'⟩ := huse.pushTrade (m := m) (toTrade t)
    have hstep : engine.pushTradeIn build m (toTrade t) = .ok (out, engine') := by
      rw [VpinEngine.pushTradeIn_of_fits huse hfits, hpush]
      rfl
    cases out <;>
      simp [onTradeIn, hstep, WorkerInv, StreamHealth.countTrade, halive, huse', hci' hci, hfits]
  · obtain ⟨p, hstep⟩ := VpinEngine.pushTradeIn_of_not_fits (m := m) huse hfits
    simp [onTradeIn, hstep, WorkerInv, StreamHealth.countTrade, halive, hfits]

/-- One step, one case for each event. -/
theorem WorkerInv.step (h : WorkerInv s) {e : Event} (hstep : s.stepIn build m e = some s') :
    WorkerInv s' ∧ (s'.worker ≠ .panicked ↔ s.worker ≠ .panicked ∧ Harmless build s e) := by
  cases e with
  | start =>
      obtain ⟨hworker, rfl⟩ := start_eq_some (m := m) hstep
      obtain ⟨hinv, hpanicked⟩ := h.start hworker
      exact ⟨hinv, by simp [hpanicked, hworker, Harmless]⟩
  | trade t =>
      simp only [stepIn] at hstep
      split at hstep
      case h_2 => cases hstep
      case h_1 engine hworker =>
        obtain rfl := Option.some.inj hstep
        obtain ⟨hinv, hpanicked⟩ := h.trade hworker t
        simp only [WorkerInv, hworker] at h
        refine ⟨hinv, ?_⟩
        rw [hpanicked, VpinEngine.fits_iff h.2.2]
        simp [Harmless, VolumeBucketer.Takes, hworker]
  | heartbeat tsNs =>
      obtain ⟨engine, hworker, rfl⟩ := heartbeat_eq_some (m := m) hstep
      simp only [WorkerInv, hworker] at h
      exact ⟨h, by simp [hworker, Harmless]⟩
  | closed =>
      obtain ⟨engine, hworker, rfl⟩ := closed_eq_some (m := m) hstep
      exact ⟨rfl, by simp [hworker, Harmless]⟩
  | proceed =>
      rcases proceed_eq_some hstep with ⟨engine, msg, fanout, hworker, -, rfl⟩ |
        ⟨engine, msg, fanout, hworker, -, rfl⟩ | ⟨engine, msg, hworker, rfl⟩
      · simp only [WorkerInv, hworker] at h
        exact ⟨h, by simp [hworker, Harmless]⟩
      · simp only [WorkerInv, hworker] at h
        exact ⟨h, by simp [hworker, Harmless]⟩
      · simp only [WorkerInv, hworker] at h
        refine ⟨?_, by simp [hworker, Harmless]⟩
        simpa only [WorkerInv, workerAlive_account] using h
  | subscribe c =>
      obtain ⟨fanout, -, rfl⟩ := connStep_eq_some hstep
      exact ⟨h.of_same rfl rfl rfl, by simp [Harmless]⟩
  | snapshot c =>
      obtain ⟨fanout, -, rfl⟩ := connStep_eq_some hstep
      exact ⟨h.of_same rfl rfl rfl, by simp [Harmless]⟩
  | recv c =>
      obtain ⟨fanout, -, rfl⟩ := connStep_eq_some hstep
      exact ⟨h.of_same rfl rfl rfl, by simp [Harmless]⟩

end Steps

/-! ## Every run of an accepted configuration -/

omit [FloorSemiring K] in
theorem new_of_resolveStream {c : StreamConfig K} {exchange : Exchange}
    {engineCfg : VpinEngineConfig K} (h : resolveStream c = .ok (exchange, engineCfg)) :
    ∃ engine, VpinEngine.new engineCfg = .ok engine ∧ engine.InUse ∧ engine.ci = none := by
  obtain ⟨-, rfl, engine, hnew⟩ := resolveStream_eq_ok.mp h
  exact ⟨engine, hnew, VpinEngine.inUse_of_new hnew rfl⟩

omit [Field K] [LinearOrder K] [FloorSemiring K] in
theorem heartbeatInterval_of_fromEnv {o : Outside K} {cfg : ServiceConfig K}
    (h : ServiceConfig.fromEnv o = .ok cfg) :
    cfg.heartbeatInterval = 0 ↔ optionalU64 o.var "GEIGER_HEARTBEAT_SECS" 5 = 0 := by
  unfold ServiceConfig.fromEnv at h
  split at h
  · cases h
  · split at h
    · cases h
    · obtain rfl := Except.ok.inj h
      simp only [Duration.fromSecs, ← UInt64.toNat_inj]
      simp

/-- In every run of a worker that was started from an accepted configuration: the flag
tells the truth exactly when no step so far had a panic in it.  The timer panics
exactly when the configured heartbeat is zero. -/
theorem truthful_iff_harmless [IsStrictOrderedRing K] (build : Build) (m : Libm K)
    (o : Outside K) (cfg : ServiceConfig K) (hcfg : ServiceConfig.fromEnv o = .ok cfg)
    (c : StreamConfig K) (exchange : Exchange) (engineCfg : VpinEngineConfig K)
    (hresolve : resolveStream c = .ok (exchange, engineCfg)) (capacity : ℕ) :
    (cfg.heartbeatInterval = 0 ↔ optionalU64 o.var "GEIGER_HEARTBEAT_SECS" 5 = 0) ∧
    ∀ es s, run (stepIn build m)
        (new c.exchange c.symbol engineCfg cfg.heartbeatInterval capacity) es = some s →
      (Truthful s ↔ Along (stepIn build m) (Harmless build)
        (new c.exchange c.symbol engineCfg cfg.heartbeatInterval capacity) es) := by
  refine ⟨heartbeatInterval_of_fromEnv hcfg, ?_⟩
  intro es s hrun
  have hinit : WorkerInv (new c.exchange c.symbol engineCfg cfg.heartbeatInterval capacity) :=
    ⟨rfl, new_of_resolveStream hresolve⟩
  obtain ⟨hinv, hpanicked⟩ := iff_along
    (fun s e s' hs hstep ↦ hs.step hstep) hinit hrun
  rw [truthful_iff hinv, hpanicked]
  simp [new]

/-! ## Two environments -/

def unitStreamConfig : StreamConfig ℚ := ⟨"binance", "BTCUSDT", 1, 2, 1, none, none, none⟩

/-- An environment with one stream and this heartbeat. -/
def withHeartbeat (secs : String) : Outside ℚ where
  var name :=
    if name = "GEIGER_STREAMS_FILE" then some "streams.json"
    else if name = "GEIGER_HEARTBEAT_SECS" then some secs
    else none
  readToString _ := .ok ""
  fromStr _ := .ok [unitStreamConfig]

theorem fromEnv_withHeartbeat (secs : String) : ∃ cfg,
    ServiceConfig.fromEnv (withHeartbeat secs) = .ok cfg ∧ cfg.heartbeatInterval =
      Duration.fromSecs (optionalU64 (withHeartbeat secs).var "GEIGER_HEARTBEAT_SECS" 5) := by
  simp [ServiceConfig.fromEnv, withHeartbeat, loadStreams]

theorem resolveStream_unit : resolveStream unitStreamConfig = .ok (.binance, unitConfig) := by
  have hexchange : parseExchange unitStreamConfig.exchange = some .binance := by decide +kernel
  exact resolveStream_eq_ok.mpr ⟨hexchange, rfl, VpinEngine.new_of_valid unitConfig_valid⟩

def oneTrade : List Event := [.start, .trade unitTrade, .proceed, .proceed, .proceed, .closed]

theorem truthful_iff_harmless_five :
    ∃ cfg s, ServiceConfig.fromEnv (withHeartbeat "5") = .ok cfg ∧
      run (stepIn .debug unitLibm)
        (new "binance" "BTCUSDT" unitConfig cfg.heartbeatInterval 256) oneTrade = some s ∧
      (Truthful s ↔ Along (stepIn .debug unitLibm) (Harmless .debug)
        (new "binance" "BTCUSDT" unitConfig cfg.heartbeatInterval 256) oneTrade) := by
  obtain ⟨cfg, hcfg, hinterval⟩ := fromEnv_withHeartbeat "5"
  have hrun : (run (stepIn .debug unitLibm) (new "binance" "BTCUSDT" unitConfig
      (Duration.fromSecs (optionalU64 (withHeartbeat "5").var "GEIGER_HEARTBEAT_SECS" 5)) 256)
      oneTrade).isSome = true := by
    decide +kernel
  rw [← hinterval] at hrun
  obtain ⟨s, hrun⟩ := Option.isSome_iff_exists.mp hrun
  exact ⟨cfg, s, hcfg, hrun, (truthful_iff_harmless .debug unitLibm (withHeartbeat "5") cfg hcfg
    unitStreamConfig .binance unitConfig resolveStream_unit 256).2 oneTrade s hrun⟩

/-- `GEIGER_HEARTBEAT_SECS=0` is accepted; the worker panics as it creates the timer
and is reported alive. -/
theorem zeroHeartbeat_not_truthful :
    ¬ ∀ cfg es s, ServiceConfig.fromEnv (withHeartbeat "0") = .ok cfg →
      run (stepIn .release unitLibm)
        (new "binance" "BTCUSDT" unitConfig cfg.heartbeatInterval 256) es = some s →
      Truthful s := by
  intro h
  obtain ⟨cfg, hcfg, hinterval⟩ := fromEnv_withHeartbeat "0"
  have hrun : (run (stepIn .release unitLibm) (new "binance" "BTCUSDT" unitConfig
      (Duration.fromSecs (optionalU64 (withHeartbeat "0").var "GEIGER_HEARTBEAT_SECS" 5)) 256)
      [.start]).map (fun s ↦ (s.health.workerAlive, match s.worker with
        | .panicked => true
        | _ => false)) = some (true, true) := by
    decide +kernel
  rw [← hinterval] at hrun
  obtain ⟨s, hrun, heq⟩ := Option.map_eq_some_iff.mp hrun
  obtain ⟨halive, hpanicked⟩ := Prod.mk.inj heq
  obtain ⟨engine, await, hrunning⟩ := (h cfg [.start] s hcfg hrun).mp halive
  rw [hrunning] at hpanicked
  cases hpanicked

end Geiger.Stream
