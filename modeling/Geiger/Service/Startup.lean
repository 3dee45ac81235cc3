import Geiger.Service.Streams
import Geiger.Service.Validation

/-!
# Coming up

`main` up to the first spawn, with the panics of the constructor that validates each entry.
-/

namespace Geiger

open Fallible

variable {K : Type}

/-- The floats of a file that could be read are finite. -/
def StreamConfig.raw (s : StreamConfig K) : StreamConfig (RawFloat K) :=
  { s with bucketVolume := .finite s.bucketVolume }

variable [Field K] [LinearOrder K]

omit [Field K] [LinearOrder K] in
@[simp] theorem engineConfig_raw (s : StreamConfig K) :
    s.raw.engineConfig = s.engineConfig.raw := rfl

theorem returns_resolveStreamIn_raw {s : StreamConfig K}
    {r : Exchange × VpinEngineConfig (RawFloat K)} :
    Returns (resolveStreamIn s.raw) r ↔
      resolveStream s = .ok (r.1, s.engineConfig) ∧ ¬ Oversized s.engineConfig ∧
        r.2 = s.engineConfig.raw := by
  have hexchange : s.raw.exchange = s.exchange := rfl
  rw [resolveStream_eq_ok]
  unfold resolveStreamIn
  rw [hexchange]
  cases parseExchange s.exchange with
  | none => simp
  | some exchange =>
      simp only [returns_bind, returns_adapt, engineConfig_raw, VpinEngine.returns_create_raw,
        returns_pure, Option.some.injEq, Prod.ext_iff]
      constructor
      · rintro ⟨e, ⟨hnew, hsize⟩, rfl, hcfg⟩
        exact ⟨⟨rfl, rfl, e, hnew⟩, hsize, hcfg.symm⟩
      · rintro ⟨⟨rfl, -, e, hnew⟩, hsize, hcfg⟩
        exact ⟨e, ⟨hnew, hsize⟩, rfl, hcfg.symm⟩

theorem exists_resolveStream_iff {s : StreamConfig K} :
    (∃ r, resolveStream s = .ok r) ↔
      (parseExchange s.exchange).isSome ∧ s.engineConfig.Valid := by
  constructor
  · rintro ⟨r, h⟩
    obtain ⟨hexchange, heq, e, hnew⟩ := resolveStream_eq_ok.mp h
    rw [← heq] at hnew
    exact ⟨by rw [hexchange]; rfl, VpinEngine.valid_of_new hnew⟩
  · rintro ⟨hexchange, hvalid⟩
    obtain ⟨exchange, hexchange⟩ := Option.isSome_iff_exists.mp hexchange
    exact ⟨(exchange, s.engineConfig),
      resolveStream_eq_ok.mpr ⟨hexchange, rfl, VpinEngine.new_of_valid hvalid⟩⟩

namespace Service

/-- Every configured stream in turn; one that is not valid ends the process, like a panic of
the constructor. -/
def resolveAllIn : List (StreamConfig K) →
    ExceptT (String × String × ResolveError (RawFloat K)) (Except Panic) (List (Resolved K))
  | [] => return []
  | s :: rest => do
    let (exchange, _) ← (resolveStreamIn s.raw).adapt fun e ↦ (s.exchange, s.symbol, e)
    let resolved ← resolveAllIn rest
    return ⟨exchange, s, s.engineConfig⟩ :: resolved

/-- `main` up to the first spawn, with both ways in which it can end there. -/
def startIn (cfg : ServiceConfig K) :
    ExceptT (String × String × ResolveError (RawFloat K)) (Except Panic) (Service K) := do
  let resolved ← resolveAllIn cfg.streams
  return {
    streamsFile := cfg.streamsFile
    heartbeatInterval := cfg.heartbeatInterval
    configPollInterval := cfg.configPollInterval
    starting := resolved
    reloading := []
    registry := .empty }

theorem resolveAll_cons_eq_ok {s : StreamConfig K} {rest : List (StreamConfig K)}
    {resolved : List (Resolved K)} : resolveAll (s :: rest) = .ok resolved ↔
      ∃ exchange engineCfg tail, resolveStream s = .ok (exchange, engineCfg) ∧
        resolveAll rest = .ok tail ∧ resolved = ⟨exchange, s, engineCfg⟩ :: tail := by
  rw [resolveAll]
  cases resolveStream s with
  | error e => simp
  | ok r =>
      obtain ⟨exchange, engineCfg⟩ := r
      cases resolveAll rest <;> simp [Except.map, eq_comm]

theorem returns_resolveAllIn {configs : List (StreamConfig K)} {resolved : List (Resolved K)} :
    Returns (resolveAllIn configs) resolved ↔
      resolveAll configs = .ok resolved ∧ ∀ c ∈ configs, ¬ Oversized c.engineConfig := by
  induction configs generalizing resolved with
  | nil => simp [resolveAllIn, resolveAll]
  | cons s rest ih =>
      rw [resolveAllIn, resolveAll_cons_eq_ok, List.forall_mem_cons]
      simp only [returns_bind, returns_adapt, returns_resolveStreamIn_raw, ih, returns_pure]
      constructor
      · rintro ⟨⟨exchange, _⟩, ⟨hresolve, hsize, rfl⟩, tail, ⟨htail, hsizes⟩, rfl⟩
        exact ⟨⟨exchange, _, tail, hresolve, htail, rfl⟩, hsize, hsizes⟩
      · rintro ⟨⟨exchange, engineCfg, tail, hresolve, htail, rfl⟩, hsize, hsizes⟩
        have hcfg : s.engineConfig = engineCfg := (resolveStream_eq_ok.mp hresolve).2.1
        subst hcfg
        exact ⟨(exchange, _), ⟨hresolve, hsize, rfl⟩, tail, ⟨htail, hsizes⟩, rfl⟩

/-- The service comes up as the exact one does, if no buffer is too large. -/
theorem returns_startIn {cfg : ServiceConfig K} {s : Service K} :
    Returns (startIn cfg) s ↔
      start cfg = .ok s ∧ ∀ c ∈ cfg.streams, ¬ Oversized c.engineConfig := by
  simp only [startIn, returns_bind, returns_resolveAllIn, returns_pure, start]
  cases resolveAll cfg.streams with
  | error e => simp [Except.map]
  | ok resolved =>
      simp only [Except.map, Except.ok.injEq]
      constructor
      · rintro ⟨_, ⟨rfl, hsizes⟩, heq⟩
        exact ⟨heq, hsizes⟩
      · rintro ⟨heq, hsizes⟩
        exact ⟨_, ⟨rfl, hsizes⟩, heq⟩

theorem exists_resolveAll_iff {configs : List (StreamConfig K)} :
    (∃ resolved, resolveAll configs = .ok resolved) ↔
      ∀ c ∈ configs, (parseExchange c.exchange).isSome ∧ c.engineConfig.Valid := by
  induction configs with
  | nil => simp [resolveAll]
  | cons s rest ih =>
      rw [List.forall_mem_cons, ← ih, ← exists_resolveStream_iff]
      simp only [resolveAll_cons_eq_ok]
      constructor
      · rintro ⟨_, exchange, engineCfg, tail, hresolve, htail, -⟩
        exact ⟨⟨_, hresolve⟩, _, htail⟩
      · rintro ⟨⟨⟨exchange, engineCfg⟩, hresolve⟩, tail, htail⟩
        exact ⟨_, exchange, engineCfg, tail, hresolve, htail, rfl⟩

theorem exists_start_iff {cfg : ServiceConfig K} : (∃ s, start cfg = .ok s) ↔
    ∀ c ∈ cfg.streams, (parseExchange c.exchange).isSome ∧ c.engineConfig.Valid := by
  rw [← exists_resolveAll_iff]
  unfold start
  cases resolveAll cfg.streams <;> simp [Except.map]

/-- Exactly these configurations come up. -/
theorem exists_startIn_iff {cfg : ServiceConfig K} : (∃ s, Returns (startIn cfg) s) ↔
    ∀ c ∈ cfg.streams, (parseExchange c.exchange).isSome ∧ c.engineConfig.Valid ∧
      ¬ Oversized c.engineConfig := by
  simp only [returns_startIn, exists_and_right, exists_start_iff]
  exact ⟨fun h c hc ↦ ⟨(h.1 c hc).1, (h.1 c hc).2, h.2 c hc⟩,
    fun h ↦ ⟨fun c hc ↦ ⟨(h c hc).1, (h c hc).2.1⟩, fun c hc ↦ (h c hc).2.2⟩⟩

end Service

end Geiger
