import Geiger.Library.Directory
import Geiger.Library.Runs
import Geiger.Service.Config
import Geiger.Service.Worker

/-!
# The streams of the service

`main` spawns every configured stream and then serves.  The reload loop reads the
streams file again at each tick and visits its entries in turn.  Only these two
write the registry, and the loop is started after the last initial spawn.
-/

namespace Geiger

variable {K : Type} [Field K] [LinearOrder K]

structure Resolved (K : Type) where
  exchange : Exchange
  config : StreamConfig K
  engineCfg : VpinEngineConfig K

/-- What one `spawn_stream` has started: an adapter for this exchange and backoff,
and a worker with the entry it publishes to. -/
structure Spawned (K : Type) [Field K] [LinearOrder K] where
  exchange : Exchange
  backoff : BackoffConfig
  config : StreamConfig K
  stream : Stream K

def Spawned.key (w : Spawned K) : String := w.config.key

structure Service (K : Type) [Field K] [LinearOrder K] where
  streamsFile : String
  heartbeatInterval : ℕ
  configPollInterval : Option ℕ
  starting : List (Resolved K)
  reloading : List (StreamConfig K)
  registry : Directory String (Spawned K)

namespace Service

inductive Event (K : Type) where
  | spawn
  /-- A tick of the reload loop that finds these contents. -/
  | reload (raw : Except String String)
  | visit
  | subscribe (req : SubscribeRequest) (c : ℕ)
  | stream (i : ℕ) (e : Stream.Event)

def broadcastCapacity : ℕ := 1024

/-- Every configured stream has to be valid; the error names the first that is not. -/
def resolveAll : List (StreamConfig K) →
    Except (String × String × ResolveError K) (List (Resolved K))
  | [] => .ok []
  | s :: rest =>
    match resolveStream s with
    | .error e => .error (s.exchange, s.symbol, e)
    | .ok (exchange, engineCfg) => (resolveAll rest).map (⟨exchange, s, engineCfg⟩ :: ·)

/-- `main` up to the first spawn; an error is a panic. -/
def start (cfg : ServiceConfig K) : Except (String × String × ResolveError K) (Service K) :=
  (resolveAll cfg.streams).map fun resolved ↦ {
    streamsFile := cfg.streamsFile
    heartbeatInterval := cfg.heartbeatInterval
    configPollInterval := cfg.configPollInterval
    starting := resolved
    reloading := []
    registry := .empty }

/-- The entry is registered under the key whatever was there before. -/
def spawnStream (s : Service K) (r : Resolved K) : Service K :=
  { s with
    registry := s.registry.insert r.config.key {
      exchange := r.exchange
      backoff := r.config.backoffConfig
      config := r.config
      stream := Stream.new r.config.exchange r.config.symbol r.engineCfg s.heartbeatInterval
        broadcastCapacity } }

/-- The body of the reload loop for one entry: a key in use and an invalid entry
are skipped. -/
def visitStream (s : Service K) (c : StreamConfig K) : Service K :=
  if (s.registry.index c.key).isSome then s
  else
    match resolveStream c with
    | .error _ => s
    | .ok (exchange, engineCfg) => s.spawnStream ⟨exchange, c, engineCfg⟩

variable [FloorSemiring K]

def streamStep (m : Libm K) (s : Service K) (i : ℕ) (e : Stream.Event) : Option (Service K) :=
  s.registry.items[i]?.bind fun w ↦ (w.stream.step m e).map fun stream ↦
    { s with registry := s.registry.set i { w with stream } }

/-- A subscription finds its stream through the registry, and an unknown key is
answered with an error. -/
def onSubscribe (m : Libm K) (s : Service K) (req : SubscribeRequest) (c : ℕ) :
    Option (Service K) :=
  match s.registry.index (streamKey req.exchange req.symbol) with
  | none => some s
  | some i => s.streamStep m i (.subscribe c)

def step (m : Libm K) (fromStr : String → Except String (List (StreamConfig K)))
    (s : Service K) : Event K → Option (Service K)
  | .spawn =>
    match s.starting with
    | [] => none
    | r :: rest => some ({ s with starting := rest }.spawnStream r)
  | .reload raw =>
    if s.starting.isEmpty && s.reloading.isEmpty && s.configPollInterval.isSome then
      match loadStreams (fun _ ↦ raw) fromStr s.streamsFile with
      | .error _ => some s
      | .ok streams => some { s with reloading := streams }
    else none
  | .visit =>
    match s.reloading with
    | [] => none
    | c :: rest => some ({ s with reloading := rest }.visitStream c)
  | .subscribe req c => if s.starting.isEmpty then s.onSubscribe m req c else none
  | .stream i e =>
    match e with
    | .subscribe _ => none
    | e => s.streamStep m i e

/-! ## The start -/

section Start

omit [FloorSemiring K]

/-- The configured streams and what they are resolved to. -/
theorem forall₂_of_resolveAll {configs : List (StreamConfig K)} {resolved : List (Resolved K)}
    (h : resolveAll configs = .ok resolved) :
    List.Forall₂ (fun c r ↦ resolveStream c = .ok (r.exchange, r.engineCfg) ∧ r.config = c)
      configs resolved := by
  induction configs generalizing resolved with
  | nil =>
      cases h
      exact .nil
  | cons c configs ih =>
      rw [resolveAll] at h
      split at h
      · cases h
      · rename_i hresolve
        cases hrest : resolveAll configs with
        | error e =>
            rw [hrest] at h
            cases h
        | ok rest =>
            rw [hrest] at h
            cases h
            exact .cons ⟨hresolve, rfl⟩ (ih hrest)

theorem start_eq_ok {cfg : ServiceConfig K} {s : Service K} (h : start cfg = .ok s) :
    resolveAll cfg.streams = .ok s.starting ∧ s.reloading = [] ∧ s.registry = .empty := by
  unfold start at h
  cases hall : resolveAll cfg.streams with
  | error e =>
      rw [hall] at h
      cases h
  | ok resolved =>
      rw [hall] at h
      cases h
      exact ⟨rfl, rfl, rfl⟩

end Start

/-! ## What each step does -/

section Steps

variable {m : Libm K} {fromStr : String → Except String (List (StreamConfig K))}
  {s s' : Service K}

theorem spawn_eq_some (h : s.step m fromStr .spawn = some s') :
    ∃ r rest, s.starting = r :: rest ∧ s' = { s with starting := rest }.spawnStream r := by
  simp only [step] at h
  split at h
  · cases h
  · exact ⟨_, _, ‹_›, (Option.some.inj h).symm⟩

theorem reload_eq_some {raw : Except String String}
    (h : s.step m fromStr (.reload raw) = some s') :
    s.starting = [] ∧ ∃ reloading, s' = { s with reloading } := by
  simp only [step, Option.ite_none_right_eq_some, Bool.and_eq_true, List.isEmpty_iff] at h
  obtain ⟨⟨⟨hstarting, -⟩, -⟩, h⟩ := h
  split at h <;> cases h
  · exact ⟨hstarting, s.reloading, rfl⟩
  · exact ⟨hstarting, _, rfl⟩

theorem visit_eq_some (h : s.step m fromStr .visit = some s') :
    ∃ c rest, s.reloading = c :: rest ∧ s' = { s with reloading := rest }.visitStream c := by
  simp only [step] at h
  split at h
  · cases h
  · exact ⟨_, _, ‹_›, (Option.some.inj h).symm⟩

theorem streamStep_eq_some {i : ℕ} {e : Stream.Event} (h : s.streamStep m i e = some s') :
    ∃ w stream, s.registry.items[i]? = some w ∧
      s' = { s with registry := s.registry.set i { w with stream } } := by
  obtain ⟨w, hw, h⟩ := Option.bind_eq_some_iff.mp h
  obtain ⟨stream, -, rfl⟩ := Option.map_eq_some_iff.mp h
  exact ⟨w, stream, hw, rfl⟩

theorem onSubscribe_eq_some {req : SubscribeRequest} {c : ℕ}
    (h : s.onSubscribe m req c = some s') :
    s' = s ∨ ∃ i, s.streamStep m i (.subscribe c) = some s' := by
  simp only [onSubscribe] at h
  split at h
  · exact .inl (Option.some.inj h).symm
  · exact .inr ⟨_, h⟩

/-- Everything a step can do to the service. -/
theorem step_cases {e : Event K} (h : s.step m fromStr e = some s') :
    (∃ r rest, s.starting = r :: rest ∧ s' = { s with starting := rest }.spawnStream r) ∨
    (∃ raw reloading, e = .reload raw ∧ s.starting = [] ∧ s' = { s with reloading }) ∨
    (∃ c rest, s.reloading = c :: rest ∧ s' = { s with reloading := rest }.visitStream c) ∨
    s' = s ∨ ∃ i e', s.streamStep m i e' = some s' := by
  cases e with
  | spawn => exact .inl (spawn_eq_some h)
  | reload raw =>
      obtain ⟨hstarting, reloading, heq⟩ := reload_eq_some h
      exact .inr (.inl ⟨raw, reloading, rfl, hstarting, heq⟩)
  | visit => exact .inr (.inr (.inl (visit_eq_some h)))
  | subscribe req c =>
      obtain ⟨-, h⟩ := Option.ite_none_right_eq_some.mp h
      rcases onSubscribe_eq_some h with heq | ⟨i, hi⟩
      · exact .inr (.inr (.inr (.inl heq)))
      · exact .inr (.inr (.inr (.inr ⟨i, _, hi⟩)))
  | stream i e =>
      cases e with
      | subscribe c => cases h
      | _ => exact .inr (.inr (.inr (.inr ⟨i, _, h⟩)))

omit [FloorSemiring K] in
theorem visitStream_eq (s : Service K) (c : StreamConfig K) :
    s.visitStream c = s ∨
      ∃ r, r.config.key = c.key ∧ s.registry.index r.config.key = none ∧
        s.visitStream c = s.spawnStream r := by
  unfold visitStream
  split
  · exact .inl rfl
  · rename_i hfree
    split
    · exact .inl rfl
    · rename_i exchange engineCfg _
      exact .inr ⟨⟨exchange, c, engineCfg⟩, rfl, by simpa using hfree, rfl⟩

end Steps

end Service

end Geiger
