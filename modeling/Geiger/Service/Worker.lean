import Geiger.Ingest.Types
import Geiger.Service.Fanout
import Geiger.Service.Protocol
import Geiger.Vpin.Engine

/-!
# The worker of one stream

`worker::run` cut at its awaits, together with the entry it publishes to and the
connections that read it.  A panic ends the worker where it stands.
-/

namespace Geiger

structure StreamHealth where
  tradesProcessed : ℕ
  readingsEmitted : ℕ
  lastTradeTsNs : Option UInt64
  lastHeartbeatTsNs : Option UInt64
  workerAlive : Bool

def StreamHealth.countTrade (h : StreamHealth) (t : NormalizedTrade) : StreamHealth :=
  { h with
    tradesProcessed := h.tradesProcessed + 1
    lastTradeTsNs := some t.tsExchangeNs }

def StreamHealth.account {F : Type*} (h : StreamHealth) : ServerMessage F → StreamHealth
  | .heartbeat tsNs => { h with lastHeartbeatTsNs := some tsNs }
  | .reading .. => { h with readingsEmitted := h.readingsEmitted + 1 }
  | .error _ => h

variable {K : Type} [Field K] [LinearOrder K]

/-- The await at which the loop of `worker::run` stands. -/
inductive Await (K : Type) where
  | select
  | store (msg : ServerMessage K)
  | send (msg : ServerMessage K)
  | account (msg : ServerMessage K)

inductive WorkerState (K : Type) [Field K] [LinearOrder K] where
  | starting
  | running (engine : VpinEngine K) (await : Await K)
  | exited
  | panicked

structure Stream (K : Type) [Field K] [LinearOrder K] where
  exchange : String
  symbol : String
  engineCfg : VpinEngineConfig K
  /-- In nanoseconds. -/
  heartbeatInterval : ℕ
  worker : WorkerState K
  health : StreamHealth
  fanout : Fanout (ServerMessage K)

namespace Stream

inductive Event where
  | start
  | heartbeat (tsNs : UInt64)
  | trade (t : NormalizedTrade)
  | closed
  | proceed
  | subscribe (c : ℕ)
  | snapshot (c : ℕ)
  | recv (c : ℕ)

def new (exchange symbol : String) (engineCfg : VpinEngineConfig K) (heartbeatInterval : ℕ)
    (capacity : ℕ) : Stream K where
  exchange
  symbol
  engineCfg
  heartbeatInterval
  worker := .starting
  health := ⟨0, 0, none, none, false⟩
  fanout := Fanout.new capacity

/-- `raw as f64 / 1e8`, for the price and for the quantity. -/
def toTrade (t : NormalizedTrade) : Trade K where
  price := (t.price.raw.toNat : K) / 10 ^ 8
  volume := (t.qty.raw.toNat : K) / 10 ^ 8
  tsNs := t.tsExchangeNs

def readingMessage (s : Stream K) (r : VpinReading K) : ServerMessage K :=
  .reading s.exchange s.symbol r.bucketId r.tsCloseNs r.tradesInBucket r.vpin r.vpinCdf

/-- The engine is built first, then the worker reports alive, then the heartbeat
timer is created, which panics on a zero interval. -/
def startWorker [FloorSemiring K] (s : Stream K) : Stream K :=
  match VpinEngine.new s.engineCfg with
  | .error _ => { s with worker := .panicked }
  | .ok engine =>
    let s := { s with health := { s.health with workerAlive := true } }
    if s.heartbeatInterval = 0 then { s with worker := .panicked }
    else { s with worker := .running engine .select }

variable [FloorSemiring K]

def onTrade (m : Libm K) (s : Stream K) (engine : VpinEngine K) (t : NormalizedTrade) :
    Stream K :=
  let s := { s with health := s.health.countTrade t }
  match engine.pushTrade m (toTrade t) with
  | .error _ => { s with worker := .panicked }
  | .ok (none, engine) => { s with worker := .running engine .select }
  | .ok (some r, engine) =>
    { s with worker := .running engine (.store (s.readingMessage r)) }

def proceed (s : Stream K) : Option (Stream K) :=
  match s.worker with
  | .running engine (.store msg) =>
    (s.fanout.step (.store msg)).map fun fanout ↦
      { s with fanout, worker := .running engine (.send msg) }
  | .running engine (.send msg) =>
    (s.fanout.step .send).map fun fanout ↦
      { s with fanout, worker := .running engine (.account msg) }
  | .running engine (.account msg) =>
    some { s with
      health := s.health.account msg, worker := .running engine .select }
  | _ => none

def connStep (s : Stream K) (e : Fanout.Event (ServerMessage K)) : Option (Stream K) :=
  (s.fanout.step e).map fun fanout ↦ { s with fanout }

def step (m : Libm K) (s : Stream K) : Event → Option (Stream K)
  | .start =>
    match s.worker with
    | .starting => some s.startWorker
    | _ => none
  | .heartbeat tsNs =>
    match s.worker with
    | .running engine .select =>
      some { s with worker := .running engine (.store (.heartbeat tsNs)) }
    | _ => none
  | .trade t =>
    match s.worker with
    | .running engine .select => some (s.onTrade m engine t)
    | _ => none
  | .closed =>
    match s.worker with
    | .running _ .select =>
      some { s with worker := .exited, health := { s.health with workerAlive := false } }
    | _ => none
  | .proceed => s.proceed
  | .subscribe c => s.connStep (.subscribe c)
  | .snapshot c => s.connStep (.snapshot c)
  | .recv c => s.connStep (.recv c)

/-! ## What each step does -/

section Steps

variable {m : Libm K} {s s' : Stream K}

omit [FloorSemiring K] in
theorem connStep_eq_some {e : Fanout.Event (ServerMessage K)} (h : s.connStep e = some s') :
    ∃ fanout, s.fanout.step e = some fanout ∧ s' = { s with fanout } := by
  obtain ⟨fanout, hfanout, rfl⟩ := Option.map_eq_some_iff.mp h
  exact ⟨fanout, hfanout, rfl⟩

theorem start_eq_some (h : s.step m .start = some s') :
    s.worker = .starting ∧ s' = s.startWorker := by
  simp only [step] at h
  split at h
  · exact ⟨‹_›, (Option.some.inj h).symm⟩
  · cases h

theorem heartbeat_eq_some {tsNs : UInt64} (h : s.step m (.heartbeat tsNs) = some s') :
    ∃ engine, s.worker = .running engine .select ∧
      s' = { s with worker := .running engine (.store (.heartbeat tsNs)) } := by
  simp only [step] at h
  split at h
  · exact ⟨_, ‹_›, (Option.some.inj h).symm⟩
  · cases h

theorem trade_eq_some {t : NormalizedTrade} (h : s.step m (.trade t) = some s') :
    ∃ engine, s.worker = .running engine .select ∧ s' = s.onTrade m engine t := by
  simp only [step] at h
  split at h
  · exact ⟨_, ‹_›, (Option.some.inj h).symm⟩
  · cases h

theorem closed_eq_some (h : s.step m .closed = some s') :
    ∃ engine, s.worker = .running engine .select ∧
      s' = { s with worker := .exited, health := { s.health with workerAlive := false } } := by
  simp only [step] at h
  split at h
  · exact ⟨_, ‹_›, (Option.some.inj h).symm⟩
  · cases h

omit [FloorSemiring K] in
/-- A publish stores, then sends, then is accounted for. -/
theorem proceed_eq_some (h : s.proceed = some s') :
    (∃ engine msg fanout, s.worker = .running engine (.store msg) ∧
      s.fanout.step (.store msg) = some fanout ∧
      s' = { s with fanout, worker := .running engine (.send msg) }) ∨
    (∃ engine msg fanout, s.worker = .running engine (.send msg) ∧
      s.fanout.step .send = some fanout ∧
      s' = { s with fanout, worker := .running engine (.account msg) }) ∨
    ∃ engine msg, s.worker = .running engine (.account msg) ∧
      s' = { s with health := s.health.account msg, worker := .running engine .select } := by
  simp only [proceed] at h
  split at h
  · obtain ⟨fanout, hfanout, rfl⟩ := Option.map_eq_some_iff.mp h
    exact .inl ⟨_, _, fanout, ‹_›, hfanout, rfl⟩
  · obtain ⟨fanout, hfanout, rfl⟩ := Option.map_eq_some_iff.mp h
    exact .inr (.inl ⟨_, _, fanout, ‹_›, hfanout, rfl⟩)
  · exact .inr (.inr ⟨_, _, ‹_›, (Option.some.inj h).symm⟩)
  · cases h

section Proceed

variable {engine : VpinEngine K} {msg : ServerMessage K}

omit [FloorSemiring K]

theorem proceed_of_store (hworker : s.worker = .running engine (.store msg))
    (hpending : s.fanout.pending = none) :
    s.proceed = some { s with
      fanout := { s.fanout with lastMessage := some msg, pending := some msg }
      worker := .running engine (.send msg) } := by
  simp [proceed, hworker, Fanout.step, hpending]

theorem proceed_of_send (hworker : s.worker = .running engine (.send msg))
    (hpending : s.fanout.pending = some msg) :
    s.proceed = some { s with
      fanout := { s.fanout with channel := s.fanout.channel.send msg, pending := none }
      worker := .running engine (.account msg) } := by
  simp [proceed, hworker, Fanout.step, hpending]

theorem proceed_of_account (hworker : s.worker = .running engine (.account msg)) :
    s.proceed = some { s with
      health := s.health.account msg, worker := .running engine .select } := by
  simp [proceed, hworker]

end Proceed

end Steps

end Stream

end Geiger
