import Geiger.Ingest.Backoff
import Geiger.Ingest.Types
import Geiger.Vpin.Engine

/-!
# Service configuration

The environment, the streams file and its reader are parameters; `K` stands for
the floats in the file.
-/

namespace Geiger

def toAsciiLowercase (s : String) : String := String.ofList (s.toList.map Char.toLower)

def toAsciiUppercase (s : String) : String := String.ofList (s.toList.map Char.toUpper)

structure StreamConfig (K : Type) where
  exchange : String
  symbol : String
  bucketVolume : K
  sigmaWindow : ℕ
  vpinWindow : ℕ
  cdfWindow : Option ℕ
  backoffBaseMs : Option UInt64
  backoffMaxSecs : Option UInt64

def StreamConfig.backoffConfig {K : Type} (s : StreamConfig K) : BackoffConfig where
  base := (s.backoffBaseMs.map Duration.fromMillis).getD BackoffConfig.default.base
  max := (s.backoffMaxSecs.map Duration.fromSecs).getD BackoffConfig.default.max

def parseExchange (s : String) : Option Exchange :=
  match toAsciiLowercase s with
  | "binance" => some .binance
  | "bybit" => some .bybit
  | "hyperliquid" => some .hyperliquid
  | _ => none

def streamKey (exchange symbol : String) : String :=
  toAsciiLowercase exchange ++ ":" ++ toAsciiUppercase symbol

def StreamConfig.key {K : Type} (s : StreamConfig K) : String := streamKey s.exchange s.symbol

example : streamKey "Binance" "btcusdt" = "binance:BTCUSDT" := by decide +kernel

/-- What the process reads from outside: environment variables, the contents of a
file at one moment, and the typed reading of a streams file. -/
structure Outside (K : Type) where
  var : String → Option String
  readToString : String → Except String String
  fromStr : String → Except String (List (StreamConfig K))

def optionalU64 (var : String → Option String) (name : String) (default : UInt64) : UInt64 :=
  ((var name).bind fun v ↦ Decimal.parseU64 v.toList).getD default

def loadStreams {K : Type} (readToString : String → Except String String)
    (fromStr : String → Except String (List (StreamConfig K))) (path : String) :
    Except String (List (StreamConfig K)) :=
  match readToString path with
  | .error e => .error ("failed to read " ++ path ++ ": " ++ e)
  | .ok raw =>
    match fromStr raw with
    | .error e => .error ("failed to parse " ++ path ++ ": " ++ e)
    | .ok streams =>
      if streams.isEmpty then .error (path ++ " has zero streams configured, nothing to run")
      else .ok streams

structure ServiceConfig (K : Type) where
  streamsFile : String
  streams : List (StreamConfig K)
  heartbeatInterval : ℕ
  configPollInterval : Option ℕ

/-- An error is a panic with that text. -/
def ServiceConfig.fromEnv {K : Type} (o : Outside K) : Except String (ServiceConfig K) :=
  match o.var "GEIGER_STREAMS_FILE" with
  | none => .error "missing required env var: GEIGER_STREAMS_FILE"
  | some streamsPath =>
    match loadStreams o.readToString o.fromStr streamsPath with
    | .error e => .error e
    | .ok streams =>
      let pollSecs := optionalU64 o.var "GEIGER_CONFIG_POLL_SECS" 0
      .ok {
        streamsFile := streamsPath
        streams
        heartbeatInterval := Duration.fromSecs (optionalU64 o.var "GEIGER_HEARTBEAT_SECS" 5)
        configPollInterval := if 0 < pollSecs then some (Duration.fromSecs pollSecs) else none }

inductive ResolveError (K : Type) where
  | unknownExchange (exchange : String)
  | invalidVpinConfig (e : VpinError K)

def resolveStream {K : Type} [Field K] [LinearOrder K] (s : StreamConfig K) :
    Except (ResolveError K) (Exchange × VpinEngineConfig K) :=
  match parseExchange s.exchange with
  | none => .error (.unknownExchange s.exchange)
  | some exchange =>
    let engineCfg : VpinEngineConfig K := {
      bucketVolume := s.bucketVolume
      sigmaWindow := s.sigmaWindow
      vpinWindow := s.vpinWindow
      cdfWindow := s.cdfWindow
      confidenceInterval := none }
    match VpinEngine.new engineCfg with
    | .error e => .error (.invalidVpinConfig e)
    | .ok _ => .ok (exchange, engineCfg)

theorem resolveStream_eq_ok {K : Type} [Field K] [LinearOrder K] {s : StreamConfig K}
    {exchange : Exchange} {engineCfg : VpinEngineConfig K} :
    resolveStream s = .ok (exchange, engineCfg) ↔
      parseExchange s.exchange = some exchange ∧
        ⟨s.bucketVolume, s.sigmaWindow, s.vpinWindow, s.cdfWindow, none⟩ = engineCfg ∧
        ∃ engine, VpinEngine.new engineCfg = .ok engine := by
  unfold resolveStream
  cases parseExchange s.exchange with
  | none => simp
  | some e =>
      cases hnew : VpinEngine.new (⟨s.bucketVolume, s.sigmaWindow, s.vpinWindow, s.cdfWindow,
          none⟩ : VpinEngineConfig K) with
      | error err =>
          simp only [hnew, reduceCtorEq, false_iff]
          rintro ⟨-, rfl, engine, hok⟩
          rw [hnew] at hok
          cases hok
      | ok engine =>
          simp only [hnew, Except.ok.injEq, Prod.mk.injEq, Option.some.injEq]
          constructor
          · rintro ⟨rfl, rfl⟩
            exact ⟨rfl, rfl, engine, hnew⟩
          · rintro ⟨rfl, rfl, -⟩
            exact ⟨rfl, rfl⟩

end Geiger
