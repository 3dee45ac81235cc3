import Geiger.Calibrate.Args
import Geiger.Calibrate.GridOrder
import Geiger.Calibrate.Panics
import Geiger.Calibrate.Report

/-!
# The calibration tool

From a command line and the files on disk to what is printed and the exit code, or to a
panic.  The tables are padded with blanks; `fixed` writes a float with so many places.
-/

namespace Geiger

/-! ## The texts of the read errors -/

namespace Capture

def debugBytes (bytes : List UInt8) : String :=
  "[" ++ ", ".intercalate (bytes.map fun b ↦ Nat.repr b.toNat) ++ "]"

/-- `osError` is the text of an error of the operating system. -/
def CaptureError.toString (osError : String) : CaptureError → String
  | .tooShort => "capture file too short to contain a header: failed to fill whole buffer"
  | .badMagic got =>
    "not a geiger-rs capture file: expected magic " ++ debugBytes magic ++ ", got " ++
      debugBytes got
  | .badVersion got =>
    "capture file format version " ++ Nat.repr got.toNat ++
      " unsupported, this build reads version " ++ Nat.repr formatVersion.toNat
  | .truncated got =>
    "capture file truncated mid-record: got " ++ Nat.repr got ++ " of " ++ Nat.repr recordSize ++
      " bytes"
  | .badExchange got =>
    "corrupt capture record: exchange discriminant " ++ Nat.repr got.toNat ++ " is out of range"
  | .badTakerSide got =>
    "corrupt capture record: taker_side discriminant " ++ Nat.repr got.toNat ++
      " is out of range"
  | .io => osError

end Capture

namespace Calibrate

open Capture Fallible

inductive JsonValue (K : Type) where
  | null
  | f64 (x : K)
  | usize (n : ℕ)
  | string (s : String)

/-- What the tool has from outside: the texts of floats and strings, the writer of JSON
texts, and the files. -/
structure Host (K : Type) where
  debug : String → String
  parseF64 : String → Except String K
  display : K → String
  fixed : ℕ → K → String
  toStringPretty : List (List (String × JsonValue K)) → Except String String
  file : String → Except String (List UInt8)
  reads : String → List ReadOutcome
  osError : String

structure Output where
  stdout : String
  stderr : String
  code : ExitCode

section Code

variable {K : Type}

def padLeft (width : ℕ) (s : String) : String := String.ofList (s.toList.leftpad width ' ')

def padRow (row : List (ℕ × String)) : String := " ".intercalate (row.map fun p ↦ padLeft p.1 p.2)

def fixedF64 (fixed : ℕ → K → String) (places : ℕ) : Option K → String
  | none => "NaN"
  | some x => fixed places x

def formatPValue (fixed : ℕ → K → String) : Option K → String
  | none => "-"
  | some p => fixed 4 p

def tableHeader : List (ℕ × String) :=
  [(14, "bucket_volume"), (12, "sigma_window"), (11, "vpin_window"), (14, "total_buckets"),
    (16, "non_warmup_reads"), (10, "vpin_mean"), (10, "vpin_min"), (10, "vpin_max"),
    (10, "vpin_std"), (18, "avg_interval_ms"), (12, "bvc_accuracy"), (10, "bvc_mae"), (8, "bvc_n"),
    (12, "bvc_p_value")]

def tableRow (host : Host K) (r : SweepResult K) : String :=
  match r.stats with
  | .ok s => padRow [
      (14, host.fixed 4 s.bucketVolume),
      (12, Nat.repr s.sigmaWindow),
      (11, Nat.repr s.vpinWindow),
      (14, Nat.repr s.totalBuckets),
      (16, Nat.repr s.nonWarmupReadings),
      (10, fixedF64 host.fixed 4 s.vpinMean),
      (10, fixedF64 host.fixed 4 s.vpinMin),
      (10, fixedF64 host.fixed 4 s.vpinMax),
      (10, fixedF64 host.fixed 4 s.vpinStddev),
      (18, fixedF64 host.fixed 1 s.avgBucketIntervalMs),
      (12, fixedF64 host.fixed 4 s.bvcAccuracy),
      (10, fixedF64 host.fixed 4 s.bvcMeanAbsError),
      (8, Nat.repr s.bvcCompared),
      (12, formatPValue host.fixed s.bvcAccuracyPValue)]
  | .error e =>
    padRow [(14, host.fixed 4 r.bucketVolume), (12, Nat.repr r.sigmaWindow),
      (11, Nat.repr r.vpinWindow)] ++ "  invalid config: " ++ e.toString host.display

def printTable (host : Host K) (tradesLen : ℕ) (file : String) (results : List (SweepResult K)) :
    String :=
  "loaded " ++ Nat.repr tradesLen ++ " trades from " ++ file ++ "\n\n" ++ padRow tableHeader ++
    "\n" ++ results.foldl (fun out r ↦ out ++ tableRow host r ++ "\n") "" ++ "\n" ++
    "bvc_accuracy: fraction of buckets where BVC's buy/sell majority call matched the real " ++
      "taker-side majority (by volume).\n" ++
    "bvc_mae: mean |BVC's buy_fraction - true buy_fraction| across compared buckets. " ++
      "Both NaN if sigma never warmed up.\n" ++
    "bvc_p_value: two-proportion z-test p-value vs. the sweep's best bvc_accuracy. " ++
      "\"-\" for the best config itself, or under 30 compared buckets on either side.\n"

def jsonF64 : Option K → JsonValue K
  | none => .null
  | some x => .f64 x

def statsToJson (display : K → String) (r : SweepResult K) : List (String × JsonValue K) :=
  match r.stats with
  | .ok s => [
      ("bucket_volume", .f64 s.bucketVolume),
      ("sigma_window", .usize s.sigmaWindow),
      ("vpin_window", .usize s.vpinWindow),
      ("total_buckets", .usize s.totalBuckets),
      ("non_warmup_readings", .usize s.nonWarmupReadings),
      ("vpin_mean", jsonF64 s.vpinMean),
      ("vpin_min", jsonF64 s.vpinMin),
      ("vpin_max", jsonF64 s.vpinMax),
      ("vpin_stddev", jsonF64 s.vpinStddev),
      ("avg_bucket_interval_ms", jsonF64 s.avgBucketIntervalMs),
      ("bvc_accuracy", jsonF64 s.bvcAccuracy),
      ("bvc_mean_abs_error", jsonF64 s.bvcMeanAbsError),
      ("bvc_compared", .usize s.bvcCompared),
      ("bvc_accuracy_p_value", jsonF64 s.bvcAccuracyPValue),
      ("error", .null)]
  | .error e => [
      ("bucket_volume", .f64 r.bucketVolume),
      ("sigma_window", .usize r.sigmaWindow),
      ("vpin_window", .usize r.vpinWindow),
      ("error", .string (e.toString display))]

/-- A report that cannot be written as JSON is not a failure. -/
def printJson (host : Host K) (results : List (SweepResult K)) : Output :=
  match host.toStringPretty (results.map (statsToJson host.display)) with
  | .ok text => ⟨text ++ "\n", "", .success⟩
  | .error e => ⟨"", "error: failed to serialize results as JSON: " ++ e ++ "\n", .success⟩

/-- The last step of `main`. -/
def report (host : Host K) (args : Args K) (tradesLen : ℕ) (results : List (SweepResult K)) :
    Output :=
  match args.format with
  | .table => ⟨printTable host tradesLen args.file results, "", .success⟩
  | .csv => ⟨printCsv host.display results, "", .success⟩
  | .json => printJson host results

variable [Field K]

/-- The path stands before the text of an error. -/
def loadPath (host : Host K) (path : String) : Except String (List (Trade K)) :=
  match host.file path with
  | .error e => .error ("opening " ++ path ++ ": " ++ e)
  | .ok bytes =>
    match TradeReader.openFile bytes (host.reads path) with
    | .error e => .error ("opening " ++ path ++ ": " ++ e.toString host.osError)
    | .ok reader =>
      let trades : Except CaptureError (List (Trade K)) :=
        reader.items.mapM fun item ↦ item.map loadTrade
      trades.mapError fun e ↦ "reading " ++ path ++ ": " ++ e.toString host.osError

def failed (e : String) : Output := ⟨"", "error: " ++ e ++ "\n", .failure⟩

variable [LinearOrder K] [FloorSemiring K]

def main (build : Build) (m : Libm K) (host : Host K) (args : List String) :
    Except Panic Output :=
  match parseArgs host.debug host.parseF64 args with
  | .error e => .ok (failed e)
  | .ok args =>
    match loadPath host args.file with
    | .error e => .ok (failed e)
    | .ok trades =>
      if trades.isEmpty then
        .ok (failed (args.file ++ " has zero trades, nothing to calibrate against"))
      else do
        let results ← runSweepIn build m trades args.bucketVolumes args.sigmaWindows
          args.vpinWindows args.cdfWindow
        return report host args trades.length results

end Code

/-! ## When the tool succeeds -/

section Outcome

variable {K : Type} [Field K]

theorem loadPath_eq_ok {host : Host K} {path : String} {tape : List (Trade K)} :
    loadPath host path = .ok tape ↔
      ∃ bytes, host.file path = .ok bytes ∧ loadTrades bytes (host.reads path) = .ok tape := by
  unfold loadPath
  cases hfile : host.file path with
  | error e => simp
  | ok bytes =>
      unfold loadTrades
      cases hopen : TradeReader.openFile bytes (host.reads path) with
      | error e => simp [hopen, bind, Except.bind]
      | ok reader => simp [hopen, bind, Except.bind, mapError_eq_ok]

variable [LinearOrder K] [FloorSemiring K] {build : Build} {m : Libm K} {host : Host K}
  {args : List String} {a : Args K} {tape : List (Trade K)} {results : List (SweepResult K)}

/-- There is something to report on. -/
def Loads (host : Host K) (args : List String) (a : Args K) (tape : List (Trade K)) : Prop :=
  parseArgs host.debug host.parseF64 args = .ok a ∧ loadPath host a.file = .ok tape ∧ tape ≠ []

omit [LinearOrder K] [FloorSemiring K] in
theorem Loads.unique (h : Loads host args a tape) {a' : Args K} {tape' : List (Trade K)}
    (h' : Loads host args a' tape') : a' = a ∧ tape' = tape := by
  obtain ⟨hargs, htape, -⟩ := h
  obtain ⟨hargs', htape', -⟩ := h'
  obtain rfl := Except.ok.inj (hargs.symm.trans hargs')
  exact ⟨rfl, (Except.ok.inj (htape.symm.trans htape')).symm⟩

theorem main_of_loads (h : Loads host args a tape) :
    main build m host args = (runSweepIn build m tape a.bucketVolumes a.sigmaWindows
      a.vpinWindows a.cdfWindow).map (report host a tape.length) := by
  obtain ⟨hargs, htape, hne⟩ := h
  have hempty : ¬ tape.isEmpty := by rwa [List.isEmpty_iff]
  simp only [main, hargs, htape, if_neg hempty]
  cases runSweepIn build m tape a.bucketVolumes a.sigmaWindows a.vpinWindows a.cdfWindow <;> rfl

theorem main_of_not_loads (h : ¬ ∃ a tape, Loads host args a tape) :
    ∃ e, main build m host args = .ok (failed e) := by
  cases hargs : parseArgs host.debug host.parseF64 args with
  | error e => exact ⟨e, by simp only [main, hargs]⟩
  | ok a =>
      cases htape : loadPath host a.file with
      | error e => exact ⟨e, by simp only [main, hargs, htape]⟩
      | ok tape =>
          by_cases hempty : tape.isEmpty
          · exact ⟨a.file ++ " has zero trades, nothing to calibrate against",
              by simp only [main, hargs, htape, if_pos hempty]⟩
          · rw [List.isEmpty_iff] at hempty
            exact absurd ⟨a, tape, hargs, htape, hempty⟩ h

omit [Field K] [LinearOrder K] [FloorSemiring K] in
theorem code_report (host : Host K) (a : Args K) (tradesLen : ℕ)
    (results : List (SweepResult K)) : (report host a tradesLen results).code = .success := by
  unfold report
  cases a.format with
  | table => rfl
  | csv => rfl
  | json =>
      simp only [printJson]
      split <;> rfl

variable [IsStrictOrderedRing K]

end Outcome

/-! ## One trade and two volumes -/

def unitHost (bytes : List UInt8) : Host ℚ where
  debug := id
  parseF64 := parseOneOrMore
  display := toString
  fixed _ := toString
  toStringPretty _ := .ok "[]"
  file _ := .ok bytes
  reads _ := [.short 6]
  osError := ""

def unitWords : List String := "trades.cap" :: Flags.words (twoVolumes.pairs oneOrMore)

theorem parseArgs_unitWords (bytes : List UInt8) :
    parseArgs (unitHost bytes).debug (unitHost bytes).parseF64 unitWords = .ok twoVolumes := by
  refine parseArgs_eq_ok.mpr ⟨_, rfl, says_pairs prints_twoVolumes ?_⟩
  exact ⟨by simp [twoVolumes], by simp [twoVolumes], by simp [twoVolumes], by simp [twoVolumes]⟩

theorem loads_unitWords {t : NormalizedTrade} {ts : List NormalizedTrade} :
    Loads (unitHost (captureFile (t :: ts))) unitWords twoVolumes ((t :: ts).map loadTrade) :=
  ⟨parseArgs_unitWords _,
    loadPath_eq_ok.mpr ⟨_, rfl, loadTrades_captureFile _ (TradeReader.benign_short 6)⟩, by simp⟩

theorem passes_twoVolumes (ts : List NormalizedTrade)
    (hnonzero : ∀ t ∈ ts, t.price.raw ≠ 0 ∧ t.qty.raw ≠ 0) (hlength : ts.length ≤ 4294967295) :
    Passes .debug (ts.map (loadTrade (K := ℚ))) twoVolumes.bucketVolumes twoVolumes.sigmaWindows
      twoVolumes.vpinWindows twoVolumes.cdfWindow :=
  passes_of_small (by decide) (by decide) (by simp [twoVolumes])
    fun bv _ ↦ takesAll_loadTrades hnonzero hlength .debug bv

end Calibrate

end Geiger
