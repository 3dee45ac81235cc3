import Geiger.Calibrate.Replay
import Geiger.Capture.Args

/-!
# The command line of the calibration tool

`parseF64` stands for the parser of floats and `debug` for the quoting of a string in an
error message.  A window is a `usize`.
-/

namespace Geiger.Calibrate

open Fallible

inductive OutputFormat where
  | table
  | csv
  | json
deriving DecidableEq

def OutputFormat.name : OutputFormat → String
  | .table => "table"
  | .csv => "csv"
  | .json => "json"

structure Args (K : Type) where
  file : String
  bucketVolumes : List K
  sigmaWindows : List ℕ
  vpinWindows : List ℕ
  cdfWindow : Option ℕ
  format : OutputFormat

def usage : String :=
  "usage: calibrate <capture-file> --bucket-volumes V1,V2,... --sigma-windows N1,N2,... " ++
    "--vpin-windows N1,N2,... [--cdf-window N] [--format table|csv|json]"

/-- `usize` is 64 bits wide. -/
def parseUsize (s : String) : Except String ℕ := (Decimal.u64FromStr s).map UInt64.toNat

section Code

variable (debug : String → String)

def OutputFormat.fromStr (s : String) : Except String OutputFormat :=
  match toAsciiLowercase s with
  | "table" => .ok .table
  | "csv" => .ok .csv
  | "json" => .ok .json
  | other => .error ("unknown --format " ++ debug other ++ ", expected table, csv, or json")

def parseCsv {T : Type} (fromStr : String → Except String T) (s flag : String) :
    Except String (List T) :=
  (s.toList.splitOn ',').mapM fun x ↦
    (fromStr (String.ofList (Decimal.trim x))).mapError fun e ↦
      "bad value " ++ debug (String.ofList x) ++ " for " ++ flag ++ ": " ++ e

/-- The variables of `parse_args` that the flags set. -/
structure Flagged (K : Type) where
  bucketVolumes : Option (List K)
  sigmaWindows : Option (List ℕ)
  vpinWindows : Option (List ℕ)
  cdfWindow : Option ℕ
  format : OutputFormat

namespace Flagged

variable {K : Type}

def init : Flagged K := ⟨none, none, none, none, .table⟩

def set (parseF64 : String → Except String K) (s : Flagged K) (flag value : String) :
    Except String (Flagged K) :=
  match flag with
  | "--bucket-volumes" => do
    let volumes ← parseCsv debug parseF64 value "--bucket-volumes"
    return { s with bucketVolumes := some volumes }
  | "--sigma-windows" => do
    let windows ← parseCsv debug parseUsize value "--sigma-windows"
    return { s with sigmaWindows := some windows }
  | "--vpin-windows" => do
    let windows ← parseCsv debug parseUsize value "--vpin-windows"
    return { s with vpinWindows := some windows }
  | "--cdf-window" => do
    let window ← (parseUsize value).mapError fun e ↦
      "bad --cdf-window " ++ debug value ++ ": " ++ e
    return { s with cdfWindow := some window }
  | "--format" => do
    let format ← OutputFormat.fromStr debug value
    return { s with format }
  | other => .error ("unknown flag: " ++ other ++ "\n" ++ usage)

/-- The three lists are required. -/
def finish (file : String) (s : Flagged K) : Except String (Args K) :=
  match s.bucketVolumes with
  | none => .error ("missing --bucket-volumes\n" ++ usage)
  | some bucketVolumes =>
    match s.sigmaWindows with
    | none => .error ("missing --sigma-windows\n" ++ usage)
    | some sigmaWindows =>
      match s.vpinWindows with
      | none => .error ("missing --vpin-windows\n" ++ usage)
      | some vpinWindows =>
        .ok ⟨file, bucketVolumes, sigmaWindows, vpinWindows, s.cdfWindow, s.format⟩

end Flagged

variable {K : Type}

def parseArgs (parseF64 : String → Except String K) : List String → Except String (Args K)
  | [] => .error usage
  | file :: args => do
    let s ← Flags.walk ("missing value for " ++ ·) (Flagged.set debug parseF64) Flagged.init args
    s.finish file

end Code

/-! ## What a command line says -/

/-- What one flag sets. -/
inductive Setting (K : Type) where
  | bucketVolumes (volumes : List K)
  | sigmaWindows (windows : List ℕ)
  | vpinWindows (windows : List ℕ)
  | cdfWindow (window : ℕ)
  | format (format : OutputFormat)

def Flagged.store {K : Type} (s : Flagged K) : Setting K → Flagged K
  | .bucketVolumes volumes => { s with bucketVolumes := some volumes }
  | .sigmaWindows windows => { s with sigmaWindows := some windows }
  | .vpinWindows windows => { s with vpinWindows := some windows }
  | .cdfWindow window => { s with cdfWindow := some window }
  | .format format => { s with format }

section Grammar

variable {K : Type} (debug : String → String) (parseF64 : String → Except String K)

/-- A flag that the tool has, with a value that can be read. -/
inductive Reads : String → String → Setting K → Prop where
  | bucketVolumes {value : String} {volumes : List K}
      (h : parseCsv debug parseF64 value "--bucket-volumes" = .ok volumes) :
      Reads "--bucket-volumes" value (.bucketVolumes volumes)
  | sigmaWindows {value : String} {windows : List ℕ}
      (h : parseCsv debug parseUsize value "--sigma-windows" = .ok windows) :
      Reads "--sigma-windows" value (.sigmaWindows windows)
  | vpinWindows {value : String} {windows : List ℕ}
      (h : parseCsv debug parseUsize value "--vpin-windows" = .ok windows) :
      Reads "--vpin-windows" value (.vpinWindows windows)
  | cdfWindow {value : String} {window : ℕ} (h : parseUsize value = .ok window) :
      Reads "--cdf-window" value (.cdfWindow window)
  | format {value : String} {format : OutputFormat}
      (h : OutputFormat.fromStr debug value = .ok format) :
      Reads "--format" value (.format format)

/-- Every value can be read, the last value of a flag counts, and the lists are there. -/
structure Says (pairs : List (String × String)) (a : Args K) : Prop where
  readable : ∀ p ∈ pairs, ∃ x, Reads debug parseF64 p.1 p.2 x
  bucketVolumes : ∃ value, Flags.lastOf "--bucket-volumes" pairs = some value ∧
    parseCsv debug parseF64 value "--bucket-volumes" = .ok a.bucketVolumes
  sigmaWindows : ∃ value, Flags.lastOf "--sigma-windows" pairs = some value ∧
    parseCsv debug parseUsize value "--sigma-windows" = .ok a.sigmaWindows
  vpinWindows : ∃ value, Flags.lastOf "--vpin-windows" pairs = some value ∧
    parseCsv debug parseUsize value "--vpin-windows" = .ok a.vpinWindows
  cdfWindow : (Flags.lastOf "--cdf-window" pairs).elim (a.cdfWindow = none)
    fun value ↦ ∃ window, parseUsize value = .ok window ∧ a.cdfWindow = some window
  format : (Flags.lastOf "--format" pairs).elim (a.format = .table)
    fun value ↦ OutputFormat.fromStr debug value = .ok a.format

end Grammar

section Set

variable {K : Type} {debug : String → String} {parseF64 : String → Except String K}
  {s t : Flagged K} {flag value : String}

/-- One iteration of the loop. -/
theorem set_eq_ok :
    Flagged.set debug parseF64 s flag value = .ok t ↔
      ∃ x, Reads debug parseF64 flag value x ∧ s.store x = t := by
  constructor
  · intro h
    unfold Flagged.set at h
    split at h
    · obtain ⟨v, hv, ht⟩ := ok_of_bind h
      exact ⟨_, .bucketVolumes hv, Except.ok.inj ht⟩
    · obtain ⟨v, hv, ht⟩ := ok_of_bind h
      exact ⟨_, .sigmaWindows hv, Except.ok.inj ht⟩
    · obtain ⟨v, hv, ht⟩ := ok_of_bind h
      exact ⟨_, .vpinWindows hv, Except.ok.inj ht⟩
    · obtain ⟨v, hv, ht⟩ := ok_of_bind h
      exact ⟨_, .cdfWindow (mapError_eq_ok.mp hv), Except.ok.inj ht⟩
    · obtain ⟨v, hv, ht⟩ := ok_of_bind h
      exact ⟨_, .format hv, Except.ok.inj ht⟩
    · cases h
  · rintro ⟨x, hx, rfl⟩
    cases hx with
    | bucketVolumes h => exact bind_eq_ok.mpr ⟨_, h, rfl⟩
    | sigmaWindows h => exact bind_eq_ok.mpr ⟨_, h, rfl⟩
    | vpinWindows h => exact bind_eq_ok.mpr ⟨_, h, rfl⟩
    | cdfWindow h => exact bind_eq_ok.mpr ⟨_, mapError_eq_ok.mpr h, rfl⟩
    | format h => exact bind_eq_ok.mpr ⟨_, h, rfl⟩

theorem exists_set_iff (s : Flagged K) (flag value : String) :
    (∃ t, Flagged.set debug parseF64 s flag value = .ok t) ↔
      ∃ x, Reads debug parseF64 flag value x := by
  simp only [set_eq_ok]
  exact ⟨fun ⟨_, x, hx, _⟩ ↦ ⟨x, hx⟩, fun ⟨x, hx⟩ ↦ ⟨_, x, hx, rfl⟩⟩

/-- A variable that one flag sets and no other touches. -/
theorem get_of_set {β : Type} (get : Flagged K → β) (own : String) (reads : String → β → Prop)
    (hother : ∀ (s : Flagged K) f value x, f ≠ own → Reads debug parseF64 f value x →
      get (s.store x) = get s)
    (hself : ∀ (s : Flagged K) f value x, own = f → Reads debug parseF64 f value x →
      reads value (get (s.store x)))
    {pairs : List (String × String)} {missing : String → String}
    (h : Flags.walk missing (Flagged.set debug parseF64) s (Flags.words pairs) = .ok t) :
    (Flags.lastOf own pairs).elim (get t = get s) fun value ↦ reads value (get t) := by
  refine Flags.get_of_walk ?_ ?_ h
  · intro s f value s' hf hs'
    obtain ⟨x, hx, rfl⟩ := set_eq_ok.mp hs'
    exact hother s f value x hf hx
  · intro s value s' hs'
    obtain ⟨x, hx, rfl⟩ := set_eq_ok.mp hs'
    exact hself s own value x rfl hx

variable {pairs : List (String × String)} {missing : String → String}

theorem bucketVolumes_of_walk
    (h : Flags.walk missing (Flagged.set debug parseF64) s (Flags.words pairs) = .ok t) :
    (Flags.lastOf "--bucket-volumes" pairs).elim (t.bucketVolumes = s.bucketVolumes)
      fun value ↦ ∃ volumes, parseCsv debug parseF64 value "--bucket-volumes" = .ok volumes ∧
        t.bucketVolumes = some volumes := by
  refine get_of_set Flagged.bucketVolumes "--bucket-volumes" (fun value v ↦ ∃ volumes,
    parseCsv debug parseF64 value "--bucket-volumes" = .ok volumes ∧ v = some volumes) ?_ ?_ h
  · intro s f value x hf hx
    cases hx with
    | bucketVolumes => exact absurd rfl hf
    | _ => rfl
  · intro s f value x hf hx
    cases hx with
    | bucketVolumes h => exact ⟨_, h, rfl⟩
    | _ => exact absurd hf (by decide)

theorem sigmaWindows_of_walk
    (h : Flags.walk missing (Flagged.set debug parseF64) s (Flags.words pairs) = .ok t) :
    (Flags.lastOf "--sigma-windows" pairs).elim (t.sigmaWindows = s.sigmaWindows)
      fun value ↦ ∃ windows, parseCsv debug parseUsize value "--sigma-windows" = .ok windows ∧
        t.sigmaWindows = some windows := by
  refine get_of_set Flagged.sigmaWindows "--sigma-windows" (fun value v ↦ ∃ windows,
    parseCsv debug parseUsize value "--sigma-windows" = .ok windows ∧ v = some windows) ?_ ?_ h
  · intro s f value x hf hx
    cases hx with
    | sigmaWindows => exact absurd rfl hf
    | _ => rfl
  · intro s f value x hf hx
    cases hx with
    | sigmaWindows h => exact ⟨_, h, rfl⟩
    | _ => exact absurd hf (by decide)

theorem vpinWindows_of_walk
    (h : Flags.walk missing (Flagged.set debug parseF64) s (Flags.words pairs) = .ok t) :
    (Flags.lastOf "--vpin-windows" pairs).elim (t.vpinWindows = s.vpinWindows)
      fun value ↦ ∃ windows, parseCsv debug parseUsize value "--vpin-windows" = .ok windows ∧
        t.vpinWindows = some windows := by
  refine get_of_set Flagged.vpinWindows "--vpin-windows" (fun value v ↦ ∃ windows,
    parseCsv debug parseUsize value "--vpin-windows" = .ok windows ∧ v = some windows) ?_ ?_ h
  · intro s f value x hf hx
    cases hx with
    | vpinWindows => exact absurd rfl hf
    | _ => rfl
  · intro s f value x hf hx
    cases hx with
    | vpinWindows h => exact ⟨_, h, rfl⟩
    | _ => exact absurd hf (by decide)

theorem cdfWindow_of_walk
    (h : Flags.walk missing (Flagged.set debug parseF64) s (Flags.words pairs) = .ok t) :
    (Flags.lastOf "--cdf-window" pairs).elim (t.cdfWindow = s.cdfWindow)
      fun value ↦ ∃ window, parseUsize value = .ok window ∧ t.cdfWindow = some window := by
  refine get_of_set Flagged.cdfWindow "--cdf-window"
    (fun value v ↦ ∃ window, parseUsize value = .ok window ∧ v = some window) ?_ ?_ h
  · intro s f value x hf hx
    cases hx with
    | cdfWindow => exact absurd rfl hf
    | _ => rfl
  · intro s f value x hf hx
    cases hx with
    | cdfWindow h => exact ⟨_, h, rfl⟩
    | _ => exact absurd hf (by decide)

theorem format_of_walk
    (h : Flags.walk missing (Flagged.set debug parseF64) s (Flags.words pairs) = .ok t) :
    (Flags.lastOf "--format" pairs).elim (t.format = s.format)
      fun value ↦ OutputFormat.fromStr debug value = .ok t.format := by
  refine get_of_set Flagged.format "--format"
    (fun value format ↦ OutputFormat.fromStr debug value = .ok format) ?_ ?_ h
  · intro s f value x hf hx
    cases hx with
    | format => exact absurd rfl hf
    | _ => rfl
  · intro s f value x hf hx
    cases hx with
    | format h => exact h
    | _ => exact absurd hf (by decide)

end Set

/-! ## Accepted command lines -/

section Accepted

variable {K : Type} {debug : String → String} {parseF64 : String → Except String K}

theorem finish_eq_ok {file : String} {s : Flagged K} {a : Args K} :
    s.finish file = .ok a ↔
      a.file = file ∧ s = ⟨some a.bucketVolumes, some a.sigmaWindows, some a.vpinWindows,
        a.cdfWindow, a.format⟩ := by
  obtain ⟨bucketVolumes, sigmaWindows, vpinWindows, cdfWindow, format⟩ := s
  obtain ⟨file', bucketVolumes', sigmaWindows', vpinWindows', cdfWindow', format'⟩ := a
  cases bucketVolumes <;> cases sigmaWindows <;> cases vpinWindows <;>
    simp [Flagged.finish, eq_comm]

/-- What the loop leaves says what the pairs say. -/
theorem says_of_walk {missing : String → String} {pairs : List (String × String)} {a : Args K}
    (h : Flags.walk missing (Flagged.set debug parseF64) Flagged.init (Flags.words pairs) =
      .ok ⟨some a.bucketVolumes, some a.sigmaWindows, some a.vpinWindows, a.cdfWindow,
        a.format⟩) : Says debug parseF64 pairs a := by
  have hlist : ∀ {β : Type} {flag : String} {xs : List β} {r : String → List β → Prop},
      (Flags.lastOf flag pairs).elim (some xs = none)
        (fun value ↦ ∃ ys, r value ys ∧ some xs = some ys) →
      ∃ value, Flags.lastOf flag pairs = some value ∧ r value xs := by
    intro β flag xs r hlast
    cases hvalue : Flags.lastOf flag pairs with
    | none =>
        rw [hvalue] at hlast
        cases hlast
    | some value =>
        rw [hvalue] at hlast
        obtain ⟨ys, hys, heq⟩ := hlast
        obtain rfl := Option.some.inj heq
        exact ⟨value, rfl, hys⟩
  exact {
    readable := (Flags.walk_words_isOk exists_set_iff pairs).mp ⟨_, h⟩
    bucketVolumes := hlist (bucketVolumes_of_walk h)
    sigmaWindows := hlist (sigmaWindows_of_walk h)
    vpinWindows := hlist (vpinWindows_of_walk h)
    cdfWindow := cdfWindow_of_walk h
    format := format_of_walk h }

theorem walk_of_says {missing : String → String} {pairs : List (String × String)} {a : Args K}
    (h : Says debug parseF64 pairs a) :
    Flags.walk missing (Flagged.set debug parseF64) Flagged.init (Flags.words pairs) =
      .ok ⟨some a.bucketVolumes, some a.sigmaWindows, some a.vpinWindows, a.cdfWindow,
        a.format⟩ := by
  obtain ⟨t, ht⟩ : ∃ t, Flags.walk missing (Flagged.set debug parseF64) Flagged.init
      (Flags.words pairs) = .ok t :=
    (Flags.walk_words_isOk exists_set_iff pairs).mpr h.readable
  have hlist : ∀ {β : Type} {value : Option String} {ys : Option (List β)}
      {f : String → Except String (List β)} {xs : List β},
      (∃ v, value = some v ∧ f v = .ok xs) →
      value.elim (ys = none) (fun v ↦ ∃ zs, f v = .ok zs ∧ ys = some zs) → ys = some xs := by
    rintro β _ ys f xs ⟨v, rfl, hxs⟩ ⟨zs, hzs, rfl⟩
    rw [Except.ok.inj (hxs.symm.trans hzs)]
  have hcdf : t.cdfWindow = a.cdfWindow := by
    have hsays := h.cdfWindow
    have hwalk := cdfWindow_of_walk ht
    cases hvalue : Flags.lastOf "--cdf-window" pairs with
    | none =>
        rw [hvalue] at hsays hwalk
        exact Eq.trans hwalk (Eq.symm hsays)
    | some value =>
        rw [hvalue] at hsays hwalk
        obtain ⟨n, hn, ha⟩ := hsays
        obtain ⟨n', hn', ht'⟩ := hwalk
        rw [ht', ha, Except.ok.inj (hn'.symm.trans hn)]
  have hformat : t.format = a.format := by
    have hsays := h.format
    have hwalk := format_of_walk ht
    cases hvalue : Flags.lastOf "--format" pairs with
    | none =>
        rw [hvalue] at hsays hwalk
        exact Eq.trans hwalk (Eq.symm hsays)
    | some value =>
        rw [hvalue] at hsays hwalk
        exact Except.ok.inj (Eq.trans (Eq.symm hwalk) hsays)
  rw [ht, ← hlist h.bucketVolumes (bucketVolumes_of_walk ht),
    ← hlist h.sigmaWindows (sigmaWindows_of_walk ht),
    ← hlist h.vpinWindows (vpinWindows_of_walk ht), ← hcdf, ← hformat]

theorem parseArgs_eq_ok {args : List String} {a : Args K} :
    parseArgs debug parseF64 args = .ok a ↔
      ∃ pairs, args = a.file :: Flags.words pairs ∧ Says debug parseF64 pairs a := by
  constructor
  · intro h
    cases args with
    | nil => cases h
    | cons file args =>
        obtain ⟨s, hwalk, hfinish⟩ := ok_of_bind h
        obtain ⟨hfile, rfl⟩ := finish_eq_ok.mp hfinish
        obtain ⟨pairs, rfl⟩ := Flags.exists_words_of_walk hwalk
        exact ⟨pairs, by rw [hfile], says_of_walk hwalk⟩
  · rintro ⟨pairs, rfl, h⟩
    exact bind_eq_ok.mpr ⟨_, walk_of_says h, finish_eq_ok.mpr ⟨rfl, rfl⟩⟩

/-! ## Writing a command line -/

theorem parseUsize_repr {n : ℕ} (hn : n < 2 ^ 64) : parseUsize (Nat.repr n) = .ok n := by
  have hsize : (UInt64.ofNat n).toNat = n := UInt64.toNat_ofNat_of_lt' hn
  have hread := Decimal.u64FromStr_repr (UInt64.ofNat n)
  rw [hsize] at hread
  rw [parseUsize, hread, Except.map, hsize]

theorem lt_of_parseUsize {s : String} {n : ℕ} (h : parseUsize s = .ok n) : n < 2 ^ 64 := by
  unfold parseUsize at h
  cases hread : Decimal.u64FromStr s with
  | error e =>
      rw [hread] at h
      cases h
  | ok v =>
      rw [hread] at h
      obtain rfl := Except.ok.inj h
      exact v.toNat_lt

theorem parseCsv_ne_nil {T : Type} {fromStr : String → Except String T} {s flag : String}
    {xs : List T} (h : parseCsv debug fromStr s flag = .ok xs) : xs ≠ [] := by
  rintro rfl
  unfold parseCsv at h
  cases hsplit : s.toList.splitOn ',' with
  | nil => exact List.splitOn_ne_nil _ _ hsplit
  | cons x rest =>
      rw [hsplit, List.mapM_cons] at h
      obtain ⟨_, -, h⟩ := ok_of_bind h
      obtain ⟨_, -, h⟩ := ok_of_bind h
      cases h

/-- The text of a list item: one that a reader gives back, without blanks and commas. -/
structure Prints {T : Type} (fromStr : String → Except String T) (text : T → String) (x : T) :
    Prop where
  fromStr_text : fromStr (text x) = .ok x
  no_blank : ∀ c ∈ (text x).toList, ¬ Decimal.isWhitespace c
  no_comma : ',' ∉ (text x).toList

theorem prints_repr {n : ℕ} (hn : n < 2 ^ 64) : Prints parseUsize Nat.repr n := by
  have hdigit : ∀ c ∈ (Nat.repr n).toList, c.isDigit := by
    intro c hc
    rw [Nat.toList_repr] at hc
    exact Nat.isDigit_of_mem_toDigits (by decide) (by decide) hc
  exact ⟨parseUsize_repr hn, fun c hc ↦ Decimal.not_isWhitespace_of_isDigit (hdigit c hc),
    fun hcomma ↦ absurd (hdigit _ hcomma) (by decide)⟩

theorem mapM_map_eq_ok {α T ε : Type} {f : α → Except ε T} {text : T → α} {xs : List T}
    (h : ∀ x ∈ xs, f (text x) = .ok x) : (xs.map text).mapM f = .ok xs := by
  induction xs with
  | nil => rfl
  | cons x xs ih =>
      obtain ⟨hx, hxs⟩ := List.forall_mem_cons.mp h
      rw [List.map_cons, List.mapM_cons, hx, ih hxs]
      rfl

theorem parseCsv_intercalate {T : Type} {fromStr : String → Except String T} {text : T → String}
    {xs : List T} (hne : xs ≠ []) (hxs : ∀ x ∈ xs, Prints fromStr text x) (flag : String) :
    parseCsv debug fromStr (",".intercalate (xs.map text)) flag = .ok xs := by
  have hsplit : (",".intercalate (xs.map text)).toList.splitOn ',' =
      xs.map fun x ↦ (text x).toList := by
    rw [String.toList_intercalate, List.map_map]
    refine List.splitOn_intercalate ',' ?_ (by simpa using hne)
    intro l hl
    obtain ⟨x, hx, rfl⟩ := List.mem_map.mp hl
    exact (hxs x hx).no_comma
  rw [parseCsv, hsplit]
  refine mapM_map_eq_ok fun x hx ↦ mapError_eq_ok.mpr ?_
  have htrim : Decimal.trim (text x).toList = (text x).toList := by
    have hbare := @Decimal.trim_surrounded [] (text x).toList [] (by simp)
      (hxs x hx).no_blank (by simp)
    rwa [List.nil_append, List.append_nil] at hbare
  rw [htrim, String.ofList_toList]
  exact (hxs x hx).fromStr_text

/-- A command line that asks for `a`. -/
def Args.pairs (display : K → String) (a : Args K) : List (String × String) :=
  [("--bucket-volumes", ",".intercalate (a.bucketVolumes.map display)),
    ("--sigma-windows", ",".intercalate (a.sigmaWindows.map Nat.repr)),
    ("--vpin-windows", ",".intercalate (a.vpinWindows.map Nat.repr))] ++
    (a.cdfWindow.toList.map fun n ↦ ("--cdf-window", Nat.repr n)) ++
    [("--format", a.format.name)]

structure Args.Expressible (a : Args K) : Prop where
  bucketVolumes : a.bucketVolumes ≠ []
  sigmaWindows : a.sigmaWindows ≠ []
  vpinWindows : a.vpinWindows ≠ []
  sizes : ∀ n ∈ a.sigmaWindows ++ a.vpinWindows ++ a.cdfWindow.toList, n < 2 ^ 64

theorem fromStr_name (format : OutputFormat) :
    OutputFormat.fromStr debug format.name = .ok format := by
  cases format <;> rfl

theorem mem_parseCsv {s flag : String} {ns : List ℕ}
    (h : parseCsv debug parseUsize s flag = .ok ns) : ∀ n ∈ ns, n < 2 ^ 64 := by
  intro n hn
  obtain ⟨x, -, hx⟩ := exists_of_mapM h hn
  exact lt_of_parseUsize (mapError_eq_ok.mp hx)

theorem Says.expressible {pairs : List (String × String)} {a : Args K}
    (h : Says debug parseF64 pairs a) : a.Expressible := by
  obtain ⟨_, -, hvolumes⟩ := h.bucketVolumes
  obtain ⟨_, -, hsigma⟩ := h.sigmaWindows
  obtain ⟨_, -, hvpin⟩ := h.vpinWindows
  refine ⟨parseCsv_ne_nil hvolumes, parseCsv_ne_nil hsigma, parseCsv_ne_nil hvpin, ?_⟩
  intro n hn
  rcases List.mem_append.mp hn with hn | hn
  · rcases List.mem_append.mp hn with hn | hn
    · exact mem_parseCsv hsigma n hn
    · exact mem_parseCsv hvpin n hn
  · have hcdf := h.cdfWindow
    cases hvalue : Flags.lastOf "--cdf-window" pairs with
    | none =>
        rw [hvalue] at hcdf
        rw [show a.cdfWindow = none from hcdf] at hn
        cases hn
    | some value =>
        rw [hvalue] at hcdf
        obtain ⟨window, hwindow, ha⟩ := hcdf
        rw [ha] at hn
        obtain rfl := List.mem_singleton.mp hn
        exact lt_of_parseUsize hwindow

theorem says_pairs {display : K → String} {a : Args K}
    (hdisplay : ∀ x ∈ a.bucketVolumes, Prints parseF64 display x) (h : a.Expressible) :
    Says debug parseF64 (a.pairs display) a := by
  have hsizes := h.sizes
  simp only [List.forall_mem_append] at hsizes
  obtain ⟨⟨hsigma, hvpin⟩, hcdf⟩ := hsizes
  have hvolumes : parseCsv debug parseF64 (",".intercalate (a.bucketVolumes.map display))
      "--bucket-volumes" = .ok a.bucketVolumes :=
    parseCsv_intercalate h.bucketVolumes hdisplay _
  have hsigmas : parseCsv debug parseUsize (",".intercalate (a.sigmaWindows.map Nat.repr))
      "--sigma-windows" = .ok a.sigmaWindows :=
    parseCsv_intercalate h.sigmaWindows (fun n hn ↦ prints_repr (hsigma n hn)) _
  have hvpins : parseCsv debug parseUsize (",".intercalate (a.vpinWindows.map Nat.repr))
      "--vpin-windows" = .ok a.vpinWindows :=
    parseCsv_intercalate h.vpinWindows (fun n hn ↦ prints_repr (hvpin n hn)) _
  have hformat : OutputFormat.fromStr debug a.format.name = .ok a.format := fromStr_name _
  obtain ⟨file, volumes, sigmaWindows, vpinWindows, cdfWindow, format⟩ := a
  cases cdfWindow with
  | none =>
      refine ⟨?_, ⟨_, rfl, hvolumes⟩, ⟨_, rfl, hsigmas⟩, ⟨_, rfl, hvpins⟩, rfl, hformat⟩
      simp only [Args.pairs, Option.toList_none, List.map_nil, List.append_nil, List.cons_append,
        List.nil_append, List.forall_mem_cons]
      exact ⟨⟨_, .bucketVolumes hvolumes⟩, ⟨_, .sigmaWindows hsigmas⟩, ⟨_, .vpinWindows hvpins⟩,
        ⟨_, .format hformat⟩, by simp⟩
  | some window =>
      have hwindow : parseUsize (Nat.repr window) = .ok window :=
        parseUsize_repr (hcdf window (List.mem_singleton_self window))
      refine ⟨?_, ⟨_, rfl, hvolumes⟩, ⟨_, rfl, hsigmas⟩, ⟨_, rfl, hvpins⟩,
        ⟨window, hwindow, rfl⟩, hformat⟩
      simp only [Args.pairs, Option.toList_some, List.map_cons, List.map_nil, List.cons_append,
        List.nil_append, List.forall_mem_cons]
      exact ⟨⟨_, .bucketVolumes hvolumes⟩, ⟨_, .sigmaWindows hsigmas⟩, ⟨_, .vpinWindows hvpins⟩,
        ⟨_, .cdfWindow hwindow⟩, ⟨_, .format hformat⟩, by simp⟩

/-- The tool starts with the settings `a` exactly when the command line names the file and
then says `a` in whole pairs of known flags and readable values.  Some command line does
so exactly when none of the lists is empty and the windows have a size of the machine. -/
theorem accepted_command_lines (debug : String → String)
    (parseF64 : String → Except String K) (display : K → String) (a : Args K)
    (hdisplay : ∀ x ∈ a.bucketVolumes, Prints parseF64 display x) :
    (∀ args, parseArgs debug parseF64 args = .ok a ↔
      ∃ pairs, args = a.file :: Flags.words pairs ∧ Says debug parseF64 pairs a) ∧
    ((∃ args, parseArgs debug parseF64 args = .ok a) ↔ a.Expressible) := by
  refine ⟨fun args ↦ parseArgs_eq_ok, ?_, ?_⟩
  · rintro ⟨args, h⟩
    obtain ⟨pairs, -, hsays⟩ := parseArgs_eq_ok.mp h
    exact hsays.expressible
  · intro h
    exact ⟨_, parseArgs_eq_ok.mpr ⟨a.pairs display, rfl, says_pairs hdisplay h⟩⟩

end Accepted

/-! ## Two volumes -/

def oneOrMore (x : ℚ) : String := if x = 1 then "1" else "2.5"

def parseOneOrMore (s : String) : Except String ℚ :=
  if s = "1" then .ok 1 else if s = "2.5" then .ok (5 / 2) else .error "invalid float literal"

def twoVolumes : Args ℚ := ⟨"trades.cap", [1, 5 / 2], [2], [1, 50], none, .csv⟩

theorem prints_twoVolumes : ∀ x ∈ twoVolumes.bucketVolumes, Prints parseOneOrMore oneOrMore x := by
  intro x hx
  have hone : oneOrMore 1 = "1" := if_pos rfl
  have hmore : oneOrMore (5 / 2) = "2.5" := if_neg (by norm_num)
  rcases List.mem_pair.mp hx with rfl | rfl
  · refine ⟨?_, ?_, ?_⟩ <;> rw [hone]
    · exact if_pos rfl
    · intro c hc
      obtain rfl : c = '1' := by simpa using hc
      decide
    · decide
  · refine ⟨?_, ?_, ?_⟩ <;> rw [hmore]
    · exact (if_neg (by decide)).trans (if_pos rfl)
    · intro c hc
      obtain rfl | rfl | rfl : c = '2' ∨ c = '.' ∨ c = '5' := by simpa using hc
      all_goals decide
    · decide

theorem accepted_command_lines_twoVolumes :
    (∀ args, parseArgs id parseOneOrMore args = .ok twoVolumes ↔
      ∃ pairs, args = "trades.cap" :: Flags.words pairs ∧
        Says id parseOneOrMore pairs twoVolumes) ∧
    ((∃ args, parseArgs id parseOneOrMore args = .ok twoVolumes) ↔ twoVolumes.Expressible) :=
  accepted_command_lines id parseOneOrMore oneOrMore twoVolumes prints_twoVolumes

end Geiger.Calibrate
