import Geiger.Calibrate.Agreement
import Geiger.Library.Csv

/-!
# The report of a sweep

`display` stands for the text of a float.  A statistic that is `NaN` is printed by name.
-/

namespace Geiger

section Code

variable {K : Type}

/-- The texts of the errors. -/
def VpinError.toString (display : K → String) : VpinError K → String
  | .invalidBucketVolume got =>
    "bucket target volume must be finite and positive, got " ++ display got
  | .invalidWindow got min =>
    "window size must be at least " ++ Nat.repr min ++ ", got " ++ Nat.repr got
  | .invalidConfidenceLevel got =>
    "confidence level must be in (0, 1) exclusive, got " ++ display got
  | .invalidBootstrapSamples got min =>
    "bootstrap sample count must be at least " ++ Nat.repr min ++ ", got " ++ Nat.repr got

namespace Calibrate

/-- Quoted only where a comma, a quote or a newline makes it necessary. -/
def csvEscape (s : String) : String :=
  if ',' ∈ s.toList ∨ '"' ∈ s.toList ∨ '\n' ∈ s.toList then
    "\"" ++ String.ofList (Csv.double s.toList) ++ "\""
  else s

def csvF64 (display : K → String) : Option K → String
  | none => "NaN"
  | some x => display x

def csvHeader : String :=
  "bucket_volume,sigma_window,vpin_window,total_buckets,non_warmup_readings,vpin_mean,vpin_min," ++
    "vpin_max,vpin_stddev,avg_bucket_interval_ms,bvc_accuracy,bvc_mean_abs_error,bvc_compared," ++
    "bvc_accuracy_p_value,error"

def csvRow (display : K → String) (r : SweepResult K) : List String :=
  match r.stats with
  | .ok s => [
      display s.bucketVolume,
      Nat.repr s.sigmaWindow,
      Nat.repr s.vpinWindow,
      Nat.repr s.totalBuckets,
      Nat.repr s.nonWarmupReadings,
      csvF64 display s.vpinMean,
      csvF64 display s.vpinMin,
      csvF64 display s.vpinMax,
      csvF64 display s.vpinStddev,
      csvF64 display s.avgBucketIntervalMs,
      csvF64 display s.bvcAccuracy,
      csvF64 display s.bvcMeanAbsError,
      Nat.repr s.bvcCompared,
      csvF64 display s.bvcAccuracyPValue,
      ""]
  | .error e =>
    [display r.bucketVolume, Nat.repr r.sigmaWindow, Nat.repr r.vpinWindow] ++
      List.replicate 11 "" ++ [csvEscape (e.toString display)]

def printCsv (display : K → String) (results : List (SweepResult K)) : String :=
  results.foldl (fun out r ↦ out ++ ",".intercalate (csvRow display r) ++ "\n") (csvHeader ++ "\n")

end Calibrate

end Code

namespace Calibrate

open Csv (Plain)
open Fallible

variable {K : Type} {display : K → String}

/-! ## What the report holds -/

def columns : List String :=
  ["bucket_volume", "sigma_window", "vpin_window", "total_buckets", "non_warmup_readings",
    "vpin_mean", "vpin_min", "vpin_max", "vpin_stddev", "avg_bucket_interval_ms", "bvc_accuracy",
    "bvc_mean_abs_error", "bvc_compared", "bvc_accuracy_p_value", "error"]

/-- The cells of a row, as they are meant. -/
def cells (display : K → String) (r : SweepResult K) : List String :=
  match r.stats with
  | .ok _ => csvRow display r
  | .error e =>
    [display r.bucketVolume, Nat.repr r.sigmaWindow, Nat.repr r.vpinWindow] ++
      List.replicate 11 "" ++ [e.toString display]

/-- The texts of numbers need no quotes, differ where the numbers do, and none of them is
`NaN`. -/
structure DisplaysNumbers (display : K → String) : Prop where
  plain : ∀ x, Plain (display x).toList
  injective : Function.Injective display
  ne_nan : ∀ x, display x ≠ "NaN"

theorem toList_csvEscape (s : String) : (csvEscape s).toList = Csv.escape s.toList := by
  unfold csvEscape Csv.escape
  by_cases h : ',' ∈ s.toList ∨ '"' ∈ s.toList ∨ '\n' ∈ s.toList
  · have hplain : ¬ Plain s.toList := fun ⟨hcomma, hquote, hnewline⟩ ↦
      h.elim hcomma fun h ↦ h.elim hquote hnewline
    rw [if_pos h, if_neg hplain, String.toList_append, String.toList_append]
    exact congrArg (fun t ↦ ['"'] ++ t ++ ['"']) String.toList_ofList
  · simp only [not_or] at h
    have hplain : Plain s.toList := h
    rw [if_neg (by simpa using h), if_pos hplain]

theorem plain_repr (n : ℕ) : Plain (Nat.repr n).toList := by
  rw [Nat.toList_repr]
  have hdigits : ∀ c ∈ Nat.toDigits 10 n, c.isDigit :=
    fun _ hc ↦ Nat.isDigit_of_mem_toDigits (by decide) (by decide) hc
  refine ⟨fun h ↦ ?_, fun h ↦ ?_, fun h ↦ ?_⟩ <;> exact absurd (hdigits _ h) (by decide)

theorem plain_csvF64 (hplain : ∀ x, Plain (display x).toList) (x : Option K) :
    Plain (csvF64 display x).toList := by
  cases x with
  | none => exact (by decide : Plain "NaN".toList)
  | some x => exact hplain x

/-- Only the text of an error is ever quoted. -/
theorem map_escape_cells (hplain : ∀ x, Plain (display x).toList) (r : SweepResult K) :
    (csvRow display r).map String.toList = (cells display r).map (Csv.escape ·.toList) := by
  have hnumber : ∀ x, Csv.escape (display x).toList = (display x).toList :=
    fun x ↦ if_pos (hplain x)
  have hrepr : ∀ n, Csv.escape (Nat.repr n).toList = (Nat.repr n).toList :=
    fun n ↦ if_pos (plain_repr n)
  have hf64 : ∀ x, Csv.escape (csvF64 display x).toList = (csvF64 display x).toList :=
    fun x ↦ if_pos (plain_csvF64 hplain x)
  have hempty : Csv.escape "".toList = "".toList := rfl
  unfold cells csvRow
  cases r.stats with
  | ok s => simp only [List.map_cons, List.map_nil, hnumber, hrepr, hf64, hempty]
  | error e =>
      simp only [List.map_append, List.map_cons, List.map_nil, List.map_replicate, hnumber, hrepr,
        hempty, toList_csvEscape]

theorem csvHeader_eq : csvHeader = ",".intercalate columns := by
  decide +kernel

theorem plain_columns : ∀ column ∈ columns, Plain column.toList := by
  decide

theorem toList_csvHeader : csvHeader.toList = Csv.line (columns.map String.toList) := by
  have hplain : columns.map (Csv.escape ·.toList) = columns.map String.toList :=
    List.map_congr_left fun column hcolumn ↦ if_pos (plain_columns column hcolumn)
  rw [csvHeader_eq, String.toList_intercalate, ← hplain, Csv.line, List.map_map]
  rfl

theorem toList_printCsv (hplain : ∀ x, Plain (display x).toList) (results : List (SweepResult K)) :
    (printCsv display results).toList =
      Csv.write ((columns :: results.map (cells display)).map (·.map String.toList)) := by
  have hfold : ∀ out, (results.foldl (fun out r ↦
      out ++ ",".intercalate (csvRow display r) ++ "\n") out).toList =
        out.toList ++ Csv.write (results.map fun r ↦ (cells display r).map String.toList) := by
    induction results with
    | nil => exact fun out ↦ (List.append_nil _).symm
    | cons r results ih =>
        intro out
        have hrow : (",".intercalate (csvRow display r)).toList =
            Csv.line ((cells display r).map String.toList) := by
          rw [String.toList_intercalate, map_escape_cells hplain, Csv.line, List.map_map]
          rfl
        rw [List.foldl_cons, ih, String.toList_append, String.toList_append, hrow]
        simp [Csv.write]
  rw [printCsv, hfold, String.toList_append, toList_csvHeader, List.map_cons, List.map_map]
  rfl

/-- A reader of comma-separated values finds the header and every row in its cells. -/
theorem read_printCsv (hplain : ∀ x, Plain (display x).toList) (results : List (SweepResult K)) :
    Csv.read (printCsv display results).toList =
      some ((columns :: results.map (cells display)).map (·.map String.toList)) := by
  rw [toList_printCsv hplain]
  refine Csv.read_write fun record hrecord ↦ ?_
  obtain ⟨texts, htexts, rfl⟩ := List.mem_map.mp hrecord
  simp only [ne_eq, List.map_eq_nil_iff]
  rcases List.mem_cons.mp htexts with rfl | htexts
  · simp [columns]
  · obtain ⟨r, -, rfl⟩ := List.mem_map.mp htexts
    unfold cells csvRow
    cases r.stats <;> simp

/-! ## Nothing is lost -/

section Lossless

theorem repr_injective {n n' : ℕ} (h : Nat.repr n = Nat.repr n') : n = n' := by
  have hdigits := congrArg String.toList h
  rw [Nat.toList_repr, Nat.toList_repr] at hdigits
  have hvalue := congrArg (Nat.ofDigitChars 10 · 0) hdigits
  simpa only [Nat.ofDigitChars_ten_toDigits] using hvalue

theorem csvF64_injective (hdisplay : DisplaysNumbers display) :
    Function.Injective (csvF64 display) := by
  rintro (_ | x) (_ | x') h
  · rfl
  · exact absurd h.symm (hdisplay.ne_nan x')
  · exact absurd h (hdisplay.ne_nan x)
  · exact congrArg some (hdisplay.injective h)

/-- Two counts in a text, the first one followed by a comma. -/
theorem reprs_injective {start : String} {n n' k k' : ℕ}
    (h : start ++ Nat.repr n ++ ", got " ++ Nat.repr k =
      start ++ Nat.repr n' ++ ", got " ++ Nat.repr k') : n = n' ∧ k = k' := by
  have htexts := congrArg String.toList h
  simp only [String.toList_append, List.append_assoc, List.append_cancel_left_eq] at htexts
  have hsplit : ∀ n k, (Nat.repr n).toList ++ (", got ".toList ++ (Nat.repr k).toList) =
      (Nat.repr n).toList ++ ',' :: (" got ".toList ++ (Nat.repr k).toList) := fun _ _ ↦ rfl
  have hcomma : ',' ∉ " got ".toList ++ (Nat.repr k).toList := by
    rw [List.mem_append, not_or]
    exact ⟨by decide, (plain_repr k).1⟩
  rw [hsplit, hsplit, List.append_cons_inj_of_notMem (plain_repr n).1 hcomma] at htexts
  obtain ⟨hn, -, hk⟩ := htexts
  exact ⟨repr_injective (String.toList_injective hn),
    repr_injective (String.toList_injective (List.append_cancel_left hk))⟩

/-- The letters that an error starts with. -/
def initials : VpinError K → List Char
  | .invalidBucketVolume _ => ['b', 'u']
  | .invalidWindow _ _ => ['w', 'i']
  | .invalidConfidenceLevel _ => ['c', 'o']
  | .invalidBootstrapSamples _ _ => ['b', 'o']

theorem take_append {s t : String} {w : List Char} (h : s.toList.take w.length = w) :
    (s ++ t).toList.take w.length = w := by
  have hlen : w.length ≤ s.toList.length := by
    rw [← h]
    exact List.length_take_le' _ _
  rw [String.toList_append, List.take_append_of_le_length hlen, h]

theorem take_toString (display : K → String) (e : VpinError K) :
    (e.toString display).toList.take (initials e).length = initials e := by
  cases e with
  | invalidBucketVolume got => exact take_append (by simp only [initials]; decide)
  | invalidWindow got min =>
      exact take_append (take_append (take_append (by simp only [initials]; decide)))
  | invalidConfidenceLevel got => exact take_append (by simp only [initials]; decide)
  | invalidBootstrapSamples got min =>
      exact take_append (take_append (take_append (by simp only [initials]; decide)))

theorem initials_eq {e e' : VpinError K} (h : e.toString display = e'.toString display) :
    initials e = initials e' := by
  have hlength : (initials e).length = (initials e').length := by cases e <;> cases e' <;> rfl
  rw [← take_toString display e, h, hlength, take_toString]

theorem toString_injective (hdisplay : Function.Injective display) :
    Function.Injective (VpinError.toString display) := by
  intro e e' h
  have hinitials := initials_eq h
  cases e with
  | invalidBucketVolume got =>
      cases e' <;> try simp [initials] at hinitials
      exact congrArg VpinError.invalidBucketVolume (hdisplay ((String.append_right_inj _).mp h))
  | invalidWindow got min =>
      cases e' <;> try simp [initials] at hinitials
      obtain ⟨rfl, rfl⟩ := reprs_injective h
      rfl
  | invalidConfidenceLevel got =>
      cases e' <;> try simp [initials] at hinitials
      exact congrArg VpinError.invalidConfidenceLevel (hdisplay ((String.append_right_inj _).mp h))
  | invalidBootstrapSamples got min =>
      cases e' <;> try simp [initials] at hinitials
      obtain ⟨rfl, rfl⟩ := reprs_injective h
      rfl

/-- The statistics stand under the configuration that they are of. -/
def Whole (r : SweepResult K) : Prop :=
  ∀ s, r.stats = .ok s →
    s.bucketVolume = r.bucketVolume ∧ s.sigmaWindow = r.sigmaWindow ∧ s.vpinWindow = r.vpinWindow

theorem cells_injective (hdisplay : DisplaysNumbers display) {r r' : SweepResult K}
    (hwhole : Whole r) (hwhole' : Whole r') (h : cells display r = cells display r') : r = r' := by
  obtain ⟨bv, sw, vw, stats⟩ := r
  obtain ⟨bv', sw', vw', stats'⟩ := r'
  have hcsvF64 : ∀ {x x'}, csvF64 display x = csvF64 display x' → x = x' :=
    fun h ↦ csvF64_injective hdisplay h
  cases stats with
  | ok s =>
      obtain ⟨rfl, rfl, rfl⟩ := hwhole s rfl
      cases stats' with
      | ok s' =>
          obtain ⟨rfl, rfl, rfl⟩ := hwhole' s' rfl
          simp only [cells, csvRow, List.cons.injEq, and_true] at h
          obtain ⟨hbv, hsw, hvw, htotal, hreadings, hmean, hmin, hmax, hstddev, hinterval,
            haccuracy, herror, hcompared, hpValue⟩ := h
          have hstats : s = s' := by
            cases s
            cases s'
            simp only [Stats.mk.injEq]
            exact ⟨hdisplay.injective hbv, repr_injective hsw, repr_injective hvw,
              repr_injective htotal, repr_injective hreadings, hcsvF64 hmean, hcsvF64 hmin,
              hcsvF64 hmax, hcsvF64 hstddev, hcsvF64 hinterval, hcsvF64 haccuracy,
              hcsvF64 herror, repr_injective hcompared, hcsvF64 hpValue⟩
          rw [hstats]
      | error e' =>
          simp only [cells, csvRow, List.replicate, List.cons_append, List.nil_append,
            List.cons.injEq] at h
          exact absurd h.2.2.2.1 Nat.repr_ne_empty
  | error e =>
      cases stats' with
      | ok s' =>
          simp only [cells, csvRow, List.replicate, List.cons_append, List.nil_append,
            List.cons.injEq] at h
          exact absurd h.2.2.2.1.symm Nat.repr_ne_empty
      | error e' =>
          simp only [cells, List.replicate, List.cons_append, List.nil_append, List.cons.injEq,
            true_and, and_true] at h
          obtain ⟨hbv, hsw, hvw, herror⟩ := h
          rw [hdisplay.injective hbv, repr_injective hsw, repr_injective hvw,
            toString_injective hdisplay.injective herror]

end Lossless

/-! ## The report of a sweep -/

section Sweep

variable [Field K] [LinearOrder K]

omit [Field K] [LinearOrder K] in
theorem Whole.of_withoutPValue {r r' : SweepResult K} (h : Whole r)
    (hsame : r'.withoutPValue = r.withoutPValue) : Whole r' := by
  intro s' hs'
  obtain ⟨bv, sw, vw, stats⟩ := r
  obtain ⟨bv', sw', vw', stats'⟩ := r'
  subst hs'
  simp only [SweepResult.withoutPValue, SweepResult.mk.injEq] at hsame
  obtain ⟨rfl, rfl, rfl, hstats⟩ := hsame
  cases stats with
  | error e => cases hstats
  | ok s =>
      have heq := Except.ok.inj hstats
      simp only [Stats.mk.injEq] at heq
      obtain ⟨hbv, hsw, hvw, -⟩ := heq
      obtain ⟨hbv', hsw', hvw'⟩ := h s rfl
      exact ⟨hbv.trans hbv', hsw.trans hsw', hvw.trans hvw'⟩

variable [FloorSemiring K] {m : Libm K} {tape : List (Trade K)}

theorem IsCell.whole {cdfWindow : Option ℕ} {c : K × ℕ × ℕ} {r : SweepResult K}
    (h : IsCell m tape cdfWindow c r) : Whole r := by
  intro s hs
  obtain ⟨bvc, -, hrun⟩ := h.run
  cases bvc with
  | error e =>
      obtain rfl := Except.ok.inj hrun
      cases hs
  | ok bvc =>
      obtain ⟨stats, hstats, hrun⟩ := ok_of_bind hrun
      obtain rfl := Except.ok.inj hrun
      obtain rfl : stats = .ok s := hs
      have hreturns : Returns (calibrateOne m tape c.1 c.2.1 c.2.2 cdfWindow bvc) s := hstats
      simp only [calibrateOne, returns_bind, returns_check, returns_attempt,
        returns_pure] at hreturns
      obtain ⟨engine, -, rs, -, rfl⟩ := hreturns
      exact ⟨rfl, rfl, rfl⟩

variable [IsStrictOrderedRing K]

/-- One whole result for each configuration, in the order of the grid. -/
theorem runSweep_coordinates {bucketVolumes : List K} {sigmaWindows vpinWindows : List ℕ}
    {cdfWindow : Option ℕ} {out : List (SweepResult K)}
    (hout : runSweep m tape bucketVolumes sigmaWindows vpinWindows cdfWindow = .ok out) :
    out.map (fun r ↦ (r.bucketVolume, r.sigmaWindow, r.vpinWindow)) =
      bucketVolumes ×ˢ sigmaWindows ×ˢ vpinWindows ∧ ∀ r ∈ out, Whole r := by
  obtain ⟨g, hg⟩ := exists_cells m tape cdfWindow
  rw [runSweep, sweepGrid_eq hg bucketVolumes sigmaWindows vpinWindows] at hout
  obtain rfl := Except.ok.inj hout
  have hsame := map_withoutPValue_fillPValues (m := m)
    ((bucketVolumes ×ˢ sigmaWindows ×ˢ vpinWindows).map g)
  refine ⟨?_, fun r hr ↦ ?_⟩
  · have hcoordinates := congrArg
      (List.map fun r : SweepResult K ↦ (r.bucketVolume, r.sigmaWindow, r.vpinWindow)) hsame
    simp only [List.map_map] at hcoordinates
    refine hcoordinates.trans ((List.map_congr_left fun c _ ↦ ?_).trans (List.map_id _))
    obtain ⟨hbv, hsw, hvw⟩ := (hg c).coordinates
    exact Prod.ext hbv (Prod.ext hsw hvw)
  · obtain ⟨r', hr', hrsame⟩ := List.mem_map.mp
      (hsame ▸ List.mem_map_of_mem (f := SweepResult.withoutPValue) hr)
    obtain ⟨c, -, rfl⟩ := List.mem_map.mp hr'
    exact (hg c).whole.of_withoutPValue hrsame.symm

/-- The report of a sweep, read back, is the header and a row of fifteen cells for each
configuration, in the order of the grid; and no other sweep has the same report. -/
theorem report_is_lossless (hdisplay : DisplaysNumbers display) {bucketVolumes : List K}
    {sigmaWindows vpinWindows : List ℕ} {cdfWindow : Option ℕ} {out : List (SweepResult K)}
    (hout : runSweep m tape bucketVolumes sigmaWindows vpinWindows cdfWindow = .ok out) :
    Csv.read (printCsv display out).toList =
        some ((columns :: out.map (cells display)).map (·.map String.toList)) ∧
      (∀ row ∈ columns :: out.map (cells display), row.length = columns.length) ∧
      (out.map (cells display)).map (·.take 3) =
        (bucketVolumes ×ˢ sigmaWindows ×ˢ vpinWindows).map (fun c ↦
          [display c.1, Nat.repr c.2.1, Nat.repr c.2.2]) ∧
      ∀ {tape' : List (Trade K)} {bucketVolumes' : List K} {sigmaWindows' vpinWindows' : List ℕ}
        {cdfWindow' : Option ℕ} {out' : List (SweepResult K)},
        runSweep m tape' bucketVolumes' sigmaWindows' vpinWindows' cdfWindow' = .ok out' →
        printCsv display out' = printCsv display out → out' = out := by
  obtain ⟨hcoordinates, hwhole⟩ := runSweep_coordinates hout
  refine ⟨read_printCsv hdisplay.plain out, ?_, ?_, ?_⟩
  · intro row hrow
    rcases List.mem_cons.mp hrow with rfl | hrow
    · rfl
    · obtain ⟨r, -, rfl⟩ := List.mem_map.mp hrow
      unfold cells csvRow
      cases r.stats <;> rfl
  · rw [← hcoordinates, List.map_map, List.map_map]
    refine List.map_congr_left fun r hr ↦ ?_
    obtain ⟨bv, sw, vw, stats⟩ := r
    cases stats with
    | error e => rfl
    | ok s =>
        obtain ⟨rfl, rfl, rfl⟩ := hwhole _ hr s rfl
        rfl
  · intro tape' bucketVolumes' sigmaWindows' vpinWindows' cdfWindow' out' hout' hsame
    obtain ⟨-, hwhole'⟩ := runSweep_coordinates hout'
    have hread := read_printCsv hdisplay.plain out'
    rw [hsame, read_printCsv hdisplay.plain out] at hread
    have hrows := (List.cons.inj (List.map_injective_iff.mpr
      (List.map_injective_iff.mpr fun _ _ ↦ String.toList_injective) (Option.some.inj hread))).2
    have hlength : out'.length = out.length := by simpa using congrArg List.length hrows.symm
    refine List.ext_getElem hlength fun i hi' hi ↦ cells_injective hdisplay
      (hwhole' _ (List.getElem_mem hi')) (hwhole _ (List.getElem_mem hi)) ?_
    have hrow := congrArg (·[i]?) hrows
    simp only [List.getElem?_map, List.getElem?_eq_getElem hi, List.getElem?_eq_getElem hi',
      Option.map_some, Option.some.injEq] at hrow
    exact hrow.symm

/-- The digits of a whole number, and its sign. -/
theorem mem_toList_repr {a : ℤ} {c : Char} (hc : c ∈ a.repr.toList) : c.isDigit ∨ c = '-' := by
  have hdigit : ∀ n : ℕ, c ∈ (Nat.repr n).toList → c.isDigit := fun n hc ↦ by
    rw [Nat.toList_repr] at hc
    exact Nat.isDigit_of_mem_toDigits (by decide) (by decide) hc
  rw [Int.repr_eq_if] at hc
  split at hc
  · exact .inl (hdigit _ hc)
  · rw [String.toList_append, List.mem_append] at hc
    exact hc.symm.imp (hdigit _) List.mem_singleton.mp

theorem int_repr_injective {a b : ℤ} (h : a.repr = b.repr) : a = b := by
  have hsign : ∀ n k : ℕ, Nat.repr n ≠ "-" ++ Nat.repr k := by
    intro n k heq
    have hminus : '-' ∈ (Nat.repr n).toList := by
      rw [heq, String.toList_append]
      exact List.mem_append_left _ (by decide)
    rw [Nat.toList_repr] at hminus
    exact absurd (Nat.isDigit_of_mem_toDigits (by decide) (by decide) hminus) (by decide)
  rw [Int.repr_eq_if, Int.repr_eq_if] at h
  split at h <;> split at h
  · have := repr_injective h
    omega
  · exact absurd h (hsign _ _)
  · exact absurd h.symm (hsign _ _)
  · have := repr_injective ((String.append_right_inj _).mp h)
    omega

theorem toString_rat (x : ℚ) :
    (toString x).toList =
      x.num.repr.toList ++ if x.den = 1 then [] else '/' :: (Nat.repr x.den).toList := by
  unfold toString instToStringRat
  by_cases h : x.den = 1
  · simp [h]
  · simp [h]
    rfl

theorem mem_toString_rat {x : ℚ} {c : Char} (hc : c ∈ (toString x).toList) :
    c.isDigit ∨ c = '-' ∨ c = '/' := by
  rw [toString_rat, List.mem_append] at hc
  rcases hc with hc | hc
  · exact (mem_toList_repr hc).imp_right .inl
  · split at hc
    · simp at hc
    · rcases List.mem_cons.mp hc with rfl | hc
      · simp
      · rw [Nat.toList_repr] at hc
        exact .inl (Nat.isDigit_of_mem_toDigits (by decide) (by decide) hc)

theorem displaysNumbers_toString : DisplaysNumbers (toString : ℚ → String) where
  plain x := by
    refine ⟨fun h ↦ ?_, fun h ↦ ?_, fun h ↦ ?_⟩ <;> exact absurd (mem_toString_rat h) (by decide)
  injective x y h := by
    have hslash : ∀ a : ℤ, '/' ∉ a.repr.toList :=
      fun a hmem ↦ absurd (mem_toList_repr hmem) (by decide)
    have hdigits : '/' ∉ (Nat.repr x.den).toList := fun hmem ↦ by
      rw [Nat.toList_repr] at hmem
      exact absurd (Nat.isDigit_of_mem_toDigits (by decide) (by decide) hmem) (by decide)
    have htexts := congrArg String.toList h
    rw [toString_rat, toString_rat] at htexts
    by_cases hx : x.den = 1 <;> by_cases hy : y.den = 1
    · simp only [hx, hy, if_true, List.append_nil] at htexts
      exact Rat.ext (int_repr_injective (String.toList_injective htexts)) (hx.trans hy.symm)
    · simp only [hx, hy, if_true, if_false, List.append_nil] at htexts
      exact absurd (htexts ▸ List.mem_append_right _ List.mem_cons_self) (hslash x.num)
    · simp only [hx, hy, if_true, if_false, List.append_nil] at htexts
      exact absurd (htexts ▸ List.mem_append_right _ List.mem_cons_self) (hslash y.num)
    · simp only [hx, hy, if_false, List.append_cons_inj_of_notMem (hslash x.num) hdigits] at htexts
      exact Rat.ext (int_repr_injective (String.toList_injective htexts.1))
        (repr_injective (String.toList_injective htexts.2.2))
  ne_nan x h := by
    have hletter : 'N' ∈ (toString x).toList := by
      rw [h]
      decide
    exact absurd (mem_toString_rat hletter) (by decide)

def twoTrades : List (Trade ℚ) := [⟨⟨100, 1, 0⟩, .buy⟩, ⟨⟨101, 1, 1⟩, .sell⟩]

/-- Two configurations, one of which is refused with a comma in its error. -/
theorem report_is_lossless_refusedWindow :
    ∃ out : List (SweepResult ℚ),
      runSweep Stream.leaningLibm twoTrades [1] [2, 0] [1] none =
        .ok out ∧
      Csv.read (printCsv toString out).toList =
        some ((columns :: out.map (cells toString)).map (·.map String.toList)) := by
  obtain ⟨g, hg⟩ := exists_cells Stream.leaningLibm
    twoTrades none
  have hgrid := sweepGrid_eq hg [1] [2, 0] [1]
  have hrun : runSweep Stream.leaningLibm twoTrades [1] [2, 0] [1] none =
      .ok (fillPValues Stream.leaningLibm (([1] ×ˢ [2, 0] ×ˢ [1]).map g)) := by
    rw [runSweep, hgrid]
    rfl
  exact ⟨_, hrun, (report_is_lossless displaysNumbers_toString hrun).1⟩

end Sweep

end Calibrate

end Geiger
