import Geiger.Capture.RoundTrip
import Geiger.Library.Runs

/-!
# The capture tool

The record loop of `main`, cut where the process can be killed.  A kill leaves a prefix
of what was written, and no less than what was flushed.
-/

namespace Geiger.Capture

open TradeReader Chunks

inductive ExitCode where
  | success
  | failure
deriving DecidableEq

/-- Where the loop of `main` stands. -/
inductive Point where
  | select
  | recorded
  | stopping (code : ExitCode)
  | exited (code : ExitCode)
deriving DecidableEq

structure Tool where
  flushEvery : UInt64
  recorder : TradeRecorder
  recorded : UInt64
  sinceFlush : UInt64
  point : Point
  /-- What the last flush is sure to have left in the file. -/
  flushed : List UInt8

namespace Tool

inductive Event where
  | trade (t : NormalizedTrade)
  | closed
  | tick
  | ctrlC
  | proceed

def start (flushEvery : UInt64) (recorder : TradeRecorder) : Tool where
  flushEvery
  recorder
  recorded := 0
  sinceFlush := 0
  point := .select
  flushed := []

def flush (s : Tool) : Tool :=
  { s with recorder := s.recorder.flush, flushed := s.recorder.flush.file }

def step (s : Tool) (e : Event) : Option Tool :=
  match s.point, e with
  | .select, .trade t => some { s with
      recorder := s.recorder.record t
      recorded := s.recorded + 1
      sinceFlush := s.sinceFlush + 1
      point := .recorded }
  | .recorded, .proceed =>
    if s.flushEvery ≤ s.sinceFlush then some { s.flush with sinceFlush := 0, point := .select }
    else some { s with point := .select }
  | .select, .tick => if 0 < s.sinceFlush then some { s.flush with sinceFlush := 0 } else some s
  | .select, .closed => some { s with point := .stopping .failure }
  | .select, .ctrlC => some { s with point := .stopping .success }
  | .stopping code, .proceed => some { s.flush with point := .exited code }
  | _, _ => none

/-- The trades recorded by these events. -/
def trades (es : List Event) : List NormalizedTrade :=
  es.filterMap fun
    | .trade t => some t
    | _ => none

/-- What a kill can leave in the file. -/
structure Leaves (s : Tool) (bytes : List UInt8) : Prop where
  flushed : s.flushed <+: bytes
  written : bytes <+: s.recorder.contents

/-! ## One step -/

/-- The trades `ts` have been recorded, and the last flush misses no more of them than
have been counted since. -/
structure Recorded (every : UInt64) (ts : List NormalizedTrade) (s : Tool) : Prop where
  flushEvery : s.flushEvery = every
  contents : s.recorder.contents = captureFile ts
  file : s.flushed <+: s.recorder.file
  counted : ∃ old new, ts = old ++ new ∧ (old = [] ∨ captureFile old <+: s.flushed) ∧
    new.length ≤ s.sinceFlush.toNat
  bounded : s.sinceFlush.toNat + (if s.point = .recorded then 0 else 1) ≤ max every.toNat 1
  exited : ∀ code, s.point = .exited code → s.flushed = captureFile ts

variable {every : UInt64} {ts : List NormalizedTrade} {s s' : Tool}

theorem captureFile_concat (ts : List NormalizedTrade) (t : NormalizedTrade) :
    captureFile (ts ++ [t]) = captureFile ts ++ encodeRecord t := by
  rw [captureFile, captureFile, List.flatMap_append, List.append_assoc, List.flatMap_singleton]

theorem file_prefix_record (r : TradeRecorder) (t : NormalizedTrade) :
    r.file <+: (r.record t).file := by
  simp only [TradeRecorder.record]
  split
  · exact List.prefix_append _ _
  · exact List.prefix_rfl

theorem toNat_sinceFlush_add_one (hbounded : s.sinceFlush.toNat + 1 ≤ max every.toNat 1) :
    (s.sinceFlush + 1).toNat = s.sinceFlush.toNat + 1 := by
  have hlt := every.toNat_lt
  rw [UInt64.toNat_add, UInt64.toNat_one]
  omega

theorem Recorded.record (h : Recorded every ts s) (hpoint : s.point = .select)
    (t : NormalizedTrade) : Recorded every (ts ++ [t]) { s with
      recorder := s.recorder.record t
      recorded := s.recorded + 1
      sinceFlush := s.sinceFlush + 1
      point := .recorded } := by
  obtain ⟨old, new, rfl, hold, hnew⟩ := h.counted
  have hbounded := h.bounded
  rw [hpoint, if_neg (by decide)] at hbounded
  have hcount := toNat_sinceFlush_add_one hbounded
  refine ⟨h.flushEvery, ?_, h.file.trans (file_prefix_record _ t),
    ⟨old, new ++ [t], List.append_assoc _ _ _, hold, ?_⟩, ?_, ?_⟩
  · rw [TradeRecorder.contents_record, h.contents, captureFile_concat]
  · rw [hcount, List.length_append]
    exact Nat.succ_le_succ hnew
  · rwa [if_pos rfl, hcount]
  · rintro code ⟨⟩

/-- After a flush nothing recorded is missing from the file. -/
theorem Recorded.flush (h : Recorded every ts s) (point : Point) (sinceFlush : UInt64)
    (hbounded : sinceFlush.toNat + (if point = .recorded then 0 else 1) ≤ max every.toNat 1) :
    Recorded every ts { s.flush with sinceFlush, point } := by
  have hflushed : s.flush.flushed = captureFile ts := h.contents
  refine ⟨h.flushEvery, ?_, List.prefix_rfl, ⟨ts, [], ?_, .inr ?_, Nat.zero_le _⟩, hbounded,
    fun _ _ ↦ hflushed⟩
  · rw [← h.contents]
    exact List.append_nil _
  · exact (List.append_nil ts).symm
  · exact hflushed.symm ▸ List.prefix_rfl

theorem Recorded.move (h : Recorded every ts s) {point : Point}
    (hbounded : s.sinceFlush.toNat + 1 ≤ max every.toNat 1)
    (hexited : ∀ code, point ≠ .exited code) : Recorded every ts { s with point } := by
  refine ⟨h.flushEvery, h.contents, h.file, h.counted, ?_, fun code hcode ↦ ?_⟩
  · exact (Nat.add_le_add_left (by split <;> decide) _).trans hbounded
  · exact absurd hcode (hexited code)

theorem Recorded.step (h : Recorded every ts s) {e : Event} (hstep : s.step e = some s') :
    Recorded every (ts ++ trades [e]) s' := by
  have hbounded := h.bounded
  have hone : 0 + 1 ≤ max every.toNat 1 := le_max_right _ _
  have hnone : ts = ts ++ [] := (List.append_nil ts).symm
  unfold Tool.step at hstep
  split at hstep
  next t hpoint =>
    obtain rfl := Option.some.inj hstep
    exact h.record hpoint t
  next hpoint =>
    split at hstep
    · obtain rfl := Option.some.inj hstep
      exact hnone ▸ h.flush .select 0 hone
    · rename_i hfew
      obtain rfl := Option.some.inj hstep
      have hlt : s.sinceFlush.toNat < s.flushEvery.toNat := by
        simpa [UInt64.le_iff_toNat_le] using hfew
      rw [h.flushEvery] at hlt
      exact hnone ▸ h.move (by omega) (fun code ↦ by simp)
  next hpoint =>
    split at hstep
    · obtain rfl := Option.some.inj hstep
      exact hnone ▸ h.flush s.point 0 (by rw [hpoint]; exact hone)
    · obtain rfl := Option.some.inj hstep
      exact hnone ▸ h
  next hpoint =>
    obtain rfl := Option.some.inj hstep
    rw [hpoint, if_neg (by decide)] at hbounded
    exact hnone ▸ h.move hbounded (fun code ↦ by simp)
  next hpoint =>
    obtain rfl := Option.some.inj hstep
    rw [hpoint, if_neg (by decide)] at hbounded
    exact hnone ▸ h.move hbounded (fun code ↦ by simp)
  next code hpoint =>
    obtain rfl := Option.some.inj hstep
    rw [hpoint, if_neg (by simp)] at hbounded
    exact hnone ▸ h.flush (.exited code) s.sinceFlush (by rwa [if_neg (by simp)])
  next => cases hstep

/-! ## Whole runs -/

theorem recorded_start {file : Option (List UInt8)} (hfile : file.getD [] = [])
    {recorder : TradeRecorder} (hcreate : TradeRecorder.create file = .ok recorder) :
    Recorded every [] (start every recorder) := by
  have hfresh : TradeRecorder.create file = .ok ⟨headerBytes, []⟩ := by
    simp [TradeRecorder.create, hfile]
  obtain rfl := Except.ok.inj (hfresh.symm.trans hcreate)
  refine ⟨rfl, rfl, List.nil_prefix, ⟨[], [], rfl, .inl rfl, le_rfl⟩, ?_, ?_⟩
  · exact le_max_right _ _
  · rintro code ⟨⟩

theorem recorded_run {file : Option (List UInt8)} (hfile : file.getD [] = [])
    {recorder : TradeRecorder} (hcreate : TradeRecorder.create file = .ok recorder)
    {es : List Event} (hrun : Runs.run step (start every recorder) es = some s) :
    Recorded every (trades es) s := by
  have hstep (es : List Event) (t : Tool) (e : Event) (t' : Tool)
      (_ : Runs.run step (start every recorder) es = some t) (h : Recorded every (trades es) t)
      (hstep : t.step e = some t') : Recorded every (trades (es ++ [e])) t' := by
    rw [trades, List.filterMap_append]
    exact h.step hstep
  have hall := Runs.invariant_trace hstep (recorded_start hfile hcreate) hrun
  exact hall

/-- The file of the recorder itself is one that a kill can leave. -/
theorem Recorded.leaves_file (h : Recorded every ts s) : s.Leaves s.recorder.file :=
  ⟨h.file, List.prefix_append _ _⟩

/-! ## Reading what is left -/

/-- At most one error, for a record cut short. -/
def CutShort (tail : List (Except CaptureError NormalizedTrade)) : Prop :=
  tail = [] ∨ ∃ got, tail = [.error (.truncated got)]

theorem drains_leftover {leftover : List UInt8} (hlen : leftover.length < recordSize) :
    ∃ tail, CutShort tail ∧ (leftover = [] → tail = []) ∧
      ∀ script, Benign script → Drains ⟨leftover, script⟩ tail := by
  by_cases hempty : leftover = []
  · rw [hempty]
    exact ⟨[], .inl rfl, fun _ ↦ rfl, fun _ hscript ↦ drains_nil hscript⟩
  · refine ⟨_, .inr ⟨leftover.length, rfl⟩, fun h ↦ absurd h hempty, ?_⟩
    intro script hscript
    obtain ⟨script', hscript', hnext⟩ := next_eq (r := ⟨leftover, script⟩) hscript
    have hitem : decodeItem (leftover.take recordSize) = .error (.truncated leftover.length) := by
      rw [List.take_of_length_le hlen.le, decodeItem, dif_neg hlen.ne]
    simp only [if_neg hempty, hitem, List.drop_eq_nil_of_le hlen.le] at hnext
    exact .more hnext (drains_nil hscript')

/-- A prefix that keeps the header is read as the whole records in it. -/
theorem readable_of_prefix {bytes : List UInt8} (hwritten : bytes <+: captureFile ts)
    (hheader : headerSize ≤ bytes.length) {script : List ReadOutcome} (hscript : Benign script) :
    ∃ r tail, openFile bytes script = .ok r ∧ CutShort tail ∧
      Drains r ((ts.take ((bytes.length - headerSize) / recordSize)).map .ok ++ tail) ∧
      (bytes = captureFile ts → tail = []) := by
  obtain ⟨n, hn⟩ := Nat.exists_eq_add_of_le hheader
  have hle := hwritten.length_le
  rw [length_captureFile, hn] at hle
  have hrecords : n ≤ (ts.flatMap encodeRecord).length := by
    rw [length_records]
    omega
  obtain ⟨leftover, hleftover, htake⟩ := take_captureFile ts hrecords
  have hbytes : bytes = headerBytes ++
      ((ts.take (n / recordSize)).flatMap encodeRecord ++ leftover) := by
    rw [← htake, ← hn]
    exact List.prefix_iff_eq_take.mp hwritten
  obtain ⟨tail, hshort, hempty, hdrains⟩ :=
    drains_leftover (hleftover ▸ Nat.mod_lt n recordSize_pos)
  rw [hn, Nat.add_sub_cancel_left]
  refine ⟨⟨_, script⟩, tail, ?_, hshort, drains_append hdrains hscript _, ?_⟩
  · rw [hbytes]
    exact openFile_header _ script
  · intro hall
    rw [hall, length_captureFile, Nat.add_left_cancel_iff] at hn
    apply hempty
    rw [← List.length_eq_zero_iff, hleftover, ← hn, Nat.mul_mod_right]

/-- What a kill at any point of any run leaves is readable and misses no more trades than
a flush is due after; the exits leave everything. -/
theorem killed_capture_readable (every : UInt64) (file : Option (List UInt8))
    (hfile : file.getD [] = []) (recorder : TradeRecorder)
    (hcreate : TradeRecorder.create file = .ok recorder) (es : List Event) (s : Tool)
    (hrun : Runs.run step (start every recorder) es = some s) (bytes : List UInt8)
    (hbytes : s.Leaves bytes) (hheader : headerSize ≤ bytes.length) (script : List ReadOutcome)
    (hscript : Benign script) :
    ∃ r kept tail, openFile bytes script = .ok r ∧ Drains r (kept.map .ok ++ tail) ∧
      kept <+: trades es ∧ (trades es).length ≤ kept.length + max every.toNat 1 ∧
      CutShort tail ∧ ∀ code, s.point = .exited code → kept = trades es ∧ tail = [] := by
  have hrecorded := recorded_run hfile hcreate hrun
  have hwritten : bytes <+: captureFile (trades es) := hrecorded.contents ▸ hbytes.written
  obtain ⟨r, tail, hopen, hshort, hdrains, hall⟩ := readable_of_prefix hwritten hheader hscript
  refine ⟨r, _, tail, hopen, hdrains, List.take_prefix _ _, ?_, hshort, ?_⟩
  · obtain ⟨old, new, hsplit, hold, hnew⟩ := hrecorded.counted
    have hbounded := hrecorded.bounded
    have hkept : old.length ≤ (bytes.length - headerSize) / recordSize := by
      rw [Nat.le_div_iff_mul_le recordSize_pos]
      rcases hold with rfl | hold
      · simp
      · have hlen := (hold.trans hbytes.flushed).length_le
        rw [length_captureFile] at hlen
        rw [Nat.mul_comm]
        omega
    have hlength := congrArg List.length hsplit
    rw [List.length_append] at hlength
    rw [List.length_take]
    omega
  · intro code hcode
    have hflushed := hrecorded.exited code hcode
    have heq : bytes = captureFile (trades es) :=
      hwritten.eq_of_length_le (hflushed ▸ hbytes.flushed.length_le)
    refine ⟨?_, hall heq⟩
    rw [heq, length_captureFile, Nat.add_sub_cancel_left,
      Nat.mul_div_cancel_left _ recordSize_pos, List.take_length]

/-- Killed when one byte of the third record has gone into the file. -/
theorem killed_capture_readable_third :
    ∃ r kept tail, openFile (captureFile [priced 1, priced 2] ++ [3]) [.short 0] = .ok r ∧
      Drains r (kept.map .ok ++ tail) ∧ kept <+: [priced 1, priced 2, priced 3] ∧
      3 ≤ kept.length + 2 ∧ CutShort tail ∧
      ∀ code, Point.recorded = .exited code →
        kept = [priced 1, priced 2, priced 3] ∧ tail = [] := by
  have hbytes : Leaves ⟨2, ⟨captureFile [priced 1, priced 2], encodeRecord (priced 3)⟩, 3, 1,
      .recorded, captureFile [priced 1, priced 2]⟩ (captureFile [priced 1, priced 2] ++ [3]) := by
    constructor <;> decide +kernel
  have hscript : Benign [.short 0] := by
    intro o ho
    obtain rfl := List.mem_singleton.mp ho
    simp
  exact killed_capture_readable 2 none rfl ⟨headerBytes, []⟩ rfl
    [.trade (priced 1), .proceed, .trade (priced 2), .proceed, .trade (priced 3)] _ rfl _ hbytes
    (by decide) _ hscript

end Tool

end Geiger.Capture
