import Geiger.Calibrate.Agreement
import Geiger.Deployment.Shown

/-!
# From the venue to the tape

The capture tool with its adapter.  Nobody closes the channel between them, and its
receiver is dropped when the tool exits.
-/

namespace Geiger

open Runs Capture

structure Recording where
  adapter : Adapter
  /-- How many of the trades sent the tool has taken. -/
  received : ℕ
  tool : Tool

namespace Recording

inductive Event where
  | adapter (e : Adapter.Event)
  | receive
  | tool (e : Tool.Event)

/-- `main` of the capture tool, once the recorder has been created. -/
def start (flushEvery : UInt64) (recorder : TradeRecorder) : Recording :=
  ⟨Adapter.new .default, 0, Tool.start flushEvery recorder⟩

def exited : Point → Bool
  | .exited _ => true
  | _ => false

/-- Trades come through the channel, which stays open. -/
def IsOwn : Tool.Event → Bool
  | .trade _ | .closed => false
  | _ => true

def step (decode : Decoder) (r : Recording) : Event → Option Recording
  | .adapter e =>
    match e, exited r.tool.point with
    | .receiverDropped, false => none
    | e, _ => (r.adapter.step decode e).map fun adapter ↦ { r with adapter }
  | .receive => r.adapter.sent[r.received]?.bind fun t ↦ (r.tool.step (.trade t)).map fun tool ↦
      { r with tool, received := r.received + 1 }
  | .tool e => if IsOwn e then (r.tool.step e).map fun tool ↦ { r with tool } else none

/-- What an event is to the tool. -/
def toTool (r : Recording) : Event → List Tool.Event
  | .adapter _ => []
  | .receive => (r.adapter.sent[r.received]?).toList.map .trade
  | .tool e => [e]

/-- The trades that an event brings in. -/
def heardBy (decode : Decoder) (r : Recording) : Event → List NormalizedTrade
  | .adapter e => r.adapter.decoded decode e
  | _ => []

/-- The trades decoded from what the venue has sent, in order. -/
def venueTrades (decode : Decoder) : Recording → List Event → List NormalizedTrade :=
  told (step decode) (heardBy decode)

/-! ## What each step does -/

section Steps

variable {decode : Decoder} {r r' : Recording}

theorem adapter_eq_some {e : Adapter.Event} (h : r.step decode (.adapter e) = some r') :
    ∃ adapter, r.adapter.step decode e = some adapter ∧ r' = { r with adapter } := by
  simp only [step] at h
  split at h
  · cases h
  · obtain ⟨adapter, hadapter, rfl⟩ := Option.map_eq_some_iff.mp h
    exact ⟨adapter, hadapter, rfl⟩

theorem receive_eq_some (h : r.step decode .receive = some r') :
    ∃ t tool, r.adapter.sent[r.received]? = some t ∧ r.tool.step (.trade t) = some tool ∧
      r' = { r with tool, received := r.received + 1 } := by
  obtain ⟨t, ht, h⟩ := Option.bind_eq_some_iff.mp h
  obtain ⟨tool, htool, rfl⟩ := Option.map_eq_some_iff.mp h
  exact ⟨t, tool, ht, htool, rfl⟩

theorem tool_eq_some {e : Tool.Event} (h : r.step decode (.tool e) = some r') :
    IsOwn e ∧ ∃ tool, r.tool.step e = some tool ∧ r' = { r with tool } := by
  obtain ⟨hown, h⟩ := Option.ite_none_right_eq_some.mp h
  obtain ⟨tool, htool, rfl⟩ := Option.map_eq_some_iff.mp h
  exact ⟨hown, tool, htool, rfl⟩

theorem run_toTool {e : Event} (hstep : r.step decode e = some r') :
    run Tool.step r.tool (r.toTool e) = some r'.tool := by
  cases e with
  | adapter e =>
      obtain ⟨adapter, -, rfl⟩ := adapter_eq_some hstep
      rfl
  | receive =>
      obtain ⟨t, tool, ht, htool, rfl⟩ := receive_eq_some hstep
      simp [toTool, ht, run, htool]
  | tool e =>
      obtain ⟨-, tool, htool, rfl⟩ := tool_eq_some hstep
      simp [toTool, run, htool]

/-- Where a recording stands that has taken the trades `ts` out of those that the venue has
sent. -/
structure Inv (heard ts : List NormalizedTrade) (r : Recording) : Prop where
  received_le : r.received ≤ r.adapter.sent.length
  taken : ts = r.adapter.sent.take r.received
  sent : r.adapter.sent <+: heard
  conserved : r.adapter.receiverAlive = true → r.adapter.sent ++ r.adapter.queued = heard

variable {heard ts : List NormalizedTrade}

theorem Inv.adapter (h : Inv heard ts r) {e : Adapter.Event} {adapter : Adapter}
    (hadapter : r.adapter.step decode e = some adapter) :
    Inv (heard ++ r.adapter.decoded decode e) ts { r with adapter } := by
  have hconserves := Adapter.conserves_step hadapter
  have hall : adapter.receiverAlive = true → adapter.sent ++ adapter.queued =
      heard ++ r.adapter.decoded decode e := fun halive ↦ by
    rw [hconserves.all halive, h.conserved (hconserves.alive halive)]
  obtain ⟨more, hmore⟩ := hconserves.sent
  refine ⟨?_, ?_, ?_, hall⟩
  · rw [← hmore, List.length_append]
    exact h.received_le.trans (Nat.le_add_right _ _)
  · rw [h.taken, ← hmore, List.take_append_of_le_length h.received_le]
  · by_cases halive : adapter.receiverAlive = true
    · exact ⟨_, hall halive⟩
    · rw [hconserves.dead (by simpa using halive)]
      exact h.sent.trans (List.prefix_append _ _)

/-- One step, one case for each event. -/
theorem Inv.step (h : Inv heard ts r) {e : Event} (hstep : r.step decode e = some r') :
    Inv (heard ++ r.heardBy decode e) (ts ++ Tool.trades (r.toTool e)) r' := by
  cases e with
  | adapter e =>
      obtain ⟨adapter, hadapter, rfl⟩ := adapter_eq_some hstep
      have hquiet : ts ++ Tool.trades (r.toTool (.adapter e)) = ts := List.append_nil _
      rw [hquiet]
      exact h.adapter hadapter
  | receive =>
      obtain ⟨t, tool, ht, -, rfl⟩ := receive_eq_some hstep
      have htold : ts ++ Tool.trades (r.toTool .receive) = ts ++ [t] := by
        simp [toTool, ht, Tool.trades]
      have hheard : heard ++ r.heardBy decode .receive = heard := List.append_nil _
      rw [htold, hheard]
      refine ⟨(List.getElem?_eq_some_iff.mp ht).1, ?_, h.sent, h.conserved⟩
      rw [List.take_add_one, ht, h.taken]
      rfl
  | tool e =>
      obtain ⟨hown, tool, -, rfl⟩ := tool_eq_some hstep
      have hquiet : Tool.trades (r.toTool (.tool e)) = [] := by
        cases e with
        | trade t => cases hown
        | _ => rfl
      have hheard : heard ++ r.heardBy decode (.tool e) = heard := List.append_nil _
      rw [hquiet, hheard, List.append_nil]
      exact ⟨h.received_le, h.taken, h.sent, h.conserved⟩

end Steps

/-! ## Runs -/

section Runs

variable {decode : Decoder} {every : UInt64} {recorder : TradeRecorder} {es : List Event}
  {r : Recording}

/-- What a run is to the tool. -/
def toolEvents (decode : Decoder) : Recording → List Event → List Tool.Event :=
  told (step decode) toTool

theorem inv_run (hrun : run (step decode) (start every recorder) es = some r) :
    Inv (venueTrades decode (start every recorder) es)
      (Tool.trades (toolEvents decode (start every recorder) es)) r := by
  refine @invariant_trace _ _ _ _ _ _ (fun es r ↦
    Inv (venueTrades decode (start every recorder) es)
      (Tool.trades (toolEvents decode (start every recorder) es)) r) ?_
    ⟨le_rfl, rfl, List.prefix_rfl, fun _ ↦ rfl⟩ hrun
  intro es r e r' hr h hstep
  have hheard : venueTrades decode (start every recorder) (es ++ [e]) =
      venueTrades decode (start every recorder) es ++ r.heardBy decode e := told_concat e hr
  have htold : toolEvents decode (start every recorder) (es ++ [e]) =
      toolEvents decode (start every recorder) es ++ r.toTool e := told_concat e hr
  rw [hheard, htold, Tool.trades, List.filterMap_append]
  exact h.step hstep

theorem tool_run (hrun : run (step decode) (start every recorder) es = some r) :
    run Tool.step (Tool.start every recorder)
      (toolEvents decode (start every recorder) es) = some r.tool :=
  run_told (fun _ _ _ hstep ↦ run_toTool hstep) hrun

end Runs

/-! ## What is left on disk -/

/-- Of the trades recorded a file that is left misses no more than a flush is due after. -/
theorem length_le_of_leaves {every : UInt64} {ts : List NormalizedTrade} {tool : Tool}
    (h : Tool.Recorded every ts tool) {bytes : List UInt8} (hbytes : tool.Leaves bytes) :
    ts.length ≤
      (ts.take ((bytes.length - headerSize) / recordSize)).length + max every.toNat 1 := by
  obtain ⟨old, new, rfl, hold, hnew⟩ := h.counted
  have hbounded := h.bounded
  have hkept : old.length ≤ (bytes.length - headerSize) / recordSize := by
    rw [Nat.le_div_iff_mul_le recordSize_pos]
    rcases hold with rfl | hold
    · simp
    · have hle := (hold.trans hbytes.flushed).length_le
      rw [length_captureFile] at hle
      rw [Nat.mul_comm]
      omega
  rw [List.length_take, List.length_append]
  omega

section Disk

variable {decode : Decoder} {every : UInt64} {file : Option (List UInt8)}
  {recorder : TradeRecorder} {es : List Event} {r : Recording}

/-- In every run of the capture tool with its adapter, over any number of sessions: what a
kill can leave of a fresh file is read as trades that the venue has sent, in order from the
first one, and misses no more of those taken than a flush is due after. -/
theorem killed_recording_is_venue_prefix (hfile : file.getD [] = [])
    (hcreate : TradeRecorder.create file = .ok recorder)
    (hrun : run (step decode) (start every recorder) es = some r) {bytes : List UInt8}
    (hbytes : r.tool.Leaves bytes) (hheader : headerSize ≤ bytes.length)
    {script : List ReadOutcome} (hscript : TradeReader.Benign script) :
    ∃ reader kept tail, TradeReader.openFile bytes script = .ok reader ∧
      TradeReader.Drains reader (kept.map .ok ++ tail) ∧ Tool.CutShort tail ∧
      kept <+: venueTrades decode (start every recorder) es ∧
      r.received ≤ kept.length + max every.toNat 1 := by
  have h := inv_run hrun
  have hrecorded := Tool.recorded_run hfile hcreate (tool_run hrun)
  have hwritten := hbytes.written
  rw [hrecorded.contents] at hwritten
  obtain ⟨reader, tail, hopen, hshort, hdrains, -⟩ :=
    Tool.readable_of_prefix hwritten hheader hscript
  refine ⟨reader, _, tail, hopen, hdrains, hshort, ?_, ?_⟩
  · refine (List.take_prefix _ _).trans ?_
    rw [h.taken]
    exact (List.take_prefix _ _).trans h.sent
  · have hle := length_le_of_leaves hrecorded hbytes
    have hlength := congrArg List.length h.taken
    rw [List.length_take, Nat.min_eq_left h.received_le] at hlength
    omega

/-- The file of a capture tool that has exited: all trades that it has taken. -/
theorem flushed_eq (hfile : file.getD [] = []) (hcreate : TradeRecorder.create file = .ok recorder)
    (hrun : run (step decode) (start every recorder) es = some r) {code : ExitCode}
    (hexit : r.tool.point = .exited code) :
    r.tool.flushed =
      captureFile ((venueTrades decode (start every recorder) es).take r.received) := by
  have h := inv_run hrun
  have hrecorded := Tool.recorded_run hfile hcreate (tool_run hrun)
  obtain ⟨more, hmore⟩ := h.sent
  rw [hrecorded.exited code hexit, h.taken, ← hmore, List.take_append_of_le_length h.received_le]

theorem length_taken (hrun : run (step decode) (start every recorder) es = some r) :
    ((venueTrades decode (start every recorder) es).take r.received).length = r.received := by
  have h := inv_run hrun
  exact List.length_take_of_le (h.received_le.trans h.sent.length_le)

variable {K : Type} [Field K] [LinearOrder K] [FloorSemiring K] [IsStrictOrderedRing K]

end Disk

/-! ## Three trades on disk -/

def unitDecoder : Decoder := decoder Deployment.readThreeTrades .zeroed .bybit

/-- Three trades in one push, of which two are recorded before the tool is stopped. -/
def twoOfThree : List Event :=
  [.adapter .connected, .adapter (.text "push" fun _ ↦ 0), .adapter .send, .adapter .send,
    .adapter .send, .receive, .tool .proceed, .receive, .tool .proceed]

def interrupt : List Event := [.tool .ctrlC, .tool .proceed]

theorem create_none : TradeRecorder.create none = .ok ⟨headerBytes, []⟩ := rfl

theorem killed_recording_is_venue_prefix_twoOfThree :
    ∃ r reader kept tail, run (step unitDecoder) (start 1 ⟨headerBytes, []⟩) twoOfThree = some r ∧
      TradeReader.openFile r.tool.recorder.file [.short 6] = .ok reader ∧
      TradeReader.Drains reader (kept.map .ok ++ tail) ∧
      kept <+: venueTrades unitDecoder (start 1 ⟨headerBytes, []⟩) twoOfThree ∧
      2 ≤ kept.length + 1 := by
  have hrun : (run (step unitDecoder) (start 1 ⟨headerBytes, []⟩) twoOfThree).map
      (fun r ↦ (r.received, decide (headerSize ≤ r.tool.recorder.file.length))) =
        some (2, true) := by decide +kernel
  obtain ⟨r, hr, heq⟩ := Option.map_eq_some_iff.mp hrun
  obtain ⟨hreceived, hheader⟩ := Prod.mk.inj heq
  have hrecorded := Tool.recorded_run rfl create_none (tool_run hr)
  obtain ⟨reader, kept, tail, hopen, hdrains, -, hkept, hlength⟩ :=
    killed_recording_is_venue_prefix rfl create_none hr hrecorded.leaves_file
      (of_decide_eq_true hheader) (TradeReader.benign_short 6)
  rw [hreceived] at hlength
  exact ⟨r, reader, kept, tail, hr, hopen, hdrains, hkept, hlength⟩

/-- The prices and the quantities of what the venue has sent are not zero. -/
def nonzero (t : NormalizedTrade) : Bool := t.price.raw ≠ 0 && t.qty.raw ≠ 0

theorem passes_twoOfThree {bucketVolumes : List ℚ} {sigmaWindows vpinWindows : List ℕ}
    (hsigma : ∀ sw ∈ sigmaWindows, sw < 2 ^ 60) (hvpin : ∀ vw ∈ vpinWindows, vw < 2 ^ 59) :
    Calibrate.Passes .debug (((venueTrades unitDecoder (start 1 ⟨headerBytes, []⟩)
      (twoOfThree ++ interrupt)).take 2).map (Calibrate.loadTrade (K := ℚ))) bucketVolumes
        sigmaWindows vpinWindows none := by
  have hnonzero : ((venueTrades unitDecoder (start 1 ⟨headerBytes, []⟩)
      (twoOfThree ++ interrupt)).take 2).all nonzero := by decide +kernel
  refine Calibrate.passes_of_small hsigma hvpin (by simp) fun bv _ ↦ ?_
  refine Calibrate.takesAll_loadTrades (fun t ht ↦ ?_) ?_ .debug bv
  · simpa [nonzero] using List.all_eq_true.mp hnonzero t ht
  · exact (List.length_take_le _ _).trans (by decide)

end Recording

end Geiger
