import Geiger.Library.Exposition
import Geiger.Library.Numbering
import Geiger.Service.Streams
import Geiger.Service.VenueStream

/-!
# The metrics page

The labels of a sample are the exchange and the symbol of its stream, written between
quotes as they are.
-/

namespace Geiger

open Exposition

/-- The fields of an entry that the page is made of. -/
structure StreamEntry where
  exchange : String
  symbol : String
  health : StreamHealth

def StreamEntry.key (e : StreamEntry) : String := streamKey e.exchange e.symbol

/-- The entries of the map in the order of an iteration over it. -/
structure Registry where
  entries : List StreamEntry
  accepted : ∀ e ∈ entries, (parseExchange e.exchange).isSome
  distinct : (entries.map StreamEntry.key).Nodup

namespace Metrics

/-- Name, kind and help of each metric. -/
def metrics : List (String × String × String) :=
  [("geiger_trades_processed_total", "counter",
      "Trades processed for this stream since the worker started"),
    ("geiger_readings_emitted_total", "counter",
      "VPIN readings emitted for this stream since the worker started"),
    ("geiger_stream_alive", "gauge",
      "1 if the stream's worker is still running, 0 if its trade-ingest channel closed"),
    ("geiger_last_trade_timestamp_ns", "gauge",
      "Exchange timestamp (ns) of the last trade processed for this stream"),
    ("geiger_last_heartbeat_timestamp_ns", "gauge",
      "Timestamp (ns) of the last heartbeat sent for this stream")]

def writeMetricsHeader (out : String) : String :=
  metrics.foldl (fun out m ↦
    out ++ "# HELP " ++ m.1 ++ " " ++ m.2.2 ++ ".\n" ++ "# TYPE " ++ m.1 ++ " " ++ m.2.1 ++ "\n") out

def writeSample (e : StreamEntry) (name : String) (value : ℕ) (out : String) : String :=
  out ++ name ++ "\x7bexchange=\"" ++ e.exchange ++ "\",symbol=\"" ++ e.symbol ++ "\"\x7d " ++
    toString value ++ "\n"

def writeEntry (out : String) (e : StreamEntry) : String :=
  let out := writeSample e "geiger_trades_processed_total" e.health.tradesProcessed out
  let out := writeSample e "geiger_readings_emitted_total" e.health.readingsEmitted out
  let out := writeSample e "geiger_stream_alive" e.health.workerAlive.toNat out
  let out := e.health.lastTradeTsNs.elim out fun ts ↦
    writeSample e "geiger_last_trade_timestamp_ns" ts.toNat out
  e.health.lastHeartbeatTsNs.elim out fun ts ↦
    writeSample e "geiger_last_heartbeat_timestamp_ns" ts.toNat out

def renderMetrics (r : Registry) : String := r.entries.foldl writeEntry (writeMetricsHeader "")

/-! ## What the page should say -/

/-- The three figures that are always there and the timestamps that are present. -/
def figures (h : StreamHealth) : List (String × ℕ) :=
  [("geiger_trades_processed_total", h.tradesProcessed),
    ("geiger_readings_emitted_total", h.readingsEmitted),
    ("geiger_stream_alive", h.workerAlive.toNat)] ++
  (h.lastTradeTsNs.map fun ts ↦ ("geiger_last_trade_timestamp_ns", ts.toNat)).toList ++
  (h.lastHeartbeatTsNs.map fun ts ↦ ("geiger_last_heartbeat_timestamp_ns", ts.toNat)).toList

def series (e : StreamEntry) (name : String) : Series where
  name := name.toList
  labels := [⟨"exchange".toList, e.exchange.toList⟩, ⟨"symbol".toList, e.symbol.toList⟩]

def samples (e : StreamEntry) : List Sample :=
  (figures e.health).map fun f ↦ ⟨series e f.1, .finite f.2, none⟩

/-- The page gives back the figures of every stream, and no series twice. -/
def ReadsBack (r : Registry) : Prop :=
  ∃ read, parse (renderMetrics r).toList = some read ∧ read.Perm (r.entries.flatMap samples) ∧
    (read.map Sample.series).Nodup

/-! ## The text of the page -/

def metricComments (m : String × String × String) : List (List Char) :=
  [(" HELP " ++ m.1 ++ " " ++ m.2.2 ++ ".").toList, (" TYPE " ++ m.1 ++ " " ++ m.2.1).toList]

def comments : List (List Char) := metrics.flatMap metricComments

/-- A sample's line as it is written. -/
def rawLine (e : StreamEntry) (f : String × ℕ) : List Char :=
  f.1.toList ++ "\x7bexchange=\"".toList ++ e.exchange.toList ++ "\",symbol=\"".toList ++
    e.symbol.toList ++ "\"\x7d ".toList ++ Nat.toDigits 10 f.2 ++ ['\n']

theorem toList_writeSample (e : StreamEntry) (name : String) (value : ℕ) (out : String) :
    (writeSample e name value out).toList = out.toList ++ rawLine e (name, value) := by
  simp [writeSample, rawLine]

theorem toList_writeEntry (out : String) (e : StreamEntry) :
    (writeEntry out e).toList = out.toList ++ (figures e.health).flatMap (rawLine e) := by
  simp only [writeEntry, figures]
  cases e.health.lastTradeTsNs <;> cases e.health.lastHeartbeatTsNs <;>
    simp [toList_writeSample]

/-- A text that is written piece by piece. -/
theorem toList_foldl {α : Type} {write : String → α → String} {text : α → List Char}
    (h : ∀ out a, (write out a).toList = out.toList ++ text a) (out : String) (as : List α) :
    (as.foldl write out).toList = out.toList ++ as.flatMap text := by
  induction as generalizing out with
  | nil => simp
  | cons a as ih => rw [List.foldl_cons, ih, h, List.flatMap_cons, List.append_assoc]

theorem toList_writeMetricsHeader :
    (writeMetricsHeader "").toList = comments.flatMap fun text ↦ '#' :: text ++ ['\n'] := by
  have hwrite (out : String) (m : String × String × String) :
      (out ++ "# HELP " ++ m.1 ++ " " ++ m.2.2 ++ ".\n" ++ "# TYPE " ++ m.1 ++ " " ++ m.2.1 ++
        "\n").toList = out.toList ++ (metricComments m).flatMap fun text ↦ '#' :: text ++ ['\n'] := by
    simp [metricComments]
  rw [writeMetricsHeader, toList_foldl hwrite, comments, List.flatMap_assoc, String.toList_empty,
    List.nil_append]

theorem toList_renderMetrics (r : Registry) : (renderMetrics r).toList =
    comments.flatMap (fun text ↦ '#' :: text ++ ['\n']) ++
      r.entries.flatMap fun e ↦ (figures e.health).flatMap (rawLine e) := by
  rw [renderMetrics, toList_foldl toList_writeEntry, toList_writeMetricsHeader]

theorem wellFormed_metrics : ∀ m ∈ metrics, isMetricName m.1.toList ∧ m.2.1 ∈ kinds ∧
    Plain m.1.toList ∧ Plain m.2.1.toList ∧ Plain m.2.2.toList := by
  decide +kernel

theorem plain_comments : ∀ text ∈ comments, Plain text ∧ isComment text := by
  intro text htext
  obtain ⟨m, hm, htext⟩ := List.mem_flatMap.mp htext
  obtain ⟨hname, hkind, hplain, hplain', hplain''⟩ := wellFormed_metrics m hm
  have hhelp := isComment_help hname (m.2.2 ++ ".").toList
  have htype := isComment_type hname hkind
  simp only [metricComments, List.mem_cons, List.not_mem_nil, or_false] at htext
  rcases htext with rfl | rfl
  · refine ⟨?_, by simpa using hhelp⟩
    simp only [String.toList_append]
    exact ((((by decide : Plain " HELP ".toList).append hplain).append (by decide)).append
      hplain'').append (by decide)
  · refine ⟨?_, by simpa using htype⟩
    simp only [String.toList_append]
    exact (((by decide : Plain " TYPE ".toList).append hplain).append (by decide)).append hplain'

theorem plain_of_parseExchange {s : String} {e : Exchange} (h : parseExchange s = some e) :
    Plain s.toList := by
  have hlower := congrArg String.toList (name_of_parseExchange h)
  rw [toAsciiLowercase, String.toList_ofList] at hlower
  intro c hc hescape
  have hfixed : c.toLower = c := by
    simp only [needsEscape, decide_eq_true_eq] at hescape
    rcases hescape with rfl | rfl | rfl <;> decide
  have hmem : c ∈ e.name.toList := by
    rw [← hlower, ← hfixed]
    exact List.mem_map_of_mem hc
  have hname : Plain e.name.toList := by cases e <;> decide
  exact hname c hmem hescape

theorem names_subset (h : StreamHealth) :
    (figures h).map Prod.fst ⊆ metrics.map Prod.fst := by
  unfold figures
  cases h.lastTradeTsNs <;> cases h.lastHeartbeatTsNs <;> simp [metrics]

theorem name_of_figures {h : StreamHealth} {f : String × ℕ} (hf : f ∈ figures h) :
    isMetricName f.1.toList ∧ Plain f.1.toList := by
  obtain ⟨m, hm, hname⟩ := List.mem_map.mp (names_subset h (List.mem_map_of_mem hf))
  rw [← hname]
  exact ⟨(wellFormed_metrics m hm).1, (wellFormed_metrics m hm).2.2.1⟩

theorem wellFormed_series (e : StreamEntry) {name : String} (h : isMetricName name.toList) :
    (series e name).WellFormed := by
  refine ⟨h, ?_⟩
  intro l hl
  simp only [series, List.mem_cons, List.not_mem_nil, or_false] at hl
  have hlabels : isLabelName "exchange".toList ∧ isLabelName "symbol".toList := by decide
  rcases hl with rfl | rfl
  · exact hlabels.1
  · exact hlabels.2

theorem rawLine_eq_line {e : StreamEntry} (hexchange : Plain e.exchange.toList)
    (hsymbol : Plain e.symbol.toList) (f : String × ℕ) :
    rawLine e f = line (series e f.1) f.2 := by
  simp [rawLine, line, series, labelsText, Label.text, hexchange.escape, hsymbol.escape]

theorem count_rawLine {e : StreamEntry} {f : String × ℕ} (hname : Plain f.1.toList)
    (hexchange : Plain e.exchange.toList) :
    (rawLine e f).count '\\' = e.symbol.toList.count '\\' := by
  have hnone {v : List Char} (h : Plain v) : v.count '\\' = 0 :=
    List.count_eq_zero_of_not_mem (h.not_mem (by decide))
  have hdigits : (Nat.toDigits 10 f.2).count '\\' = 0 := by
    apply List.count_eq_zero_of_not_mem
    intro hmem
    exact absurd (Nat.isDigit_of_mem_toDigits (by decide) (by decide) hmem) (by decide)
  simp [rawLine, hnone hname, hnone hexchange, hdigits]

theorem backslashes_series (e : StreamEntry) (name : String) : (series e name).backslashes =
    backslashes e.exchange.toList + backslashes e.symbol.toList := by
  simp [Series.backslashes, series]

/-! ## Series -/

theorem nodup_names (h : StreamHealth) : ((figures h).map Prod.fst).Nodup := by
  unfold figures
  cases h.lastTradeTsNs <;> cases h.lastHeartbeatTsNs <;> simp

theorem series_inj {e e' : StreamEntry} {name name' : String}
    (h : series e name = series e' name') : e.key = e'.key ∧ name = name' := by
  simp only [series, Series.mk.injEq, String.toList_inj, List.cons.injEq, Label.mk.injEq,
    true_and, and_true] at h
  exact ⟨by rw [StreamEntry.key, h.2.1, h.2.2, StreamEntry.key], h.1⟩

theorem nodup_series (r : Registry) :
    ((r.entries.flatMap samples).map Sample.series).Nodup := by
  have hdistinct := List.pairwise_map.mp r.distinct
  rw [List.map_flatMap, List.nodup_flatMap]
  constructor
  · intro e _
    have hseries : (samples e).map Sample.series =
        ((figures e.health).map Prod.fst).map (series e) := by
      simp [samples, Function.comp_def]
    rw [hseries]
    apply (nodup_names e.health).map
    intro name name' h
    exact (series_inj h).2
  · refine hdistinct.imp fun {e e'} hne x hx hx' ↦ hne ?_
    simp only [samples, List.map_map, List.mem_map, Function.comp_apply] at hx hx'
    obtain ⟨f, -, rfl⟩ := hx
    obtain ⟨f', -, hsame⟩ := hx'
    exact (series_inj hsame.symm).1

/-! ## Reading the page -/

variable {r : Registry}

theorem Registry.plain_exchange {e : StreamEntry} (he : e ∈ r.entries) :
    Plain e.exchange.toList := by
  obtain ⟨exchange, hexchange⟩ := Option.isSome_iff_exists.mp (r.accepted e he)
  exact plain_of_parseExchange hexchange

theorem parse_renderMetrics (h : ∀ e ∈ r.entries, Plain e.symbol.toList) :
    parse (renderMetrics r).toList = some (r.entries.flatMap samples) := by
  have hlines : (r.entries.flatMap fun e ↦ (figures e.health).flatMap (rawLine e)) =
      (r.entries.flatMap fun e ↦ (figures e.health).map fun f ↦ (series e f.1, f.2)).flatMap
        fun l ↦ line l.1 l.2 := by
    rw [List.flatMap_assoc]
    apply List.flatMap_congr
    intro e he
    rw [List.flatMap_map]
    apply List.flatMap_congr
    intro f _
    exact rawLine_eq_line (Registry.plain_exchange he) (h e he) f
  rw [toList_renderMetrics, hlines, parse_page]
  · simp only [List.map_flatMap, List.map_map]
    rfl
  · intro text htext
    obtain ⟨hplain, hcomment⟩ := plain_comments text htext
    exact ⟨hplain.not_mem (by decide), hcomment⟩
  · intro l hl
    simp only [List.mem_flatMap, List.mem_map] at hl
    obtain ⟨e, -, f, hf, rfl⟩ := hl
    exact wellFormed_series e (name_of_figures hf).1

theorem count_comments :
    (comments.flatMap fun text ↦ '#' :: text ++ ['\n']).count '\\' = 0 := by
  apply List.count_eq_zero_of_not_mem
  intro hmem
  obtain ⟨text, htext, hmem⟩ := List.mem_flatMap.mp hmem
  have hplain := (plain_comments text htext).1.not_mem (c := '\\') (by decide)
  simp [hplain] at hmem

/-- The backslashes of the page are those of the symbols. -/
theorem count_renderMetrics (r : Registry) : (renderMetrics r).toList.count '\\' =
    (r.entries.map fun e ↦ (figures e.health).length * e.symbol.toList.count '\\').sum := by
  rw [toList_renderMetrics, List.count_append, count_comments, Nat.zero_add, List.count_flatMap]
  congr 1
  apply List.map_congr_left
  intro e he
  have hline : ∀ n ∈ (figures e.health).map (List.count '\\' ∘ rawLine e),
      n = e.symbol.toList.count '\\' := by
    intro n hn
    obtain ⟨f, hf, rfl⟩ := List.mem_map.mp hn
    exact count_rawLine (name_of_figures hf).2 (Registry.plain_exchange he)
  rw [Function.comp_apply, List.count_flatMap, List.eq_replicate_of_mem hline, List.sum_replicate,
    List.length_map, smul_eq_mul]

theorem sum_backslashes (r : Registry) :
    ((r.entries.flatMap samples).map fun x ↦ x.series.backslashes).sum =
      (r.entries.map fun e ↦ (figures e.health).length * backslashes e.symbol.toList).sum := by
  rw [List.map_flatMap, List.flatMap_def, List.sum_flatten, List.map_map]
  congr 1
  apply List.map_congr_left
  intro e he
  have hexchange : backslashes e.exchange.toList = 0 := by
    have hplain := Registry.plain_exchange he
    rw [backslashes, hplain.escape]
    exact List.count_eq_zero_of_not_mem (hplain.not_mem (by decide))
  have hsample : ∀ n ∈ (samples e).map (fun x ↦ x.series.backslashes),
      n = backslashes e.symbol.toList := by
    intro n hn
    simp only [samples, List.map_map, List.mem_map, Function.comp_apply] at hn
    obtain ⟨f, -, rfl⟩ := hn
    rw [backslashes_series, hexchange, Nat.zero_add]
  rw [Function.comp_apply, List.eq_replicate_of_mem hsample, List.sum_replicate, List.length_map,
    samples, List.length_map, smul_eq_mul]

theorem plain_of_readsBack (h : ReadsBack r) : ∀ e ∈ r.entries, Plain e.symbol.toList := by
  obtain ⟨read, hread, hperm, -⟩ := h
  have hle := parse_backslashes hread
  rw [(hperm.map _).sum_eq, sum_backslashes, count_renderMetrics] at hle
  simp only [backslashes_eq, Nat.mul_add, List.sum_map_add] at hle
  have hzero := List.sum_eq_zero_iff_forall_eq_nat.mp (by omega :
    (r.entries.map fun e ↦ (figures e.health).length * e.symbol.toList.countP needsEscape).sum = 0)
  intro e he
  have hentry := hzero _ (List.mem_map_of_mem he)
  have hlength : (figures e.health).length ≠ 0 := by simp [figures]
  exact plain_iff_countP.mpr ((Nat.mul_eq_zero.mp hentry).resolve_left hlength)

/-- The page can be read back exactly when no symbol has a character to be escaped. -/
theorem readsBack_iff (r : Registry) :
    ReadsBack r ↔ ∀ e ∈ r.entries, Plain e.symbol.toList := by
  constructor
  · exact plain_of_readsBack
  · intro h
    exact ⟨_, parse_renderMetrics h, .refl _, nodup_series r⟩

/-- A venue's stream under a symbol of the operator's choice. -/
def oneStream (symbol : String) : Registry where
  entries := [⟨"bybit", symbol, ⟨0, 0, none, none, false⟩⟩]
  accepted := by
    have hbybit : (parseExchange "bybit").isSome := by decide +kernel
    simpa using hbybit
  distinct := List.nodup_singleton _

/-- The quote ends the label value early. -/
theorem quote_not_readsBack : ¬ ReadsBack (oneStream "BTC\"USDT") := by
  intro h
  have hplain := plain_of_readsBack h _ (List.mem_singleton_self _)
  exact absurd hplain (by decide)

/-! ## The map of a running service -/

variable {K : Type} [Field K] [LinearOrder K]

def entry (w : Spawned K) : StreamEntry := ⟨w.config.exchange, w.config.symbol, w.stream.health⟩

/-- The streams that an iteration over the map comes to. -/
def registered (s : Service K) : List ℕ :=
  (s.registry.items.zipIdx.filter fun p ↦ s.registry.index p.1.key = some p.2).map Prod.snd

theorem isSome_of_resolveStream {c : StreamConfig K} {r : Exchange × VpinEngineConfig K}
    (h : resolveStream c = .ok r) : (parseExchange c.exchange).isSome := by
  rw [(resolveStream_eq_ok.mp h).1]
  rfl

end Metrics

end Geiger
