import Geiger.Deployment.Shown
import Geiger.Service.Health

/-!
# A scrape of the running system

What a monitor reads from the metrics page over HTTP, against the trades that the workers
have taken from their adapters.  The page is written stream by stream, and the system goes
on between two of them.
-/

namespace Geiger.Deployment

open Runs

variable {K W : Type} [Field K] [LinearOrder K]

/-- The trades that the worker of the stream at `i` has taken from its channel. -/
def received (d : Deployment K) (i : ℕ) : List NormalizedTrade :=
  (d.feeds[i]?).elim [] fun f ↦ f.adapter.sent.take f.received

/-- `render_metrics` beside the system: the streams of the map that are still to be read, in
its order, and the entries read so far. -/
structure Scrape (K : Type) [Field K] [LinearOrder K] where
  system : Deployment K
  todo : List ℕ
  entries : List StreamEntry

namespace Scrape

inductive Event (K : Type) where
  | system (e : Deployment.Event K)
  /-- The health of the next stream is read. -/
  | read

/-- The map is iterated in this order. -/
def begin (d : Deployment K) (order : List ℕ) : Scrape K := ⟨d, order, []⟩

/-- What happens to the system during a scrape. -/
def around (es : List (Event K)) : List (Deployment.Event K) :=
  es.filterMap fun
    | .system e => some e
    | .read => none

omit [Field K] [LinearOrder K] in
@[simp] theorem around_append (es es' : List (Event K)) :
    around (es ++ es') = around es ++ around es' := List.filterMap_append

variable [FloorSemiring K]

/-- Each stream's lock is taken in turn.  That the map is locked all the while, so that no
stream is added, is not needed. -/
def step (world : World K W) (s : Scrape K) : Event K → Option (Scrape K)
  | .system e => (s.system.step world e).map fun system ↦ { s with system }
  | .read =>
    match s.todo with
    | [] => none
    | i :: rest => (s.system.service.registry.items[i]?).map fun w ↦
        { s with todo := rest, entries := s.entries ++ [Metrics.entry w] }

end Scrape

/-! ## What is read when -/

section Moments

variable [FloorSemiring K] {world : World K W} {d d' : Deployment K}

/-- The entry is that of the stream at `i` at some moment between `d` and `d'`. -/
def ReadAt (world : World K W) (d d' : Deployment K) (es : List (Event K)) (i : ℕ)
    (e : StreamEntry) : Prop :=
  ∃ es₁ es₂ d₁ w, es = es₁ ++ es₂ ∧ run (step world) d es₁ = some d₁ ∧
    run (step world) d₁ es₂ = some d' ∧ d₁.service.registry.items[i]? = some w ∧
    e = Metrics.entry w

theorem ReadAt.concat {es : List (Event K)} {i : ℕ} {x : StreamEntry}
    (h : ReadAt world d d' es i x) {e : Event K} {d'' : Deployment K}
    (hstep : d'.step world e = some d'') : ReadAt world d d'' (es ++ [e]) i x := by
  obtain ⟨es₁, es₂, d₁, w, rfl, hbefore, hafter, hw, hx⟩ := h
  exact ⟨es₁, es₂ ++ [e], d₁, w, List.append_assoc _ _ _, hbefore,
    run_append_eq_some.mpr ⟨d', hafter, run_cons_eq_some.mpr ⟨d'', hstep, rfl⟩⟩, hw, hx⟩

/-- The streams that are done have each been read at a moment of their own. -/
theorem readAt_run {order : List ℕ} {es : List (Scrape.Event K)} {s : Scrape K}
    (hrun : run (Scrape.step world) (.begin d order) es = some s) :
    run (step world) d (Scrape.around es) = some s.system ∧
    ∃ done, order = done ++ s.todo ∧
      List.Forall₂ (ReadAt world d s.system (Scrape.around es)) done s.entries := by
  refine @invariant_trace _ _ _ _ _ _ (fun es s ↦
    run (step world) d (Scrape.around es) = some s.system ∧ ∃ done, order = done ++ s.todo ∧
      List.Forall₂ (ReadAt world d s.system (Scrape.around es)) done s.entries) ?_
    ⟨rfl, [], rfl, .nil⟩ hrun
  rintro es s e s' - ⟨hsystem, done, horder, hread⟩ hstep
  rw [Scrape.around_append]
  cases e with
  | system e =>
      obtain ⟨d', hd', rfl⟩ := Option.map_eq_some_iff.mp hstep
      exact ⟨run_append_eq_some.mpr ⟨_, hsystem, run_cons_eq_some.mpr ⟨d', hd', rfl⟩⟩, done,
        horder, hread.imp fun _ _ h ↦ h.concat hd'⟩
  | read =>
      have hnone : Scrape.around (K := K) [.read] = [] := rfl
      rw [hnone, List.append_nil]
      simp only [Scrape.step] at hstep
      split at hstep
      · cases hstep
      · rename_i i rest htodo
        obtain ⟨w, hw, rfl⟩ := Option.map_eq_some_iff.mp hstep
        refine ⟨hsystem, done ++ [i], ?_, ?_⟩
        · rw [horder, htodo, List.append_assoc, List.singleton_append]
        · exact List.rel_append hread
            (.cons ⟨_, [], _, w, (List.append_nil _).symm, hsystem, rfl, hw, rfl⟩ .nil)

end Moments

/-! ## Streams on the page -/

section Registered

theorem mem_registered_iff {s : Service K} {i : ℕ} : i ∈ Metrics.registered s ↔
    ∃ w, s.registry.items[i]? = some w ∧ s.registry.index w.key = some i := by
  simp only [Metrics.registered, List.mem_map, List.mem_filter, List.mem_zipIdx_iff_getElem?,
    decide_eq_true_eq, Prod.exists]
  constructor
  · rintro ⟨w, i, ⟨hw, hindex⟩, rfl⟩
    exact ⟨w, hw, hindex⟩
  · rintro ⟨w, hw, hindex⟩
    exact ⟨w, i, ⟨hw, hindex⟩, rfl⟩

theorem nodup_registered (s : Service K) : (Metrics.registered s).Nodup := by
  apply List.Sublist.nodup (List.Sublist.map Prod.snd List.filter_sublist)
  rw [List.zipIdx_map_snd]
  exact List.nodup_range'

end Registered

section Steps

variable [FloorSemiring K] [IsStrictOrderedRing K] {world : World K W} {heartbeatInterval : ℕ}
  {heard : ℕ → List NormalizedTrade} {d d' : Deployment K}

omit [IsStrictOrderedRing K] in
/-- Once all configured streams are up, a key leads to its stream for good. -/
theorem index_of_step {e : Event K} (hstep : d.step world e = some d')
    (hserving : d.service.starting = []) : d'.service.starting = [] ∧
    ∀ k i, d.service.registry.index k = some i → d'.service.registry.index k = some i := by
  have hservice : ∀ {e : Service.Event K} {service : Service K},
      d.service.step world.libm world.readStreams e = some service →
      service.starting = [] ∧
        ∀ k i, d.service.registry.index k = some i → service.registry.index k = some i := by
    intro e service hstep
    refine ⟨List.eq_nil_iff_forall_not_mem.mpr fun r hr ↦ ?_, ?_⟩
    · have hmem := (Service.step_frame hstep).2 r hr
      rw [hserving] at hmem
      cases hmem
    · have hrun : run (Service.step world.libm world.readStreams) d.service [e] = some service :=
        run_cons_eq_some.mpr ⟨service, hstep, rfl⟩
      exact (Service.onlyAdds_of_run hserving hrun).kept
  cases e with
  | service e =>
      obtain ⟨-, hstep⟩ := Option.ite_none_right_eq_some.mp hstep
      obtain ⟨service, hserved, rfl⟩ := Option.map_eq_some_iff.mp hstep
      exact hservice hserved
  | adapter j e =>
      obtain ⟨w, f, adapter, -, -, -, -, rfl⟩ := adapterStep_eq_some hstep
      exact ⟨hserving, fun _ _ ↦ id⟩
  | receive j =>
      obtain ⟨f, t, w, stream, service, -, -, -, -, rfl, rfl⟩ := receive_eq_some hstep
      exact ⟨hserving, fun _ _ ↦ id⟩
  | subscriber j e =>
      obtain ⟨c, rfl, hstep⟩ | ⟨-, link, e', hstep⟩ := subscriberStep_cases hstep
      · obtain ⟨-, ⟨-, rfl⟩ | ⟨k, w, stream, service, -, -, -, hserved, -, rfl⟩⟩ :=
          served_eq_some hstep
        · exact ⟨hserving, fun _ _ ↦ id⟩
        · exact hservice hserved
      · obtain ⟨client, -, rfl⟩ := clientStep_eq_some hstep
        exact ⟨hserving, fun _ _ ↦ id⟩

omit [IsStrictOrderedRing K] in
theorem index_of_run (hserving : d.service.starting = []) {es : List (Event K)}
    (hrun : run (step world) d es = some d') : d'.service.starting = [] ∧
    ∀ k i, d.service.registry.index k = some i → d'.service.registry.index k = some i := by
  refine @invariant _ _ _ _ _ _ (fun b : Deployment K ↦ b.service.starting = [] ∧
    ∀ k i, d.service.registry.index k = some i → b.service.registry.index k = some i) ?_
    ⟨hserving, fun _ _ ↦ id⟩ hrun
  rintro b e b' ⟨hstarting, hindex⟩ hstep
  obtain ⟨hstarting', hkept⟩ := index_of_step hstep hstarting
  exact ⟨hstarting', fun k i h ↦ hkept k i (hindex k i h)⟩

/-- In a run a stream stays where it is and keeps what a step in any build keeps. -/
theorem Inv.kept_run (h : Inv world.libm heartbeatInterval heard d) {es : List (Event K)}
    (hrun : run (Deployment.step world) d es = some d') {i : ℕ} {w : Spawned K}
    (hw : d.service.registry.items[i]? = some w) :
    ∃ stream, d'.service.registry.items[i]? = some { w with stream } ∧
      Stream.Kept w.stream stream := by
  have hkept := @invariant _ _ _ _ _ _ (fun b : Deployment K ↦
    (∃ heard, Inv world.libm heartbeatInterval heard b) ∧
      ∃ stream, b.service.registry.items[i]? = some { w with stream } ∧
        Stream.Kept w.stream stream) ?_ ⟨⟨_, h⟩, w.stream, hw, .refl _⟩ hrun
  · exact hkept.2
  · rintro b e b' ⟨⟨heard, hb⟩, stream, hstream, hkept⟩ hstep
    obtain ⟨es', stream', hrun', hstream'⟩ := hb.follow hstep hstream
    obtain ⟨f, -, hfed⟩ := hb.exists_feed hstream
    exact ⟨⟨_, hb.step hstep⟩, stream', hstream',
      hkept.trans (Stream.kept_of_run hfed.taken.worker hrun')⟩

omit [IsStrictOrderedRing K] in
theorem Inv.hasTaken (h : Inv world.libm heartbeatInterval heard d) {i : ℕ} {w : Spawned K}
    (hw : d.service.registry.items[i]? = some w) :
    Stream.HasTaken world.libm (received d i) w.stream ∧ received d i <+: heard i := by
  obtain ⟨f, hf, hfed⟩ := h.exists_feed hw
  rw [received, hf]
  exact ⟨hfed.taken, (List.take_prefix _ _).trans hfed.sent⟩

end Steps

/-! ## The page -/

section Pages

variable [FloorSemiring K] [IsStrictOrderedRing K] {world : World K W} {d : Deployment K}
  {heartbeatInterval : ℕ} {heard : ℕ → List NormalizedTrade}

/-- The sample of a stream under this name. -/
def sample (w : Spawned K) (name : String) (n : ℕ) : Exposition.Sample :=
  ⟨Metrics.series (Metrics.entry w) name, .finite n, none⟩

omit [FloorSemiring K] [IsStrictOrderedRing K] in
theorem sample_mem {w : Spawned K} {name : String} {n : ℕ}
    (h : (name, n) ∈ Metrics.figures w.stream.health) :
    sample w name n ∈ Metrics.samples (Metrics.entry w) :=
  List.mem_map_of_mem (f := fun f : String × ℕ ↦
    (⟨Metrics.series (Metrics.entry w) f.1, .finite f.2, none⟩ : Exposition.Sample)) h

/-- A scrape that has read every stream of the map. -/
structure Scraped (world : World K W) (d : Deployment K) (es : List (Scrape.Event K))
    (s : Scrape K) : Prop where
  run : ∃ order, order.Perm (Metrics.registered d.service) ∧
    Runs.run (Scrape.step world) (.begin d order) es = some s
  done : s.todo = []

/-- The entries of the page are those of the registered streams, each at its moment. -/
theorem Scraped.entries {es : List (Scrape.Event K)} {s : Scrape K}
    (h : Scraped world d es s) (hinv : Inv world.libm heartbeatInterval heard d) :
    Runs.run (step world) d (Scrape.around es) = some s.system ∧
    ∃ order, order.Perm (Metrics.registered d.service) ∧ List.Forall₂ (fun i e ↦
      ∃ es₁ es₂ d₁ w stream, Scrape.around es = es₁ ++ es₂ ∧
        Runs.run (step world) d es₁ = some d₁ ∧ Runs.run (step world) d₁ es₂ = some s.system ∧
        d.service.registry.items[i]? = some w ∧ d.service.registry.index w.key = some i ∧
        d₁.service.registry.items[i]? = some { w with stream } ∧
        Stream.Kept w.stream stream ∧ e = Metrics.entry { w with stream }) order s.entries := by
  obtain ⟨order, horder, hrun⟩ := h.run
  obtain ⟨hsystem, done, hdone, hread⟩ := readAt_run hrun
  rw [h.done, List.append_nil] at hdone
  subst hdone
  have hmem : ∀ i ∈ order, i ∈ Metrics.registered d.service := fun i ↦ horder.mem_iff.mp
  refine ⟨hsystem, order, horder, ((List.forall₂_and_left _ _).mpr ⟨hmem, hread⟩).imp ?_⟩
  rintro i e ⟨hi, es₁, es₂, d₁, w₁, hsplit, hbefore, hafter, hw₁, rfl⟩
  obtain ⟨w, hw, hindex⟩ := mem_registered_iff.mp hi
  obtain ⟨stream, hw', hkept⟩ := hinv.kept_run hbefore hw
  obtain rfl := Option.some.inj (hw'.symm.trans hw₁)
  exact ⟨es₁, es₂, d₁, w, stream, hsplit, hbefore, hafter, hw, hindex, hw', hkept, rfl⟩

/-- The entries that a scrape has read make a page. -/
theorem Scraped.exists_page {es : List (Scrape.Event K)} {s : Scrape K}
    (h : Scraped world d es s) (hinv : Inv world.libm heartbeatInterval heard d) :
    ∃ page : Registry, page.entries = s.entries := by
  obtain ⟨-, order, horder, hentries⟩ := h.entries hinv
  have hnodup : order.Nodup := horder.nodup_iff.mpr (nodup_registered d.service)
  have haccepted : ∀ e ∈ s.entries, (parseExchange e.exchange).isSome := by
    intro e he
    obtain ⟨i, -, _, _, _, w, stream, -, -, -, hw, -, -, -, rfl⟩ :=
      Numbering.exists_of_mem_right hentries he
    exact Metrics.isSome_of_resolveStream (hinv.wired.wired w (List.mem_of_getElem? hw)).resolved
  have hkeys : ∀ {order : List ℕ} {entries : List StreamEntry}, order.Nodup →
      List.Forall₂ (fun i e ↦ d.service.registry.index e.key = some i) order entries →
      (entries.map StreamEntry.key).Nodup := by
    intro order entries hnodup hindex
    have hmap : order.map some =
        (entries.map StreamEntry.key).map d.service.registry.index := by
      induction hindex with
      | nil => rfl
      | cons hi _ ih =>
          rw [List.map_cons, List.map_cons, List.map_cons, hi, ih (List.nodup_cons.mp hnodup).2]
    exact List.Nodup.of_map _ (hmap ▸ hnodup.map (Option.some_injective _))
  refine ⟨⟨s.entries, haccepted, hkeys hnodup (hentries.imp ?_)⟩, rfl⟩
  rintro i e ⟨_, _, _, w, stream, -, -, -, -, hindex, -, -, rfl⟩
  exact hindex

/-- A scrape, read from the socket to the samples. -/
theorem Scraped.exists_read {es : List (Scrape.Event K)} {s : Scrape K}
    (h : Scraped world d es s) (hinv : Inv world.libm heartbeatInterval heard d)
    (hplain : ∀ w ∈ d.service.registry.items, Exposition.Plain w.config.symbol.toList)
    (showJson : Json → String) {request : String} (hpath : Health.path request = "/metrics") :
    ∃ (page : Registry) (response : Http.Response) (read : List Exposition.Sample),
      page.entries = s.entries ∧
      Http.read (Health.respond showJson page request).toList = some response ∧
      Exposition.parse response.body = some read ∧ (read.map Exposition.Sample.series).Nodup ∧
      ∀ x, x ∈ read ↔ ∃ e ∈ s.entries, x ∈ Metrics.samples e := by
  obtain ⟨-, order, -, hentries⟩ := h.entries hinv
  obtain ⟨page, hpage⟩ := h.exists_page hinv
  have hsymbols : ∀ e ∈ page.entries, Exposition.Plain e.symbol.toList := by
    intro e he
    rw [hpage] at he
    obtain ⟨i, -, _, _, _, w, stream, -, -, -, hw, -, -, -, rfl⟩ :=
      Numbering.exists_of_mem_right hentries he
    exact hplain w (List.mem_of_getElem? hw)
  have hroute : Health.route showJson page (Health.path request) =
      ("200 OK", "text/plain; version=0.0.4", Metrics.renderMetrics page) := by
    rw [hpath]
    rfl
  have hread := Health.read_respond showJson page request
  rw [hroute] at hread
  refine ⟨page, _, _, hpage, hread, Metrics.parse_renderMetrics hsymbols,
    Metrics.nodup_series page, fun x ↦ ?_⟩
  rw [List.mem_flatMap, hpage]

end Pages

/-! ## What the page says -/

section Figures

variable [FloorSemiring K] [IsStrictOrderedRing K] {world : World K W} {cfg : ServiceConfig K}
  {s₀ : Service K} {request : ℕ → SubscribeRequest} {headers : ℕ → Headers}
  {staleAfter : ℕ → ℕ} {es : List (Event K)} {d : Deployment K}

/-- The figures of a stream are the number of the trades `ts` that its worker has taken, the
time of the last of them, and the number of their batch readings, of which the last may not
be counted yet. -/
structure Tells (m : Libm K) (read : List Exposition.Sample) (w : Spawned K)
    (ts : List NormalizedTrade) : Prop where
  processed : sample w "geiger_trades_processed_total" ts.length ∈ read
  last : ∀ t, ts.getLast? = some t →
    sample w "geiger_last_trade_timestamp_ns" t.tsExchangeNs.toNat ∈ read
  emitted : ∃ n, sample w "geiger_readings_emitted_total" n ∈ read ∧
    n ≤ (Stream.batch m w.stream.engineCfg ts).length ∧
    (Stream.batch m w.stream.engineCfg ts).length ≤ n + 1

/-- A worker that has panicked has announced what came before the trade that it counted. -/
theorem emitted_of_hasTaken {m : Libm K} {w : Spawned K} {ts : List NormalizedTrade}
    (h : Stream.HasTaken m ts w.stream)
    (hresolved : resolveStream w.config = .ok (w.exchange, w.stream.engineCfg)) :
    w.stream.health.readingsEmitted ≤ (Stream.batch m w.stream.engineCfg ts).length ∧
      (Stream.batch m w.stream.engineCfg ts).length ≤ w.stream.health.readingsEmitted + 1 := by
  obtain ⟨pushed, hfollows, htaken⟩ := h.follows
  have hemitted := h.counted.emitted
  rw [hfollows.announced, List.length_map] at hemitted
  rcases htaken with rfl | ⟨hpanicked, ⟨rest, rfl⟩, hlength⟩
  · have hone := Stream.publishing_le_one w.stream.worker
    omega
  · have hnone : Stream.publishing w.stream.worker = 0 := by rw [hpanicked]; rfl
    rw [List.length_append] at hlength
    rcases rest with _ | ⟨t, _ | ⟨t', rest⟩⟩
    · rw [List.append_nil]
      omega
    · obtain ⟨e₀, hnew, -⟩ := Stream.new_of_resolveStream hresolved
      obtain ⟨reading, hbatch⟩ := Stream.exists_batch_concat hnew m pushed t
      have hone : reading.toList.length ≤ 1 := by cases reading <;> simp
      rw [hbatch, List.length_append]
      omega
    · simp only [List.length_cons] at hlength
      omega

theorem tells_of_hasTaken {m : Libm K} {w : Spawned K} {ts : List NormalizedTrade}
    {read : List Exposition.Sample} (h : Stream.HasTaken m ts w.stream)
    (hresolved : resolveStream w.config = .ok (w.exchange, w.stream.engineCfg))
    (hread : ∀ x ∈ Metrics.samples (Metrics.entry w), x ∈ read) : Tells m read w ts := by
  refine ⟨?_, fun t ht ↦ ?_, w.stream.health.readingsEmitted, ?_,
    emitted_of_hasTaken h hresolved⟩
  · refine hread _ (sample_mem ?_)
    rw [← h.counted.processed]
    simp [Metrics.figures]
  · refine hread _ (sample_mem ?_)
    have hlast := h.counted.last
    rw [ht] at hlast
    simp [Metrics.figures, hlast]
  · exact hread _ (sample_mem (by simp [Metrics.figures]))

/-- The names of the metrics that are declared as counters. -/
def counters : List String := (Metrics.metrics.filter fun m ↦ m.2.1 = "counter").map Prod.fst

omit [Field K] [LinearOrder K] [FloorSemiring K] [IsStrictOrderedRing K] in
theorem counter_cases {h : StreamHealth} {f : String × ℕ} (hf : f ∈ Metrics.figures h)
    (hname : f.1 ∈ counters) :
    f = ("geiger_trades_processed_total", h.tradesProcessed) ∨
      f = ("geiger_readings_emitted_total", h.readingsEmitted) := by
  have hcounters :
      counters = ["geiger_trades_processed_total", "geiger_readings_emitted_total"] := by
    decide +kernel
  rw [hcounters] at hname
  unfold Metrics.figures at hf
  cases htrade : h.lastTradeTsNs <;> cases hheartbeat : h.lastHeartbeatTsNs <;>
    simp only [htrade, hheartbeat, Option.map_none, Option.map_some, Option.toList_none,
      Option.toList_some, List.append_nil, List.cons_append, List.nil_append, List.mem_cons,
      List.not_mem_nil, or_false] at hf <;>
    rcases hf with rfl | rfl | rfl | rfl | rfl <;> simp at hname ⊢

/-- Between two scrapes of a serving system no counter disappears, and none goes down,
however long each of the two takes. -/
theorem counters_never_decrease (hstart : Service.start cfg = .ok s₀)
    (hrun : run (step world) (deploy s₀ request headers staleAfter) es = some d)
    (hserving : d.service.starting = []) {es₁ : List (Scrape.Event K)} {s : Scrape K}
    (hscraped : Scraped world d es₁ s) {es' : List (Event K)} {d' : Deployment K}
    (hrun' : run (step world) s.system es' = some d') {es₂ : List (Scrape.Event K)}
    {s' : Scrape K} (hscraped' : Scraped world d' es₂ s')
    (hplain : ∀ w ∈ d'.service.registry.items, Exposition.Plain w.config.symbol.toList)
    (showJson : Json → String) {get get' : String} (hpath : Health.path get = "/metrics")
    (hpath' : Health.path get' = "/metrics") :
    ∃ (page page' : Registry) (response response' : Http.Response)
      (read read' : List Exposition.Sample),
      page.entries = s.entries ∧ page'.entries = s'.entries ∧
      Http.read (Health.respond showJson page get).toList = some response ∧
      Exposition.parse response.body = some read ∧
      Http.read (Health.respond showJson page' get').toList = some response' ∧
      Exposition.parse response'.body = some read' ∧
      ∀ x ∈ read, x.series.name ∈ counters.map String.toList →
        ∃ x' ∈ read', x'.series = x.series ∧
          ∃ n n' : ℕ, x.value = .finite n ∧ x'.value = .finite n' ∧ n ≤ n' := by
  have hinv := inv_run hstart hrun
  obtain ⟨haround, order, -, hentries⟩ := hscraped.entries hinv
  have hbetween : run (step world) d (Scrape.around es₁ ++ es') = some d' :=
    run_append_eq_some.mpr ⟨s.system, haround, hrun'⟩
  have hinv' := inv_run hstart (run_append_eq_some.mpr ⟨d, hrun, hbetween⟩)
  obtain ⟨-, order', horder', hentries'⟩ := hscraped'.entries hinv'
  have hkept : ∀ w ∈ d.service.registry.items, Exposition.Plain w.config.symbol.toList := by
    intro w hw
    obtain ⟨i, hw⟩ := List.getElem?_of_mem hw
    obtain ⟨stream, hw', -⟩ := hinv.kept_run hbetween hw
    exact hplain { w with stream } (List.mem_of_getElem? hw')
  obtain ⟨page, response, read, hpage, hresponse, hread, -, hmem⟩ :=
    hscraped.exists_read hinv hkept showJson hpath
  obtain ⟨page', response', read', hpage', hresponse', hread', -, hmem'⟩ :=
    hscraped'.exists_read hinv' hplain showJson hpath'
  refine ⟨page, page', response, response', read, read', hpage, hpage', hresponse, hread,
    hresponse', hread', fun x hx hname ↦ ?_⟩
  obtain ⟨e, he, hx⟩ := (hmem x).mp hx
  obtain ⟨i, -, esb, esa, d₁, w, stream, -, hbefore, hafter, hw, hindex, hstream, -, rfl⟩ :=
    Numbering.exists_of_mem_right hentries he
  -- from the moment at which the stream was read to the second scrape
  have hinv₁ := inv_run hstart (run_append_eq_some.mpr ⟨d, hrun, hbefore⟩)
  obtain ⟨stream', hstream', hlater⟩ :=
    hinv₁.kept_run (run_append_eq_some.mpr ⟨s.system, hafter, hrun'⟩) hstream
  have hindex' := (index_of_run hserving hbetween).2 _ i hindex
  have hi : i ∈ order' :=
    horder'.mem_iff.mpr (mem_registered_iff.mpr ⟨_, hstream', hindex'⟩)
  obtain ⟨e', he', _, _, d₂, w', stream'', -, -, -, hw', -, -, hlast, rfl⟩ :=
    Numbering.exists_of_mem_left hentries' hi
  obtain rfl := Option.some.inj (hw'.symm.trans hstream')
  have hgrown : Stream.Kept stream stream'' := hlater.trans hlast
  obtain ⟨f, hf, rfl⟩ := List.mem_map.mp hx
  have hfound : ∀ {name : String} {n : ℕ}, (name, n) ∈ Metrics.figures stream''.health →
      sample w name n ∈ read' := by
    intro name n hfigure
    have hsample : sample w name n ∈
        Metrics.samples (Metrics.entry { w with stream := stream'' }) :=
      @sample_mem _ _ _ { w with stream := stream'' } _ _ hfigure
    exact (hmem' _).mpr ⟨_, he', hsample⟩
  have hcounter : f.1 ∈ counters := by
    obtain ⟨name, hname, heq⟩ := List.mem_map.mp hname
    rwa [← String.toList_injective heq]
  rcases counter_cases hf hcounter with rfl | rfl
  · have hfigure : ("geiger_trades_processed_total", stream''.health.tradesProcessed) ∈
        Metrics.figures stream''.health := by simp [Metrics.figures]
    exact ⟨_, hfound hfigure, rfl, stream.health.tradesProcessed, _, rfl, rfl, hgrown.processed⟩
  · have hfigure : ("geiger_readings_emitted_total", stream''.health.readingsEmitted) ∈
        Metrics.figures stream''.health := by simp [Metrics.figures]
    exact ⟨_, hfound hfigure, rfl, stream.health.readingsEmitted, _, rfl, rfl, hgrown.emitted⟩

end Figures

/-! ## A scrape before and after three trades -/

def getMetrics : String := "GET /metrics HTTP/1.1\r\nHost: 127.0.0.1:9701\r\n\r\n"

theorem path_getMetrics : Health.path getMetrics = "/metrics" := by
  decide +kernel

/-- The stream of the test is up, and its worker waits. -/
def beforeTrades : List (Event ℚ) := threeTrades.take 11

def fromTrades : List (Event ℚ) := threeTrades.drop 11

/-- The symbols of the streams, where the map leads, and whether all of them are spawned. -/
def symbols (d : Deployment ℚ) : List String × List ℕ × Bool :=
  (d.service.registry.items.map fun w ↦ w.config.symbol, Metrics.registered d.service,
    d.service.starting.isEmpty)

theorem exists_of_symbols {d : Deployment ℚ} (h : symbols d = (["BTCUSDT"], [0], true)) :
    d.service.starting = [] ∧ Metrics.registered d.service = [0] ∧
      (∃ w, d.service.registry.items[0]? = some w ∧ d.service.registry.index w.key = some 0) ∧
      ∀ w ∈ d.service.registry.items, Exposition.Plain w.config.symbol.toList := by
  obtain ⟨hsymbols, h⟩ := Prod.mk.inj h
  obtain ⟨hregistered, hstarting⟩ := Prod.mk.inj h
  refine ⟨List.isEmpty_iff.mp hstarting, hregistered,
    mem_registered_iff.mp (hregistered ▸ List.mem_cons_self), fun w hw ↦ ?_⟩
  have hmem := List.mem_map_of_mem (f := fun w : Spawned ℚ ↦ w.config.symbol) hw
  rw [hsymbols, List.mem_singleton] at hmem
  rw [hmem]
  decide

/-- The only stream is read, with nothing happening meanwhile. -/
theorem exists_scraped (world : World ℚ W) {d : Deployment ℚ}
    (h : symbols d = (["BTCUSDT"], [0], true)) :
    ∃ s, Scraped world d [.read] s ∧ s.system = d := by
  obtain ⟨-, hregistered, ⟨w, hw, -⟩, -⟩ := exists_of_symbols h
  refine ⟨⟨d, [], [Metrics.entry w]⟩, ⟨⟨[0], .of_eq hregistered.symm, ?_⟩, rfl⟩, rfl⟩
  simp [run, Scrape.step, Scrape.begin, hw]

theorem exists_threeTrades : ∃ s₀ d d', Service.start unitService = .ok s₀ ∧
    run (step unitWorld) (deploy s₀ (fun _ ↦ ⟨"bybit", "btcusdt"⟩) (fun _ ↦ ⟨[]⟩) fun _ ↦ 10)
      beforeTrades = some d ∧ symbols d = (["BTCUSDT"], [0], true) ∧
    run (step unitWorld) d fromTrades = some d' ∧ symbols d' = (["BTCUSDT"], [0], true) ∧
    (received d' 0).length = 3 := by
  have hrun : ((Service.start unitService).toOption.bind fun s₀ ↦ (run (step unitWorld)
      (deploy s₀ (fun _ ↦ ⟨"bybit", "btcusdt"⟩) (fun _ ↦ ⟨[]⟩) fun _ ↦ 10) beforeTrades).bind
        fun d ↦ (run (step unitWorld) d fromTrades).map fun d' ↦
          (symbols d, symbols d', (received d' 0).length)) =
      some ((["BTCUSDT"], [0], true), (["BTCUSDT"], [0], true), 3) := by decide +kernel
  obtain ⟨s₀, hstart, hrun⟩ := Option.bind_eq_some_iff.mp hrun
  obtain ⟨d, hd, hrun⟩ := Option.bind_eq_some_iff.mp hrun
  obtain ⟨d', hd', heq⟩ := Option.map_eq_some_iff.mp hrun
  obtain ⟨hsymbols, heq⟩ := Prod.mk.inj heq
  obtain ⟨hsymbols', hlength⟩ := Prod.mk.inj heq
  exact ⟨s₀, d, d', Fallible.ok_of_toOption hstart, hd, hsymbols, hd', hsymbols', hlength⟩

theorem counters_never_decrease_threeTrades :
    ∃ (page page' : Registry) (read read' : List Exposition.Sample),
      (∃ response, Http.read (Health.respond (fun _ ↦ "null") page getMetrics).toList =
        some response ∧ Exposition.parse response.body = some read) ∧
      (∃ response, Http.read (Health.respond (fun _ ↦ "null") page' getMetrics).toList =
        some response ∧ Exposition.parse response.body = some read') ∧
      ∀ x ∈ read, x.series.name ∈ counters.map String.toList →
        ∃ x' ∈ read', x'.series = x.series ∧
          ∃ n n' : ℕ, x.value = .finite n ∧ x'.value = .finite n' ∧ n ≤ n' := by
  obtain ⟨s₀, d, d', hstart, hbefore, hsymbols, hfrom, hsymbols', -⟩ := exists_threeTrades
  obtain ⟨s, hscraped, hsystem⟩ := exists_scraped unitWorld hsymbols
  obtain ⟨s', hscraped', -⟩ := exists_scraped unitWorld hsymbols'
  rw [← hsystem] at hfrom
  obtain ⟨page, page', response, response', read, read', -, -, hresponse, hread, hresponse',
    hread', hkept⟩ := counters_never_decrease hstart hbefore (exists_of_symbols hsymbols).1
      hscraped hfrom hscraped' (exists_of_symbols hsymbols').2.2.2 (fun _ ↦ "null")
      path_getMetrics path_getMetrics
  exact ⟨page, page', read, read', ⟨response, hresponse, hread⟩, ⟨response', hresponse', hread'⟩,
    hkept⟩

end Geiger.Deployment
