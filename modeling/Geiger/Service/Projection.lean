import Geiger.Library.Projection
import Geiger.Service.HotReload
import Geiger.Service.Tape

/-!
# The streams do not interfere

In every run of the service each stream is in the state that it reaches alone, started
as its entry says and given the events that are meant for it.
-/

namespace Geiger

open Runs

variable {K : Type} [Field K] [LinearOrder K]

/-- A stream that was started for a valid entry, as the entry says. -/
structure Spawned.Wired (heartbeatInterval : ℕ) (w : Spawned K) : Prop where
  resolved : resolveStream w.config = .ok (w.exchange, w.stream.engineCfg)
  backoff : w.backoff = w.config.backoffConfig
  exchange : w.stream.exchange = w.config.exchange
  symbol : w.stream.symbol = w.config.symbol
  heartbeatInterval : w.stream.heartbeatInterval = heartbeatInterval

namespace Service

/-- What an event of the service is to the stream at `i`. -/
def toStream (i : ℕ) (s : Service K) : Event K → List Stream.Event
  | .stream j e => if j = i then [e] else []
  | .subscribe req c =>
    if s.registry.index (streamKey req.exchange req.symbol) = some i then [.subscribe c] else []
  | _ => []

structure WellWired (heartbeatInterval : ℕ) (s : Service K) : Prop where
  interval : s.heartbeatInterval = heartbeatInterval
  sound : Directory.Sound Spawned.key s.registry
  starting : ∀ r ∈ s.starting, resolveStream r.config = .ok (r.exchange, r.engineCfg)
  wired : ∀ w ∈ s.registry.items, Spawned.Wired heartbeatInterval w

/-- The stream that `spawn_stream` starts for an entry. -/
def spawned (heartbeatInterval : ℕ) (r : Resolved K) : Spawned K where
  exchange := r.exchange
  backoff := r.config.backoffConfig
  config := r.config
  stream := Stream.new r.config.exchange r.config.symbol r.engineCfg heartbeatInterval
    broadcastCapacity

theorem wired_spawned {r : Resolved K}
    (h : resolveStream r.config = .ok (r.exchange, r.engineCfg)) (heartbeatInterval : ℕ) :
    Spawned.Wired heartbeatInterval (spawned heartbeatInterval r) := ⟨h, rfl, rfl, rfl, rfl⟩

section Start

theorem resolveStream_of_mem {configs : List (StreamConfig K)} {resolved : List (Resolved K)}
    (h : resolveAll configs = .ok resolved) :
    ∀ r ∈ resolved, resolveStream r.config = .ok (r.exchange, r.engineCfg) := by
  have hall := forall₂_of_resolveAll h
  clear h
  induction hall with
  | nil => exact fun r hr ↦ nomatch hr
  | cons hc _ ih =>
      obtain ⟨hc, rfl⟩ := hc
      exact List.forall_mem_cons.mpr ⟨hc, ih⟩

theorem wellWired_of_start {cfg : ServiceConfig K} {s : Service K} (h : start cfg = .ok s) :
    WellWired cfg.heartbeatInterval s := by
  obtain ⟨hresolve, -, hregistry⟩ := start_eq_ok h
  refine ⟨?_, ?_, resolveStream_of_mem hresolve, ?_⟩
  · simp only [start, hresolve, Except.map, Except.ok.injEq] at h
    exact congrArg Service.heartbeatInterval h.symm
  · rw [hregistry]
    exact Directory.sound_empty
  · rw [hregistry]
    exact fun w hw ↦ nomatch hw

end Start

section Steps

variable [FloorSemiring K] {m : Libm K}
  {fromStr : String → Except String (List (StreamConfig K))} {s s' : Service K}
  {heartbeatInterval : ℕ}

theorem streamStep_eq {i : ℕ} {e : Stream.Event} (h : s.streamStep m i e = some s') :
    ∃ w stream, s.registry.items[i]? = some w ∧ w.stream.step m e = some stream ∧
      s' = { s with registry := s.registry.set i { w with stream } } := by
  obtain ⟨w, hw, h⟩ := Option.bind_eq_some_iff.mp h
  obtain ⟨stream, hstream, rfl⟩ := Option.map_eq_some_iff.mp h
  exact ⟨w, stream, hw, hstream, rfl⟩

/-- What a step does to the registry: a valid entry is spawned, or one stream takes the
step that it is told, or nothing happens. -/
inductive Moved (s s' : Service K) (m : Libm K) (e : Event K) : Prop where
  | spawned (r : Resolved K)
      (valid : resolveStream r.config = .ok (r.exchange, r.engineCfg))
      (registry : s'.registry =
        s.registry.insert r.config.key (spawned s.heartbeatInterval r))
      (quiet : ∀ i, toStream i s e = [])
  | stepped (j : ℕ) (w : Spawned K) (e' : Stream.Event) (stream : Stream K)
      (item : s.registry.items[j]? = some w) (step : w.stream.step m e' = some stream)
      (registry : s'.registry = s.registry.set j { w with stream })
      (told : ∀ i, toStream i s e = if j = i then [e'] else [])
  | idle (registry : s'.registry = s.registry) (quiet : ∀ i, toStream i s e = [])

theorem moved_of_visit {c : StreamConfig K} {rest : List (StreamConfig K)} :
    Moved s ({ s with reloading := rest }.visitStream c) m .visit := by
  unfold visitStream
  split
  · exact .idle rfl fun _ ↦ rfl
  · split
    · exact .idle rfl fun _ ↦ rfl
    · rename_i exchange engineCfg hresolve
      exact .spawned ⟨exchange, c, engineCfg⟩ hresolve rfl fun _ ↦ rfl

/-- One case for each event. -/
theorem WellWired.moved (h : WellWired heartbeatInterval s) {e : Event K}
    (hstep : s.step m fromStr e = some s') : Moved s s' m e := by
  cases e with
  | spawn =>
      obtain ⟨r, rest, hstarting, rfl⟩ := spawn_eq_some hstep
      exact .spawned r (h.starting r (hstarting ▸ List.mem_cons_self)) rfl fun _ ↦ rfl
  | reload raw =>
      obtain ⟨-, reloading, rfl⟩ := reload_eq_some hstep
      exact .idle rfl fun _ ↦ rfl
  | visit =>
      obtain ⟨c, rest, -, rfl⟩ := visit_eq_some hstep
      exact moved_of_visit
  | subscribe req c =>
      obtain ⟨-, hstep⟩ := Option.ite_none_right_eq_some.mp hstep
      unfold onSubscribe at hstep
      split at hstep
      · rename_i hindex
        obtain rfl := Option.some.inj hstep
        refine .idle rfl fun i ↦ ?_
        simp [toStream, hindex]
      · rename_i j hindex
        obtain ⟨w, stream, hw, hstream, rfl⟩ := streamStep_eq hstep
        refine .stepped j w _ stream hw hstream rfl fun i ↦ ?_
        simp [toStream, hindex]
  | stream j e =>
      have hstep : s.streamStep m j e = some s' := by
        cases e with
        | subscribe c => cases hstep
        | _ => exact hstep
      obtain ⟨w, stream, hw, hstream, rfl⟩ := streamStep_eq hstep
      exact .stepped j w e stream hw hstream rfl fun _ ↦ rfl

theorem step_frame {e : Event K} (h : s.step m fromStr e = some s') :
    s'.heartbeatInterval = s.heartbeatInterval ∧ ∀ r ∈ s'.starting, r ∈ s.starting := by
  rcases step_cases h with ⟨r, rest, hstarting, rfl⟩ | ⟨raw, reloading, -, -, rfl⟩ |
    ⟨c, rest, -, rfl⟩ | rfl | ⟨j, e', h⟩
  · refine ⟨rfl, fun r' hr' ↦ ?_⟩
    rw [hstarting]
    exact List.mem_cons_of_mem r hr'
  · exact ⟨rfl, fun _ ↦ id⟩
  · obtain ⟨hstarting, -, hinterval⟩ := visitStream_frame { s with reloading := rest } c
    exact ⟨hinterval, fun r hr ↦ by rwa [hstarting] at hr⟩
  · exact ⟨rfl, fun _ ↦ id⟩
  · obtain ⟨w, stream, -, rfl⟩ := streamStep_eq_some h
    exact ⟨rfl, fun _ ↦ id⟩

theorem Wired.streamStep {w : Spawned K} (h : Spawned.Wired heartbeatInterval w)
    {e : Stream.Event} {stream : Stream K} (hstep : w.stream.step m e = some stream) :
    Spawned.Wired heartbeatInterval { w with stream } := by
  have hsetup := Stream.setup_step hstep
  simp only [Stream.setup, Prod.mk.injEq] at hsetup
  obtain ⟨hexchange, hsymbol, hcfg, hinterval⟩ := hsetup
  exact ⟨by rw [hcfg]; exact h.resolved, h.backoff, hexchange.trans h.exchange,
    hsymbol.trans h.symbol, hinterval.trans h.heartbeatInterval⟩

theorem WellWired.step (h : WellWired heartbeatInterval s) {e : Event K}
    (hstep : s.step m fromStr e = some s') : WellWired heartbeatInterval s' := by
  obtain ⟨hinterval, hstarting⟩ := step_frame hstep
  refine ⟨hinterval.trans h.interval, ?_, fun r hr ↦ h.starting r (hstarting r hr), ?_⟩
  · cases h.moved hstep with
    | spawned r _ hregistry _ =>
        rw [hregistry]
        exact h.sound.insert (spawned s.heartbeatInterval r)
    | stepped j w e' stream hw _ hregistry _ =>
        rw [hregistry]
        exact h.sound.set hw rfl
    | idle hregistry _ =>
        rw [hregistry]
        exact h.sound
  · cases h.moved hstep with
    | spawned r hvalid hregistry _ =>
        rw [hregistry, ← h.interval]
        intro w hw
        rcases List.mem_append.mp hw with hold | hnew
        · rw [h.interval]
          exact h.wired w hold
        · obtain rfl := List.mem_singleton.mp hnew
          exact wired_spawned hvalid s.heartbeatInterval
    | stepped j w e' stream hw hstream hregistry _ =>
        rw [hregistry]
        intro w' hw'
        rcases List.mem_or_eq_of_mem_set hw' with hold | rfl
        · exact h.wired w' hold
        · exact Wired.streamStep (h.wired w (List.mem_of_getElem? hw)) hstream
    | idle hregistry _ =>
        rw [hregistry]
        exact h.wired

/-- The stream at `i` follows what it is told, and everything else of it stays. -/
theorem WellWired.follow (h : WellWired heartbeatInterval s) {e : Event K}
    (hstep : s.step m fromStr e = some s') {i : ℕ} {w : Spawned K}
    (hw : s.registry.items[i]? = some w) :
    ∃ stream, run (Stream.step m) w.stream (toStream i s e) = some stream ∧
      s'.registry.items[i]? = some { w with stream } := by
  cases h.moved hstep with
  | spawned r _ hregistry hquiet =>
      refine ⟨w.stream, by rw [hquiet i]; rfl, ?_⟩
      rw [hregistry]
      exact (List.getElem?_append_left (List.getElem?_eq_some_iff.mp hw).1).trans hw
  | stepped j w' e' stream hw' hstream hregistry htold =>
      rw [htold i, hregistry]
      split
      · rename_i hij
        subst hij
        obtain rfl := Option.some.inj (hw'.symm.trans hw)
        refine ⟨stream, run_cons_eq_some.mpr ⟨stream, hstream, rfl⟩, ?_⟩
        simp [Directory.set, (List.getElem?_eq_some_iff.mp hw).1]
      · rename_i hij
        exact ⟨w.stream, rfl, by simpa [Directory.set, hij] using hw⟩
  | idle hregistry hquiet =>
      exact ⟨w.stream, by rw [hquiet i]; rfl, by rw [hregistry]; exact hw⟩

/-- Before a stream exists nothing is meant for it, and it begins as it is spawned. -/
theorem WellWired.born (h : WellWired heartbeatInterval s) {e : Event K}
    (hstep : s.step m fromStr e = some s') {i : ℕ} (hnone : s.registry.items[i]? = none) :
    toStream i s e = [] ∧ ∀ w, s'.registry.items[i]? = some w →
      ∃ r, w = spawned heartbeatInterval r := by
  cases h.moved hstep with
  | spawned r _ hregistry hquiet =>
      refine ⟨hquiet i, fun w hw ↦ ⟨r, ?_⟩⟩
      rw [hregistry] at hw
      have hlen := List.getElem?_eq_none_iff.mp hnone
      have hw : [spawned s.heartbeatInterval r][i - s.registry.items.length]? = some w := by
        rw [← List.getElem?_append_right hlen]
        exact hw
      rw [← h.interval]
      exact (List.mem_singleton.mp (List.mem_of_getElem? hw))
  | stepped j w' e' stream hw' _ hregistry htold =>
      have hij : j ≠ i := by
        rintro rfl
        rw [hw'] at hnone
        cases hnone
      refine ⟨by rw [htold i, if_neg hij], fun w hw ↦ ?_⟩
      rw [hregistry] at hw
      have : s.registry.items[i]? = some w := by simpa [Directory.set, hij] using hw
      rw [hnone] at this
      cases this
  | idle hregistry hquiet =>
      refine ⟨hquiet i, fun w hw ↦ ?_⟩
      rw [hregistry, hnone] at hw
      cases hw

theorem WellWired.run (h : WellWired heartbeatInterval s) {es : List (Event K)}
    (hrun : Runs.run (Service.step m fromStr) s es = some s') : WellWired heartbeatInterval s' :=
  invariant (fun _ _ _ h hstep ↦ WellWired.step h hstep) h hrun

end Steps

end Service

/-! ## One stream alone -/

/-- A connection that is not idle has subscribed. -/
theorem Fanout.subscribe_mem_of_run {α : Type*} {capacity : ℕ} {es : List (Event α)}
    {s : Fanout α} (hrun : run step (new capacity) es = some s) {c : ℕ}
    (hphase : (s.conns c).phase ≠ .idle) : .subscribe c ∈ es := by
  have hpreserved : ∀ es (s : Fanout α) e s', run step (new capacity) es = some s →
      ((s.conns c).phase ≠ .idle → .subscribe c ∈ es) → s.step e = some s' →
      (s'.conns c).phase ≠ .idle → .subscribe c ∈ es ++ [e] := by
    intro es s e s' _ h hstep hphase'
    have hold : (s.conns c).phase ≠ .idle → .subscribe c ∈ es ++ [e] :=
      fun h' ↦ List.mem_append_left _ (h h')
    cases e with
    | store m =>
        obtain ⟨-, rfl⟩ := store_eq_some hstep
        exact hold hphase'
    | send =>
        obtain ⟨m, -, rfl⟩ := send_eq_some hstep
        exact hold hphase'
    | subscribe d =>
        by_cases hd : c = d
        · exact hd ▸ List.mem_append_right _ List.mem_cons_self
        · obtain ⟨-, rfl⟩ := subscribe_eq_some hstep
          exact hold (by rwa [setConn_conns_of_ne _ _ hd] at hphase')
    | snapshot d =>
        obtain ⟨hd, rfl⟩ := snapshot_eq_some hstep
        by_cases hcd : c = d
        · exact hold (by rw [hcd, hd]; decide)
        · exact hold (by rwa [setConn_conns_of_ne _ _ hcd] at hphase')
    | recv d =>
        obtain ⟨hd, r, -, rfl⟩ := recv_eq_some hstep
        by_cases hcd : c = d
        · exact hold (by rw [hcd, hd]; decide)
        · exact hold (by rwa [setConn_conns_of_ne _ _ hcd] at hphase')
  exact @invariant_trace _ _ _ _ _ _
    (fun es s ↦ (s.conns c).phase ≠ .idle → .subscribe c ∈ es) hpreserved
    (fun h ↦ absurd rfl h) hrun hphase

namespace Stream

variable [FloorSemiring K] {m : Libm K} {s s' : Stream K}

/-- The stream as it was created. -/
def origin (s : Stream K) : Stream K :=
  new s.exchange s.symbol s.engineCfg s.heartbeatInterval Service.broadcastCapacity

theorem setup_run {es : List Event} (hrun : run (step m) s es = some s') :
    s'.setup = s.setup := by
  have hpreserved : ∀ (t : Stream K) e t', t.setup = s.setup → step m t e = some t' →
      t'.setup = s.setup := fun t e t' h hstep ↦ (setup_step hstep).trans h
  have hsetup := invariant hpreserved rfl hrun
  exact hsetup

theorem origin_run {es : List Event} (hrun : run (step m) s es = some s') :
    s'.origin = s.origin := by
  have hsetup := setup_run hrun
  simp only [setup, Prod.mk.injEq] at hsetup
  obtain ⟨hexchange, hsymbol, hcfg, hinterval⟩ := hsetup
  simp only [origin, hexchange, hsymbol, hcfg, hinterval]

theorem readings_of_run [IsStrictOrderedRing K] {m : Libm K} {exchange symbol : String}
    {cfg : VpinEngineConfig K} {interval capacity : ℕ} {es : List Event} {s : Stream K}
    (hrun : run (step m) (new exchange symbol cfg interval capacity) es = some s) :
    readings s.announced = (batch m cfg (taken es)).map (messageOf exchange symbol) := by
  have hsetup := setup_run hrun
  simp only [setup, new, Prod.mk.injEq] at hsetup
  obtain ⟨hexchange, hsymbol, hcfg, -⟩ := hsetup
  rw [(follows_run hrun).announced, hexchange, hsymbol, hcfg]

/-- What an event of the stream is to its fan-out. -/
def toFanout (s : Stream K) : Event → List (Fanout.Event (ServerMessage K))
  | .proceed =>
    match s.worker with
    | .running _ (.store msg) => [.store msg]
    | .running _ (.send _) => [.send]
    | _ => []
  | .subscribe c => [.subscribe c]
  | .snapshot c => [.snapshot c]
  | .recv c => [.recv c]
  | _ => []

theorem run_toFanout {e : Event} (hstep : s.step m e = some s') :
    run Fanout.step s.fanout (s.toFanout e) = some s'.fanout := by
  have hone : ∀ {d : Fanout.Event (ServerMessage K)} {f : Fanout (ServerMessage K)},
      s.fanout.step d = some f → run Fanout.step s.fanout [d] = some f :=
    fun hd ↦ run_cons_eq_some.mpr ⟨_, hd, rfl⟩
  cases e with
  | start =>
      obtain ⟨-, rfl⟩ := start_eq_some hstep
      exact congrArg some (startWorker_fanout s).symm
  | heartbeat tsNs =>
      obtain ⟨engine, -, rfl⟩ := heartbeat_eq_some hstep
      rfl
  | trade t =>
      obtain ⟨engine, -, rfl⟩ := trade_eq_some hstep
      exact congrArg some (onTrade_fanout m s engine t).symm
  | closed =>
      obtain ⟨engine, -, rfl⟩ := closed_eq_some hstep
      rfl
  | proceed =>
      obtain ⟨_, _, fanout, hworker, hfanout, rfl⟩ | ⟨_, _, fanout, hworker, hfanout, rfl⟩ |
        ⟨_, _, hworker, rfl⟩ := proceed_eq_some hstep
      all_goals simp only [toFanout, hworker]
      · exact hone hfanout
      · exact hone hfanout
      · rfl
  | subscribe c | snapshot c | recv c =>
      obtain ⟨fanout, hfanout, rfl⟩ := connStep_eq_some hstep
      exact hone hfanout

theorem fanout_run {es : List Event} (hrun : run (step m) s es = some s') :
    run Fanout.step s.fanout (told (step m) toFanout s es) = some s'.fanout :=
  run_told (fun _ _ _ ↦ run_toFanout) hrun

/-- A connection that is not idle has subscribed. -/
theorem subscribe_mem_of_run {exchange symbol : String} {cfg : VpinEngineConfig K}
    {interval capacity : ℕ} {es : List Event}
    (hrun : run (step m) (new exchange symbol cfg interval capacity) es = some s) {c : ℕ}
    (hphase : (s.fanout.conns c).phase ≠ .idle) : .subscribe c ∈ es := by
  have hmem := Fanout.subscribe_mem_of_run (fanout_run hrun) hphase
  obtain ⟨es₁, e, es₂, u, rfl, -, hsay⟩ := exists_of_mem_told hmem
  have he : e = .subscribe c := by
    cases e with
    | proceed =>
        simp only [toFanout] at hsay
        split at hsay <;> simp at hsay
    | subscribe d => simpa [toFanout, eq_comm] using hsay
    | start | heartbeat _ | trade _ | closed | snapshot _ | recv _ => simp [toFanout] at hsay
  exact he ▸ List.mem_append_right _ List.mem_cons_self

end Stream

/-! ## All streams -/

namespace Service

section Runs

variable [FloorSemiring K]

/-- The events meant for the stream at `i`, in order. -/
def inbox (m : Libm K) (fromStr : String → Except String (List (StreamConfig K))) (i : ℕ) :
    Service K → List (Event K) → List Stream.Event :=
  told (step m fromStr) (toStream i)

variable {m : Libm K} {fromStr : String → Except String (List (StreamConfig K))}
  {s₀ s : Service K} {heartbeatInterval : ℕ}

/-- Along a run a stream keeps its place, its entry and its key, and follows its inbox. -/
theorem WellWired.follow_run (h : WellWired heartbeatInterval s₀) {es : List (Event K)}
    (hrun : Runs.run (Service.step m fromStr) s₀ es = some s) {i : ℕ} {w : Spawned K}
    (hw : s₀.registry.items[i]? = some w) :
    ∃ stream, Runs.run (Stream.step m) w.stream (inbox m fromStr i s₀ es) = some stream ∧
      s.registry.items[i]? = some { w with stream } := by
  induction es generalizing s₀ w with
  | nil =>
      obtain rfl := Option.some.inj hrun
      exact ⟨w.stream, rfl, hw⟩
  | cons e es ih =>
      obtain ⟨s', hs', hrun⟩ := run_cons_eq_some.mp hrun
      obtain ⟨stream, hstream, hw'⟩ := h.follow hs' hw
      obtain ⟨stream', hstream', hw''⟩ := ih (WellWired.step h hs') hrun hw'
      refine ⟨stream', ?_, hw''⟩
      rw [inbox, told, hs', Option.elim_some, run_append, hstream]
      exact hstream'

/-- The stream of a spawned entry takes a step. -/
def spawnedStep (m : Libm K) (w : Spawned K) (e : Stream.Event) : Option (Spawned K) :=
  (w.stream.step m e).map fun stream ↦ { w with stream }

theorem run_spawnedStep (w : Spawned K) (es : List Stream.Event) :
    run (spawnedStep m) w es =
      (run (Stream.step m) w.stream es).map fun stream ↦ { w with stream } := by
  induction es generalizing w with
  | nil => rfl
  | cons e es ih =>
      simp only [run, spawnedStep]
      cases w.stream.step m e with
      | none => rfl
      | some stream => exact ih { w with stream }

/-- A stream that appears in a run from an empty registry is where it gets alone. -/
theorem WellWired.alone (h : WellWired heartbeatInterval s₀) {i : ℕ}
    (hnone : s₀.registry.items[i]? = none) {es : List (Event K)}
    (hrun : Runs.run (Service.step m fromStr) s₀ es = some s) {w : Spawned K}
    (hw : s.registry.items[i]? = some w) :
    Runs.run (Stream.step m) w.stream.origin (inbox m fromStr i s₀ es) = some w.stream := by
  have halone := (@run_told_of_born _ _ _ _ (Service.step m fromStr) (spawnedStep m)
    (toStream i) s₀ s es (WellWired heartbeatInterval) (fun s ↦ s.registry.items[i]?)
    (fun w : Spawned K ↦ { w with stream := w.stream.origin })
    (fun _ _ _ h hstep ↦ WellWired.step h hstep) ?_ ?_ h hnone hrun).2 w hw
  · rw [run_spawnedStep] at halone
    obtain ⟨stream, hstream, heq⟩ := Option.map_eq_some_iff.mp halone
    rw [← heq] at hstream ⊢
    exact hstream
  · intro s e s' h hnone hstep
    obtain ⟨hquiet, hborn⟩ := h.born hstep hnone
    refine ⟨hquiet, fun w hw ↦ ?_⟩
    obtain ⟨r, rfl⟩ := hborn w hw
    rfl
  · intro s e s' w h hw hstep
    obtain ⟨stream, hrun, hw'⟩ := h.follow hstep hw
    refine ⟨{ w with stream }, hw', ?_, ?_⟩
    · rw [run_spawnedStep, hrun]
      rfl
    · rw [Stream.origin_run hrun]

/-- In every run of the service, each stream is in the state that it reaches alone when it
is started from its valid entry and given only the events meant for it, and a connection
to it was opened by a request for its key. -/
theorem streams_run_alone (m : Libm K)
    (fromStr : String → Except String (List (StreamConfig K))) {cfg : ServiceConfig K}
    {s₀ s : Service K} (hstart : start cfg = .ok s₀) {es : List (Event K)}
    (hrun : run (step m fromStr) s₀ es = some s) {i : ℕ} {w : Spawned K}
    (hw : s.registry.items[i]? = some w) :
    ∃ engineCfg, resolveStream w.config = .ok (w.exchange, engineCfg) ∧
      run (Stream.step m) (Stream.new w.config.exchange w.config.symbol engineCfg
        cfg.heartbeatInterval broadcastCapacity) (inbox m fromStr i s₀ es) = some w.stream ∧
      ∀ c, (w.stream.fanout.conns c).phase ≠ .idle →
        ∃ es₁ req es₂, es = es₁ ++ .subscribe req c :: es₂ ∧
          streamKey req.exchange req.symbol = w.key := by
  have hwell := wellWired_of_start hstart
  have hnone : s₀.registry.items[i]? = none := by
    rw [(start_eq_ok hstart).2.2]
    rfl
  have halone := hwell.alone hnone hrun hw
  have hwired := (hwell.run hrun).wired w (List.mem_of_getElem? hw)
  have horigin : w.stream.origin = Stream.new w.config.exchange w.config.symbol
      w.stream.engineCfg cfg.heartbeatInterval broadcastCapacity := by
    rw [Stream.origin, hwired.exchange, hwired.symbol, hwired.heartbeatInterval]
  rw [horigin] at halone
  refine ⟨w.stream.engineCfg, hwired.resolved, halone, fun c hphase ↦ ?_⟩
  have hmem := Stream.subscribe_mem_of_run halone hphase
  obtain ⟨es₁, e, es₂, u, rfl, hu, hsay⟩ := exists_of_mem_told hmem
  obtain ⟨v, hv, hrest⟩ := run_append_eq_some.mp hrun
  obtain rfl := Option.some.inj (hu.symm.trans hv)
  obtain ⟨u', hu', -⟩ := run_cons_eq_some.mp hrest
  cases e with
  | spawn | reload _ | visit => cases hsay
  | stream j e =>
      simp only [toStream] at hsay
      split at hsay
      · obtain rfl := List.mem_singleton.mp hsay
        cases hu'
      · cases hsay
  | subscribe req d =>
      simp only [toStream] at hsay
      split at hsay
      case isFalse => cases hsay
      case isTrue hindex =>
        obtain rfl := Stream.Event.subscribe.inj (List.mem_singleton.mp hsay)
        refine ⟨es₁, req, es₂, rfl, ?_⟩
        have hwell' := hwell.run hu
        have hkey := hwell'.sound.of_index _ _ hindex
        rw [List.getElem?_map] at hkey
        obtain ⟨w', hw', hkey⟩ := Option.map_eq_some_iff.mp hkey
        obtain ⟨stream, -, hkept⟩ := hwell'.follow_run hrest hw'
        obtain rfl := Option.some.inj (hkept.symm.trans hw)
        exact hkey.symm

end Runs

/-- A subscriber to the second of two streams, before its worker starts. -/
def earlySubscriber : List (Event ℚ) :=
  [.spawn, .spawn, .subscribe ⟨"Bybit", "btcusdt"⟩ 7, .stream 1 .start]

theorem streams_run_alone_earlySubscriber :
    ∃ s₀ s w, start twoVenues = .ok s₀ ∧
      run (step noLibm readStreams) s₀ earlySubscriber = some s ∧
      s.registry.items[1]? = some w ∧ (w.stream.fanout.conns 7).phase = .subscribed ∧
      ∃ engineCfg, run (Stream.step noLibm) (Stream.new w.config.exchange w.config.symbol engineCfg
        twoVenues.heartbeatInterval broadcastCapacity)
          (inbox noLibm readStreams 1 s₀ earlySubscriber) = some w.stream := by
  have hrun : ((start twoVenues).toOption.bind fun s₀ ↦
      (run (step noLibm readStreams) s₀ earlySubscriber).bind fun s ↦ s.registry.items[1]?).map
        (fun w ↦ (w.stream.fanout.conns 7).phase) = some .subscribed := by decide +kernel
  obtain ⟨w, hw, hphase⟩ := Option.map_eq_some_iff.mp hrun
  obtain ⟨s₀, hstart, hs⟩ := Option.bind_eq_some_iff.mp hw
  obtain ⟨s, hs, hw⟩ := Option.bind_eq_some_iff.mp hs
  have hok : start twoVenues = .ok s₀ := Fallible.ok_of_toOption hstart
  obtain ⟨engineCfg, -, halone, -⟩ := streams_run_alone noLibm readStreams hok hs hw
  exact ⟨s₀, s, w, hok, hs, hw, hphase, engineCfg, halone⟩

end Service

end Geiger
