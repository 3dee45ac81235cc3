import Geiger.Service.Accounting
import Geiger.Vpin.Refinement

/-!
# What a worker publishes

The engine inside a running worker has been fed exactly the trades that the worker has
taken, so the readings it announces are those of the batch definition, one for one.
-/

namespace Geiger

open Runs Fallible

variable {K : Type} [Field K] [LinearOrder K] [FloorSemiring K]

/-- One more trade after a tape that the engine has been fed. -/
theorem VpinEngine.pushTrade_of_feed {m : Libm K} {e e' e'' : VpinEngine K} {tape : List (Trade K)}
    {t : Trade K} {rs rs' : List (VpinReading K)} (h : feed m e tape = .ok (rs, e'))
    (h' : feed m e (tape ++ [t]) = .ok (rs', e'')) :
    ∃ reading, e'.pushTrade m t = .ok (reading, e'') ∧ rs' = rs ++ reading.toList := by
  induction tape generalizing e rs rs' with
  | nil =>
      obtain ⟨rfl, rfl⟩ := Prod.mk.inj (Except.ok.inj h)
      obtain ⟨⟨reading, e₁⟩, hpush, h'⟩ := ok_of_bind h'
      obtain ⟨rfl, rfl⟩ := Prod.mk.inj (Except.ok.inj h')
      exact ⟨reading, hpush, List.append_nil _⟩
  | cons t' tape ih =>
      obtain ⟨⟨reading₁, e₁⟩, hpush, h⟩ := ok_of_bind h
      obtain ⟨⟨rs₁, e₂⟩, hfeed, h⟩ := ok_of_bind h
      obtain ⟨rfl, rfl⟩ := Prod.mk.inj (Except.ok.inj h)
      obtain ⟨⟨reading₂, e₃⟩, hpush', h'⟩ := ok_of_bind h'
      obtain ⟨rfl, rfl⟩ := Prod.mk.inj (Except.ok.inj (hpush.symm.trans hpush'))
      obtain ⟨⟨rs₂, e₄⟩, hfeed', h'⟩ := ok_of_bind h'
      obtain ⟨rfl, rfl⟩ := Prod.mk.inj (Except.ok.inj h')
      obtain ⟨reading, hlast, rfl⟩ := ih hfeed hfeed'
      exact ⟨reading, hlast, (List.append_assoc _ _ _).symm⟩

namespace Stream

/-- The trades that the worker takes in these events, in order. -/
def taken (es : List Event) : List NormalizedTrade :=
  es.filterMap fun
    | .trade t => some t
    | _ => none

/-- The readings of the batch definition for the trades `ts`. -/
def batch (m : Libm K) (cfg : VpinEngineConfig K) (ts : List NormalizedTrade) :
    List (VpinReading K) := Batch.readings m cfg (ts.map toTrade)

/-- A reading as the worker of a stream publishes it. -/
def messageOf (exchange symbol : String) (r : VpinReading K) : ServerMessage K :=
  .reading exchange symbol r.bucketId r.tsCloseNs r.tradesInBucket r.vpin r.vpinCdf

/-- Where the engine of a worker stands after the trades `ts`. -/
def Fed (m : Libm K) (cfg : VpinEngineConfig K) (ts : List NormalizedTrade) :
    WorkerState K → Prop
  | .starting => ts = []
  | .running engine _ => ∃ e₀, VpinEngine.new cfg = .ok e₀ ∧
      e₀.feed m (ts.map toTrade) = .ok (batch m cfg ts, engine)
  | .exited => True
  | .panicked => True

structure Follows (m : Libm K) (ts : List NormalizedTrade) (s : Stream K) : Prop where
  announced : readings s.announced = (batch m s.engineCfg ts).map (messageOf s.exchange s.symbol)
  fed : Fed m s.engineCfg ts s.worker
  pending : s.fanout.pending = sending s.worker

section Steps

variable {m : Libm K} {ts : List NormalizedTrade} {s s' : Stream K}

@[simp] theorem taken_append (es es' : List Event) : taken (es ++ es') = taken es ++ taken es' :=
  List.filterMap_append

theorem follows_new (m : Libm K) (exchange symbol : String) (cfg : VpinEngineConfig K)
    (interval capacity : ℕ) : Follows m [] (new exchange symbol cfg interval capacity) :=
  ⟨rfl, rfl, rfl⟩

theorem Follows.connStep (h : Follows m ts s) {e : Fanout.Event (ServerMessage K)}
    (hstore : ∀ msg, e ≠ .store msg) (hsend : e ≠ .send) (hstep : s.connStep e = some s') :
    Follows m ts s' := by
  obtain ⟨conns, rfl⟩ := conns_of_connStep hstore hsend hstep
  exact ⟨h.announced, h.fed, h.pending⟩

theorem Follows.proceed (h : Follows m ts s) (hstep : s.proceed = some s') :
    Follows m ts s' := by
  have hannounced := h.announced
  have hfed := h.fed
  obtain ⟨engine, msg, fanout, hworker, hfanout, rfl⟩ |
    ⟨engine, msg, fanout, hworker, hfanout, rfl⟩ | ⟨engine, msg, hworker, rfl⟩ :=
    proceed_eq_some hstep
  · rw [hworker] at hfed
    refine ⟨?_, hfed, ?_⟩
    · simpa [Stream.announced, hworker, Fanout.published_store hfanout] using hannounced
    · obtain ⟨-, rfl⟩ := Fanout.store_eq_some hfanout
      rfl
  · rw [hworker] at hfed
    refine ⟨?_, hfed, ?_⟩
    · simpa [Stream.announced, hworker, Fanout.published_send hfanout] using hannounced
    · obtain ⟨_, -, rfl⟩ := Fanout.send_eq_some hfanout
      rfl
  · rw [hworker] at hfed
    refine ⟨?_, hfed, ?_⟩
    · simpa [Stream.announced, hworker] using hannounced
    · exact h.pending.trans (by rw [hworker]; rfl)

theorem Follows.start (h : Follows m ts s) (hworker : s.worker = .starting) :
    Follows m ts s.startWorker := by
  have hannounced := h.announced
  have hfed := h.fed
  rw [hworker] at hfed
  obtain rfl : ts = [] := hfed
  have hsame : s.announced = s.fanout.published := by simp [Stream.announced, hworker]
  rw [hsame] at hannounced
  have hpending : s.fanout.pending = none := h.pending.trans (by rw [hworker]; rfl)
  unfold startWorker
  cases hnew : VpinEngine.new s.engineCfg with
  | error err => exact ⟨by simpa [Stream.announced] using hannounced, trivial, hpending⟩
  | ok engine =>
      simp only
      split
      · exact ⟨by simpa [Stream.announced] using hannounced, trivial, hpending⟩
      · exact ⟨by simpa [Stream.announced] using hannounced, ⟨engine, hnew, rfl⟩, hpending⟩

variable [IsStrictOrderedRing K]

/-- One more trade gives at most one more reading. -/
theorem exists_batch_concat {cfg : VpinEngineConfig K} {e₀ : VpinEngine K}
    (hnew : VpinEngine.new cfg = .ok e₀) (m : Libm K) (ts : List NormalizedTrade)
    (t : NormalizedTrade) :
    ∃ reading : Option (VpinReading K),
      batch m cfg (ts ++ [t]) = batch m cfg ts ++ reading.toList := by
  obtain ⟨engine, hfeed, -⟩ := Refinement.feed_eq_readings (m := m) hnew (ts.map toTrade)
  obtain ⟨engine', hfeed', -⟩ := Refinement.feed_eq_readings (m := m) hnew ((ts ++ [t]).map toTrade)
  rw [List.map_append, List.map_singleton] at hfeed'
  obtain ⟨reading, -, hreadings⟩ := VpinEngine.pushTrade_of_feed hfeed hfeed'
  refine ⟨reading, ?_⟩
  rw [batch, List.map_append, List.map_singleton]
  exact hreadings

/-- The engine of a running worker accepts the next trade, whatever it is, and answers as
the batch definition does. -/
theorem Follows.pushTrade (h : Follows m ts s) {engine : VpinEngine K}
    (hworker : s.worker = .running engine .select) (t : NormalizedTrade) :
    ∃ reading engine', engine.pushTrade m (toTrade t) = .ok (reading, engine') ∧
      batch m s.engineCfg (ts ++ [t]) = batch m s.engineCfg ts ++ reading.toList ∧
      ∃ e₀, VpinEngine.new s.engineCfg = .ok e₀ ∧
        e₀.feed m ((ts ++ [t]).map toTrade) = .ok (batch m s.engineCfg (ts ++ [t]), engine') := by
  have hfed := h.fed
  rw [hworker] at hfed
  obtain ⟨e₀, hnew, hfeed⟩ := hfed
  obtain ⟨engine', hfeed', -⟩ := Refinement.feed_eq_readings (m := m) hnew ((ts ++ [t]).map toTrade)
  have hbatch : Batch.readings m s.engineCfg ((ts ++ [t]).map toTrade) =
      batch m s.engineCfg (ts ++ [t]) := rfl
  rw [hbatch] at hfeed'
  obtain ⟨reading, hpush, hreadings⟩ := VpinEngine.pushTrade_of_feed hfeed
    (show _ = Except.ok (batch m s.engineCfg (ts ++ [t]), engine') by
      rw [← hfeed', List.map_append, List.map_singleton])
  exact ⟨reading, engine', hpush, hreadings, e₀, hnew, hfeed'⟩

/-- A trade takes the engine one trade further along the tape. -/
theorem Follows.onTrade (h : Follows m ts s) {engine : VpinEngine K}
    (hworker : s.worker = .running engine .select) (t : NormalizedTrade) :
    Follows m (ts ++ [t]) (s.onTrade m engine t) := by
  obtain ⟨reading, engine', hpush, hreadings, hfed⟩ := h.pushTrade hworker t
  have hannounced := h.announced
  rw [announced_of_select hworker] at hannounced
  have hpending : s.fanout.pending = none := h.pending.trans (by rw [hworker]; rfl)
  unfold Stream.onTrade
  rw [hpush]
  cases reading with
  | none =>
      refine ⟨?_, hfed, hpending⟩
      simpa [Stream.announced, hreadings] using hannounced
  | some r =>
      refine ⟨?_, hfed, hpending⟩
      rw [Stream.announced, readings_append, hannounced, hreadings]
      simp [readings, readingMessage, messageOf, ServerMessage.isReading, ServerMessage.bucketId?]

/-- One step, one case for each event. -/
theorem Follows.step (h : Follows m ts s) {e : Event} (hstep : s.step m e = some s') :
    Follows m (ts ++ taken [e]) s' := by
  cases e with
  | start =>
      obtain ⟨hworker, rfl⟩ := start_eq_some hstep
      rw [taken, List.filterMap_cons_none rfl, List.filterMap_nil, List.append_nil]
      exact h.start hworker
  | heartbeat tsNs =>
      obtain ⟨engine, hworker, rfl⟩ := heartbeat_eq_some hstep
      have hannounced := h.announced
      have hfed := h.fed
      rw [hworker] at hfed
      rw [announced_of_select hworker] at hannounced
      rw [taken, List.filterMap_cons_none rfl, List.filterMap_nil, List.append_nil]
      refine ⟨?_, hfed, h.pending.trans (by rw [hworker]; rfl)⟩
      rw [Stream.announced, readings_append, hannounced]
      exact List.append_nil _
  | trade t =>
      obtain ⟨engine, hworker, rfl⟩ := trade_eq_some hstep
      exact h.onTrade hworker t
  | closed =>
      obtain ⟨engine, hworker, rfl⟩ := closed_eq_some hstep
      have hannounced := h.announced
      rw [announced_of_select hworker] at hannounced
      rw [taken, List.filterMap_cons_none rfl, List.filterMap_nil, List.append_nil]
      exact ⟨by simpa [Stream.announced] using hannounced, trivial,
        h.pending.trans (by rw [hworker]; rfl)⟩
  | proceed =>
      rw [taken, List.filterMap_cons_none rfl, List.filterMap_nil, List.append_nil]
      exact h.proceed hstep
  | subscribe c | snapshot c | recv c =>
      rw [taken, List.filterMap_cons_none rfl, List.filterMap_nil, List.append_nil]
      exact h.connStep (by simp) (by simp) hstep

end Steps

/-- In every run the readings announced are the batch readings of the trades taken. -/
theorem follows_run [IsStrictOrderedRing K] {m : Libm K} {exchange symbol : String}
    {cfg : VpinEngineConfig K} {interval capacity : ℕ} {es : List Event} {s : Stream K}
    (hrun : run (step m) (new exchange symbol cfg interval capacity) es = some s) :
    Follows m (taken es) s :=
  @invariant_trace _ _ _ _ _ _ (fun es s ↦ Follows m (taken es) s)
    (fun es t e t' _ h hstep ↦ by rw [taken_append]; exact h.step hstep)
    (follows_new m exchange symbol cfg interval capacity) hrun

end Stream

end Geiger
