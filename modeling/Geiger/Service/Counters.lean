import Geiger.Service.Tape

/-!
# The counters of a worker

The figures of `StreamHealth` against the trades that the worker has taken and the
readings that it has announced.
-/

namespace Geiger.Stream

open Runs

variable {K : Type} [Field K] [LinearOrder K]

/-- The readings that are announced and not yet accounted for. -/
def publishing : WorkerState K → ℕ
  | .running _ (.store msg) | .running _ (.send msg) | .running _ (.account msg) =>
    (readings [msg]).length
  | _ => 0

/-- The figures of a stream whose worker has taken the trades `ts`. -/
structure Counted (ts : List NormalizedTrade) (s : Stream K) : Prop where
  processed : s.health.tradesProcessed = ts.length
  last : s.health.lastTradeTsNs = ts.getLast?.map NormalizedTrade.tsExchangeNs
  emitted : s.health.readingsEmitted + publishing s.worker = (readings s.announced).length

theorem publishing_le_one (w : WorkerState K) : publishing w ≤ 1 := by
  have hone : ∀ msg : ServerMessage K, (readings [msg]).length ≤ 1 :=
    fun msg ↦ List.length_filter_le _ _
  unfold publishing
  split <;> simp [hone]

theorem counted_new (exchange symbol : String) (cfg : VpinEngineConfig K)
    (interval capacity : ℕ) : Counted [] (new exchange symbol cfg interval capacity) :=
  ⟨rfl, rfl, rfl⟩

section Steps

variable {ts : List NormalizedTrade} {s s' : Stream K}

theorem Counted.connStep (h : Counted ts s) {e : Fanout.Event (ServerMessage K)}
    (hstore : ∀ msg, e ≠ .store msg) (hsend : e ≠ .send) (hstep : s.connStep e = some s') :
    Counted ts s' := by
  obtain ⟨conns, rfl⟩ := conns_of_connStep hstore hsend hstep
  exact ⟨h.processed, h.last, h.emitted⟩

/-- A publish is accounted for in its last step. -/
theorem Counted.proceed (h : Counted ts s) (hstep : s.proceed = some s') : Counted ts s' := by
  have hemitted := h.emitted
  obtain ⟨engine, msg, fanout, hworker, hfanout, rfl⟩ |
    ⟨engine, msg, fanout, hworker, hfanout, rfl⟩ | ⟨engine, msg, hworker, rfl⟩ :=
    proceed_eq_some hstep
  · refine ⟨h.processed, h.last, ?_⟩
    simpa [announced, publishing, hworker, Fanout.published_store hfanout] using hemitted
  · refine ⟨h.processed, h.last, ?_⟩
    simpa [announced, publishing, hworker, Fanout.published_send hfanout] using hemitted
  · rw [hworker] at hemitted
    have hsame : announced { s with
        health := s.health.account msg, worker := .running engine .select } = s.announced := by
      simp [announced, hworker]
    refine ⟨?_, ?_, ?_⟩
    · exact (by cases msg <;> rfl : _ = s.health.tradesProcessed).trans h.processed
    · exact (by cases msg <;> rfl : _ = s.health.lastTradeTsNs).trans h.last
    · rw [hsame, ← hemitted]
      cases msg <;> rfl

variable [FloorSemiring K] {m : Libm K}

theorem Counted.start (h : Counted ts s) (hworker : s.worker = .starting) :
    Counted ts s.startWorker := by
  have hemitted := h.emitted
  have hsame : s.announced = s.fanout.published := by simp [announced, hworker]
  rw [hworker, hsame] at hemitted
  unfold startWorker
  cases VpinEngine.new s.engineCfg with
  | error err => exact ⟨h.processed, h.last, by simpa [announced, publishing] using hemitted⟩
  | ok engine =>
      simp only
      split <;> exact ⟨h.processed, h.last, by simpa [announced, publishing] using hemitted⟩

/-- A trade is counted whatever the engine makes of it. -/
theorem Counted.onTrade (h : Counted ts s) {engine : VpinEngine K}
    (hworker : s.worker = .running engine .select) (t : NormalizedTrade) :
    Counted (ts ++ [t]) (s.onTrade m engine t) := by
  have hemitted := h.emitted
  rw [hworker, announced_of_select hworker] at hemitted
  have hprocessed : (s.health.countTrade t).tradesProcessed = (ts ++ [t]).length := by
    rw [List.length_append, ← h.processed]
    rfl
  have hlast : (s.health.countTrade t).lastTradeTsNs =
      (ts ++ [t]).getLast?.map NormalizedTrade.tsExchangeNs := by
    rw [List.getLast?_concat]
    rfl
  have hsame : (s.health.countTrade t).readingsEmitted = s.health.readingsEmitted := rfl
  unfold Stream.onTrade
  cases engine.pushTrade m (toTrade t) with
  | error fault =>
      exact ⟨hprocessed, hlast, by simpa [announced, publishing, hsame] using hemitted⟩
  | ok pushed =>
      obtain ⟨reading, engine'⟩ := pushed
      cases reading with
      | none => exact ⟨hprocessed, hlast, by simpa [announced, publishing, hsame] using hemitted⟩
      | some r =>
          refine ⟨hprocessed, hlast, ?_⟩
          rw [announced, readings_append, List.length_append, ← hemitted]
          rfl

/-- One step, one case for each event. -/
theorem Counted.step (h : Counted ts s) {e : Event} (hstep : s.step m e = some s') :
    Counted (ts ++ taken [e]) s' := by
  have hquiet : taken [e] = [] → Counted ts s' → Counted (ts ++ taken [e]) s' := by
    intro htaken hs'
    rwa [htaken, List.append_nil]
  cases e with
  | start =>
      obtain ⟨hworker, rfl⟩ := start_eq_some hstep
      exact hquiet rfl (h.start hworker)
  | heartbeat tsNs =>
      obtain ⟨engine, hworker, rfl⟩ := heartbeat_eq_some hstep
      have hemitted := h.emitted
      rw [hworker, announced_of_select hworker] at hemitted
      refine hquiet rfl ⟨h.processed, h.last, ?_⟩
      rw [announced, readings_append, List.length_append, ← hemitted]
      rfl
  | trade t =>
      obtain ⟨engine, hworker, rfl⟩ := trade_eq_some hstep
      exact h.onTrade hworker t
  | closed =>
      obtain ⟨engine, hworker, rfl⟩ := closed_eq_some hstep
      have hemitted := h.emitted
      rw [hworker, announced_of_select hworker] at hemitted
      exact hquiet rfl ⟨h.processed, h.last, by simpa [announced, publishing] using hemitted⟩
  | proceed => exact hquiet rfl (h.proceed hstep)
  | subscribe c | snapshot c | recv c => exact hquiet rfl (h.connStep (by simp) (by simp) hstep)

/-- The counters of the page never go down. -/
theorem counters_le_of_step {e : Event} (hstep : s.step m e = some s') :
    s.health.tradesProcessed ≤ s'.health.tradesProcessed ∧
      s.health.readingsEmitted ≤ s'.health.readingsEmitted := by
  cases e with
  | start =>
      obtain ⟨-, rfl⟩ := start_eq_some hstep
      unfold startWorker
      cases VpinEngine.new s.engineCfg with
      | error err => exact ⟨le_rfl, le_rfl⟩
      | ok engine =>
          simp only
          split <;> exact ⟨le_rfl, le_rfl⟩
  | heartbeat tsNs =>
      obtain ⟨engine, -, rfl⟩ := heartbeat_eq_some hstep
      exact ⟨le_rfl, le_rfl⟩
  | trade t =>
      obtain ⟨engine, -, rfl⟩ := trade_eq_some hstep
      unfold Stream.onTrade
      cases engine.pushTrade m (toTrade t) with
      | error fault => exact ⟨Nat.le_succ _, le_rfl⟩
      | ok pushed =>
          obtain ⟨reading, engine'⟩ := pushed
          cases reading <;> exact ⟨Nat.le_succ _, le_rfl⟩
  | closed =>
      obtain ⟨engine, -, rfl⟩ := closed_eq_some hstep
      exact ⟨le_rfl, le_rfl⟩
  | proceed =>
      obtain ⟨engine, msg, fanout, -, -, rfl⟩ | ⟨engine, msg, fanout, -, -, rfl⟩ |
        ⟨engine, msg, -, rfl⟩ := proceed_eq_some hstep
      · exact ⟨le_rfl, le_rfl⟩
      · exact ⟨le_rfl, le_rfl⟩
      · cases msg with
        | reading => exact ⟨le_rfl, Nat.le_succ _⟩
        | heartbeat | error => exact ⟨le_rfl, le_rfl⟩
  | subscribe c | snapshot c | recv c =>
      obtain ⟨fanout, -, rfl⟩ := connStep_eq_some hstep
      exact ⟨le_rfl, le_rfl⟩

end Steps

end Geiger.Stream
