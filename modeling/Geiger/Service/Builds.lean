import Geiger.Service.Counters
import Geiger.Service.Projection

/-!
# A worker in a given build

A panic of the engine ends the worker at the trade that it has just counted.  The entry and
its connections are not touched, so what was announced before stays as it was.
-/

namespace Geiger

open Runs

variable {K : Type} [Field K] [LinearOrder K]

namespace Stream

/-- The worker has counted the trade, and the engine has panicked on it. -/
def crash (s : Stream K) (t : NormalizedTrade) : Stream K :=
  { s with health := s.health.countTrade t, worker := .panicked }

@[simp] theorem crash_worker (s : Stream K) (t : NormalizedTrade) :
    (s.crash t).worker = .panicked := rfl

@[simp] theorem crash_fanout (s : Stream K) (t : NormalizedTrade) :
    (s.crash t).fanout = s.fanout := rfl

theorem announced_crash (s : Stream K) (t : NormalizedTrade) :
    (s.crash t).announced = s.fanout.published := by
  simp [announced]

variable [FloorSemiring K] {m : Libm K} {s s' : Stream K} {ts : List NormalizedTrade}

/-- What a stream whose worker has panicked can still do concerns its connections. -/
theorem panicked_step (h : s.worker = .panicked) {e : Event} (hstep : s.step m e = some s') :
    s'.worker = .panicked ∧ taken [e] = [] := by
  have hrunning : ∀ {engine : VpinEngine K} {await : Await K},
      s.worker ≠ .running engine await := by
    intro engine await hworker
    exact absurd (h.symm.trans hworker) (by simp)
  cases e with
  | start =>
      obtain ⟨hworker, -⟩ := start_eq_some hstep
      exact absurd (h.symm.trans hworker) (by simp)
  | heartbeat tsNs =>
      obtain ⟨engine, hworker, -⟩ := heartbeat_eq_some hstep
      exact absurd hworker hrunning
  | trade t =>
      obtain ⟨engine, hworker, -⟩ := trade_eq_some hstep
      exact absurd hworker hrunning
  | closed =>
      obtain ⟨engine, hworker, -⟩ := closed_eq_some hstep
      exact absurd hworker hrunning
  | proceed =>
      obtain ⟨_, _, _, hworker, -⟩ | ⟨_, _, _, hworker, -⟩ | ⟨_, _, hworker, -⟩ :=
        proceed_eq_some hstep
      all_goals exact absurd hworker hrunning
  | subscribe c | snapshot c | recv c =>
      obtain ⟨fanout, -, rfl⟩ := connStep_eq_some hstep
      exact ⟨h, rfl⟩

/-- Without a trade the build makes no difference. -/
theorem run_stepIn {build : Build} {es : List Event} (htaken : taken es = []) :
    run (stepIn build m) s es = run (step m) s es := by
  induction es generalizing s with
  | nil => rfl
  | cons e es ih =>
      have hsplit : taken [e] ++ taken es = [] := by
        rw [← taken_append]
        exact htaken
      have hne : ∀ t, e ≠ .trade t := by
        rintro t rfl
        cases hsplit
      have hes := (List.append_eq_nil_iff.mp hsplit).2
      simp only [run, Observed.stepIn_of_ne_trade hne, ih hes]

variable [IsStrictOrderedRing K] {build : Build}

/-- A trade that fits is pushed in this build as in any other. -/
theorem stepIn_of_fits (h : WorkerInv s) {engine : VpinEngine K}
    (hworker : s.worker = .running engine .select) {t : NormalizedTrade}
    (hfits : engine.Fits build (toTrade t)) :
    s.stepIn build m (.trade t) = s.step m (.trade t) := by
  simp only [WorkerInv, hworker] at h
  obtain ⟨reading, engine', hpush, -⟩ := h.2.1.pushTrade (m := m) (toTrade t)
  have hpushIn : engine.pushTradeIn build m (toTrade t) = .ok (reading, engine') := by
    rw [VpinEngine.pushTradeIn_of_fits h.2.1 hfits, hpush]
    rfl
  simp only [stepIn, step, hworker, onTradeIn, onTrade, hpushIn, hpush]
  cases reading <;> rfl

/-- A step is that of the exact engine, or the engine panics on a trade. -/
theorem stepIn_cases (h : WorkerInv s) {e : Event} (hstep : s.stepIn build m e = some s') :
    s.step m e = some s' ∨ ∃ engine t, e = .trade t ∧ s.worker = .running engine .select ∧
      s' = s.crash t := by
  by_cases htrade : ∃ t, e = .trade t
  · obtain ⟨t, rfl⟩ := htrade
    have hstep' := hstep
    simp only [stepIn] at hstep'
    split at hstep'
    case h_2 => cases hstep'
    case h_1 engine hworker =>
      obtain rfl := Option.some.inj hstep'
      by_cases hfits : engine.Fits build (toTrade t)
      · left
        rw [← stepIn_of_fits h hworker hfits]
        exact hstep
      · have huse := h
        simp only [WorkerInv, hworker] at huse
        obtain ⟨p, hpush⟩ := VpinEngine.pushTradeIn_of_not_fits (m := m) huse.2.1 hfits
        exact .inr ⟨engine, t, rfl, hworker, by simp only [onTradeIn, hpush, crash]⟩
  · left
    have hsame : s.stepIn build m e = s.step m e :=
      Observed.stepIn_of_ne_trade (not_exists.mp htrade)
    rw [← hsame]
    exact hstep

/-- What the worker has announced comes from the trades `ts`, or it has panicked and what it
had announced comes from a first part of them. -/
def FollowsIn (m : Libm K) (ts : List NormalizedTrade) (s : Stream K) : Prop :=
  ∃ pushed, Follows m pushed s ∧ (pushed = ts ∨ s.worker = .panicked ∧ pushed <+: ts ∧
    ts.length ≤ pushed.length + 1)

omit [IsStrictOrderedRing K] in
theorem FollowsIn.of_worker (h : FollowsIn m ts s) (hworker : s.worker ≠ .panicked) :
    Follows m ts s := by
  obtain ⟨pushed, hfollows, rfl | ⟨hpanicked, -⟩⟩ := h
  · exact hfollows
  · exact absurd hpanicked hworker

omit [IsStrictOrderedRing K] in
theorem Follows.crash (h : Follows m ts s) {engine : VpinEngine K}
    (hworker : s.worker = .running engine .select) (t : NormalizedTrade) :
    Follows m ts (s.crash t) := by
  have hannounced := h.announced
  rw [announced_of_select hworker] at hannounced
  refine ⟨?_, trivial, ?_⟩
  · rw [announced_crash]
    exact hannounced
  · exact h.pending.trans (by rw [hworker]; rfl)

theorem FollowsIn.step (h : FollowsIn m ts s) {e : Event} (hstep : s.step m e = some s') :
    FollowsIn m (ts ++ taken [e]) s' := by
  obtain ⟨pushed, hfollows, rfl | ⟨hpanicked, hprefix⟩⟩ := h
  · exact ⟨_, hfollows.step hstep, .inl rfl⟩
  · obtain ⟨hpanicked', htaken⟩ := panicked_step hpanicked hstep
    have hfollows' := hfollows.step hstep
    rw [htaken, List.append_nil] at hfollows' ⊢
    exact ⟨pushed, hfollows', .inr ⟨hpanicked', hprefix⟩⟩

omit [FloorSemiring K] [IsStrictOrderedRing K] in
theorem Counted.crash (h : Counted ts s) {engine : VpinEngine K}
    (hworker : s.worker = .running engine .select) (t : NormalizedTrade) :
    Counted (ts ++ [t]) (s.crash t) := by
  have hemitted := h.emitted
  rw [hworker, announced_of_select hworker] at hemitted
  refine ⟨?_, ?_, ?_⟩
  · rw [List.length_append, ← h.processed]
    rfl
  · rw [List.getLast?_concat]
    rfl
  · rw [announced_crash]
    exact hemitted

/-- The worker has taken the trades `ts`. -/
structure HasTaken (m : Libm K) (ts : List NormalizedTrade) (s : Stream K) : Prop where
  worker : WorkerInv s
  follows : FollowsIn m ts s
  counted : Counted ts s

omit [IsStrictOrderedRing K] in
theorem hasTaken_new (m : Libm K) {cfg : VpinEngineConfig K}
    (h : ∃ engine, VpinEngine.new cfg = .ok engine ∧ engine.InUse ∧ engine.ci = none)
    (exchange symbol : String) (interval capacity : ℕ) :
    HasTaken m [] (new exchange symbol cfg interval capacity) :=
  ⟨⟨rfl, h⟩, ⟨[], follows_new m _ _ _ _ _, .inl rfl⟩, counted_new _ _ _ _ _⟩

theorem HasTaken.step (h : HasTaken m ts s) {e : Event} (hstep : s.stepIn build m e = some s') :
    HasTaken m (ts ++ taken [e]) s' := by
  refine ⟨(h.worker.step hstep).1, ?_, ?_⟩
  · obtain hstep' | ⟨engine, t, rfl, hworker, rfl⟩ := stepIn_cases h.worker hstep
    · exact h.follows.step hstep'
    · have hfollows := h.follows.of_worker (by simp [hworker])
      refine ⟨ts, hfollows.crash hworker t, .inr ⟨rfl, List.prefix_append _ _, ?_⟩⟩
      rw [List.length_append]
      exact le_rfl
  · obtain hstep' | ⟨engine, t, rfl, hworker, rfl⟩ := stepIn_cases h.worker hstep
    · exact h.counted.step hstep'
    · exact h.counted.crash hworker t

theorem HasTaken.run (h : HasTaken m ts s) {es : List Event}
    (hrun : Runs.run (stepIn build m) s es = some s') : HasTaken m (ts ++ taken es) s' := by
  induction es generalizing s ts with
  | nil =>
      obtain rfl := Option.some.inj hrun
      exact (List.append_nil ts).symm ▸ h
  | cons e es ih =>
      obtain ⟨u, hu, hrun⟩ := run_cons_eq_some.mp hrun
      have hsplit : taken (e :: es) = taken [e] ++ taken es := taken_append [e] es
      rw [hsplit, ← List.append_assoc]
      exact ih (h.step hu) hrun

/-- What a run in a build keeps of a stream, whatever it does to its worker. -/
structure Kept (s s' : Stream K) : Prop where
  setup : s'.setup = s.setup
  fanout : ∃ es, Runs.run Fanout.step s.fanout es = some s'.fanout
  processed : s.health.tradesProcessed ≤ s'.health.tradesProcessed
  emitted : s.health.readingsEmitted ≤ s'.health.readingsEmitted

omit [FloorSemiring K] [IsStrictOrderedRing K] in
theorem Kept.refl (s : Stream K) : Kept s s := ⟨rfl, ⟨[], rfl⟩, le_rfl, le_rfl⟩

omit [FloorSemiring K] [IsStrictOrderedRing K] in
theorem Kept.trans {s'' : Stream K} (h : Kept s s') (h' : Kept s' s'') : Kept s s'' := by
  obtain ⟨es, hes⟩ := h.fanout
  obtain ⟨es', hes'⟩ := h'.fanout
  exact ⟨h'.setup.trans h.setup, ⟨es ++ es', run_append_eq_some.mpr ⟨_, hes, hes'⟩⟩,
    h.processed.trans h'.processed, h.emitted.trans h'.emitted⟩

theorem kept_of_step (h : WorkerInv s) {e : Event} (hstep : s.stepIn build m e = some s') :
    Kept s s' := by
  obtain hstep' | ⟨engine, t, rfl, -, rfl⟩ := stepIn_cases h hstep
  · obtain ⟨hprocessed, hemitted⟩ := counters_le_of_step hstep'
    exact ⟨setup_step hstep', ⟨_, run_toFanout hstep'⟩, hprocessed, hemitted⟩
  · exact ⟨rfl, ⟨[], rfl⟩, Nat.le_succ _, le_rfl⟩

theorem kept_of_run (h : WorkerInv s) {es : List Event}
    (hrun : Runs.run (stepIn build m) s es = some s') : Kept s s' := by
  have hpreserved : ∀ (t : Stream K) e t', WorkerInv t ∧ Kept s t → t.stepIn build m e = some t' →
      WorkerInv t' ∧ Kept s t' :=
    fun t e t' ht hstep ↦ ⟨(ht.1.step hstep).1, ht.2.trans (kept_of_step ht.1 hstep)⟩
  have hkept := @invariant _ _ _ _ _ _ (fun t ↦ WorkerInv t ∧ Kept s t) hpreserved
    ⟨h, .refl s⟩ hrun
  exact hkept.2

/-- A worker that has not panicked has announced the batch readings. -/
theorem readings_of_runIn {exchange symbol : String} {cfg : VpinEngineConfig K}
    (hvalid : cfg.Valid) (hci : cfg.confidenceInterval = none) {interval capacity : ℕ}
    {es : List Event}
    (hrun : Runs.run (stepIn build m) (new exchange symbol cfg interval capacity) es = some s)
    (hworker : s.worker ≠ .panicked) :
    readings s.announced = (batch m cfg (taken es)).map (messageOf exchange symbol) := by
  obtain ⟨engine, hnew⟩ := VpinEngine.new_of_valid hvalid
  have hfirst := hasTaken_new m ⟨engine, hnew, VpinEngine.inUse_of_new hnew hci⟩ exchange symbol
    interval capacity
  have hfollows := (hfirst.run hrun).follows.of_worker hworker
  have hsetup := (kept_of_run hfirst.worker hrun).setup
  simp only [setup, new, Prod.mk.injEq] at hsetup
  obtain ⟨hexchange, hsymbol, hcfg, -⟩ := hsetup
  rw [hfollows.announced, hexchange, hsymbol, hcfg]
  rfl

omit [IsStrictOrderedRing K] [FloorSemiring K] in
theorem WorkerInv.ne_panicked (h : WorkerInv s) (hflag : s.health.workerAlive = false) :
    s.worker ≠ .panicked := by
  intro hpanicked
  simp [WorkerInv, hpanicked, hflag] at h

theorem unitStream_ne_panicked {build : Build} {m : Libm ℚ} {es : List Event} {s : Stream ℚ}
    (hrun : Runs.run (stepIn build m) unitStream es = some s)
    (hflag : s.health.workerAlive = false) : s.worker ≠ .panicked := by
  obtain ⟨engine, hnew⟩ := VpinEngine.new_of_valid unitConfig_valid
  have hfirst := hasTaken_new m ⟨engine, hnew, VpinEngine.inUse_of_new hnew rfl⟩ "binance" "BTCUSDT"
    5000000000 256
  exact (hfirst.run hrun).worker.ne_panicked hflag

/-! ## The pushes of a worker -/

/-- What has come of the trades `ts` in an engine that stands at `e₀` before them. -/
def Pushed (build : Build) (m : Libm K) (e₀ : VpinEngine K) (ts : List NormalizedTrade) :
    WorkerState K → Prop
  | .starting => ts = []
  | .running engine _ => ∃ rs, e₀.feedIn build m (ts.map toTrade) = .ok (rs, engine)
  | .exited => ∃ out, e₀.feedIn build m (ts.map toTrade) = .ok out
  | .panicked => ∃ p, e₀.feedIn build m (ts.map toTrade) = .error p

variable {e₀ : VpinEngine K}

omit [IsStrictOrderedRing K] in
theorem Pushed.panicked_iff {worker : WorkerState K} (h : Pushed build m e₀ ts worker) :
    (∃ p, e₀.feedIn build m (ts.map toTrade) = .error p) ↔ worker = .panicked := by
  cases worker with
  | starting =>
      obtain rfl : ts = [] := h
      simp [VpinEngine.feedIn]
  | running engine await =>
      obtain ⟨rs, hfeed⟩ := h
      simp [hfeed]
  | exited =>
      obtain ⟨out, hfeed⟩ := h
      simp [hfeed]
  | panicked => exact iff_of_true h rfl

omit [IsStrictOrderedRing K] in
theorem Pushed.trade {engine : VpinEngine K} {await : Await K}
    (h : Pushed build m e₀ ts (.running engine await)) (t : NormalizedTrade) :
    Pushed build m e₀ (ts ++ [t]) (s.onTradeIn build m engine t).worker := by
  obtain ⟨rs, hfeed⟩ := h
  have hmore := VpinEngine.feedIn_concat hfeed (toTrade t)
  rw [← List.map_singleton, ← List.map_append] at hmore
  unfold onTradeIn
  cases hpush : engine.pushTradeIn build m (toTrade t) with
  | error p =>
      rw [hpush] at hmore
      exact ⟨p, hmore⟩
  | ok r =>
      rw [hpush] at hmore
      obtain ⟨out, engine'⟩ := r
      cases out with
      | none => exact ⟨_, hmore⟩
      | some reading => exact ⟨_, hmore⟩

omit [IsStrictOrderedRing K] in
theorem Pushed.step (h : Pushed build m e₀ ts s.worker)
    (hnew : VpinEngine.new s.engineCfg = .ok e₀) (hinterval : s.heartbeatInterval ≠ 0) {e : Event}
    (hstep : s.stepIn build m e = some s') : Pushed build m e₀ (ts ++ taken [e]) s'.worker := by
  cases e with
  | start =>
      obtain ⟨hworker, rfl⟩ := start_eq_some (m := m) hstep
      rw [hworker] at h
      obtain rfl : ts = [] := h
      simp only [startWorker, hnew, if_neg hinterval]
      exact ⟨[], rfl⟩
  | trade t =>
      simp only [stepIn] at hstep
      split at hstep
      case h_2 => cases hstep
      case h_1 engine hworker =>
        obtain rfl := Option.some.inj hstep
        rw [hworker] at h
        exact h.trade t
  | heartbeat tsNs =>
      obtain ⟨engine, hworker, rfl⟩ := heartbeat_eq_some (m := m) hstep
      rw [hworker] at h
      exact (List.append_nil ts).symm ▸ h
  | closed =>
      obtain ⟨engine, hworker, rfl⟩ := closed_eq_some (m := m) hstep
      rw [hworker] at h
      obtain ⟨rs, hfeed⟩ := h
      exact (List.append_nil ts).symm ▸ ⟨_, hfeed⟩
  | proceed =>
      obtain ⟨_, _, _, hworker, -, rfl⟩ | ⟨_, _, _, hworker, -, rfl⟩ | ⟨_, _, hworker, rfl⟩ :=
        proceed_eq_some hstep
      all_goals
        rw [hworker] at h
        exact (List.append_nil ts).symm ▸ h
  | subscribe c | snapshot c | recv c =>
      obtain ⟨fanout, -, rfl⟩ := connStep_eq_some hstep
      exact (List.append_nil ts).symm ▸ h

theorem Pushed.run (h : Pushed build m e₀ ts s.worker) (hinv : WorkerInv s)
    (hnew : VpinEngine.new s.engineCfg = .ok e₀) (hinterval : s.heartbeatInterval ≠ 0)
    {es : List Event} (hrun : Runs.run (stepIn build m) s es = some s') :
    Pushed build m e₀ (ts ++ taken es) s'.worker := by
  induction es generalizing s ts with
  | nil =>
      obtain rfl := Option.some.inj hrun
      exact (List.append_nil ts).symm ▸ h
  | cons e es ih =>
      obtain ⟨u, hu, hrun⟩ := run_cons_eq_some.mp hrun
      have hsplit : taken (e :: es) = taken [e] ++ taken es := taken_append [e] es
      have hsetup := (kept_of_step hinv hu).setup
      simp only [setup, Prod.mk.injEq] at hsetup
      obtain ⟨-, -, hcfg, hsame⟩ := hsetup
      rw [hsplit, ← List.append_assoc]
      exact ih (h.step hnew hinterval hu) (hinv.step hu).1 (hcfg ▸ hnew) (hsame ▸ hinterval) hrun

end Stream

namespace Service

/-- A step of one stream in a given build. -/
def streamStepIn [FloorSemiring K] (build : Build) (m : Libm K) (s : Service K) (i : ℕ)
    (e : Stream.Event) : Option (Service K) :=
  s.registry.items[i]?.bind fun w ↦ (w.stream.stepIn build m e).map fun stream ↦
    { s with registry := s.registry.set i { w with stream } }

theorem streamStepIn_eq_some [FloorSemiring K] {build : Build} {m : Libm K} {s s' : Service K}
    {i : ℕ} {e : Stream.Event} (h : s.streamStepIn build m i e = some s') :
    ∃ w stream, s.registry.items[i]? = some w ∧ w.stream.stepIn build m e = some stream ∧
      s' = { s with registry := s.registry.set i { w with stream } } := by
  obtain ⟨w, hw, h⟩ := Option.bind_eq_some_iff.mp h
  obtain ⟨stream, hstream, rfl⟩ := Option.map_eq_some_iff.mp h
  exact ⟨w, stream, hw, hstream, rfl⟩

/-- A stream is replaced by one that was created in the same way. -/
theorem WellWired.set {heartbeatInterval : ℕ} {s : Service K}
    (h : WellWired heartbeatInterval s) {i : ℕ} {w : Spawned K}
    (hw : s.registry.items[i]? = some w) {stream : Stream K}
    (hsetup : stream.setup = w.stream.setup) :
    WellWired heartbeatInterval { s with registry := s.registry.set i { w with stream } } := by
  refine ⟨h.interval, h.sound.set hw rfl, h.starting, fun w' hw' ↦ ?_⟩
  rcases List.mem_or_eq_of_mem_set hw' with hold | rfl
  · exact h.wired w' hold
  · have hwired := h.wired w (List.mem_of_getElem? hw)
    simp only [Stream.setup, Prod.mk.injEq] at hsetup
    obtain ⟨hexchange, hsymbol, hcfg, hinterval⟩ := hsetup
    exact ⟨by rw [hcfg]; exact hwired.resolved, hwired.backoff,
      hexchange.trans hwired.exchange, hsymbol.trans hwired.symbol,
      hinterval.trans hwired.heartbeatInterval⟩

end Service

end Geiger
