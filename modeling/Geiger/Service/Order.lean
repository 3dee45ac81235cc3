import Geiger.Service.Delivery
import Geiger.Service.Worker

/-!
# The order in which a subscriber sees readings

The stream simulates its fan-out, one fan-out step for each step that touches the
entry.  Its worker numbers the readings 0, 1, 2, ..., so a delivery in publish
order is one in which bucket ids never decrease.
-/

namespace Geiger.Stream

open Runs

/-! ## Bucket ids of published readings -/

section Messages

variable {F : Type}

def bucketIds (msgs : List (ServerMessage F)) : List ℕ :=
  msgs.filterMap ServerMessage.bucketId?

theorem bucketIds_append (xs ys : List (ServerMessage F)) :
    bucketIds (xs ++ ys) = bucketIds xs ++ bucketIds ys := List.filterMap_append

theorem published_connStep {s s' : Fanout (ServerMessage F)}
    {e : Fanout.Event (ServerMessage F)} (hstore : ∀ msg, e ≠ .store msg) (hsend : e ≠ .send)
    (h : s.step e = some s') : s'.published = s.published := by
  obtain ⟨conns, rfl⟩ := Fanout.conns_of_connection hstore hsend h
  rfl

theorem bucketIds_pairwise_of_inOrder {published written : List (ServerMessage F)}
    (hsorted : (bucketIds published).Pairwise (· ≤ ·))
    (h : Fanout.InOrder published written) : (bucketIds written).Pairwise (· ≤ ·) := by
  rcases h with hsub | ⟨msg, msgs, rfl, hsub⟩
  · exact hsorted.sublist (hsub.sublist.filterMap _)
  · have htail : (bucketIds (msg :: msgs)).Pairwise (· ≤ ·) :=
      hsorted.sublist (hsub.sublist.filterMap _)
    unfold bucketIds at htail ⊢
    cases hid : msg.bucketId? with
    | none => simpa [List.filterMap_cons, hid] using htail
    | some id =>
        simp only [List.filterMap_cons, hid, List.pairwise_cons] at htail ⊢
        refine ⟨?_, htail⟩
        intro id' hid'
        rcases List.mem_cons.mp hid' with rfl | hid'
        · exact le_rfl
        · exact htail.1 id' hid'

end Messages

variable {K : Type} [Field K] [LinearOrder K]

/-- The published messages and the one that is about to be stored. -/
def announced (s : Stream K) : List (ServerMessage K) :=
  s.fanout.published ++
    match s.worker with
    | .running _ (.store msg) => [msg]
    | _ => []

/-- The next bucket id, as far as the state of the worker determines it. -/
def NextBucket : WorkerState K → ℕ → Prop
  | .starting, n => n = 0
  | .running engine _, n => engine.bucketer.bucketId = n
  | _, _ => True

def Numbered (s : Stream K) : Prop :=
  ∃ n, bucketIds s.announced = List.range n ∧ NextBucket s.worker n

theorem announced_of_select {s : Stream K} {engine : VpinEngine K}
    (h : s.worker = .running engine .select) : s.announced = s.fanout.published := by
  simp [announced, h]

theorem Numbered.connStep {s s' : Stream K} (h : Numbered s)
    {e : Fanout.Event (ServerMessage K)} (hstore : ∀ msg, e ≠ .store msg) (hsend : e ≠ .send)
    (hstep : s.connStep e = some s') : Numbered s' := by
  obtain ⟨fanout, hfanout, rfl⟩ := connStep_eq_some hstep
  obtain ⟨n, hids, hnext⟩ := h
  refine ⟨n, ?_, hnext⟩
  rw [← hids]
  simp only [announced, published_connStep hstore hsend hfanout]

/-- A step that announces nothing new and goes on with the same engine. -/
theorem Numbered.of_announced {s s' : Stream K} (h : Numbered s)
    (hannounced : bucketIds s'.announced = bucketIds s.announced) {engine : VpinEngine K}
    {await await' : Await K} (hworker : s.worker = .running engine await)
    (hworker' : s'.worker = .running engine await') : Numbered s' := by
  obtain ⟨n, hids, hnext⟩ := h
  rw [hworker] at hnext
  refine ⟨n, hannounced.trans hids, ?_⟩
  rw [hworker']
  exact hnext

theorem Numbered.proceed {s s' : Stream K} (h : Numbered s) (hstep : s.proceed = some s') :
    Numbered s' := by
  obtain ⟨engine, msg, fanout, hworker, hfanout, rfl⟩ |
    ⟨engine, msg, fanout, hworker, hfanout, rfl⟩ | ⟨engine, msg, hworker, rfl⟩ :=
    proceed_eq_some hstep
  · refine h.of_announced ?_ hworker rfl
    simp [announced, hworker, Fanout.published_store hfanout]
  · refine h.of_announced ?_ hworker rfl
    simp [announced, hworker, Fanout.published_send hfanout]
  · refine h.of_announced ?_ hworker rfl
    simp [announced, hworker]

theorem numbered_new (exchange symbol : String) (cfg : VpinEngineConfig K) (interval capacity : ℕ) :
    Numbered (new exchange symbol cfg interval capacity) := ⟨0, rfl, rfl⟩

/-- The readings published by a worker carry ascending bucket ids. -/
theorem Numbered.pairwise {s : Stream K} (h : Numbered s) :
    (bucketIds s.fanout.published).Pairwise (· ≤ ·) := by
  obtain ⟨n, hids, -⟩ := h
  have hsorted : (bucketIds s.announced).Pairwise (· ≤ ·) := by
    rw [hids]
    exact List.pairwise_lt_range.imp Nat.le_of_lt
  rw [announced, bucketIds_append] at hsorted
  exact (List.pairwise_append.mp hsorted).1

variable [FloorSemiring K]

theorem Numbered.startWorker {s : Stream K} (h : Numbered s) (hworker : s.worker = .starting) :
    Numbered s.startWorker := by
  obtain ⟨n, hids, hnext⟩ := h
  rw [hworker] at hnext
  have hpub : bucketIds s.fanout.published = List.range n := by
    simpa [announced, hworker] using hids
  unfold Stream.startWorker
  cases hnew : VpinEngine.new s.engineCfg with
  | error err => exact ⟨n, by simpa [announced] using hpub, trivial⟩
  | ok engine =>
      simp only
      split
      · exact ⟨n, by simpa [announced] using hpub, trivial⟩
      · refine ⟨n, by simpa [announced] using hpub, ?_⟩
        obtain ⟨-, -, hid, -⟩ :=
          VolumeBucketer.new_eq_ok (VpinEngine.fresh_of_new hnew).bucketer
        exact hid.trans hnext.symm

theorem Numbered.onTrade {m : Libm K} {s : Stream K} (h : Numbered s) {engine : VpinEngine K}
    (hworker : s.worker = .running engine .select) (t : NormalizedTrade) :
    Numbered (s.onTrade m engine t) := by
  obtain ⟨n, hids, hnext⟩ := h
  rw [announced_of_select hworker] at hids
  rw [hworker] at hnext
  obtain rfl : engine.bucketer.bucketId = n := hnext
  unfold Stream.onTrade
  cases hpush : engine.pushTrade m (toTrade t) with
  | error fault => exact ⟨_, by simpa [announced] using hids, trivial⟩
  | ok r =>
      obtain ⟨out, engine'⟩ := r
      rcases VpinEngine.pushTrade_bucketId hpush with ⟨rfl, hid⟩ | ⟨r, rfl, hrid, hid⟩
      · exact ⟨_, by simpa [announced] using hids, hid⟩
      · refine ⟨_, ?_, hid⟩
        rw [List.range_succ, ← hids]
        simp [announced, bucketIds, readingMessage, ServerMessage.bucketId?, hrid]

theorem Numbered.step {m : Libm K} {s s' : Stream K} (h : Numbered s) {e : Event}
    (hstep : s.step m e = some s') : Numbered s' := by
  cases e with
  | start =>
      obtain ⟨hworker, rfl⟩ := start_eq_some hstep
      exact h.startWorker hworker
  | heartbeat tsNs =>
      obtain ⟨engine, hworker, rfl⟩ := heartbeat_eq_some hstep
      refine h.of_announced ?_ hworker rfl
      rw [announced_of_select hworker, announced, bucketIds_append]
      exact List.append_nil _
  | trade t =>
      obtain ⟨engine, hworker, rfl⟩ := trade_eq_some hstep
      exact h.onTrade hworker t
  | closed =>
      obtain ⟨engine, hworker, rfl⟩ := closed_eq_some hstep
      obtain ⟨n, hids, -⟩ := h
      rw [announced_of_select hworker] at hids
      exact ⟨n, by simpa [announced] using hids, trivial⟩
  | proceed => exact h.proceed hstep
  | subscribe c => exact h.connStep (by simp) (by simp) hstep
  | snapshot c => exact h.connStep (by simp) (by simp) hstep
  | recv c => exact h.connStep (by simp) (by simp) hstep

/-! ## The stream simulates its fan-out -/

/-- At a snapshot at most one message has been stored whose send comes after the
subscribe. -/
def AtMostOneSince (s : Stream K) : Event → Prop
  | .snapshot c => s.fanout.AtMostOneSince (.snapshot c)
  | _ => True

instance (s : Stream K) : DecidablePred (AtMostOneSince s) := fun e ↦
  match e with
  | .snapshot c =>
    inferInstanceAs (Decidable (s.fanout.published.length ≤ (s.fanout.conns c).start + 1))
  | .start | .heartbeat _ | .trade _ | .closed | .proceed | .subscribe _ | .recv _ =>
    inferInstanceAs (Decidable True)

@[simp] theorem startWorker_fanout (s : Stream K) : s.startWorker.fanout = s.fanout := by
  unfold Stream.startWorker
  split
  · rfl
  · simp only
    split <;> rfl

@[simp] theorem onTrade_fanout (m : Libm K) (s : Stream K) (engine : VpinEngine K)
    (t : NormalizedTrade) : (s.onTrade m engine t).fanout = s.fanout := by
  unfold Stream.onTrade
  simp only
  split <;> rfl

theorem fanout_of_step {m : Libm K} {s s' : Stream K} {e : Event}
    (h : s.step m e = some s') :
    s'.fanout = s.fanout ∨ ∃ d, s.fanout.step d = some s'.fanout ∧
      (AtMostOneSince s e → s.fanout.AtMostOneSince d) := by
  cases e with
  | start =>
      obtain ⟨-, rfl⟩ := start_eq_some h
      exact .inl (startWorker_fanout s)
  | heartbeat tsNs =>
      obtain ⟨engine, -, rfl⟩ := heartbeat_eq_some h
      exact .inl rfl
  | trade t =>
      obtain ⟨engine, -, rfl⟩ := trade_eq_some h
      exact .inl (onTrade_fanout m s engine t)
  | closed =>
      obtain ⟨engine, -, rfl⟩ := closed_eq_some h
      exact .inl rfl
  | proceed =>
      obtain ⟨_, _, fanout, -, hfanout, rfl⟩ | ⟨_, _, fanout, -, hfanout, rfl⟩ | ⟨_, _, -, rfl⟩ :=
        proceed_eq_some h
      · exact .inr ⟨_, hfanout, fun _ ↦ trivial⟩
      · exact .inr ⟨_, hfanout, fun _ ↦ trivial⟩
      · exact .inl rfl
  | subscribe c =>
      obtain ⟨fanout, hfanout, rfl⟩ := connStep_eq_some h
      exact .inr ⟨_, hfanout, fun _ ↦ trivial⟩
  | snapshot c =>
      obtain ⟨fanout, hfanout, rfl⟩ := connStep_eq_some h
      exact .inr ⟨_, hfanout, id⟩
  | recv c =>
      obtain ⟨fanout, hfanout, rfl⟩ := connStep_eq_some h
      exact .inr ⟨_, hfanout, fun _ ↦ trivial⟩

/-- Every run of the stream contains a run of its fan-out. -/
theorem exists_fanout_run {m : Libm K} {s t : Stream K} {es : List Event}
    (hguard : Along (step m) AtMostOneSince s es) (hrun : run (step m) s es = some t) :
    ∃ ds, run Fanout.step s.fanout ds = some t.fanout ∧
      Along Fanout.step Fanout.AtMostOneSince s.fanout ds := by
  have hsimulates : ∀ (s : Stream K) (e : Event) (s' : Stream K)
      (f : Fanout (ServerMessage K)), s.fanout = f → AtMostOneSince s e →
      s.step m e = some s' → ∃ ds f', run Fanout.step f ds = some f' ∧
        Along Fanout.step Fanout.AtMostOneSince f ds ∧ s'.fanout = f' := by
    rintro s e s' f rfl hone hstep
    rcases fanout_of_step hstep with hsame | ⟨d, hd, hguard⟩
    · exact ⟨[], s.fanout, rfl, trivial, hsame⟩
    · exact ⟨[d], s'.fanout, by simp [run, hd], ⟨hguard hone, fun _ _ ↦ trivial⟩, rfl⟩
  obtain ⟨ds, f, hds, hguards, rfl⟩ := exists_run_of_simulation hsimulates rfl hguard hrun
  exact ⟨ds, hds, hguards⟩

/-- In every run in which no snapshot comes two or more messages late, what a
connection has written is a contiguous run of what was published, at most with
its first message repeated, and bucket ids never decrease. -/
theorem delivered_in_order (m : Libm K) (exchange symbol : String) (cfg : VpinEngineConfig K)
    (interval capacity : ℕ) (es : List Event) (s : Stream K)
    (hrun : run (step m) (new exchange symbol cfg interval capacity) es = some s)
    (hguard : Along (step m) AtMostOneSince (new exchange symbol cfg interval capacity) es)
    (c : ℕ) (hlag : (s.fanout.conns c).lagged = false) :
    Fanout.InOrder s.fanout.published (s.fanout.conns c).written ∧
      (bucketIds (s.fanout.conns c).written).Pairwise (· ≤ ·) := by
  obtain ⟨ds, hds, hguards⟩ := exists_fanout_run hguard hrun
  have horder := Fanout.inOrder_of_run hds hguards hlag
  have hnumbered : Numbered s := invariant (fun s e s' h hstep ↦ h.step hstep)
    (numbered_new exchange symbol cfg interval capacity) hrun
  exact ⟨horder, bucketIds_pairwise_of_inOrder hnumbered.pairwise horder⟩

/-! ## A run on unit buckets -/

def unitConfig : VpinEngineConfig ℚ where
  bucketVolume := 1
  sigmaWindow := 2
  vpinWindow := 1
  cdfWindow := none
  confidenceInterval := none

theorem unitConfig_valid : unitConfig.Valid :=
  ⟨by decide +kernel, by decide, by decide, by simp [unitConfig], by simp [unitConfig]⟩

/-- Neither function is reached before a sigma window is full. -/
def unitLibm : Libm ℚ := ⟨id, fun _ ↦ 1 / 2⟩

def unitStream : Stream ℚ := new "binance" "BTCUSDT" unitConfig 5000000000 256

def unitTrade : NormalizedTrade where
  price := ⟨10000000000⟩
  qty := ⟨100000000⟩
  tsExchangeNs := 0
  tsRecvNs := 0
  symbol := .zeroed
  exchange := .binance
  takerSide := .buy
  sequence := 0

def publishUnit : List Event := [.trade unitTrade, .proceed, .proceed, .proceed]

def oneInGap : List Event :=
  [.start] ++ publishUnit ++ [.subscribe 0] ++ publishUnit ++ [.snapshot 0, .recv 0]

def twoInGap : List Event :=
  [.start, .subscribe 0] ++ publishUnit ++ publishUnit ++ [.snapshot 0, .recv 0, .recv 0]

theorem delivered_in_order_oneInGap :
    ∃ s, run (step unitLibm) unitStream oneInGap = some s ∧
      Fanout.InOrder s.fanout.published (s.fanout.conns 0).written ∧
      (bucketIds (s.fanout.conns 0).written).Pairwise (· ≤ ·) := by
  have hsome : ((run (step unitLibm) unitStream oneInGap).map
      fun s ↦ (s.fanout.conns 0).lagged) = some false := by decide +kernel
  obtain ⟨s, hrun, hlag⟩ := Option.map_eq_some_iff.mp hsome
  exact ⟨s, hrun, delivered_in_order unitLibm "binance" "BTCUSDT" unitConfig 5000000000 256
    oneInGap s hrun (by decide +kernel) 0 hlag⟩

/-- The client is sent buckets 1, 0, 1. -/
theorem twoInGap_not_inOrder :
    ∃ s, run (step unitLibm) unitStream twoInGap = some s ∧
      (s.fanout.conns 0).lagged = false ∧
      ¬ Fanout.InOrder s.fanout.published (s.fanout.conns 0).written ∧
      ¬ (bucketIds (s.fanout.conns 0).written).Pairwise (· ≤ ·) := by
  have hsome : ((run (step unitLibm) unitStream twoInGap).map fun s ↦
      ((s.fanout.conns 0).lagged, bucketIds s.fanout.published,
        bucketIds (s.fanout.conns 0).written)) = some (false, [0, 1], [1, 0, 1]) := by
    decide +kernel
  obtain ⟨s, hrun, heq⟩ := Option.map_eq_some_iff.mp hsome
  simp only [Prod.mk.injEq] at heq
  obtain ⟨hlag, hpublished, hwritten⟩ := heq
  have hback : ¬ (bucketIds (s.fanout.conns 0).written).Pairwise (· ≤ ·) := by
    rw [hwritten]
    decide
  have hsorted : (bucketIds s.fanout.published).Pairwise (· ≤ ·) := by
    rw [hpublished]
    decide
  exact ⟨s, hrun, hlag, fun h ↦ hback (bucketIds_pairwise_of_inOrder hsorted h), hback⟩

end Geiger.Stream
