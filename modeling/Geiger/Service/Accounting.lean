import Geiger.Service.Alive
import Geiger.Service.Order

/-!
# The books of a worker

A trade is taken in three steps: it is received, counted, and pushed into the engine.
Between any two of them, and between the steps of a publish, others can look.
-/

namespace Geiger

open Runs

namespace ServerMessage

variable {F : Type*}

def tradesInBucket : ServerMessage F → ℕ
  | reading _ _ _ _ tradesInBucket _ _ => tradesInBucket.toNat
  | _ => 0

end ServerMessage

/-- What the worker has of the trade that it is taking in. -/
inductive Taking where
  | idle
  | received (t : NormalizedTrade)
  | counted (t : NormalizedTrade)

/-- The trades that are counted and not yet pushed. -/
def Taking.inHand : Taking → ℕ
  | .counted _ => 1
  | _ => 0

structure Observed (K : Type) [Field K] [LinearOrder K] where
  stream : Stream K
  taking : Taking

variable {K : Type} [Field K] [LinearOrder K]

theorem Stream.conns_of_connStep {s s' : Stream K} {e : Fanout.Event (ServerMessage K)}
    (hstore : ∀ msg, e ≠ .store msg) (hsend : e ≠ .send) (h : s.connStep e = some s') :
    ∃ conns, s' = { s with fanout := { s.fanout with conns } } := by
  obtain ⟨fanout, hfanout, rfl⟩ := connStep_eq_some h
  obtain ⟨conns, rfl⟩ := Fanout.conns_of_connection hstore hsend hfanout
  exact ⟨conns, rfl⟩

namespace Observed

inductive Event where
  | recv (t : NormalizedTrade)
  | count
  | push
  | other (e : Stream.Event)

def new (exchange symbol : String) (engineCfg : VpinEngineConfig K) (heartbeatInterval : ℕ)
    (capacity : ℕ) : Observed K :=
  ⟨.new exchange symbol engineCfg heartbeatInterval capacity, .idle⟩

/-- A step of a connection, which does not wait for the worker. -/
def IsConnection : Stream.Event → Bool
  | .subscribe _ | .snapshot _ | .recv _ => true
  | _ => false

variable [FloorSemiring K]

def pushed (build : Build) (m : Libm K) (s : Stream K) (engine : VpinEngine K)
    (t : NormalizedTrade) : Stream K :=
  match engine.pushTradeIn build m (Stream.toTrade t) with
  | .error _ => { s with worker := .panicked }
  | .ok (none, engine) => { s with worker := .running engine .select }
  | .ok (some r, engine) =>
    { s with worker := .running engine (.store (s.readingMessage r)) }

def step (build : Build) (m : Libm K) (s : Observed K) : Event → Option (Observed K)
  | .recv t =>
    match s.taking, s.stream.worker with
    | .idle, .running _ .select => some { s with taking := .received t }
    | _, _ => none
  | .count =>
    match s.taking with
    | .received t => some ⟨{ s.stream with health := s.stream.health.countTrade t }, .counted t⟩
    | _ => none
  | .push =>
    match s.taking, s.stream.worker with
    | .counted t, .running engine .select => some ⟨pushed build m s.stream engine t, .idle⟩
    | _, _ => none
  | .other (.trade _) => none
  | .other e =>
    match s.taking, IsConnection e with
    | .idle, _ | _, true => (s.stream.step m e).map fun stream ↦ { s with stream }
    | _, false => none

/-! ## What each step does -/

section Steps

variable {build : Build} {m : Libm K} {s s' : Observed K}

theorem recv_eq_some {t : NormalizedTrade} (h : s.step build m (.recv t) = some s') :
    s.taking = .idle ∧ (∃ engine, s.stream.worker = .running engine .select) ∧
      s' = { s with taking := .received t } := by
  simp only [step] at h
  split at h
  · exact ⟨‹_›, ⟨_, ‹_›⟩, (Option.some.inj h).symm⟩
  · cases h

theorem count_eq_some (h : s.step build m .count = some s') :
    ∃ t, s.taking = .received t ∧
      s' = ⟨{ s.stream with health := s.stream.health.countTrade t }, .counted t⟩ := by
  simp only [step] at h
  split at h
  · exact ⟨_, ‹_›, (Option.some.inj h).symm⟩
  · cases h

theorem push_eq_some (h : s.step build m .push = some s') :
    ∃ t engine, s.taking = .counted t ∧ s.stream.worker = .running engine .select ∧
      s' = ⟨pushed build m s.stream engine t, .idle⟩ := by
  simp only [step] at h
  split at h
  · exact ⟨_, _, ‹_›, ‹_›, (Option.some.inj h).symm⟩
  · cases h

theorem other_eq_some {e : Stream.Event} (h : s.step build m (.other e) = some s') :
    (∀ t, e ≠ .trade t) ∧ (s.taking = .idle ∨ IsConnection e = true) ∧
      ∃ stream, s.stream.step m e = some stream ∧ s' = { s with stream } := by
  cases e
  case trade t => cases h
  all_goals
    simp only [step] at h
    split at h
    · obtain ⟨stream, hstream, rfl⟩ := Option.map_eq_some_iff.mp h
      exact ⟨by simp, .inl ‹_›, stream, hstream, rfl⟩
    · obtain ⟨stream, hstream, rfl⟩ := Option.map_eq_some_iff.mp h
      exact ⟨by simp, .inr ‹_›, stream, hstream, rfl⟩
    · cases h

theorem conns_of_isConnection {s s' : Stream K} {e : Stream.Event}
    (hconnection : IsConnection e = true) (h : s.step m e = some s') :
    ∃ conns, s' = { s with fanout := { s.fanout with conns } } := by
  cases e with
  | subscribe c => exact Stream.conns_of_connStep (by simp) (by simp) h
  | snapshot c => exact Stream.conns_of_connStep (by simp) (by simp) h
  | recv c => exact Stream.conns_of_connStep (by simp) (by simp) h
  | _ => cases hconnection

end Steps

end Observed

/-! ## The three steps are one trade -/

namespace Observed

/-- The stream when a trade is one step: it has not seen the trade before the push. -/
def Refines (s : Observed K) (c : Stream K) : Prop :=
  match s.taking with
  | .counted t => s.stream = { c with health := c.health.countTrade t }
  | _ => s.stream = c

variable [FloorSemiring K] {build : Build} {m : Libm K} {s s' : Observed K} {c : Stream K}

theorem step_withHealth {e : Stream.Event} (hconnection : IsConnection e = true)
    (health : StreamHealth) : Stream.step m { c with health } e =
      (c.step m e).map fun c ↦ { c with health } := by
  cases e with
  | subscribe c' => simp [Stream.step, Stream.connStep, Function.comp_def]
  | snapshot c' => simp [Stream.step, Stream.connStep, Function.comp_def]
  | recv c' => simp [Stream.step, Stream.connStep, Function.comp_def]
  | _ => cases hconnection

theorem stepIn_of_ne_trade {e : Stream.Event} (h : ∀ t, e ≠ .trade t) :
    c.stepIn build m e = c.step m e := by
  cases e with
  | trade t => exact absurd rfl (h t)
  | _ => rfl

theorem Refines.step (h : Refines s c) {e : Event} (hstep : s.step build m e = some s') :
    ∃ ds c', run (Stream.stepIn build m) c ds = some c' ∧ Refines s' c' := by
  cases e with
  | recv t =>
      obtain ⟨htaking, -, rfl⟩ := recv_eq_some hstep
      rw [Refines, htaking] at h
      exact ⟨[], c, rfl, h⟩
  | count =>
      obtain ⟨t, htaking, rfl⟩ := count_eq_some hstep
      rw [Refines, htaking] at h
      subst h
      exact ⟨[], _, rfl, rfl⟩
  | push =>
      obtain ⟨t, engine, htaking, hworker, rfl⟩ := push_eq_some hstep
      rw [Refines, htaking] at h
      have hworker' : c.worker = .running engine .select := by rw [← hworker, h]
      refine ⟨[.trade t], c.onTradeIn build m engine t, ?_, ?_⟩
      · simp [run, Stream.stepIn, hworker']
      · simp only [Refines, h]
        rfl
  | other e =>
      obtain ⟨htrade, hfree, stream, hstream, rfl⟩ := other_eq_some hstep
      have one {c' : Stream K} (hc' : c.step m e = some c') :
          run (Stream.stepIn build m) c [e] = some c' := by
        simp [run, stepIn_of_ne_trade htrade, hc']
      unfold Refines at h ⊢
      split at h
      · rename_i t htaking
        have hconnection := hfree.resolve_left (by simp [htaking])
        rw [h, step_withHealth hconnection] at hstream
        obtain ⟨c', hc', rfl⟩ := Option.map_eq_some_iff.mp hstream
        obtain ⟨conns, rfl⟩ := conns_of_isConnection hconnection hc'
        exact ⟨[e], _, one hc', by rw [htaking]⟩
      · subst h
        exact ⟨[e], stream, one hstream, rfl⟩

/-- Every observed run contains a run of the stream in which a trade is one step. -/
theorem exists_stream_run {exchange symbol : String} {cfg : VpinEngineConfig K}
    {interval capacity : ℕ} {es : List Event}
    (hrun : run (step build m) (new exchange symbol cfg interval capacity) es = some s) :
    ∃ ds c, run (Stream.stepIn build m) (.new exchange symbol cfg interval capacity) ds = some c ∧
      Refines s c := by
  have hsimulates (s : Observed K) (e : Event) (s' : Observed K) (c : Stream K)
      (h : Refines s c) (_ : True) (hstep : s.step build m e = some s') :
      ∃ ds c', run (Stream.stepIn build m) c ds = some c' ∧
        Along (Stream.stepIn build m) (fun _ _ ↦ True) c ds ∧ Refines s' c' := by
    obtain ⟨ds, c', hds, hnext⟩ := h.step hstep
    exact ⟨ds, c', hds, along_of_forall (fun _ _ ↦ trivial) _ _, hnext⟩
  have hnew : Refines (new exchange symbol cfg interval capacity)
      (.new exchange symbol cfg interval capacity) := rfl
  obtain ⟨ds, c, hds, -, hrefines⟩ := exists_run_of_simulation hsimulates hnew
    (along_of_forall (fun _ _ ↦ trivial) _ es) hrun
  exact ⟨ds, c, hds, hrefines⟩

end Observed

/-! ## The books -/

namespace Stream

def readings {F : Type} (msgs : List (ServerMessage F)) : List (ServerMessage F) :=
  msgs.filter ServerMessage.isReading

def tradesIn {F : Type} (msgs : List (ServerMessage F)) : ℕ :=
  (msgs.map ServerMessage.tradesInBucket).sum

/-- The message that is stored and not yet sent. -/
def sending : WorkerState K → Option (ServerMessage K)
  | .running _ (.send msg) => some msg
  | _ => none

/-- The readings that are sent and not yet accounted for. -/
def unaccounted : WorkerState K → ℕ
  | .running _ (.account msg) => (readings [msg]).length
  | _ => 0

/-- How many trades the open bucket holds, as far as the worker still has one. -/
def OpenTrades : WorkerState K → ℕ → Prop
  | .starting, n => n = 0
  | .running engine _, n => n = engine.bucketer.tradeCount.toNat
  | _, _ => True

/-- The books of a stream whose worker has counted `c` trades that it has not pushed. -/
structure Books (s : Stream K) (c : ℕ) : Prop where
  numbered : Numbered s
  last : s.fanout.lastMessage = s.fanout.published.getLast?
  pending : s.fanout.pending = sending s.worker
  processed : ∃ opened, OpenTrades s.worker opened ∧
    s.health.tradesProcessed = tradesIn s.announced + opened + c
  emitted : s.health.readingsEmitted + unaccounted s.worker = (readings s.fanout.channel.log).length

section Steps

variable {m : Libm K} {s s' : Stream K} {c : ℕ}

theorem tradesIn_append {F : Type} (xs ys : List (ServerMessage F)) :
    tradesIn (xs ++ ys) = tradesIn xs + tradesIn ys := by
  rw [tradesIn, List.map_append, List.sum_append]
  rfl

theorem readings_append {F : Type} (xs ys : List (ServerMessage F)) :
    readings (xs ++ ys) = readings xs ++ readings ys := List.filter_append ..

theorem books_new (exchange symbol : String) (cfg : VpinEngineConfig K) (interval capacity : ℕ) :
    Books (new exchange symbol cfg interval capacity) 0 where
  numbered := numbered_new exchange symbol cfg interval capacity
  last := rfl
  pending := rfl
  processed := ⟨0, rfl, rfl⟩
  emitted := rfl

theorem Books.connStep (h : Books s c) {e : Fanout.Event (ServerMessage K)}
    (hstore : ∀ msg, e ≠ .store msg) (hsend : e ≠ .send) (hstep : s.connStep e = some s') :
    Books s' c := by
  have hnumbered := h.numbered.connStep hstore hsend hstep
  obtain ⟨conns, rfl⟩ := conns_of_connStep hstore hsend hstep
  exact { h with numbered := hnumbered }

/-- The three steps of a publish. -/
theorem Books.proceed (h : Books s c) (hstep : s.proceed = some s') : Books s' c := by
  have hnumbered := h.numbered.proceed hstep
  obtain ⟨opened, hopened, hprocessed⟩ := h.processed
  have hlast := h.last
  have hpending := h.pending
  have hemitted := h.emitted
  obtain ⟨engine, msg, fanout, hworker, hfanout, rfl⟩ |
    ⟨engine, msg, fanout, hworker, hfanout, rfl⟩ | ⟨engine, msg, hworker, rfl⟩ :=
    proceed_eq_some hstep
  · obtain ⟨hnone, rfl⟩ := Fanout.store_eq_some hfanout
    rw [hworker] at hopened hemitted
    refine ⟨hnumbered, ?_, rfl, ⟨opened, hopened, ?_⟩, hemitted⟩
    · simp [Fanout.published]
    · simpa [announced, hworker, Fanout.published, hnone] using hprocessed
  · obtain ⟨msg', hmsg', rfl⟩ := Fanout.send_eq_some hfanout
    rw [hworker] at hopened hpending hemitted
    obtain rfl : msg' = msg := Option.some.inj (hmsg'.symm.trans hpending)
    refine ⟨hnumbered, ?_, rfl, ⟨opened, hopened, ?_⟩, ?_⟩
    · simpa [Fanout.published, hmsg'] using hlast
    · simpa [announced, hworker, Fanout.published, hmsg'] using hprocessed
    · rw [Broadcast.log_send, readings_append, List.length_append, ← hemitted]
      rfl
  · rw [hworker] at hopened hpending hemitted
    have htrades : (s.health.account msg).tradesProcessed = s.health.tradesProcessed := by
      cases msg <;> rfl
    refine ⟨hnumbered, hlast, hpending, ⟨opened, hopened, ?_⟩, ?_⟩
    · rw [htrades, hprocessed]
      simp [announced, hworker]
    · rw [← hemitted]
      cases msg <;> rfl

variable [FloorSemiring K]

theorem Books.start (h : Books s c) (hworker : s.worker = .starting) : Books s.startWorker c := by
  have hnumbered := h.numbered.startWorker hworker
  obtain ⟨opened, hopened, hprocessed⟩ := h.processed
  have hpending := h.pending
  have hemitted := h.emitted
  rw [hworker] at hopened hpending hemitted
  have hannounced : s.announced = s.fanout.published := by simp [announced, hworker]
  rw [hannounced] at hprocessed
  unfold Stream.startWorker at hnumbered ⊢
  cases hnew : VpinEngine.new s.engineCfg with
  | error err =>
      simp only [hnew] at hnumbered
      exact ⟨hnumbered, h.last, hpending, ⟨opened, trivial, by simpa [announced] using hprocessed⟩,
        hemitted⟩
  | ok engine =>
      obtain ⟨-, -, -, -, hcount, -⟩ :=
        VolumeBucketer.new_eq_ok (VpinEngine.fresh_of_new hnew).bucketer
      simp only [hnew] at hnumbered ⊢
      split at hnumbered
      · rw [if_pos ‹_›]
        exact ⟨hnumbered, h.last, hpending,
          ⟨opened, trivial, by simpa [announced] using hprocessed⟩, hemitted⟩
      · rw [if_neg ‹_›]
        refine ⟨hnumbered, h.last, hpending,
          ⟨opened, ?_, by simpa [announced] using hprocessed⟩, hemitted⟩
        rw [hopened, OpenTrades, hcount]
        rfl

theorem Books.heartbeat (h : Books s c) {tsNs : UInt64}
    (hstep : s.step m (.heartbeat tsNs) = some s') : Books s' c := by
  have hnumbered := h.numbered.step hstep
  obtain ⟨engine, hworker, rfl⟩ := heartbeat_eq_some hstep
  obtain ⟨opened, hopened, hprocessed⟩ := h.processed
  have hpending := h.pending
  have hemitted := h.emitted
  rw [hworker] at hopened hpending hemitted
  refine ⟨hnumbered, h.last, hpending, ⟨opened, hopened, ?_⟩, hemitted⟩
  rw [announced_of_select hworker] at hprocessed
  rw [announced, tradesIn_append]
  exact hprocessed

theorem Books.closed (h : Books s c) (hstep : s.step m .closed = some s') : Books s' c := by
  have hnumbered := h.numbered.step hstep
  obtain ⟨engine, hworker, rfl⟩ := closed_eq_some hstep
  obtain ⟨opened, hopened, hprocessed⟩ := h.processed
  have hpending := h.pending
  have hemitted := h.emitted
  rw [hworker] at hopened hpending hemitted
  refine ⟨hnumbered, h.last, hpending, ⟨opened, trivial, ?_⟩, hemitted⟩
  rw [announced_of_select hworker] at hprocessed
  simpa [announced] using hprocessed

/-- A step of the stream other than a trade. -/
theorem Books.step (h : Books s c) {e : Event} (htrade : ∀ t, e ≠ .trade t)
    (hstep : s.step m e = some s') : Books s' c := by
  cases e with
  | start =>
      obtain ⟨hworker, rfl⟩ := start_eq_some hstep
      exact h.start hworker
  | heartbeat tsNs => exact h.heartbeat hstep
  | trade t => exact absurd rfl (htrade t)
  | closed => exact h.closed hstep
  | proceed => exact h.proceed hstep
  | subscribe c => exact h.connStep (by simp) (by simp) hstep
  | snapshot c => exact h.connStep (by simp) (by simp) hstep
  | recv c => exact h.connStep (by simp) (by simp) hstep

omit [FloorSemiring K] in
theorem Books.count (h : Books s c) (t : NormalizedTrade) :
    Books { s with health := s.health.countTrade t } (c + 1) := by
  obtain ⟨opened, hopened, hprocessed⟩ := h.processed
  exact ⟨h.numbered, h.last, h.pending, ⟨opened, hopened, congrArg (· + 1) hprocessed⟩, h.emitted⟩

/-- A counted trade goes into the open bucket, or into the one that it closes. -/
theorem Books.pushed {build : Build} {engine : VpinEngine K} (h : Books s (c + 1))
    (hworker : s.worker = .running engine .select)
    (hroom : engine.bucketer.tradeCount ≠ 4294967295) (t : NormalizedTrade) :
    Books (Observed.pushed build m s engine t) c := by
  obtain ⟨n, hids, hnext⟩ := h.numbered
  obtain ⟨opened, hopened, hprocessed⟩ := h.processed
  have hpending := h.pending
  have hemitted := h.emitted
  rw [announced_of_select hworker] at hids hprocessed
  rw [hworker] at hnext hopened hpending hemitted
  obtain rfl : engine.bucketer.bucketId = n := hnext
  obtain rfl : opened = engine.bucketer.tradeCount.toNat := hopened
  have hsucc : (engine.bucketer.tradeCount + 1).toNat = engine.bucketer.tradeCount.toNat + 1 := by
    have hlt := engine.bucketer.tradeCount.toNat_lt
    have hne : engine.bucketer.tradeCount.toNat ≠ 4294967295 := by
      rwa [ne_eq, ← UInt32.toNat_inj] at hroom
    rw [UInt32.toNat_add, UInt32.toNat_one]
    omega
  unfold Observed.pushed
  cases hpush : engine.pushTradeIn build m (toTrade t) with
  | error fault =>
      refine ⟨⟨_, by simpa [announced] using hids, trivial⟩, h.last, hpending,
        ⟨engine.bucketer.tradeCount.toNat + 1, trivial, ?_⟩, hemitted⟩
      simp only [announced, List.append_nil]
      omega
  | ok r =>
      obtain ⟨out, engine'⟩ := r
      obtain ⟨rfl, hid, hcount⟩ | ⟨r, rfl, hrid, hrtrades, hid, hcount⟩ :=
        VpinEngine.pushTradeIn_bucketer hpush
      · refine ⟨⟨_, by simpa [announced] using hids, hid⟩, h.last, hpending,
          ⟨_, rfl, ?_⟩, hemitted⟩
        simp only [announced, List.append_nil, hcount, hsucc]
        omega
      · refine ⟨⟨_, ?_, hid⟩, h.last, hpending, ⟨_, rfl, ?_⟩, hemitted⟩
        · rw [List.range_succ, ← hids]
          simp [announced, bucketIds, readingMessage, ServerMessage.bucketId?, hrid]
        · simp only [announced, tradesIn_append, hcount]
          simp only [tradesIn, readingMessage, List.map_singleton, List.sum_singleton,
            ServerMessage.tradesInBucket, hrtrades, hsucc] at hprocessed ⊢
          simp only [UInt32.toNat_zero]
          omega

end Steps

end Stream

/-! ## What others see -/

namespace Observed

open Geiger.Stream

/-- The trades of the one trade or reading in progress. -/
def inProgress (s : Observed K) : ℕ :=
  match s.taking, s.stream.worker with
  | .counted _, _ => 1
  | _, .running _ (.store msg) => msg.tradesInBucket
  | _, _ => 0

/-- What `/health` and a new subscriber can rely on whenever they look. -/
structure Accounts (s : Observed K) : Prop where
  numbered : ∃ n, bucketIds s.stream.fanout.published = List.range n
  processed : ∃ opened, OpenTrades s.stream.worker opened ∧
    s.stream.health.tradesProcessed =
      tradesIn s.stream.fanout.published + opened + s.inProgress
  emitted : s.stream.health.readingsEmitted = (readings s.stream.fanout.channel.log).length ∨
    s.stream.health.readingsEmitted + 1 = (readings s.stream.fanout.channel.log).length
  last : s.stream.fanout.lastMessage = s.stream.fanout.channel.log.getLast? ∨
    ∃ msg, s.stream.fanout.lastMessage = some msg ∧ sending s.stream.worker = some msg

structure Inv (s : Observed K) : Prop where
  books : s.stream.Books s.taking.inHand
  selecting : s.taking = .idle ∨ ∃ engine, s.stream.worker = .running engine .select

theorem unaccounted_le_one (w : WorkerState K) : unaccounted w ≤ 1 := by
  unfold unaccounted readings
  split
  · exact List.length_filter_le _ _
  · exact Nat.zero_le 1

theorem bucketIds_published_of_announced {s : Stream K} {n : ℕ}
    (h : bucketIds s.announced = List.range n) :
    ∃ n, bucketIds s.fanout.published = List.range n := by
  rw [announced, bucketIds_append] at h
  have hprefix : bucketIds s.fanout.published <+: List.range n := ⟨_, h⟩
  exact ⟨_, (List.prefix_iff_eq_take.mp hprefix).trans List.take_range⟩

/-- The reading in progress is announced, and the trade in progress is in hand. -/
theorem Inv.tradesIn_announced {s : Observed K} (h : Inv s) :
    tradesIn s.stream.announced + s.taking.inHand =
      tradesIn s.stream.fanout.published + s.inProgress := by
  rw [announced, tradesIn_append, inProgress, Nat.add_assoc]
  rcases h.selecting with htaking | ⟨engine, hworker⟩
  · rw [htaking]
    rcases s.stream.worker with _ | ⟨engine, await⟩ | _ | _
    case running => cases await <;> simp [tradesIn, Taking.inHand]
    all_goals rfl
  · rw [hworker]
    cases s.taking <;> rfl

theorem Inv.accounts {s : Observed K} (h : Inv s) : Accounts s := by
  obtain ⟨⟨n, hids, -⟩, hlast, hpending, ⟨opened, hopened, hprocessed⟩, hemitted⟩ := h.books
  refine ⟨bucketIds_published_of_announced hids, ?_, ?_, ?_⟩
  · have hannounced := h.tradesIn_announced
    exact ⟨opened, hopened, by omega⟩
  · have hle := unaccounted_le_one s.stream.worker
    omega
  · rw [hlast, Fanout.published, hpending]
    cases sending s.stream.worker with
    | none => exact .inl (by simp)
    | some msg => exact .inr ⟨msg, by simp, rfl⟩

def openCount : WorkerState K → Option UInt32
  | .running engine _ => some engine.bucketer.tradeCount
  | _ => none

/-- No more than `2 ^ 32 - 1` trades fall into one bucket. -/
def Roomy (s : Observed K) : Event → Prop
  | .push => openCount s.stream.worker ≠ some 4294967295
  | _ => True

instance (s : Observed K) : DecidablePred (Roomy s) := fun e ↦
  match e with
  | .push => inferInstanceAs (Decidable (_ ≠ _))
  | .recv _ | .count | .other _ => inferInstanceAs (Decidable True)

section Runs

variable [FloorSemiring K] {build : Build} {m : Libm K} {s s' : Observed K}

theorem Inv.step (h : Inv s) {e : Event} (hroomy : Roomy s e)
    (hstep : s.step build m e = some s') : Inv s' := by
  obtain ⟨hbooks, hselecting⟩ := h
  cases e with
  | recv t =>
      obtain ⟨htaking, hworker, rfl⟩ := recv_eq_some hstep
      rw [htaking] at hbooks
      exact ⟨hbooks, .inr hworker⟩
  | count =>
      obtain ⟨t, htaking, rfl⟩ := count_eq_some hstep
      rw [htaking] at hbooks hselecting
      exact ⟨hbooks.count t, .inr (hselecting.resolve_left (by simp))⟩
  | push =>
      obtain ⟨t, engine, htaking, hworker, rfl⟩ := push_eq_some hstep
      rw [htaking] at hbooks
      have hroom : engine.bucketer.tradeCount ≠ 4294967295 := by
        simpa [Roomy, hworker, openCount] using hroomy
      exact ⟨hbooks.pushed hworker hroom t, .inl rfl⟩
  | other e =>
      obtain ⟨htrade, hfree, stream, hstream, rfl⟩ := other_eq_some hstep
      refine ⟨hbooks.step htrade hstream, ?_⟩
      rcases hfree with hidle | hconnection
      · exact .inl hidle
      · obtain ⟨conns, rfl⟩ := conns_of_isConnection hconnection hstream
        exact hselecting

end Runs

/-! ## Without the ticks -/

/-- What the worker would be doing if it were not publishing a heartbeat. -/
def unticked : WorkerState K → WorkerState K
  | .running engine (.store msg) => .running engine (if msg.isReading then .store msg else .select)
  | .running engine (.send msg) => .running engine (if msg.isReading then .send msg else .select)
  | .running engine (.account msg) =>
    .running engine (if msg.isReading then .account msg else .select)
  | w => w

/-- The steps by which a worker starts, takes trades and ends. -/
def IsIntake : Event → Bool
  | .recv _ | .count | .push | .other .start | .other .closed => true
  | _ => false

/-- What becomes of an event when the heartbeats are left out. -/
inductive Kept : Event → List Event → Prop where
  | keep {e : Event} (h : ∀ tsNs, e ≠ .other (.heartbeat tsNs)) : Kept e [e]
  | drop {e : Event} (h : IsIntake e = false) : Kept e []

/-- The same stream, without the heartbeats and their publishes. -/
structure Unticked (s u : Observed K) : Prop where
  taking : u.taking = s.taking
  exchange : u.stream.exchange = s.stream.exchange
  symbol : u.stream.symbol = s.stream.symbol
  engineCfg : u.stream.engineCfg = s.stream.engineCfg
  heartbeatInterval : u.stream.heartbeatInterval = s.stream.heartbeatInterval
  worker : u.stream.worker = unticked s.stream.worker
  pending : u.stream.fanout.pending = sending u.stream.worker
  sent : readings u.stream.fanout.channel.log = readings s.stream.fanout.channel.log

section Ticks

variable [FloorSemiring K] {build : Build} {m : Libm K} {s s' u : Observed K}

omit [FloorSemiring K] in
theorem Unticked.worker_of_select (h : Unticked s u) {engine : VpinEngine K}
    (hworker : s.stream.worker = .running engine .select) :
    u.stream.worker = .running engine .select := by
  rw [h.worker, hworker]
  rfl

theorem step_other_of_idle {e : Stream.Event} {stream : Stream K} (hidle : u.taking = .idle)
    (htrade : ∀ t, e ≠ .trade t) (h : u.stream.step m e = some stream) :
    u.step build m (.other e) = some { u with stream } := by
  cases e
  case trade t => exact absurd rfl (htrade t)
  all_goals simp [step, hidle, h]

/-- Pushing the same trade on both sides announces the same reading. -/
theorem Unticked.pushed (h : Unticked s u) {engine : VpinEngine K}
    (hworker : s.stream.worker = .running engine .select) (t : NormalizedTrade) :
    Unticked ⟨Observed.pushed build m s.stream engine t, .idle⟩
      ⟨Observed.pushed build m u.stream engine t, .idle⟩ := by
  have hpending := h.pending
  rw [h.worker_of_select hworker] at hpending
  have hreading (r : VpinReading K) :
      u.stream.readingMessage r = s.stream.readingMessage r := by
    rw [readingMessage, readingMessage, h.exchange, h.symbol]
  unfold Observed.pushed
  split
  · exact ⟨rfl, h.exchange, h.symbol, h.engineCfg, h.heartbeatInterval, rfl, hpending, h.sent⟩
  · exact ⟨rfl, h.exchange, h.symbol, h.engineCfg, h.heartbeatInterval, rfl, hpending, h.sent⟩
  · rw [hreading]
    exact ⟨rfl, h.exchange, h.symbol, h.engineCfg, h.heartbeatInterval, rfl, hpending, h.sent⟩

theorem Unticked.start (h : Unticked s u) (hworker : s.stream.worker = .starting) :
    Unticked { s with stream := s.stream.startWorker }
      { u with stream := u.stream.startWorker } := by
  have hworker' : u.stream.worker = .starting := by
    rw [h.worker, hworker]
    rfl
  have hpending := h.pending
  rw [hworker'] at hpending
  unfold Stream.startWorker
  rw [h.engineCfg]
  cases VpinEngine.new s.stream.engineCfg with
  | error err =>
      exact ⟨h.taking, h.exchange, h.symbol, rfl, h.heartbeatInterval, rfl, hpending, h.sent⟩
  | ok engine =>
      simp only [h.heartbeatInterval]
      split
      · exact ⟨h.taking, h.exchange, h.symbol, rfl, rfl, rfl, hpending, h.sent⟩
      · exact ⟨h.taking, h.exchange, h.symbol, rfl, rfl, rfl, hpending, h.sent⟩

omit [FloorSemiring K] in
/-- A step of a publish has its counterpart if a reading is published, and none if a
heartbeat is. -/
theorem Unticked.proceed (h : Unticked s u)
    (hpending : s.stream.fanout.pending = sending s.stream.worker) {stream : Stream K}
    (hstep : s.stream.proceed = some stream) :
    (∃ stream', u.stream.proceed = some stream' ∧
      Unticked { s with stream } { u with stream := stream' }) ∨ Unticked { s with stream } u := by
  have hpending' := h.pending
  have hworker' := h.worker
  obtain ⟨engine, msg, fanout, hworker, hfanout, rfl⟩ |
    ⟨engine, msg, fanout, hworker, hfanout, rfl⟩ | ⟨engine, msg, hworker, rfl⟩ :=
    proceed_eq_some hstep
  · obtain ⟨-, rfl⟩ := Fanout.store_eq_some hfanout
    rw [hworker, unticked] at hworker'
    by_cases hreading : msg.isReading
    · rw [if_pos hreading] at hworker'
      rw [hworker'] at hpending'
      exact .inl ⟨_, proceed_of_store hworker' hpending',
        { h with worker := by simp [unticked, hreading], pending := rfl }⟩
    · rw [if_neg hreading] at hworker'
      exact .inr { h with worker := by simp [unticked, hreading, hworker'] }
  · obtain ⟨msg', hmsg', rfl⟩ := Fanout.send_eq_some hfanout
    rw [hworker] at hpending
    obtain rfl : msg' = msg := Option.some.inj (hmsg'.symm.trans hpending)
    rw [hworker, unticked] at hworker'
    by_cases hreading : msg'.isReading
    · rw [if_pos hreading] at hworker'
      rw [hworker'] at hpending'
      refine .inl ⟨_, proceed_of_send hworker' hpending', ?_⟩
      refine { h with worker := by simp [unticked, hreading], pending := rfl, sent := ?_ }
      simp only [Broadcast.log_send, readings_append, h.sent]
    · rw [if_neg hreading] at hworker'
      refine .inr { h with worker := by simp [unticked, hreading, hworker'], sent := ?_ }
      rw [h.sent, Broadcast.log_send, readings_append]
      simp [readings, hreading]
  · rw [hworker, unticked] at hworker'
    by_cases hreading : msg.isReading
    · rw [if_pos hreading] at hworker'
      rw [hworker'] at hpending'
      exact .inl ⟨_, proceed_of_account hworker', { h with worker := rfl, pending := hpending' }⟩
    · rw [if_neg hreading] at hworker'
      exact .inr { h with worker := by simp [unticked, hworker'] }

theorem Unticked.step (h : Unticked s u)
    (hpending : s.stream.fanout.pending = sending s.stream.worker) {e : Event}
    (hstep : s.step build m e = some s') :
    ∃ ds u', Kept e ds ∧ run (Observed.step build m) u ds = some u' ∧ Unticked s' u' := by
  have one {u' : Observed K} (hu' : u.step build m e = some u') :
      run (Observed.step build m) u [e] = some u' := by
    simp [run, hu']
  cases e with
  | recv t =>
      obtain ⟨htaking, ⟨engine, hworker⟩, rfl⟩ := recv_eq_some hstep
      have hu' : u.step build m (.recv t) = some { u with taking := .received t } := by
        simp [Observed.step, h.taking, htaking, h.worker_of_select hworker]
      exact ⟨_, _, .keep (by simp), one hu', { h with taking := rfl }⟩
  | count =>
      obtain ⟨t, htaking, rfl⟩ := count_eq_some hstep
      have hu' : u.step build m .count =
          some ⟨{ u.stream with health := u.stream.health.countTrade t }, .counted t⟩ := by
        simp [Observed.step, h.taking, htaking]
      exact ⟨_, _, .keep (by simp), one hu', { h with taking := rfl }⟩
  | push =>
      obtain ⟨t, engine, htaking, hworker, rfl⟩ := push_eq_some hstep
      have hu' : u.step build m .push =
          some ⟨Observed.pushed build m u.stream engine t, .idle⟩ := by
        simp [Observed.step, h.taking, htaking, h.worker_of_select hworker]
      exact ⟨_, _, .keep (by simp), one hu', h.pushed hworker t⟩
  | other e =>
      obtain ⟨htrade, hfree, stream, hstream, rfl⟩ := other_eq_some hstep
      by_cases hconnection : IsConnection e = true
      · obtain ⟨conns, rfl⟩ := conns_of_isConnection hconnection hstream
        exact ⟨[], u, .drop (by cases e <;> first | rfl | cases hconnection), rfl, { h with }⟩
      · have hidle : u.taking = .idle := h.taking.trans (hfree.resolve_right hconnection)
        cases e with
        | start =>
            obtain ⟨hworker, rfl⟩ := start_eq_some hstream
            have hworker' : u.stream.worker = .starting := by
              rw [h.worker, hworker]
              rfl
            have hstart : u.stream.step m .start = some u.stream.startWorker := by
              simp [Stream.step, hworker']
            exact ⟨_, _, .keep (by simp), one (step_other_of_idle hidle htrade hstart),
              h.start hworker⟩
        | heartbeat tsNs =>
            obtain ⟨engine, hworker, rfl⟩ := heartbeat_eq_some hstream
            exact ⟨[], u, .drop rfl, rfl, { h with worker := h.worker_of_select hworker }⟩
        | trade t => exact absurd rfl (htrade t)
        | closed =>
            obtain ⟨engine, hworker, rfl⟩ := closed_eq_some hstream
            have hworker' := h.worker_of_select hworker
            have hpending' := h.pending
            rw [hworker'] at hpending'
            have hclosed : u.stream.step m .closed = some { u.stream with
                worker := .exited, health := { u.stream.health with workerAlive := false } } := by
              simp [Stream.step, hworker']
            exact ⟨_, _, .keep (by simp), one (step_other_of_idle hidle htrade hclosed),
              { h with worker := rfl, pending := hpending' }⟩
        | proceed =>
            rcases h.proceed hpending hstream with ⟨stream', hstream', hnext⟩ | hnext
            · exact ⟨_, _, .keep (by simp), one (step_other_of_idle hidle htrade hstream'), hnext⟩
            · exact ⟨[], u, .drop rfl, rfl, hnext⟩
        | subscribe c => exact absurd rfl hconnection
        | snapshot c => exact absurd rfl hconnection
        | recv c => exact absurd rfl hconnection

omit [FloorSemiring K] in
theorem Unticked.published (h : Unticked s u)
    (hpending : s.stream.fanout.pending = sending s.stream.worker) :
    readings u.stream.fanout.published = readings s.stream.fanout.published := by
  have hsending (w : WorkerState K) :
      readings (sending (unticked w)).toList = readings (sending w).toList := by
    unfold unticked
    split
    · split <;> rfl
    · rename_i msg
      by_cases hreading : msg.isReading <;> simp [sending, readings, hreading]
    · split <;> rfl
    · rfl
  rw [Fanout.published, Fanout.published, readings_append, readings_append, h.sent, h.pending,
    hpending, h.worker, hsending]

end Ticks

/-! ## Whole runs -/

theorem kept_flatten {es : List Event} {dss : List (List Event)}
    (h : List.Forall₂ Kept es dss) : dss.flatten.Sublist es ∧
      (∀ tsNs, .other (.heartbeat tsNs) ∉ dss.flatten) ∧
      dss.flatten.filter IsIntake = es.filter IsIntake := by
  induction h with
  | nil => exact ⟨.slnil, by simp, rfl⟩
  | cons hkept _ ih =>
      obtain ⟨hsub, htick, hintake⟩ := ih
      cases hkept with
      | keep hnot =>
          refine ⟨hsub.cons_cons _, ?_, ?_⟩
          · intro tsNs hmem
            rcases List.mem_cons.mp hmem with heq | hmem
            · exact hnot tsNs heq.symm
            · exact htick tsNs hmem
          · rw [List.flatten_cons, List.singleton_append, List.filter_cons, List.filter_cons,
              hintake]
      | drop hnot =>
          refine ⟨hsub.cons _, htick, ?_⟩
          rw [List.flatten_cons, List.nil_append, List.filter_cons, hnot]
          exact hintake

variable [FloorSemiring K]

/-- What is published does not depend on the ticks: some run without them has the same
intake and publishes the same readings. -/
def TicksDoNotMatter (build : Build) (m : Libm K) (s₀ : Observed K) (es : List Event)
    (s : Observed K) : Prop :=
  ∃ es' s', es'.Sublist es ∧ (∀ tsNs, .other (.heartbeat tsNs) ∉ es') ∧
    es'.filter IsIntake = es.filter IsIntake ∧ run (step build m) s₀ es' = some s' ∧
    readings s'.stream.fanout.published = readings s.stream.fanout.published

/-- In every run in which no bucket takes more than `2 ^ 32 - 1` trades, the books agree
at every point, and the ticks do not matter. -/
theorem books_agree (build : Build) (m : Libm K) (exchange symbol : String)
    (cfg : VpinEngineConfig K) (interval capacity : ℕ) (es : List Event) (s : Observed K)
    (hrun : run (step build m) (new exchange symbol cfg interval capacity) es = some s)
    (hroomy : Along (step build m) Roomy (new exchange symbol cfg interval capacity) es) :
    Accounts s ∧ TicksDoNotMatter build m (new exchange symbol cfg interval capacity) es s := by
  have hnew : Inv (new exchange symbol cfg interval capacity) :=
    ⟨books_new exchange symbol cfg interval capacity, .inl rfl⟩
  have hsame : Unticked (new exchange symbol cfg interval capacity)
      (new exchange symbol cfg interval capacity) :=
    ⟨rfl, rfl, rfl, rfl, rfl, rfl, rfl, rfl⟩
  have hmatching (s : Observed K) (e : Event) (s' : Observed K) (u : Observed K)
      (hrel : Inv s ∧ Unticked s u) (hroomy : Roomy s e) (hstep : s.step build m e = some s') :
      ∃ ds u', Kept e ds ∧ run (step build m) u ds = some u' ∧
        Along (step build m) (fun _ _ ↦ True) u ds ∧ Inv s' ∧ Unticked s' u' := by
    obtain ⟨ds, u', hkept, hds, hnext⟩ := hrel.2.step hrel.1.books.pending hstep
    exact ⟨ds, u', hkept, hds, along_of_forall (fun _ _ ↦ trivial) _ _,
      hrel.1.step hroomy hstep, hnext⟩
  obtain ⟨dss, u, hkept, hdss, -, hinv, hunticked⟩ :=
    exists_run_of_matching hmatching ⟨hnew, hsame⟩ hroomy hrun
  obtain ⟨hsub, htick, hintake⟩ := kept_flatten hkept
  exact ⟨hinv.accounts, dss.flatten, u, hsub, htick, hintake, hdss,
    hunticked.published hinv.books.pending⟩

def tickBetweenTrades : List Event :=
  [.other .start, .recv unitTrade, .count, .push, .other .proceed, .other .proceed,
    .other .proceed, .other (.heartbeat 7), .other .proceed, .other (.subscribe 0),
    .other .proceed, .other .proceed, .recv unitTrade, .count]

theorem books_agree_tickBetweenTrades :
    ∃ s, run (step .debug unitLibm) (new "binance" "BTCUSDT" unitConfig 5000000000 256)
        tickBetweenTrades = some s ∧ Accounts s ∧
      TicksDoNotMatter .debug unitLibm (new "binance" "BTCUSDT" unitConfig 5000000000 256)
        tickBetweenTrades s := by
  have hsome : (run (step .debug unitLibm) (new "binance" "BTCUSDT" unitConfig 5000000000 256)
      tickBetweenTrades).isSome = true := by
    decide +kernel
  obtain ⟨s, hrun⟩ := Option.isSome_iff_exists.mp hsome
  exact ⟨s, hrun, books_agree .debug unitLibm "binance" "BTCUSDT" unitConfig 5000000000 256
    tickBetweenTrades s hrun (by decide +kernel)⟩

end Observed

end Geiger
