import Geiger.Deployment.Shown
import Geiger.Library.Progress

/-!
# Catching up with the venue

Once everything decoded has gone all the way, the client shows the newest reading of the
batch definition.  As long as the worker runs and the session stands, the system can
always get there by itself.
-/

namespace Geiger.Deployment

open Runs

variable {K W : Type} [Field K] [LinearOrder K] [FloorSemiring K]

/-- Everything decoded for the stream `i` has been sent, taken, published, forwarded on the
connection `c` and delivered to the subscriber `j`. -/
structure Settled (d : Deployment K) (j i c : ℕ) (w : Spawned K) (f : Feed) : Prop where
  item : d.service.registry.items[i]? = some w
  feed : d.feeds[i]? = some f
  queued : f.adapter.queued = []
  received : f.received = f.adapter.sent.length
  worker : ∃ engine, w.stream.worker = .running engine .select
  drained : w.stream.fanout.Drained c
  arrived : (d.subscribers j).link = .attached i c (w.stream.fanout.conns c).written.length

instance (worker : WorkerState K) : Decidable (∃ engine, worker = .running engine .select) :=
  match worker with
  | .running engine .select => .isTrue ⟨engine, rfl⟩
  | .running _ (.store _) | .running _ (.send _) | .running _ (.account _)
  | .starting | .exited | .panicked => .isFalse (by simp)

/-- The state of a client that has only listened, to messages as they are read back. -/
def Heard (reread : K → K) (written : List (ServerMessage K)) (state : ToxicityState K) : Prop :=
  state = (written.map (ServerMessage.map reread)).foldl
    (fun st msg ↦ ToxicityClient.handleMessage st (some msg)) .connecting

omit [Field K] [LinearOrder K] [FloorSemiring K] in
theorem explains_heard {codec : Codec K W} {reread : K → K} (hreads : codec.ReadsBack reread) :
    Explains codec (Heard reread) := by
  refine ⟨rfl, ?_⟩
  rintro written state msg rfl
  rw [Heard, hreads msg, List.map_append, List.foldl_append]
  rfl

/-- A staleness check of this subscriber does not fire. -/
def Fresh (j : ℕ) (d : Deployment K) (e : Event K) : Prop :=
  e = .subscriber j .stalenessCheck → ¬ Live.Fires (d.subscribers j).client

section Current

variable {m : Libm K} {heard : List NormalizedTrade} {w : Spawned K} {f : Feed}

/-- A worker that waits for the next trade has published all it has. -/
theorem Fed.readings_log (h : Fed m heard w f) {engine : VpinEngine K}
    (hworker : w.stream.worker = .running engine .select) :
    Stream.readings w.stream.fanout.channel.log =
      (Stream.batch m w.stream.engineCfg (heard.take f.received)).map
        (Stream.messageOf w.stream.exchange w.stream.symbol) := by
  have hfollows := h.taken.follows.of_worker (by simp [hworker])
  have hpending : w.stream.fanout.pending = none :=
    hfollows.pending.trans (by rw [hworker]; rfl)
  have hannounced := hfollows.announced
  rw [Stream.announced_of_select hworker, Fanout.published, hpending, Option.toList_none,
    List.append_nil, h.take_heard] at hannounced
  exact hannounced

/-- While the worker runs, what was decoded was sent or is still held. -/
theorem Fed.sent_eq (h : Fed m heard w f) (hworker : ended w.stream.worker = false)
    (hqueued : f.adapter.queued = []) : f.adapter.sent = heard := by
  have halive : f.adapter.receiverAlive = true := by
    by_contra hdead
    rw [h.dropped (by simpa using hdead)] at hworker
    cases hworker
  have hall := h.conserved halive
  rwa [hqueued, List.append_nil] at hall

variable [IsStrictOrderedRing K]

/-- In every run of the whole system, with its arithmetic taken as exact, in which no
staleness check of a client fires: when everything has been delivered and a reading was sent
since the client subscribed that the channel still holds, the client shows the last reading
that the batch definition gives for all trades decoded so far, as its floats are read
back. -/
theorem settled_client_is_current (world : World K W) (reread : K → K)
    (hreads : world.codec.ReadsBack reread) {cfg : ServiceConfig K} {s₀ : Service K}
    (hstart : Service.start cfg = .ok s₀) (request : ℕ → SubscribeRequest)
    (headers : ℕ → Headers) (staleAfter : ℕ → ℕ) (es : List (Event K)) (d : Deployment K)
    (hrun : run (step world) (deploy s₀ request headers staleAfter) es = some d) (j : ℕ)
    (hfresh : Along (step world) (Fresh j) (deploy s₀ request headers staleAfter) es)
    {i c : ℕ} {w : Spawned K} {f : Feed} (hsettled : Settled d j i c w f)
    (hheld : ∃ msg ∈ w.stream.fanout.channel.log.drop
      (max (w.stream.fanout.conns c).start w.stream.fanout.channel.oldest), msg.isReading) :
    ∃ r, (Stream.batch world.libm w.stream.engineCfg
        (venueTrades world i (deploy s₀ request headers staleAfter) es)).getLast? = some r ∧
      (d.subscribers j).client.state = ToxicityClient.readingState r.tradesInBucket
        (r.vpin.map reread) (r.vpinCdf.map reread) := by
  have hinv := inv_run hstart hrun
  have hlinked : Linked (Heard reread) d.service.registry.items (d.subscribers j) := by
    refine linked_run (explains_heard hreads) hstart (hfresh.imp ?_) hrun
    exact fun d e hfresh he hfires ↦ absurd hfires (hfresh he)
  have hfed := hinv.fed i w f hsettled.item hsettled.feed
  obtain ⟨engine, hworker⟩ := hsettled.worker
  have hsent := hfed.sent_eq (by rw [hworker]; rfl) hsettled.queued
  have hlog := hfed.readings_log hworker
  rw [hsettled.received, hsent, List.take_length] at hlog
  obtain ⟨missed, hlossy⟩ := hfed.lossy
  have hfollows := hlossy.conns c
  simp only [Fanout.Follows, hsettled.drained.phase] at hfollows
  obtain ⟨p, hp⟩ := hfollows
  obtain ⟨x, hx⟩ : ∃ x, CatchUp.newestReading (w.stream.fanout.channel.log.drop
      (max (w.stream.fanout.conns c).start w.stream.fanout.channel.oldest)) = some x := by
    obtain ⟨msg, hmsg, hreading⟩ := hheld
    apply Option.ne_none_iff_exists'.mp
    intro hnone
    rw [CatchUp.newestReading_eq_none.mp hnone msg hmsg] at hreading
    cases hreading
  obtain ⟨hnewest, hwritten⟩ := CatchUp.newestReading_of_resumed hp hsettled.drained hx
  simp only [Linked, hsettled.arrived] at hlinked
  obtain ⟨-, w', hw', -, -, -, hheard⟩ := hlinked
  obtain rfl := Option.some.inj (hw'.symm.trans hsettled.item)
  rw [List.take_length] at hheard
  have hreread : CatchUp.newestReading
      ((w'.stream.fanout.conns c).written.map (ServerMessage.map reread)) =
        some (x.map reread) := by
    rw [CatchUp.newestReading_map, hwritten, Option.map_some]
  have hstate := CatchUp.scoreState_foldl hreread (ToxicityState.connecting (F := K))
  rw [← hheard] at hstate
  have hlast : (Stream.readings w'.stream.fanout.channel.log).getLast? = some x := hnewest
  rw [hlog, List.getLast?_map, Option.map_eq_some_iff] at hlast
  obtain ⟨r, hr, rfl⟩ := hlast
  exact ⟨r, hr, (Option.some.inj hstate).symm⟩

end Current

/-- The system of `threeTrades` before its first event. -/
def deployUnit (s₀ : Service ℚ) : Deployment ℚ :=
  deploy s₀ (fun _ ↦ ⟨"bybit", "btcusdt"⟩) (fun _ ↦ ⟨[]⟩) fun _ ↦ 10

theorem settled_client_is_current_threeTrades :
    ∃ s₀ d w r, Service.start unitService = .ok s₀ ∧
      run (step unitWorld) (deployUnit s₀) threeTrades = some d ∧
      d.service.registry.items[0]? = some w ∧
      (Stream.batch unitWorld.libm w.stream.engineCfg
        (venueTrades unitWorld 0 (deployUnit s₀) threeTrades)).getLast? = some r ∧
      (d.subscribers 0).client.state = ToxicityClient.readingState r.tradesInBucket
        (r.vpin.map id) (r.vpinCdf.map id) := by
  have hrun : ((Service.start unitService).toOption.bind fun s₀ ↦
      (run (step unitWorld) (deployUnit s₀) threeTrades).bind fun d ↦
        d.service.registry.items[0]?.bind fun w ↦ d.feeds[0]?.map fun f ↦
          decide (f.adapter.queued.isEmpty ∧ f.received = f.adapter.sent.length ∧
            (∃ engine, w.stream.worker = .running engine .select) ∧
            (w.stream.fanout.conns 0).phase = .forwarding ∧
            (w.stream.fanout.conns 0).next = w.stream.fanout.channel.log.length ∧
            (d.subscribers 0).link = .attached 0 0 (w.stream.fanout.conns 0).written.length ∧
            ∃ msg ∈ w.stream.fanout.channel.log.drop
              (max (w.stream.fanout.conns 0).start w.stream.fanout.channel.oldest),
              msg.isReading)) = some true := by
    decide +kernel
  obtain ⟨s₀, hstart, hrun⟩ := Option.bind_eq_some_iff.mp hrun
  obtain ⟨d, hd, hrun⟩ := Option.bind_eq_some_iff.mp hrun
  obtain ⟨w, hw, hrun⟩ := Option.bind_eq_some_iff.mp hrun
  obtain ⟨f, hf, hsettled⟩ := Option.map_eq_some_iff.mp hrun
  obtain ⟨hqueued, hreceived, hworker, hphase, hnext, harrived, hheld⟩ :=
    of_decide_eq_true hsettled
  have hok : Service.start unitService = .ok s₀ := Fallible.ok_of_toOption hstart
  obtain ⟨r, hr, hstate⟩ := settled_client_is_current unitWorld id
    (CatchUp.readsBack_plainCodec ℚ) hok _ _ _ threeTrades d hd 0
    (along_of_mem (by
      rintro e he d rfl
      simp [threeTrades, publish] at he) _)
    ⟨hw, hf, List.isEmpty_iff.mp hqueued, hreceived, hworker, ⟨hphase, hnext⟩, harrived⟩ hheld
  exact ⟨s₀, d, w, r, hok, hd, hw, hr, hstate⟩

/-! ## What is left to do -/

/-- The steps by which what has been decoded goes on to one client. -/
inductive Onward (j i c : ℕ) : Event K → Prop where
  | send : Onward j i c (.adapter i .send)
  | receive : Onward j i c (.receive i)
  | proceed : Onward j i c (.service (.stream i .proceed))
  | snapshot : Onward j i c (.service (.stream i (.snapshot c)))
  | recv : Onward j i c (.service (.stream i (.recv c)))
  | deliver : Onward j i c (.subscriber j .deliver)

/-- What is left of a publish, counted with the message that it puts into the queue. -/
def toPublish : WorkerState K → ℕ
  | .running _ (.store _) => 5
  | .running _ (.send _) => 4
  | .running _ (.account _) => 1
  | _ => 0

/-- What is left to do on a connection of which `arrived` messages have been delivered. -/
def toForward (fanout : Fanout (ServerMessage K)) (c arrived : ℕ) : ℕ :=
  2 * (fanout.channel.log.length - (fanout.conns c).next) +
    (if (fanout.conns c).phase = .subscribed then 2 else 0) +
    ((fanout.conns c).written.length - arrived)

def toDo (w : Spawned K) (f : Feed) (c arrived : ℕ) : ℕ :=
  7 * f.adapter.queued.length + 6 * (f.adapter.sent.length - f.received) +
    toPublish w.stream.worker + toForward w.stream.fanout c arrived

def Running : WorkerState K → Prop
  | .running _ _ => True
  | _ => False

/-- In a debug build the trades that are still to be pushed pass the assertions of the
bucketer, and its counter has room for all of them. -/
def Passable (build : Build) (w : Spawned K) (f : Feed) : Prop :=
  build = .debug →
    (∀ t ∈ f.adapter.sent.drop f.received ++ f.adapter.queued,
      (Stream.toTrade t : Trade K).Positive) ∧
    ∀ engine await, w.stream.worker = .running engine await →
      engine.bucketer.tradeCount.toNat + (f.adapter.sent.drop f.received).length +
        f.adapter.queued.length ≤ 4294967295

section Onward

variable [IsStrictOrderedRing K] {world : World K W} {heartbeatInterval j i c : ℕ}
  {d d' : Deployment K} {w : Spawned K} {f : Feed} {arrived : ℕ}

omit [Field K] [LinearOrder K] [FloorSemiring K] [IsStrictOrderedRing K] in
theorem explains_true (codec : Codec K W) :
    Explains codec (fun (_ : List (ServerMessage K)) _ ↦ True) :=
  ⟨trivial, fun _ _ _ _ ↦ trivial⟩

omit [IsStrictOrderedRing K] in
/-- The stream takes a step of its own. -/
theorem step_stream (hw : d.service.registry.items[i]? = some w) (hf : d.feeds[i]? = some f)
    {e : Stream.Event} (he : IsInternal (K := K) (.stream i e)) (hsub : ∀ c, e ≠ .subscribe c)
    {stream : Stream K} (hstream : w.stream.step world.libm e = some stream) :
    ∃ d', d.step world (.service (.stream i e)) = some d' ∧
      d'.service.registry.items[i]? = some { w with stream } ∧ d'.feeds[i]? = some f ∧
      d'.subscribers = d.subscribers := by
  have hservice : d.service.step world.libm world.readStreams (.stream i e) =
      some { d.service with registry := d.service.registry.set i { w with stream } } := by
    have hstep : d.service.step world.libm world.readStreams (.stream i e) =
        d.service.streamStep world.libm i e := by
      cases e with
      | subscribe c => exact absurd rfl (hsub c)
      | _ => rfl
    rw [hstep, Service.streamStep, hw, Option.bind_some, hstream]
    rfl
  refine ⟨d.withService { d.service with
    registry := d.service.registry.set i { w with stream } }, ?_, ?_, ?_, rfl⟩
  · rw [Deployment.step, if_pos he, hservice]
    rfl
  · simp [Deployment.withService, Directory.set, (List.getElem?_eq_some_iff.mp hw).1]
  · exact (List.getElem?_append_left (List.getElem?_eq_some_iff.mp hf).1).trans hf

/-- The session stands and the worker runs. -/
structure Standing (world : World K W) (heartbeatInterval j i c : ℕ) (d : Deployment K)
    (w : Spawned K) (f : Feed) (arrived : ℕ) : Prop where
  inv : ∃ heard, Inv world.libm heartbeatInterval heard d
  linked : Linked (fun _ _ ↦ True) d.service.registry.items (d.subscribers j)
  item : d.service.registry.items[i]? = some w
  feed : d.feeds[i]? = some f
  link : (d.subscribers j).link = .attached i c arrived
  running : Running w.stream.worker
  passable : Passable world.build w f

/-- There is a step onward that leaves less to do. -/
def GoesOn (world : World K W) (heartbeatInterval j i c : ℕ) (d : Deployment K) (k : ℕ) :
    Prop :=
  ∃ e d' w' f' arrived', Onward j i c e ∧ d.step world e = some d' ∧
    Standing world heartbeatInterval j i c d' w' f' arrived' ∧ toDo w' f' c arrived' < k

theorem Standing.goesOn (h : Standing world heartbeatInterval j i c d w f arrived) {e : Event K}
    (honward : Onward j i c e) (hstep : d.step world e = some d') (w' : Spawned K) (f' : Feed)
    (arrived' : ℕ) (hw : d'.service.registry.items[i]? = some w') (hf : d'.feeds[i]? = some f')
    (hlink : (d'.subscribers j).link = .attached i c arrived')
    (hrunning : Running w'.stream.worker) (hpassable : Passable world.build w' f')
    (hless : toDo w' f' c arrived' < toDo w f c arrived) :
    GoesOn world heartbeatInterval j i c d (toDo w f c arrived) := by
  obtain ⟨heard, hinv⟩ := h.inv
  have hlinked := h.linked.step (explains_true world.codec) hinv (fun _ _ _ _ ↦ trivial) hstep
  exact ⟨e, d', w', f', arrived', honward, hstep,
    ⟨⟨_, hinv.step hstep⟩, hlinked, hw, hf, hlink, hrunning, hpassable⟩, hless⟩

omit [IsStrictOrderedRing K] in
theorem Standing.fed (h : Standing world heartbeatInterval j i c d w f arrived) :
    ∃ heard, Fed world.libm heard w f := by
  obtain ⟨heard, hinv⟩ := h.inv
  exact ⟨_, hinv.fed i w f h.item h.feed⟩

omit [FloorSemiring K] [IsStrictOrderedRing K] in
/-- The worker goes on with the same engine. -/
theorem Passable.of_worker {build : Build} {stream : Stream K} (h : Passable build w f)
    (hsame : ∀ engine await, stream.worker = .running engine await →
      ∃ await', w.stream.worker = .running engine await') :
    Passable build { w with stream } f := by
  intro hdebug
  obtain ⟨hpositive, hroom⟩ := h hdebug
  refine ⟨hpositive, fun engine await hworker ↦ ?_⟩
  obtain ⟨await', hworker'⟩ := hsame engine await hworker
  exact hroom engine await' hworker'

/-- A step of the stream. -/
theorem Standing.stream (h : Standing world heartbeatInterval j i c d w f arrived)
    {e : Stream.Event} (he : IsInternal (K := K) (.stream i e)) (hsub : ∀ c, e ≠ .subscribe c)
    (honward : Onward j i c (.service (.stream i e) : Event K)) {stream : Stream K}
    (hstream : w.stream.step world.libm e = some stream) (hrunning : Running stream.worker)
    (hsame : ∀ engine await, stream.worker = .running engine await →
      ∃ await', w.stream.worker = .running engine await')
    (hless : toPublish stream.worker + toForward stream.fanout c arrived <
      toPublish w.stream.worker + toForward w.stream.fanout c arrived) :
    GoesOn world heartbeatInterval j i c d (toDo w f c arrived) := by
  obtain ⟨d', hstep, hw, hf, hsubscribers⟩ := step_stream h.item h.feed he hsub hstream
  refine h.goesOn honward hstep _ _ _ hw hf (by rw [hsubscribers]; exact h.link) hrunning
    (h.passable.of_worker hsame) ?_
  simp only [toDo]
  omega

theorem Standing.send (h : Standing world heartbeatInterval j i c d w f arrived)
    (hqueued : f.adapter.queued ≠ []) :
    GoesOn world heartbeatInterval j i c d (toDo w f c arrived) := by
  obtain ⟨heard, hfed⟩ := h.fed
  obtain ⟨t, rest, hphase⟩ : ∃ t rest, f.adapter.phase = .session (t :: rest) := by
    unfold Adapter.queued at hqueued
    split at hqueued
    · rename_i trades hphase
      obtain ⟨t, rest, rfl⟩ := List.exists_cons_of_ne_nil hqueued
      exact ⟨t, rest, hphase⟩
    · exact absurd rfl hqueued
  have halive : f.adapter.receiverAlive = true := by
    by_contra hdead
    have hended := hfed.dropped (by simpa using hdead)
    have hrunning := h.running
    cases hworker : w.stream.worker <;> simp [hworker, ended, Running] at hended hrunning
  have hstep : d.step world (.adapter i .send) = some (d.setFeed i { f with adapter :=
      { f.adapter with phase := .session rest, sent := f.adapter.sent ++ [t] } }) := by
    simp [Deployment.step, Deployment.adapterStep, h.item, h.feed, Adapter.step, hphase,
      Adapter.onSend, halive]
  have hf : (d.setFeed i { f with adapter :=
      { f.adapter with phase := .session rest, sent := f.adapter.sent ++ [t] } }).feeds[i]? =
        some { f with adapter :=
          { f.adapter with phase := .session rest, sent := f.adapter.sent ++ [t] } } := by
    simp [Deployment.setFeed, (List.getElem?_eq_some_iff.mp h.feed).1]
  have hle := hfed.received_le
  refine h.goesOn .send hstep _ _ _ h.item hf h.link h.running ?_ ?_
  · intro hdebug
    obtain ⟨hpositive, hroom⟩ := h.passable hdebug
    simp only [Adapter.queued, hphase] at hpositive hroom ⊢
    rw [List.drop_append_of_le_length hle]
    refine ⟨by simpa using hpositive, fun engine await hworker ↦ ?_⟩
    have hroom := hroom engine await hworker
    simp only [List.length_append, List.length_cons, List.length_nil] at hroom ⊢
    omega
  simp only [toDo, Adapter.queued, hphase, List.length_append, List.length_cons, List.length_nil]
  omega

/-- A publish under way goes on. -/
theorem Standing.proceed (h : Standing world heartbeatInterval j i c d w f arrived)
    (hworker : ∀ engine, w.stream.worker ≠ .running engine .select) :
    GoesOn world heartbeatInterval j i c d (toDo w f c arrived) := by
  obtain ⟨heard, hfed⟩ := h.fed
  have hrunning := h.running
  have hpanicked : w.stream.worker ≠ .panicked := by
    intro hpanicked
    rw [hpanicked] at hrunning
    exact hrunning
  have hpending := (hfed.taken.follows.of_worker hpanicked).pending
  have hgo : ∀ stream, w.stream.proceed = some stream → Running stream.worker →
      (∀ engine await, stream.worker = .running engine await →
        ∃ await', w.stream.worker = .running engine await') →
      toPublish stream.worker + toForward stream.fanout c arrived <
        toPublish w.stream.worker + toForward w.stream.fanout c arrived →
      GoesOn world heartbeatInterval j i c d (toDo w f c arrived) :=
    fun stream hstream ↦ h.stream (e := .proceed) rfl (by simp) .proceed hstream
  cases hw : w.stream.worker with
  | starting | exited | panicked =>
      rw [hw] at hrunning
      exact hrunning.elim
  | running engine await =>
      rw [hw] at hpending
      have hsame : ∀ {after : Await K} engine' await',
          WorkerState.running engine after = .running engine' await' →
          ∃ await', w.stream.worker = .running engine' await' := by
        rintro after engine' await' heq
        obtain ⟨rfl, -⟩ := WorkerState.running.inj heq
        exact ⟨await, hw⟩
      cases await with
      | select => exact absurd hw (hworker engine)
      | store msg =>
          refine hgo _ (Stream.proceed_of_store hw hpending) trivial hsame ?_
          simp [hw, toPublish, toForward]
      | send msg =>
          refine hgo _ (Stream.proceed_of_send hw hpending) trivial hsame ?_
          simp only [hw, toPublish, toForward, Broadcast.send, List.length_append,
            List.length_singleton]
          omega
      | account msg =>
          refine hgo _ (Stream.proceed_of_account hw) trivial hsame ?_
          simp [hw, toPublish]

/-- A trade that passes, and for which there is room, is pushed in any build. -/
theorem Standing.pushTrade (h : Standing world heartbeatInterval j i c d w f arrived)
    {engine : VpinEngine K} (hworker : w.stream.worker = .running engine .select)
    (hreceived : f.received < f.adapter.sent.length) :
    ∃ reading engine', engine.pushTradeIn world.build world.libm
        (Stream.toTrade f.adapter.sent[f.received]) = .ok (reading, engine') ∧
      Passable world.build { w with stream := { w.stream with
        worker := .running engine' .select } } { f with received := f.received + 1 } := by
  obtain ⟨heard, hfed⟩ := h.fed
  have hinv := hfed.taken.worker
  simp only [Stream.WorkerInv, hworker] at hinv
  obtain ⟨-, huse, hci⟩ := hinv
  have hdrop : f.adapter.sent.drop f.received =
      f.adapter.sent[f.received] :: f.adapter.sent.drop (f.received + 1) :=
    List.drop_eq_getElem_cons hreceived
  have hpassable := h.passable
  rw [Passable, hdrop] at hpassable
  have hfits : engine.Fits world.build (Stream.toTrade f.adapter.sent[f.received]) := by
    refine (VpinEngine.fits_iff hci _).mpr fun hdebug ↦ ?_
    obtain ⟨hpositive, hroom⟩ := hpassable hdebug
    refine ⟨hpositive _ (List.mem_append_left _ List.mem_cons_self), fun hfull ↦ ?_⟩
    have hroom := hroom engine _ hworker
    rw [hfull, List.length_cons] at hroom
    have hmax : (4294967295 : UInt32).toNat = 4294967295 := rfl
    omega
  obtain ⟨reading, engine', hpush, -⟩ := huse.pushTrade (m := world.libm)
    (Stream.toTrade f.adapter.sent[f.received])
  have hpushIn : engine.pushTradeIn world.build world.libm
      (Stream.toTrade f.adapter.sent[f.received]) = .ok (reading, engine') := by
    rw [VpinEngine.pushTradeIn_of_fits huse hfits, hpush]
    rfl
  have hcount : engine'.bucketer.tradeCount.toNat ≤ engine.bucketer.tradeCount.toNat + 1 := by
    obtain ⟨-, -, hcount⟩ | ⟨r, -, -, -, -, hcount⟩ := VpinEngine.pushTradeIn_bucketer hpushIn
    · rw [hcount, UInt32.toNat_add]
      exact Nat.mod_le _ _
    · rw [hcount]
      exact Nat.zero_le _
  refine ⟨reading, engine', hpushIn, fun hdebug ↦ ?_⟩
  obtain ⟨hpositive, hroom⟩ := hpassable hdebug
  refine ⟨fun t ht ↦ hpositive t (List.mem_cons_of_mem _ ht), ?_⟩
  rintro engine'' await ⟨⟩
  have hroom := hroom engine _ hworker
  simp only [List.length_cons] at hroom ⊢
  omega

/-- A worker that waits takes the next trade. -/
theorem Standing.receive (h : Standing world heartbeatInterval j i c d w f arrived)
    {engine : VpinEngine K} (hworker : w.stream.worker = .running engine .select)
    (hreceived : f.received < f.adapter.sent.length) :
    GoesOn world heartbeatInterval j i c d (toDo w f c arrived) := by
  obtain ⟨reading, engine', hpush, hpassable⟩ := h.pushTrade hworker hreceived
  obtain ⟨await, hawait, hstream⟩ : ∃ await : Await K, toPublish (.running engine' await) ≤ 5 ∧
      w.stream.stepIn world.build world.libm (.trade f.adapter.sent[f.received]) =
        some { w.stream with
          health := w.stream.health.countTrade f.adapter.sent[f.received]
          worker := .running engine' await } := by
    cases reading with
    | none =>
        exact ⟨.select, by simp [toPublish], by
          simp [Stream.stepIn, hworker, Stream.onTradeIn, hpush]⟩
    | some r =>
        exact ⟨.store (w.stream.readingMessage r), by simp [toPublish], by
          simp [Stream.stepIn, hworker, Stream.onTradeIn, hpush, Stream.readingMessage]⟩
  have hservice : d.service.streamStepIn world.build world.libm i
      (.trade f.adapter.sent[f.received]) = some { d.service with
        registry := d.service.registry.set i { w with stream := { w.stream with
          health := w.stream.health.countTrade f.adapter.sent[f.received]
          worker := .running engine' await } } } := by
    rw [Service.streamStepIn, h.item, Option.bind_some, hstream]
    rfl
  have hstep := show d.step world (.receive i) = some _ by
    rw [Deployment.step, Deployment.receive, h.feed, Option.bind_some,
      List.getElem?_eq_getElem hreceived, Option.bind_some, hservice, Option.map_some]
  refine h.goesOn .receive hstep
    { w with stream := { w.stream with
        health := w.stream.health.countTrade f.adapter.sent[f.received]
        worker := .running engine' await } }
    { f with received := f.received + 1 } _ ?_ ?_ h.link trivial ?_ ?_
  · simp [Deployment.setFeed, Directory.set, (List.getElem?_eq_some_iff.mp h.item).1]
  · simp [Deployment.setFeed, (List.getElem?_eq_some_iff.mp h.feed).1]
  · refine hpassable.of_worker fun engine'' await'' heq ↦ ?_
    obtain ⟨rfl, -⟩ := WorkerState.running.inj heq
    exact ⟨.select, rfl⟩
  · simp only [toDo]
    omega

/-- The connection writes its snapshot. -/
theorem Standing.snapshot (h : Standing world heartbeatInterval j i c d w f arrived)
    (hphase : (w.stream.fanout.conns c).phase = .subscribed) :
    GoesOn world heartbeatInterval j i c d (toDo w f c arrived) := by
  have hstream : w.stream.step world.libm (.snapshot c) = some { w.stream with
      fanout := w.stream.fanout.setConn c { w.stream.fanout.conns c with
        phase := .forwarding, written := w.stream.fanout.lastMessage.toList } } := by
    simp [Stream.step, Stream.connStep, Fanout.step, hphase]
  refine h.stream (e := .snapshot c) rfl (by simp) .snapshot hstream h.running
    (fun _ await hworker ↦ ⟨await, hworker⟩) ?_
  have hone : w.stream.fanout.lastMessage.toList.length ≤ 1 := by
    cases w.stream.fanout.lastMessage <;> simp
  simp only [toForward, Fanout.setConn_conns_self, hphase, reduceCtorEq, if_true, if_false]
  simp only [Fanout.setConn]
  omega

/-- The connection takes the next message from its queue, or finds that it has lagged. -/
theorem Standing.recv (h : Standing world heartbeatInterval j i c d w f arrived)
    (hphase : (w.stream.fanout.conns c).phase = .forwarding)
    (hnext : (w.stream.fanout.conns c).next < w.stream.fanout.channel.log.length) :
    GoesOn world heartbeatInterval j i c d (toDo w f c arrived) := by
  have hgo : ∀ r, w.stream.fanout.channel.recv (w.stream.fanout.conns c).next = some r →
      toForward (w.stream.fanout.setConn c (Fanout.recvConn (w.stream.fanout.conns c) r)) c
        arrived < toForward w.stream.fanout c arrived →
      GoesOn world heartbeatInterval j i c d (toDo w f c arrived) := by
    intro r hr hless
    have hstream : w.stream.step world.libm (.recv c) = some { w.stream with
        fanout := w.stream.fanout.setConn c (Fanout.recvConn (w.stream.fanout.conns c) r) } := by
      simp [Stream.step, Stream.connStep, Fanout.step, hphase, hr]
    exact h.stream (e := .recv c) rfl (by simp) .recv hstream h.running
      (fun _ await hworker ↦ ⟨await, hworker⟩) (by simp only; omega)
  by_cases hold : (w.stream.fanout.conns c).next < w.stream.fanout.channel.oldest
  · refine hgo (.lagged (w.stream.fanout.channel.oldest - (w.stream.fanout.conns c).next),
      w.stream.fanout.channel.oldest) (by simp [Broadcast.recv, hold]) ?_
    simp only [toForward, Fanout.setConn_conns_self, Fanout.recvConn]
    simp only [Fanout.setConn]
    omega
  · refine hgo (.message w.stream.fanout.channel.log[(w.stream.fanout.conns c).next],
      (w.stream.fanout.conns c).next + 1) (by simp [Broadcast.recv, hold, hnext]) ?_
    simp only [toForward, Fanout.setConn_conns_self, Fanout.recvConn, List.length_append,
      List.length_singleton]
    simp only [Fanout.setConn]
    omega

/-- The next message written reaches the client. -/
theorem Standing.deliver (h : Standing world heartbeatInterval j i c d w f arrived)
    (harrived : arrived < (w.stream.fanout.conns c).written.length) :
    GoesOn world heartbeatInterval j i c d (toDo w f c arrived) := by
  obtain ⟨t, hsession⟩ : ∃ t, (d.subscribers j).client.phase = .session t := by
    have hlinked := h.linked
    simp only [Linked, h.link] at hlinked
    exact hlinked.1
  obtain ⟨client, hclient⟩ : ∃ client, (d.subscribers j).client.step world.codec.fromStr
      (.text (world.codec.toString (w.stream.fanout.conns c).written[arrived])) = some client := by
    simp [ToxicityClient.step, hsession]
  have hstep : d.step world (.subscriber j .deliver) = some (d.setSubscriber j
      { d.subscribers j with client, link := .attached i c (arrived + 1) }) := by
    simp [Deployment.step, Deployment.subscriberStep, Deployment.nextMessage, h.link, h.item,
      harrived, Deployment.clientStep, hclient]
  refine h.goesOn .deliver hstep _ _ (arrived + 1) h.item h.feed ?_ h.running h.passable ?_
  · simp [Deployment.setSubscriber]
  · simp only [toDo, toForward]
    omega

/-- There is always something to do onward, until everything has arrived. -/
theorem Standing.settled_or (h : Standing world heartbeatInterval j i c d w f arrived) :
    Settled d j i c w f ∨ GoesOn world heartbeatInterval j i c d (toDo w f c arrived) := by
  by_cases hqueued : f.adapter.queued = []
  case neg => exact .inr (h.send hqueued)
  by_cases hworker : ∃ engine, w.stream.worker = .running engine .select
  case neg => exact .inr (h.proceed (not_exists.mp hworker))
  obtain ⟨engine, hworker⟩ := hworker
  obtain ⟨heard, hfed⟩ := h.fed
  by_cases hreceived : f.received < f.adapter.sent.length
  · exact .inr (h.receive hworker hreceived)
  have hlinked := h.linked
  simp only [Linked, h.link] at hlinked
  obtain ⟨-, w', hw', -, hopen, harrived, -⟩ := hlinked
  obtain rfl := Option.some.inj (hw'.symm.trans h.item)
  obtain ⟨missed, hlossy⟩ := hfed.lossy
  have hfollows := hlossy.conns c
  cases hphase : (w'.stream.fanout.conns c).phase with
  | idle => exact absurd hphase hopen
  | subscribed => exact .inr (h.snapshot hphase)
  | forwarding =>
      simp only [Fanout.Follows, hphase] at hfollows
      obtain ⟨p, hp⟩ := hfollows
      rcases hp.next_le.lt_or_eq with hnext | hnext
      · exact .inr (h.recv hphase hnext)
      rcases harrived.lt_or_eq with hlt | heq
      · exact .inr (h.deliver hlt)
      · exact .inl ⟨h.item, h.feed, hqueued, le_antisymm hfed.received_le (not_lt.mp hreceived),
          ⟨engine, hworker⟩, ⟨hphase, hnext⟩, heq ▸ h.link⟩

omit [FloorSemiring K] [IsStrictOrderedRing K] in
/-- A step onward decodes nothing. -/
theorem heardBy_onward {e : Event K} (h : Onward j i c e) (k : ℕ) :
    heardBy world k d e = [] := by
  cases h with
  | send =>
      simp only [heardBy]
      split
      · split <;> rfl
      · rfl
  | _ => rfl

/-- So much is left to do until everything has arrived. -/
def Left (world : World K W) (heartbeatInterval j i c k : ℕ) (d : Deployment K) : Prop :=
  ∃ w f arrived, Standing world heartbeatInterval j i c d w f arrived ∧ toDo w f c arrived = k

theorem Left.settled_or {k : ℕ} (h : Left world heartbeatInterval j i c k d) :
    (∃ w f, Settled d j i c w f) ∨ ∃ e d' k', Onward j i c e ∧ d.step world e = some d' ∧
      k' < k ∧ Left world heartbeatInterval j i c k' d' := by
  obtain ⟨w, f, arrived, hstanding, rfl⟩ := h
  rcases hstanding.settled_or with hsettled | ⟨e, d', w', f', arrived', he, hstep, hd', hlt⟩
  · exact .inl ⟨w, f, hsettled⟩
  · exact .inr ⟨e, d', _, he, hstep, hlt, w', f', arrived', hd', rfl⟩

end Onward

/-- In every run of the whole system: as long as the worker of a stream runs and a client
has a session on it, there is a way on, by steps that bring nothing new from the venue, to
where all that has been decoded for the stream has been published and delivered.  In a debug
build the trades that are still to be pushed must not make the engine panic. -/
theorem can_always_catch_up [IsStrictOrderedRing K] (world : World K W) {cfg : ServiceConfig K}
    {s₀ : Service K} (hstart : Service.start cfg = .ok s₀) (request : ℕ → SubscribeRequest)
    (headers : ℕ → Headers) (staleAfter : ℕ → ℕ) (es : List (Event K)) (d : Deployment K)
    (hrun : run (step world) (deploy s₀ request headers staleAfter) es = some d)
    {j i c arrived : ℕ} (hlink : (d.subscribers j).link = .attached i c arrived)
    {w : Spawned K} {f : Feed} (hitem : d.service.registry.items[i]? = some w)
    (hfeed : d.feeds[i]? = some f) (hrunning : Running w.stream.worker)
    (hpassable : Passable world.build w f) :
    ∃ (es' : List (Event K)) (d' : Deployment K) (w' : Spawned K) (f' : Feed),
      (∀ e ∈ es', Onward j i c e) ∧
      run (step world) (deploy s₀ request headers staleAfter) (es ++ es') = some d' ∧
      Settled d' j i c w' f' ∧
      ∀ k, venueTrades world k (deploy s₀ request headers staleAfter) (es ++ es') =
        venueTrades world k (deploy s₀ request headers staleAfter) es := by
  have hinv := inv_run hstart hrun
  have hlinked : Linked (fun _ _ ↦ True) d.service.registry.items (d.subscribers j) :=
    linked_run (explains_true world.codec) hstart
      (along_of_forall (fun _ _ _ _ _ _ ↦ trivial) _ es) hrun
  have hstanding : Left world cfg.heartbeatInterval j i c (toDo w f c arrived) d :=
    ⟨w, f, arrived, ⟨⟨_, hinv⟩, hlinked, hitem, hfeed, hlink, hrunning, hpassable⟩,
      rfl⟩
  obtain ⟨es', d', hes', hrun', ⟨w', f', hsettled⟩, -⟩ :=
    @exists_run_of_decreasing _ _ (step world) (Left world cfg.heartbeatInterval j i c)
      (fun d ↦ ∃ w f, Settled d j i c w f) (Onward j i c) (fun _ _ h ↦ h.settled_or) _ _ hstanding
  refine ⟨es', d', w', f', hes', run_append_eq_some.mpr ⟨d, hrun, hrun'⟩, hsettled, fun k ↦ ?_⟩
  rw [venueTrades, told_append es' hrun, told_eq_nil fun d e he ↦ heardBy_onward (hes' e he) k,
    List.append_nil]
  rfl

/-- How many trades the open bucket of a running worker holds. -/
def tradeCount : WorkerState K → Option ℕ
  | .running engine _ => some engine.bucketer.tradeCount.toNat
  | _ => none

omit [FloorSemiring K] in
theorem running_of_tradeCount {worker : WorkerState K} {n : ℕ} (h : tradeCount worker = some n) :
    Running worker := by
  cases worker with
  | running engine await => trivial
  | starting | exited | panicked => cases h

omit [FloorSemiring K] in
/-- Trades with a price and a quantity other than zero, and few of them. -/
theorem passable_of_tradeCount [IsStrictOrderedRing K] (build : Build) {w : Spawned K} {f : Feed}
    {n : ℕ} (h : tradeCount w.stream.worker = some n)
    (hroom : n + (f.adapter.sent.drop f.received).length + f.adapter.queued.length ≤ 4294967295)
    (hpositive : (f.adapter.sent.drop f.received ++ f.adapter.queued).all fun t ↦
      0 < t.price.raw.toNat && 0 < t.qty.raw.toNat) : Passable build w f := by
  refine fun _ ↦ ⟨fun t ht ↦ ?_, fun engine await hworker ↦ ?_⟩
  · have hraw := List.all_eq_true.mp hpositive t ht
    simp only [Bool.and_eq_true, decide_eq_true_eq] at hraw
    constructor
    · exact div_pos (by exact_mod_cast hraw.1) (by positivity)
    · exact div_pos (by exact_mod_cast hraw.2) (by positivity)
  · rw [hworker] at h
    obtain rfl := Option.some.inj h
    exact hroom

theorem can_always_catch_up_afterSend :
    ∃ s₀ d, Service.start unitService = .ok s₀ ∧
      run (step unitWorld) (deployUnit s₀) (threeTrades.take 9) = some d ∧
      (d.subscribers 0).link = .attached 0 0 0 ∧
      ∃ (es' : List (Event ℚ)) (d' : Deployment ℚ) (w' : Spawned ℚ) (f' : Feed),
        (∀ e ∈ es', Onward 0 0 0 e) ∧
        run (step unitWorld) (deployUnit s₀) (threeTrades.take 9 ++ es') = some d' ∧
        Settled d' 0 0 0 w' f' ∧
        ∀ k, venueTrades unitWorld k (deployUnit s₀) (threeTrades.take 9 ++ es') =
          venueTrades unitWorld k (deployUnit s₀) (threeTrades.take 9) := by
  have hrun : ((Service.start unitService).toOption.bind fun s₀ ↦
      (run (step unitWorld) (deployUnit s₀) (threeTrades.take 9)).bind fun d ↦
        d.service.registry.items[0]?.bind fun w ↦ d.feeds[0]?.map fun f ↦
          (decide ((d.subscribers 0).link = .attached 0 0 0), tradeCount w.stream.worker,
            (f.adapter.sent.drop f.received).length, f.adapter.queued.length,
            (f.adapter.sent.drop f.received ++ f.adapter.queued).all fun t ↦
              0 < t.price.raw.toNat && 0 < t.qty.raw.toNat)) =
        some (true, some 0, 1, 2, true) := by
    decide +kernel
  obtain ⟨s₀, hstart, hrun⟩ := Option.bind_eq_some_iff.mp hrun
  obtain ⟨d, hd, hrun⟩ := Option.bind_eq_some_iff.mp hrun
  obtain ⟨w, hw, hrun⟩ := Option.bind_eq_some_iff.mp hrun
  obtain ⟨f, hf, hstanding⟩ := Option.map_eq_some_iff.mp hrun
  simp only [Prod.mk.injEq, decide_eq_true_eq] at hstanding
  obtain ⟨hlink, hcount, hsent, hqueued, hpositive⟩ := hstanding
  have hok : Service.start unitService = .ok s₀ := Fallible.ok_of_toOption hstart
  exact ⟨s₀, d, hok, hd, hlink, can_always_catch_up unitWorld hok _ _ _ _ d hd hlink hw hf
    (running_of_tradeCount hcount) (passable_of_tradeCount .debug hcount
      (by rw [hsent, hqueued]; decide) hpositive)⟩

end Geiger.Deployment
