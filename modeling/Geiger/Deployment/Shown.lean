import Geiger.Client.Live
import Geiger.Deployment.Feeds

/-!
# What a client shows

A live state is a reading that the batch definition gives for the trades that the venue
has sent on the stream the client asked for.
-/

namespace Geiger.Deployment

open Runs

variable {K W : Type} [Field K] [LinearOrder K] [FloorSemiring K]

/-! ## The session on both sides -/

/-- A relation between what has arrived in a session and the state of the client, which
holds at the start and is kept by the text of every message. -/
structure Explains (codec : Codec K W) (p : List (ServerMessage K) → ToxicityState K → Prop) :
    Prop where
  connecting : p [] .connecting
  message : ∀ written state msg, p written state →
    p (written ++ [msg]) (ToxicityClient.handleMessage state (codec.fromStr (codec.toString msg)))

/-- The session of a subscriber, with the streams of the service. -/
def Linked (p : List (ServerMessage K) → ToxicityState K → Prop) (items : List (Spawned K))
    (u : Subscriber K) : Prop :=
  match u.link with
  | .down => (∀ t, u.client.phase ≠ .session t) ∧
      (u.client.phase = .connecting → u.client.state = .connecting) ∧
      ∀ vpin vpinCdf n, u.client.state ≠ .live vpin vpinCdf n
  | .attached i c arrived => (∃ t, u.client.phase = .session t) ∧
      ∃ w, items[i]? = some w ∧ w.key = u.key ∧ (w.stream.fanout.conns c).phase ≠ .idle ∧
      arrived ≤ (w.stream.fanout.conns c).written.length ∧
      p ((w.stream.fanout.conns c).written.take arrived) u.client.state
  | .requested => (∃ t, u.client.phase = .session t) ∧ p [] u.client.state
  | .unknown told => (∃ t, u.client.phase = .session t) ∧
      p (if told then [unknownStream u.key] else []) u.client.state

section Links

variable {items items' : List (Spawned K)} {u : Subscriber K}
  {p : List (ServerMessage K) → ToxicityState K → Prop}

/-- The streams go on, and the session stays as it is. -/
theorem Linked.run [IsStrictOrderedRing K] {build : Build} {m : Libm K} (h : Linked p items u)
    (hmoved : ∀ (i : ℕ) (w : Spawned K), items[i]? = some w →
      Stream.WorkerInv w.stream ∧ (∃ missed, Fanout.Lossy w.stream.fanout missed) ∧
      ∃ es stream, Runs.run (Stream.stepIn build m) w.stream es = some stream ∧
        items'[i]? = some { w with stream }) : Linked p items' u := by
  unfold Linked at h ⊢
  cases hlink : u.link with
  | attached i c arrived =>
      simp only [hlink] at h ⊢
      obtain ⟨hsession, w, hw, hkey, hphase, harrived, hp⟩ := h
      obtain ⟨hinv, ⟨missed, hlossy⟩, es, stream, hrun, hw'⟩ := hmoved i w hw
      obtain ⟨es', hfanout⟩ := (Stream.kept_of_run hinv hrun).fanout
      obtain ⟨hphase', hwritten⟩ := (hlossy.keeps hfanout).written c hphase
      refine ⟨hsession, _, hw', hkey, hphase', harrived.trans hwritten.length_le, ?_⟩
      obtain ⟨more, hmore⟩ := hwritten
      rw [← hmore, List.take_append_of_le_length harrived]
      exact hp
  | down | requested | unknown _ =>
      simp only [hlink] at h ⊢
      exact h

omit [FloorSemiring K]

theorem linked_down {client : ToxicityClient K} (hphase : ∀ t, client.phase ≠ .session t)
    (hconnecting : client.phase = .connecting → client.state = .connecting)
    (hstate : ∀ vpin vpinCdf n, client.state ≠ .live vpin vpinCdf n) :
    Linked p items { u with client, link := .down } := ⟨hphase, hconnecting, hstate⟩

/-- A client that is connecting has no session, and shows that it is connecting. -/
theorem Linked.of_connecting (h : Linked p items u) (hphase : u.client.phase = .connecting) :
    u.client.state = .connecting := by
  unfold Linked at h
  cases hlink : u.link with
  | down =>
      simp only [hlink] at h
      exact h.2.1 hphase
  | requested | attached _ _ _ | unknown _ =>
      simp only [hlink] at h
      obtain ⟨⟨t, ht⟩, -⟩ := h
      exact nomatch hphase.symm.trans ht

/-- The client goes on in the same session. -/
theorem Linked.of_client (h : Linked p items u) {t t' : ℕ} {client : ToxicityClient K}
    (hphase : u.client.phase = .session t) (hphase' : client.phase = .session t')
    (hp : ∀ written, p written u.client.state → p written client.state) :
    Linked p items { u with client } := by
  unfold Linked at h ⊢
  cases hlink : u.link with
  | down =>
      simp only [hlink] at h
      exact absurd hphase (h.1 t)
  | attached i c n =>
      simp only [hlink] at h ⊢
      obtain ⟨-, w, hw, hkey, hopen, harrived, hold⟩ := h
      exact ⟨⟨t', hphase'⟩, w, hw, hkey, hopen, harrived, hp _ hold⟩
  | requested | unknown _ =>
      simp only [hlink] at h ⊢
      exact ⟨⟨t', hphase'⟩, hp _ h.2⟩

/-- Time passes, and nothing else does. -/
theorem Linked.of_wait (h : Linked p items u) {client : ToxicityClient K}
    (hphase : client.phase = u.client.phase) (hstate : client.state = u.client.state) :
    Linked p items { u with client } := by
  unfold Linked at h ⊢
  cases hlink : u.link <;> simp only [hlink] at h ⊢ <;> rw [hphase, hstate] <;> exact h

end Links

section Steps

variable {world : World K W} {heartbeatInterval : ℕ} {heard : ℕ → List NormalizedTrade}
  {d d' : Deployment K} {p : List (ServerMessage K) → ToxicityState K → Prop}

omit [FloorSemiring K] in
theorem nextMessage_eq_some {u : Subscriber K} {msg : ServerMessage K} {link : Link}
    (h : d.nextMessage u = some (msg, link)) :
    (∃ i c n w, u.link = .attached i c n ∧ d.service.registry.items[i]? = some w ∧
      (w.stream.fanout.conns c).written[n]? = some msg ∧ link = .attached i c (n + 1)) ∨
    u.link = .unknown false ∧ msg = unknownStream u.key ∧ link = .unknown true := by
  unfold nextMessage at h
  split at h
  · rename_i i c n hlink
    obtain ⟨msg', hmsg, heq⟩ := Option.map_eq_some_iff.mp h
    obtain ⟨w, hw, hmsg⟩ := Option.bind_eq_some_iff.mp hmsg
    obtain ⟨rfl, rfl⟩ := Prod.mk.inj heq
    exact .inl ⟨i, c, n, w, hlink, hw, hmsg, rfl⟩
  · rename_i hlink
    obtain ⟨rfl, rfl⟩ := Prod.mk.inj (Option.some.inj h)
    exact .inr ⟨hlink, rfl, rfl⟩
  · cases h

omit [FloorSemiring K] in
/-- The next message of the session reaches the client. -/
theorem Linked.deliver (hp : Explains world.codec p) {u : Subscriber K}
    (h : Linked p d.service.registry.items u) {msg : ServerMessage K} {link : Link}
    (hnext : d.nextMessage u = some (msg, link)) {client : ToxicityClient K}
    (hstep : u.client.step world.codec.fromStr (.text (world.codec.toString msg)) =
      some client) : Linked p d.service.registry.items { u with client, link } := by
  obtain ⟨-, rfl⟩ := ToxicityClient.text_eq_some hstep
  rcases nextMessage_eq_some hnext with ⟨i, c, n, w, hlink, hw, hmsg, rfl⟩ | ⟨hlink, rfl, rfl⟩
  · simp only [Linked, hlink] at h ⊢
    obtain ⟨-, w', hw', hkey, hopen, -, hold⟩ := h
    obtain rfl := Option.some.inj (hw'.symm.trans hw)
    refine ⟨⟨_, rfl⟩, w', hw, hkey, hopen, (List.getElem?_eq_some_iff.mp hmsg).1, ?_⟩
    rw [List.take_add_one, hmsg, Option.toList_some]
    exact hp.message _ _ msg hold
  · simp only [Linked, hlink] at h ⊢
    exact ⟨⟨_, rfl⟩, hp.message _ _ _ h.2⟩

/-- The service reads the request and subscribes the connection. -/
theorem Linked.served (hwired : d.service.WellWired heartbeatInterval) {j c : ℕ}
    (h : Linked p d.service.registry.items (d.subscribers j))
    (hstep : d.served world j c = some d') :
    Linked p d'.service.registry.items (d'.subscribers j) := by
  obtain ⟨hlink, ⟨hindex, rfl⟩ | ⟨i, w, stream, service, hindex, hw, hstream, -, heq, rfl⟩⟩ :=
    served_eq_some hstep
  all_goals
    simp only [Linked, hlink] at h
    simp only [Deployment.setSubscriber, Function.update_self]
  · exact h
  · have hkey := hwired.sound.of_index _ _ hindex
    rw [List.getElem?_map, hw] at hkey
    have hitem : service.registry.items[i]? = some { w with stream } := by
      rw [heq]
      simp [Directory.set, (List.getElem?_eq_some_iff.mp hw).1]
    obtain ⟨fanout, hfanout, rfl⟩ := Stream.connStep_eq_some hstream
    obtain ⟨-, rfl⟩ := Fanout.subscribe_eq_some hfanout
    refine ⟨h.1, _, hitem, Option.some.inj hkey, ?_, Nat.zero_le _, ?_⟩
    · simp [Fanout.subscribeConn]
    · simpa using h.2

/-- The subscriber itself takes a step, one case for each event. -/
theorem Linked.subscriberStep (hp : Explains world.codec p)
    (hwired : d.service.WellWired heartbeatInterval) {j : ℕ}
    (h : Linked p d.service.registry.items (d.subscribers j)) {e : Subscriber.Event}
    (hcheck : e = .stalenessCheck → Live.Fires (d.subscribers j).client → ∀ written,
      p written (d.subscribers j).client.state → p written .stale)
    (hstep : d.subscriberStep world j e = some d') :
    Linked p d'.service.registry.items (d'.subscribers j) := by
  have hset : ∀ {u : Subscriber K}, Linked p d.service.registry.items u →
      Linked p (d.setSubscriber j u).service.registry.items
        ((d.setSubscriber j u).subscribers j) := by
    intro u hu
    simpa [Deployment.setSubscriber] using hu
  cases e with
  | attempt =>
      obtain ⟨client, hclient, rfl⟩ := clientStep_eq_some hstep
      obtain ⟨-, rfl⟩ := ToxicityClient.attempt_eq_some hclient
      exact hset (linked_down (by simp) (fun _ ↦ rfl) (by simp))
  | refused =>
      obtain ⟨client, hclient, rfl⟩ := clientStep_eq_some hstep
      obtain ⟨-, rfl⟩ := ToxicityClient.refused_eq_some hclient
      exact hset (linked_down (by simp) (by simp) (by simp))
  | established =>
      simp only [Deployment.subscriberStep] at hstep
      split at hstep
      case h_2 => cases hstep
      obtain ⟨client, hclient, rfl⟩ := clientStep_eq_some hstep
      obtain ⟨hphase, rfl⟩ := ToxicityClient.established_eq_some hclient
      refine hset ⟨⟨_, rfl⟩, ?_⟩
      simp only
      rw [h.of_connecting hphase]
      exact hp.connecting
  | served c => exact h.served hwired hstep
  | deliver =>
      obtain ⟨⟨msg, link⟩, hnext, hstep⟩ := Option.bind_eq_some_iff.mp hstep
      obtain ⟨client, hclient, rfl⟩ := clientStep_eq_some hstep
      exact hset (h.deliver hp hnext hclient)
  | otherFrame =>
      obtain ⟨client, hclient, rfl⟩ := clientStep_eq_some hstep
      obtain ⟨-, rfl⟩ := ToxicityClient.otherFrame_eq_some hclient
      exact hset h
  | stalenessCheck =>
      obtain ⟨client, hclient, rfl⟩ := clientStep_eq_some hstep
      obtain ⟨t, ht, rfl⟩ := ToxicityClient.stalenessCheck_eq_some hclient
      split
      · rename_i hfires
        exact hset (h.of_client ht (show ToxicityClient.phase _ = .session t from ht)
          (hcheck rfl ⟨t, ht, hfires⟩))
      · exact hset h
  | ended =>
      obtain ⟨client, hclient, rfl⟩ := clientStep_eq_some hstep
      obtain ⟨-, rfl⟩ := ToxicityClient.ended_eq_some hclient
      exact hset (linked_down (by simp) (by simp) (by simp))
  | wait n =>
      obtain ⟨client, hclient, rfl⟩ := clientStep_eq_some hstep
      cases hclient
      exact hset (h.of_wait rfl rfl)

/-- Any step of the system, as the session of one subscriber sees it. -/
theorem Linked.step [IsStrictOrderedRing K] (hp : Explains world.codec p)
    (hinv : Inv world.libm heartbeatInterval heard d) {j : ℕ}
    (h : Linked p d.service.registry.items (d.subscribers j)) {e : Event K}
    (hcheck : e = .subscriber j .stalenessCheck → Live.Fires (d.subscribers j).client →
      ∀ written, p written (d.subscribers j).client.state → p written .stale)
    (hstep : d.step world e = some d') :
    Linked p d'.service.registry.items (d'.subscribers j) := by
  have hothers : d'.subscribers j = d.subscribers j →
      Linked p d'.service.registry.items (d'.subscribers j) := by
    intro hsame
    rw [hsame]
    refine @Linked.run _ _ _ _ _ _ _ _ _ world.build world.libm h fun i w hw ↦ ?_
    obtain ⟨f, -, hfed⟩ := hinv.exists_feed hw
    exact ⟨hfed.taken.worker, hfed.lossy, hinv.follow hstep hw⟩
  cases e with
  | service e =>
      obtain ⟨-, hservice⟩ := Option.ite_none_right_eq_some.mp hstep
      obtain ⟨service, -, rfl⟩ := Option.map_eq_some_iff.mp hservice
      exact hothers rfl
  | adapter i e =>
      obtain ⟨w, f, adapter, -, -, -, -, rfl⟩ := adapterStep_eq_some hstep
      exact hothers rfl
  | receive i =>
      obtain ⟨f, t, w, stream, service, -, -, -, -, -, rfl⟩ := receive_eq_some hstep
      exact hothers rfl
  | subscriber k e =>
      by_cases hkj : k = j
      · subst hkj
        exact h.subscriberStep hp hinv.wired (fun he ↦ hcheck (he ▸ rfl)) hstep
      · apply hothers
        obtain ⟨c, -, hstep⟩ | ⟨-, link, e', hstep⟩ := subscriberStep_cases hstep
        · obtain ⟨-, ⟨-, rfl⟩ | ⟨i, w, stream, service, -, -, -, -, -, rfl⟩⟩ := served_eq_some hstep
          all_goals simp [Deployment.setSubscriber, Ne.symm hkj]
        · obtain ⟨client, -, rfl⟩ := clientStep_eq_some hstep
          simp [Deployment.setSubscriber, Ne.symm hkj]

end Steps

/-! ## Runs -/

section Runs

variable [IsStrictOrderedRing K] {world : World K W} {cfg : ServiceConfig K} {s₀ : Service K}
  {request : ℕ → SubscribeRequest} {headers : ℕ → Headers} {staleAfter : ℕ → ℕ}
  {es : List (Event K)} {d : Deployment K}

theorem linked_run {p : List (ServerMessage K) → ToxicityState K → Prop}
    (hp : Explains world.codec p)
    (hstart : Service.start cfg = .ok s₀) {j : ℕ}
    (hcheck : Along (step world) (fun d e ↦ e = .subscriber j .stalenessCheck →
      Live.Fires (d.subscribers j).client → ∀ written,
        p written (d.subscribers j).client.state → p written .stale)
      (deploy s₀ request headers staleAfter) es)
    (hrun : run (step world) (deploy s₀ request headers staleAfter) es = some d) :
    Linked p d.service.registry.items (d.subscribers j) := by
  have hpreserved : ∀ (d : Deployment K) e d',
      ((∃ heard, Inv world.libm cfg.heartbeatInterval heard d) ∧
        Linked p d.service.registry.items (d.subscribers j)) →
      (e = .subscriber j .stalenessCheck → Live.Fires (d.subscribers j).client → ∀ written,
        p written (d.subscribers j).client.state → p written .stale) →
      d.step world e = some d' →
      (∃ heard, Inv world.libm cfg.heartbeatInterval heard d') ∧
        Linked p d'.service.registry.items (d'.subscribers j) := by
    rintro d e d' ⟨⟨heard, hinv⟩, hlinked⟩ hcheck hstep
    exact ⟨⟨_, hinv.step hstep⟩, hlinked.step hp hinv hcheck hstep⟩
  have hinit : Linked p s₀.registry.items
      ((deploy s₀ request headers staleAfter).subscribers j) := by
    simp [Linked, deploy, ToxicityClient.connect]
  exact (@invariant_along _ _ _ _ _ _ _ (fun d : Deployment K ↦
    (∃ heard, Inv world.libm cfg.heartbeatInterval heard d) ∧
      Linked p d.service.registry.items (d.subscribers j))
    hpreserved ⟨⟨_, inv_deploy hstart⟩, hinit⟩ hcheck hrun).2

omit [IsStrictOrderedRing K] in
/-- What a subscriber sends stays the same. -/
theorem asks_of_step {d d' : Deployment K} {e : Event K} (hstep : d.step world e = some d')
    (j : ℕ) : (d'.subscribers j).request = (d.subscribers j).request ∧
      (d'.subscribers j).headers = (d.subscribers j).headers := by
  have hset : ∀ {d : Deployment K} {k : ℕ} {u : Subscriber K},
      u.request = (d.subscribers k).request → u.headers = (d.subscribers k).headers →
      ((d.setSubscriber k u).subscribers j).request = (d.subscribers j).request ∧
        ((d.setSubscriber k u).subscribers j).headers = (d.subscribers j).headers := by
    intro d k u hrequest hheaders
    by_cases hj : j = k
    · subst hj
      simp [setSubscriber, hrequest, hheaders]
    · simp [setSubscriber, hj]
  cases e with
  | service e =>
      obtain ⟨-, hstep⟩ := Option.ite_none_right_eq_some.mp hstep
      obtain ⟨service, -, rfl⟩ := Option.map_eq_some_iff.mp hstep
      exact ⟨rfl, rfl⟩
  | adapter i e =>
      obtain ⟨w, f, adapter, -, -, -, -, rfl⟩ := adapterStep_eq_some hstep
      exact ⟨rfl, rfl⟩
  | receive i =>
      obtain ⟨f, t, w, stream, service, -, -, -, -, -, rfl⟩ := receive_eq_some hstep
      exact ⟨rfl, rfl⟩
  | subscriber k e =>
      obtain ⟨c, -, hstep⟩ | ⟨-, link, e', hstep⟩ := subscriberStep_cases hstep
      · obtain ⟨-, ⟨-, rfl⟩ | ⟨i, w, stream, service, -, -, -, -, -, rfl⟩⟩ := served_eq_some hstep
        · exact hset rfl rfl
        · exact @hset { d with service } k _ rfl rfl
      · obtain ⟨client, -, rfl⟩ := clientStep_eq_some hstep
        exact hset rfl rfl

omit [IsStrictOrderedRing K] in
theorem asks_run (hrun : run (step world) (deploy s₀ request headers staleAfter) es = some d)
    (j : ℕ) : (d.subscribers j).request = request j ∧ (d.subscribers j).headers = headers j :=
  @invariant _ _ _ _ _ _ (fun d : Deployment K ↦
      (d.subscribers j).request = request j ∧ (d.subscribers j).headers = headers j)
    (fun _ _ _ h hstep ↦
      ⟨(asks_of_step hstep j).1.trans h.1, (asks_of_step hstep j).2.trans h.2⟩) ⟨rfl, rfl⟩ hrun

end Runs

/-! ## Where a score comes from -/

section Shown

/-- A client that shows a score has been sent it, and shows it as its floats are read back. -/
def Shows (reread : K → K) (written : List (ServerMessage K)) (state : ToxicityState K) : Prop :=
  ∀ vpin vpinCdf n, state = .live vpin vpinCdf n →
    ∃ msg ∈ written, CatchUp.scoreState (msg.map reread) = some state

omit [Field K] [LinearOrder K] [FloorSemiring K] in
theorem shows_of_not_live {reread : K → K} {written : List (ServerMessage K)}
    {state : ToxicityState K} (h : ∀ vpin vpinCdf n, state ≠ .live vpin vpinCdf n) :
    Shows reread written state :=
  fun vpin vpinCdf n hlive ↦ absurd hlive (h vpin vpinCdf n)

omit [Field K] [LinearOrder K] [FloorSemiring K] in
theorem explains_shows {codec : Codec K W} {reread : K → K} (hreads : codec.ReadsBack reread) :
    Explains codec (Shows reread) := by
  refine ⟨shows_of_not_live (by simp), ?_⟩
  intro written state msg h vpin vpinCdf n hlive
  rw [hreads msg] at hlive ⊢
  rcases Live.live_of_handleMessage hlive with ⟨exchange, symbol, id, ts, hmsg⟩ | ⟨-, hold⟩
  · refine ⟨msg, List.mem_append_right _ (List.mem_singleton_self _), ?_⟩
    rw [hlive, Option.some.inj hmsg]
    rfl
  · obtain ⟨msg', hmem, hscore⟩ := h vpin vpinCdf n hold
    exact ⟨msg', List.mem_append_left _ hmem, hscore.trans (congrArg some (hold.trans hlive.symm))⟩

omit [Field K] [LinearOrder K] [FloorSemiring K] in
theorem exists_of_scoreState {reread : K → K} {msg : ServerMessage K} {vpin : K}
    {vpinCdf : Option K} {n : UInt32}
    (h : CatchUp.scoreState (msg.map reread) = some (.live vpin vpinCdf n)) :
    ∃ exchange symbol id ts v cdf, msg = .reading exchange symbol id ts n v cdf ∧
      v.map reread = some vpin ∧ cdf.map reread = vpinCdf := by
  cases msg with
  | reading exchange symbol id ts n' v cdf =>
      cases v with
      | none => cases h
      | some v =>
          obtain ⟨rfl, rfl, rfl⟩ := ToxicityState.live.inj (Option.some.inj h)
          exact ⟨exchange, symbol, id, ts, some v, cdf, rfl, rfl, rfl⟩
  | heartbeat ts => cases h
  | error text => cases h

theorem Fed.take_heard {m : Libm K} {heard : List NormalizedTrade} {w : Spawned K} {f : Feed}
    (h : Fed m heard w f) : f.adapter.sent.take f.received = heard.take f.received := by
  obtain ⟨more, hmore⟩ := h.sent
  rw [← hmore, List.take_append_of_le_length h.received_le]

/-- The readings that a connection has written are batch readings. -/
theorem Fed.reading_of_written {m : Libm K} {heard : List NormalizedTrade} {w : Spawned K}
    {f : Feed} (h : Fed m heard w f) {c : ℕ} {msg : ServerMessage K}
    (hmsg : msg ∈ (w.stream.fanout.conns c).written) (hreading : msg.isReading) :
    ∃ k, ∃ r ∈ Stream.batch m w.stream.engineCfg (heard.take k),
      msg = Stream.messageOf w.stream.exchange w.stream.symbol r := by
  obtain ⟨missed, hlossy⟩ := h.lossy
  obtain ⟨pushed, hfollows, htaken⟩ := h.taken.follows
  have hpublished : msg ∈ w.stream.fanout.published := (hlossy.conns c).mem_published msg hmsg
  have hannounced : msg ∈ Stream.readings w.stream.announced :=
    List.mem_filter.mpr ⟨List.mem_append_left _ hpublished, hreading⟩
  rw [hfollows.announced] at hannounced
  obtain ⟨r, hr, rfl⟩ := List.mem_map.mp hannounced
  have hpart : pushed <+: f.adapter.sent.take f.received := by
    rcases htaken with rfl | ⟨-, hpart, -⟩
    · exact List.prefix_refl _
    · exact hpart
  rw [h.take_heard] at hpart
  have hpushed : pushed = heard.take pushed.length :=
    List.prefix_iff_eq_take.mp (hpart.trans (List.take_prefix _ _))
  exact ⟨pushed.length, r, hpushed ▸ hr, rfl⟩

/-- In every run of the whole system, with its arithmetic taken as exact: a score that a
client shows is a reading of the batch definition as its floats are read back, under the
configuration of a valid entry with the key that the client asked for, on a first part of
the trades decoded from the frames of that entry's venue. -/
theorem live_state_is_batch_reading [IsStrictOrderedRing K] (world : World K W)
    (reread : K → K) (hreads : world.codec.ReadsBack reread) {cfg : ServiceConfig K}
    {s₀ : Service K} (hstart : Service.start cfg = .ok s₀) (request : ℕ → SubscribeRequest)
    (headers : ℕ → Headers) (staleAfter : ℕ → ℕ) (es : List (Event K)) (d : Deployment K)
    (hrun : run (step world) (deploy s₀ request headers staleAfter) es = some d) (j : ℕ)
    (vpin : K) (vpinCdf : Option K) (n : UInt32)
    (hlive : (d.subscribers j).client.state = .live vpin vpinCdf n) :
    ∃ (i : ℕ) (w : Spawned K) (engineCfg : VpinEngineConfig K) (k : ℕ),
      d.service.registry.items[i]? = some w ∧
      w.key = streamKey (request j).exchange (request j).symbol ∧
      resolveStream w.config = .ok (w.exchange, engineCfg) ∧
      ∃ r ∈ Stream.batch world.libm engineCfg
          ((venueTrades world i (deploy s₀ request headers staleAfter) es).take k),
        r.vpin.map reread = some vpin ∧ r.vpinCdf.map reread = vpinCdf ∧
          r.tradesInBucket = n := by
  have hinv := inv_run hstart hrun
  have hlinked : Linked (Shows reread) d.service.registry.items (d.subscribers j) :=
    linked_run (explains_shows hreads) hstart
      (along_of_forall (fun _ _ _ _ _ _ ↦ shows_of_not_live (by simp)) _ es) hrun
  have hrequest := (asks_run hrun j).1
  have hquiet : ∀ {written : List (ServerMessage K)}, (∀ msg ∈ written, msg.isReading = false) →
      ¬ Shows reread written (d.subscribers j).client.state := by
    intro written hwritten hshows
    obtain ⟨msg, hmsg, hscore⟩ := hshows vpin vpinCdf n hlive
    rw [hlive] at hscore
    obtain ⟨exchange, symbol, id, ts, v, cdf, rfl, -, -⟩ := exists_of_scoreState hscore
    exact absurd (hwritten _ hmsg) (by simp [ServerMessage.isReading, ServerMessage.bucketId?])
  unfold Linked at hlinked
  cases hlink : (d.subscribers j).link with
  | down =>
      simp only [hlink] at hlinked
      exact absurd hlive (hlinked.2.2 vpin vpinCdf n)
  | requested =>
      simp only [hlink] at hlinked
      exact absurd hlinked.2 (hquiet (by simp))
  | unknown told =>
      simp only [hlink] at hlinked
      refine absurd hlinked.2 (hquiet ?_)
      cases told
      · simp
      · simp [unknownStream, ServerMessage.isReading, ServerMessage.bucketId?]
  | attached i c arrived =>
      simp only [hlink] at hlinked
      obtain ⟨-, w, hw, hkey, -, -, hshows⟩ := hlinked
      obtain ⟨msg, hmsg, hscore⟩ := hshows vpin vpinCdf n hlive
      rw [hlive] at hscore
      obtain ⟨exchange, symbol, id, ts, v, cdf, rfl, hv, hcdf⟩ := exists_of_scoreState hscore
      obtain ⟨f, hf, hfed⟩ := hinv.exists_feed hw
      obtain ⟨k, r, hr, hmessage⟩ := hfed.reading_of_written (List.mem_of_mem_take hmsg) rfl
      simp only [Stream.messageOf, ServerMessage.reading.injEq] at hmessage
      obtain ⟨-, -, -, -, rfl, rfl, rfl⟩ := hmessage
      refine ⟨i, w, w.stream.engineCfg, k, hw, ?_,
        (hinv.wired.wired w (List.mem_of_getElem? hw)).resolved, r, hr, hv, hcdf, rfl⟩
      rw [hkey, Subscriber.key, hrequest]

end Shown

/-! ## Three trades and a score -/

/-- One trade of a push on Bybit, of quantity one. -/
def tradeJson (price : String) : Json :=
  .object [("T", .u64 1672304486865), ("S", .string "Buy"), ("v", .string "1"),
    ("p", .string price)]

def readThreeTrades (text : String) : Option Json :=
  if text = "push" then some (.object [("topic", .string "publicTrade.BTCUSDT"),
    ("data", .array [tradeJson "1", tradeJson "2", tradeJson "3"])])
  else none

def unitWorld : World ℚ (ServerMessage ℚ) where
  build := .debug
  libm := Stream.unitLibm
  readStreams := fun _ ↦ .error "unchanged"
  readJson := readThreeTrades
  symbolOf := fun _ _ ↦ .zeroed
  codec := CatchUp.plainCodec ℚ
  authToken := none

def unitService : ServiceConfig ℚ :=
  Service.withStreams [⟨"Bybit", "BTCUSDT", 1, 2, 1, none, none, none⟩]

def publish : List (Event ℚ) :=
  .receive 0 :: .replicate 3 (.service (.stream 0 .proceed))

def threeTrades : List (Event ℚ) :=
  [.service .spawn, .service (.stream 0 .start), .subscriber 0 .attempt,
    .subscriber 0 .established, .subscriber 0 (.served 0), .service (.stream 0 (.snapshot 0)),
    .adapter 0 .connected, .adapter 0 (.text "push" fun _ ↦ 0), .adapter 0 .send,
    .adapter 0 .send, .adapter 0 .send] ++ publish ++ publish ++ publish ++
    .replicate 3 (.service (.stream 0 (.recv 0))) ++ .replicate 3 (.subscriber 0 .deliver)

theorem live_state_is_batch_reading_threeTrades :
    ∃ s₀ d, Service.start unitService = .ok s₀ ∧
      run (step unitWorld) (deploy s₀ (fun _ ↦ ⟨"bybit", "btcusdt"⟩) (fun _ ↦ ⟨[]⟩) fun _ ↦ 10)
        threeTrades = some d ∧ (d.subscribers 0).client.state = .live 0 none 1 ∧
      ∃ (i : ℕ) (w : Spawned ℚ) (engineCfg : VpinEngineConfig ℚ) (k : ℕ),
        d.service.registry.items[i]? = some w ∧ w.key = streamKey "bybit" "btcusdt" ∧
        ∃ r ∈ Stream.batch unitWorld.libm engineCfg ((venueTrades unitWorld i (deploy s₀
          (fun _ ↦ ⟨"bybit", "btcusdt"⟩) (fun _ ↦ ⟨[]⟩) fun _ ↦ 10) threeTrades).take k),
          r.vpin.map id = some 0 ∧ r.vpinCdf.map id = none ∧ r.tradesInBucket = 1 := by
  have hrun : ((Service.start unitService).toOption.bind fun s₀ ↦ run (step unitWorld)
      (deploy s₀ (fun _ ↦ ⟨"bybit", "btcusdt"⟩) (fun _ ↦ ⟨[]⟩) fun _ ↦ 10) threeTrades).map
        (fun d ↦ (d.subscribers 0).client.state) = some (.live 0 none 1) := by decide +kernel
  obtain ⟨d, hd, hlive⟩ := Option.map_eq_some_iff.mp hrun
  obtain ⟨s₀, hstart, hd⟩ := Option.bind_eq_some_iff.mp hd
  have hok : Service.start unitService = .ok s₀ := Fallible.ok_of_toOption hstart
  obtain ⟨i, w, engineCfg, k, hw, hkey, -, hreading⟩ := live_state_is_batch_reading unitWorld id
    (CatchUp.readsBack_plainCodec ℚ) hok _ _ _ threeTrades d hd 0 0 none 1 hlive
  exact ⟨s₀, d, hok, hd, hlive, i, w, engineCfg, k, hw, hkey, hreading⟩

end Geiger.Deployment
