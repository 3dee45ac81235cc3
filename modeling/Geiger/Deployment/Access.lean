import Geiger.Deployment.Shown
import Geiger.Service.Startup

/-!
# Who gets a session

The handshake is the only way into a session.  A subscriber that it refuses never gets
past it, and the rest of the system goes on as if that subscriber did not exist.
-/

namespace Geiger.Deployment

open Runs

variable {K W : Type} [Field K] [LinearOrder K] [FloorSemiring K]

/-- The subscriber has no session and has been shown nothing. -/
structure Outside (u : Subscriber K) : Prop where
  link : u.link = .down
  phase : ∀ t, u.client.phase ≠ .session t
  state : u.client.state = .connecting ∨ u.client.state = .stale

def ofSubscriber (j : ℕ) : Event K → Bool
  | .subscriber k _ => k = j
  | _ => false

/-- The same system but for the subscriber `j`. -/
structure SameBut (j : ℕ) (d b : Deployment K) : Prop where
  service : b.service = d.service
  feeds : b.feeds = d.feeds
  subscribers : ∀ k, k ≠ j → b.subscribers k = d.subscribers k

section Steps

variable {world : World K W} {d d' b : Deployment K} {j : ℕ}

/-- Outside there are only attempts that fail, one case for each event. -/
theorem Outside.subscriberStep (h : Outside (d.subscribers j))
    (hrefused : checkAuth (d.subscribers j).headers world.authToken ≠ .ok ())
    {e : Subscriber.Event} (hstep : d.subscriberStep world j e = some d') :
    ∃ client, d' = d.setSubscriber j { d.subscribers j with client, link := .down } ∧
      Outside { d.subscribers j with client, link := .down } := by
  have hsession : ∀ {t : ℕ}, (d.subscribers j).client.phase = .session t → False :=
    fun hphase ↦ h.phase _ hphase
  cases e with
  | attempt =>
      obtain ⟨client, hclient, rfl⟩ := clientStep_eq_some hstep
      obtain ⟨-, rfl⟩ := ToxicityClient.attempt_eq_some hclient
      exact ⟨_, rfl, rfl, by simp, .inl rfl⟩
  | refused =>
      obtain ⟨client, hclient, rfl⟩ := clientStep_eq_some hstep
      obtain ⟨-, rfl⟩ := ToxicityClient.refused_eq_some hclient
      exact ⟨_, rfl, rfl, by simp, .inr rfl⟩
  | established =>
      simp only [Deployment.subscriberStep] at hstep
      split at hstep
      · rename_i hok
        exact absurd hok hrefused
      · cases hstep
  | served c =>
      obtain ⟨hlink, -⟩ := served_eq_some hstep
      exact absurd (hlink.symm.trans h.link) (by simp)
  | deliver =>
      obtain ⟨⟨msg, link⟩, hnext, -⟩ := Option.bind_eq_some_iff.mp hstep
      obtain ⟨i, c, n, w, hlink, -⟩ | ⟨hlink, -⟩ := nextMessage_eq_some hnext
      all_goals exact absurd (hlink.symm.trans h.link) (by simp)
  | otherFrame =>
      obtain ⟨client, hclient, -⟩ := clientStep_eq_some hstep
      obtain ⟨⟨t, ht⟩, -⟩ := ToxicityClient.otherFrame_eq_some hclient
      exact (hsession ht).elim
  | stalenessCheck =>
      obtain ⟨client, hclient, -⟩ := clientStep_eq_some hstep
      obtain ⟨t, ht, -⟩ := ToxicityClient.stalenessCheck_eq_some hclient
      exact (hsession ht).elim
  | ended =>
      obtain ⟨client, hclient, -⟩ := clientStep_eq_some hstep
      obtain ⟨⟨t, ht⟩, -⟩ := ToxicityClient.ended_eq_some hclient
      exact (hsession ht).elim
  | wait n =>
      obtain ⟨client, hclient, rfl⟩ := clientStep_eq_some hstep
      obtain rfl := Option.some.inj hclient
      refine ⟨{ (d.subscribers j).client with now := (d.subscribers j).client.now + n }, ?_, rfl,
        h.phase, h.state⟩
      rw [h.link]

/-- Whatever happens elsewhere leaves the subscriber outside. -/
theorem subscribers_of_step {e : Event K} (he : ofSubscriber j e = false)
    (hstep : d.step world e = some d') : d'.subscribers j = d.subscribers j := by
  cases e with
  | service e =>
      obtain ⟨-, hstep⟩ := Option.ite_none_right_eq_some.mp hstep
      obtain ⟨service, -, rfl⟩ := Option.map_eq_some_iff.mp hstep
      rfl
  | adapter i e =>
      obtain ⟨w, f, adapter, -, -, -, -, rfl⟩ := adapterStep_eq_some hstep
      rfl
  | receive i =>
      obtain ⟨f, t, w, stream, service, -, -, -, -, -, rfl⟩ := receive_eq_some hstep
      rfl
  | subscriber k e =>
      have hkj : j ≠ k := fun hjk ↦ by simp [ofSubscriber, hjk] at he
      obtain ⟨c, -, hstep⟩ | ⟨-, link, e', hstep⟩ := subscriberStep_cases hstep
      · obtain ⟨-, ⟨-, rfl⟩ | ⟨i, w, stream, service, -, -, -, -, -, rfl⟩⟩ := served_eq_some hstep
        all_goals simp [setSubscriber, hkj]
      · obtain ⟨client, -, rfl⟩ := clientStep_eq_some hstep
        simp [setSubscriber, hkj]

theorem Outside.step (h : Outside (d.subscribers j))
    (hrefused : checkAuth (d.subscribers j).headers world.authToken ≠ .ok ()) {e : Event K}
    (hstep : d.step world e = some d') : Outside (d'.subscribers j) := by
  by_cases he : ofSubscriber j e = false
  · rw [subscribers_of_step he hstep]
    exact h
  · cases e with
    | subscriber k e =>
        obtain rfl : k = j := by simpa [ofSubscriber] using he
        obtain ⟨client, rfl, houtside⟩ := h.subscriberStep hrefused hstep
        simpa [setSubscriber] using houtside
    | _ => exact absurd rfl he

/-- What a refused subscriber does is seen by nobody else. -/
theorem SameBut.hidden (h : SameBut j d b) (houtside : Outside (d.subscribers j))
    (hrefused : checkAuth (d.subscribers j).headers world.authToken ≠ .ok ()) {e : Event K}
    (he : ofSubscriber j e = true) (hstep : d.step world e = some d') : SameBut j d' b := by
  cases e with
  | subscriber k e =>
      obtain rfl : k = j := by simpa [ofSubscriber] using he
      obtain ⟨client, rfl, -⟩ := houtside.subscriberStep hrefused hstep
      refine ⟨h.service, h.feeds, fun i hi ↦ ?_⟩
      rw [h.subscribers i hi]
      simp [setSubscriber, hi]
  | _ => cases he

omit [FloorSemiring K] in
theorem SameBut.setSubscriber {k : ℕ} (h : SameBut j d b) (u : Subscriber K) :
    SameBut j (d.setSubscriber k u) (b.setSubscriber k u) := by
  refine ⟨h.service, h.feeds, fun i hi ↦ ?_⟩
  by_cases hik : i = k
  · subst hik
    simp [Deployment.setSubscriber]
  · simp [Deployment.setSubscriber, hik, h.subscribers i hi]

omit [FloorSemiring K] in
theorem SameBut.clientStep {k : ℕ} (h : SameBut j d b) (hk : k ≠ j) {link : Link}
    {e : ToxicityClient.Event W} (hstep : d.clientStep world k link e = some d') :
    ∃ b', b.clientStep world k link e = some b' ∧ SameBut j d' b' := by
  obtain ⟨client, hclient, rfl⟩ := clientStep_eq_some hstep
  refine ⟨b.setSubscriber k { b.subscribers k with client, link }, ?_, ?_⟩
  · rw [Deployment.clientStep, h.subscribers k hk, hclient]
    rfl
  · rw [h.subscribers k hk]
    exact h.setSubscriber _

omit [FloorSemiring K] in
theorem sameBut_iff : SameBut j d b ↔
    ∃ subscribers, b = { d with subscribers } ∧ ∀ k, k ≠ j → subscribers k = d.subscribers k := by
  constructor
  · intro h
    refine ⟨b.subscribers, ?_, h.subscribers⟩
    rw [← h.service, ← h.feeds]
  · rintro ⟨subscribers, rfl, h⟩
    exact ⟨rfl, rfl, h⟩

/-- The service, the adapters and the channels do not look at the subscribers. -/
theorem step_subscribers {e : Event K} (he : ∀ k e', e ≠ .subscriber k e')
    (hstep : d.step world e = some d') (subscribers : ℕ → Subscriber K) :
    ({ d with subscribers } : Deployment K).step world e = some { d' with subscribers } := by
  cases e with
  | service e =>
      obtain ⟨hinternal, hstep⟩ := Option.ite_none_right_eq_some.mp hstep
      obtain ⟨service, hservice, rfl⟩ := Option.map_eq_some_iff.mp hstep
      rw [Deployment.step, if_pos hinternal, hservice]
      rfl
  | adapter i e =>
      have hsame : ({ d with subscribers } : Deployment K).adapterStep world i e =
          (d.adapterStep world i e).map fun d' ↦ { d' with subscribers } := by
        unfold Deployment.adapterStep
        dsimp only
        split
        · split
          · rfl
          · rw [Option.map_map]
            rfl
        · rfl
      exact hsame.trans (congrArg _ hstep)
  | receive i =>
      have hsame : ({ d with subscribers } : Deployment K).receive world i =
          (d.receive world i).map fun d' ↦ { d' with subscribers } := by
        simp only [Deployment.receive, Option.map_bind, Function.comp_def, Option.map_map]
        rfl
      exact hsame.trans (congrArg _ hstep)
  | subscriber k e => exact absurd rfl (he k e)

theorem SameBut.served {k c : ℕ} (h : SameBut j d b) (hk : k ≠ j)
    (hstep : d.served world k c = some d') :
    ∃ b', b.served world k c = some b' ∧ SameBut j d' b' := by
  obtain ⟨hlink, ⟨hindex, rfl⟩ | ⟨i, w, stream, service, hindex, -, -, hservice, -, rfl⟩⟩ :=
    served_eq_some hstep
  · refine ⟨b.setSubscriber k { d.subscribers k with link := .unknown false }, ?_,
      h.setSubscriber _⟩
    simp [Deployment.served, h.subscribers k hk, hlink, h.service, hindex]
  · refine ⟨{ b with service }.setSubscriber k { d.subscribers k with link := .attached i c 0 },
      ?_, ?_⟩
    · simp [Deployment.served, h.subscribers k hk, hlink, h.service, hindex, hservice]
    · have hservice' : SameBut j { d with service } { b with service } :=
        ⟨rfl, h.feeds, h.subscribers⟩
      exact hservice'.setSubscriber _

theorem SameBut.subscriberStep {k : ℕ} (h : SameBut j d b) (hk : k ≠ j) {e : Subscriber.Event}
    (hstep : d.subscriberStep world k e = some d') :
    ∃ b', b.subscriberStep world k e = some b' ∧ SameBut j d' b' := by
  have hu := h.subscribers k hk
  cases e with
  | served c => exact h.served hk hstep
  | established =>
      simp only [Deployment.subscriberStep, h.service, hu] at hstep ⊢
      split at hstep
      · exact h.clientStep hk hstep
      · cases hstep
  | deliver =>
      obtain ⟨⟨msg, link⟩, hnext, hstep⟩ := Option.bind_eq_some_iff.mp hstep
      obtain ⟨b', hb', hsame⟩ := h.clientStep hk hstep
      refine ⟨b', ?_, hsame⟩
      have hnext' : b.nextMessage (b.subscribers k) = some (msg, link) := by
        rw [hu, ← hnext]
        simp only [Deployment.nextMessage, h.service]
      simp only [Deployment.subscriberStep, hnext', Option.bind_some]
      exact hb'
  | attempt | refused | ended => exact h.clientStep hk hstep
  | otherFrame | stalenessCheck | wait n =>
      simp only [Deployment.subscriberStep, hu]
      exact h.clientStep hk hstep

/-- Any other step is taken there as well. -/
theorem SameBut.step (h : SameBut j d b) {e : Event K} (he : ofSubscriber j e = false)
    (hstep : d.step world e = some d') :
    ∃ b', b.step world e = some b' ∧ SameBut j d' b' := by
  have hown : (∀ k e', e ≠ .subscriber k e') →
      ∃ b', b.step world e = some b' ∧ SameBut j d' b' := by
    intro hown
    obtain ⟨subscribers, rfl, hothers⟩ := sameBut_iff.mp h
    refine ⟨_, step_subscribers hown hstep subscribers, rfl, rfl, fun k hk ↦ ?_⟩
    have hquiet : ofSubscriber k e = false := by
      cases e with
      | subscriber i e => exact absurd rfl (hown i e)
      | _ => rfl
    exact (hothers k hk).trans (subscribers_of_step hquiet hstep).symm
  cases e with
  | subscriber k e =>
      have hkj : k ≠ j := fun hkj ↦ by simp [ofSubscriber, hkj] at he
      exact h.subscriberStep hkj hstep
  | _ => exact hown (by simp)

end Steps

/-! ## Runs -/

section Runs

variable {world : World K W} {s₀ : Service K} {request : ℕ → SubscribeRequest}
  {headers : ℕ → Headers} {staleAfter : ℕ → ℕ} {es : List (Event K)} {d : Deployment K} {j : ℕ}

/-- A subscriber that the handshake refuses stays outside. -/
structure Refused (world : World K W) (j : ℕ) (d : Deployment K) : Prop where
  refused : checkAuth (d.subscribers j).headers world.authToken ≠ .ok ()
  outside : Outside (d.subscribers j)

omit [FloorSemiring K] in
theorem refused_deploy (hrefused : checkAuth (headers j) world.authToken ≠ .ok ()) :
    Refused world j (deploy s₀ request headers staleAfter) :=
  ⟨hrefused, rfl, fun _ h ↦ (nomatch h), .inl rfl⟩

theorem Refused.step (h : Refused world j d) {e : Event K} {d' : Deployment K}
    (hstep : d.step world e = some d') : Refused world j d' :=
  ⟨(asks_of_step hstep j).2 ▸ h.refused, h.outside.step h.refused hstep⟩

theorem refused_run (hrefused : checkAuth (headers j) world.authToken ≠ .ok ())
    (hrun : run (step world) (deploy s₀ request headers staleAfter) es = some d) :
    Refused world j d :=
  invariant (fun _ _ _ h hstep ↦ h.step hstep) (refused_deploy hrefused) hrun

/-- In every run of the whole system: a client that the handshake refuses is never shown
anything, and without all it does the service, the adapters and every other client are in
the very same states. -/
theorem refused_client_is_unseen (world : World K W) (s₀ : Service K)
    (request : ℕ → SubscribeRequest) (headers : ℕ → Headers) (staleAfter : ℕ → ℕ) (j : ℕ)
    (hrefused : checkAuth (headers j) world.authToken ≠ .ok ()) (es : List (Event K))
    (d : Deployment K)
    (hrun : run (step world) (deploy s₀ request headers staleAfter) es = some d) :
    ((d.subscribers j).client.state = .connecting ∨ (d.subscribers j).client.state = .stale) ∧
      ∃ b, run (step world) (deploy s₀ request headers staleAfter)
          (es.filter fun e ↦ !ofSubscriber j e) = some b ∧ SameBut j d b := by
  refine ⟨(refused_run hrefused hrun).outside.state, ?_⟩
  have hskip : ∀ (d : Deployment K) e d' b, Refused world j d → SameBut j d b →
      ofSubscriber j e = true → d.step world e = some d' → SameBut j d' b :=
    fun d e d' b hd hsame he ↦ hsame.hidden hd.outside hd.refused he
  have hkeep : ∀ (d : Deployment K) e d' b, Refused world j d → SameBut j d b →
      ofSubscriber j e = false → d.step world e = some d' →
      ∃ b', b.step world e = some b' ∧ SameBut j d' b' :=
    fun d e d' b _ hsame he ↦ hsame.step he
  exact exists_run_of_hidden (fun _ _ _ h hstep ↦ h.step hstep) hskip hkeep
    (refused_deploy hrefused) ⟨rfl, rfl, fun _ _ ↦ rfl⟩ hrun

def lockedWorld : World ℚ (ServerMessage ℚ) := { unitWorld with authToken := some "secret" }

/-- The bytes of `Bearer secret`. -/
def bearerSecret : List UInt8 := [66, 101, 97, 114, 101, 114, 32, 115, 101, 99, 114, 101, 116]

/-- Subscriber 0 sends the token, and nobody else does. -/
def lockedHeaders : ℕ → Headers
  | 0 => ⟨[("authorization", bearerSecret)]⟩
  | _ => ⟨[]⟩

/-- The client 1 tries twice while the client 0 gets its readings. -/
def withIntruder : List (Event ℚ) :=
  .subscriber 1 .attempt :: .subscriber 1 .refused :: threeTrades ++ [.subscriber 1 .attempt]

theorem refused_client_is_unseen_withIntruder :
    ∃ s₀ d, Service.start unitService = .ok s₀ ∧
      run (step lockedWorld) (deploy s₀ (fun _ ↦ ⟨"bybit", "btcusdt"⟩) lockedHeaders fun _ ↦ 10)
        withIntruder = some d ∧ (d.subscribers 0).client.state = .live 0 none 1 ∧
      ((d.subscribers 1).client.state = .connecting ∨ (d.subscribers 1).client.state = .stale) ∧
      ∃ b, run (step lockedWorld)
          (deploy s₀ (fun _ ↦ ⟨"bybit", "btcusdt"⟩) lockedHeaders fun _ ↦ 10)
          (withIntruder.filter fun e ↦ !ofSubscriber 1 e) = some b ∧ SameBut 1 d b := by
  have hrun : ((Service.start unitService).toOption.bind fun s₀ ↦ (run (step lockedWorld)
      (deploy s₀ (fun _ ↦ ⟨"bybit", "btcusdt"⟩) lockedHeaders fun _ ↦ 10) withIntruder).map
        fun d ↦ (d.subscribers 0).client.state) = some (.live 0 none 1) := by decide +kernel
  obtain ⟨s₀, hstart, hrun⟩ := Option.bind_eq_some_iff.mp hrun
  obtain ⟨d, hd, hlive⟩ := Option.map_eq_some_iff.mp hrun
  exact ⟨s₀, d, Fallible.ok_of_toOption hstart, hd, hlive, refused_client_is_unseen lockedWorld s₀
    _ lockedHeaders _ 1 (by simp [checkAuth, lockedWorld, lockedHeaders, Headers.get]) _ d hd⟩

/-! ## Getting in -/

/-- The configured streams are spawned one after the other. -/
theorem exists_run_spawns (world : World K W) (d : Deployment K) :
    ∃ d', run (step world) d (.replicate d.service.starting.length (.service .spawn)) = some d' ∧
      d'.service.starting = [] ∧ d'.subscribers = d.subscribers := by
  induction h : d.service.starting generalizing d with
  | nil => exact ⟨d, rfl, h, rfl⟩
  | cons r rest ih =>
      have hstep : d.step world (.service .spawn) =
          some (d.withService ({ d.service with starting := rest }.spawnStream r)) := by
        simp [Deployment.step, IsInternal, Service.step, h]
      obtain ⟨d', hrun, hstarting, hsame⟩ :=
        ih (d.withService ({ d.service with starting := rest }.spawnStream r)) rfl
      exact ⟨d', run_cons_eq_some.mpr ⟨_, hstep, hrun⟩, hstarting, hsame⟩

/-- The process comes up from its environment, and a client gets a session in some run of the
system with the token that is set there. -/
def Admits (world : World K W) (o : Geiger.Outside K) (request : ℕ → SubscribeRequest)
    (headers : ℕ → Headers) (staleAfter : ℕ → ℕ) (j : ℕ) : Prop :=
  ∃ cfg s₀, ServiceConfig.fromEnv o = .ok cfg ∧ Fallible.Returns (Service.startIn cfg) s₀ ∧
    ∃ (es : List (Event K)) (d : Deployment K) (t : ℕ),
      run (step { world with authToken := authToken o.var })
        (deploy s₀ request headers staleAfter) es = some d ∧
      (d.subscribers j).client.phase = .session t

/-- Once the service is up, the handshake alone decides. -/
theorem exists_session_iff (world : World K W) (s₀ : Service K)
    (request : ℕ → SubscribeRequest) (headers : ℕ → Headers) (staleAfter : ℕ → ℕ) (j : ℕ) :
    (∃ (es : List (Event K)) (d : Deployment K) (t : ℕ),
      run (step world) (deploy s₀ request headers staleAfter) es = some d ∧
        (d.subscribers j).client.phase = .session t) ↔
      ∀ expected ∈ world.authToken, (headers j).Bears expected := by
  have hauth : checkAuth (headers j) world.authToken = .ok () ↔
      ∀ expected ∈ world.authToken, (headers j).Bears expected := by
    cases world.authToken with
    | none => simp [checkAuth]
    | some expected => simp [checkAuth_eq_ok_iff]
  rw [← hauth]
  constructor
  · rintro ⟨es, d, t, hrun, hphase⟩
    by_contra hrefused
    exact (refused_run hrefused hrun).outside.phase t hphase
  · intro hok
    obtain ⟨d, hspawns, hstarting, hsame⟩ :=
      exists_run_spawns world (deploy s₀ request headers staleAfter)
    have hu : d.subscribers j = ⟨request j, headers j, .connect (staleAfter j), .down⟩ := by
      rw [hsame]
      rfl
    obtain ⟨d₁, hattempt, hservice, hconnecting⟩ : ∃ d₁,
        d.step world (.subscriber j .attempt) = some d₁ ∧ d₁.service = d.service ∧
          d₁.subscribers j = ⟨request j, headers j,
            { (.connect (staleAfter j) : ToxicityClient K) with phase := .connecting }, .down⟩ := by
      refine ⟨d.setSubscriber j _, ?_, rfl, Function.update_self ..⟩
      simp [Deployment.step, Deployment.subscriberStep, Deployment.clientStep,
        ToxicityClient.step, hu, ToxicityClient.connect]
    obtain ⟨d₂, hestablished, hsession⟩ : ∃ d₂,
        d₁.step world (.subscriber j .established) = some d₂ ∧
          (d₂.subscribers j).client.phase = .session 0 := by
      refine ⟨d₁.setSubscriber j ⟨request j, headers j,
        { (.connect (staleAfter j) : ToxicityClient K) with phase := .session 0 }, .requested⟩,
        ?_, by simp [setSubscriber]⟩
      simp [Deployment.step, Deployment.subscriberStep, Deployment.clientStep,
        ToxicityClient.step, hservice, hstarting, hconnecting, hok, ToxicityClient.connect]
    have hlast : run (step world) d [.subscriber j .attempt, .subscriber j .established] =
        some d₂ := run_cons_eq_some.mpr ⟨d₁, hattempt, run_cons_eq_some.mpr ⟨d₂, hestablished, rfl⟩⟩
    exact ⟨_, d₂, 0, run_append_eq_some.mpr ⟨d, hspawns, hlast⟩, hsession⟩

/-- A client can have a session, in some run of the whole system, exactly when the process
comes up and the client is let in: the environment can be read, every configured stream has
a known exchange, windows and a bucket volume that are valid and not too large, and no token
is set or the client sends the token that is. -/
theorem session_iff_authorised (world : World K W) (o : Geiger.Outside K)
    (request : ℕ → SubscribeRequest) (headers : ℕ → Headers) (staleAfter : ℕ → ℕ) (j : ℕ) :
    Admits world o request headers staleAfter j ↔
      (∃ cfg, ServiceConfig.fromEnv o = .ok cfg ∧ ∀ c ∈ cfg.streams,
        (parseExchange c.exchange).isSome ∧ c.engineConfig.Valid ∧ ¬ Oversized c.engineConfig) ∧
      ∀ expected ∈ authToken o.var, (headers j).Bears expected := by
  have hsession : ∀ s₀ : Service K, _ :=
    fun s₀ ↦ exists_session_iff { world with authToken := authToken o.var } s₀ request headers
      staleAfter j
  constructor
  · rintro ⟨cfg, s₀, hcfg, hstart, hadmitted⟩
    exact ⟨⟨cfg, hcfg, Service.exists_startIn_iff.mp ⟨s₀, hstart⟩⟩, (hsession s₀).mp hadmitted⟩
  · rintro ⟨⟨cfg, hcfg, hstreams⟩, hbears⟩
    obtain ⟨s₀, hstart⟩ := Service.exists_startIn_iff.mpr hstreams
    exact ⟨cfg, s₀, hcfg, hstart, (hsession s₀).mpr hbears⟩

end Runs

end Geiger.Deployment
