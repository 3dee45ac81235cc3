import Geiger.Client.Live
import Geiger.Ingest.Backoff

/-!
# How soon a silence is noticed

The client with its two timers: the interval of the staleness checks and the sleep
between two attempts.  The runtime is trusted to fire a timer within `slack` of its
deadline; opening a connection has no timer.  A check that comes late does not move
the next one.
-/

namespace Geiger.Deadline

open Runs ToxicityClient

variable {F W : Type}

/-- The period of `staleness_check`. -/
def checkPeriod (staleAfter : ℕ) : ℕ := max (staleAfter / 2) (Duration.fromMillis 1)

structure TimedClient (F : Type) where
  client : ToxicityClient F
  backoff : ExponentialBackoff
  /-- When the next staleness check of the session is due. -/
  tick : ℕ
  /-- When the sleep before the next attempt ends. -/
  wakeAt : ℕ

def connect (staleAfter : ℕ) (cfg : BackoffConfig) : TimedClient F :=
  ⟨ToxicityClient.connect staleAfter, cfg.build, 0, 0⟩

/-- The timers set by an event that leaves the client in `client`. -/
def TimedClient.after (c : TimedClient F) (client : ToxicityClient F) :
    ToxicityClient.Event W → TimedClient F
  | .established =>
    { c with
      client, backoff := c.backoff.reset, tick := client.now + checkPeriod client.staleAfter }
  | .stalenessCheck => { c with client, tick := c.tick + checkPeriod client.staleAfter }
  | .refused | .ended =>
    { c with
      client, backoff := c.backoff.nextDelay.2, wakeAt := client.now + c.backoff.nextDelay.1 }
  | _ => { c with client }

/-- When the timer that the client is waiting for is due, if it waits for one. -/
def TimedClient.due (c : TimedClient F) : Option ℕ :=
  match c.client.phase with
  | .waiting => some c.wakeAt
  | .connecting => none
  | .session _ => some c.tick

/-- Timers fire neither early nor more than `slack` late. -/
def TimedClient.OnTime (slack : ℕ) (c : TimedClient F) : ToxicityClient.Event W → Prop
  | .attempt => c.wakeAt ≤ c.client.now
  | .stalenessCheck => c.tick ≤ c.client.now
  | .wait d => ∀ due ∈ c.due, c.client.now + d ≤ due + slack
  | _ => True

instance (slack : ℕ) (c : TimedClient F) (e : ToxicityClient.Event W) :
    Decidable (c.OnTime slack e) :=
  match e with
  | .attempt => inferInstanceAs (Decidable (c.wakeAt ≤ c.client.now))
  | .stalenessCheck => inferInstanceAs (Decidable (c.tick ≤ c.client.now))
  | .wait d => inferInstanceAs (Decidable (∀ due ∈ c.due, c.client.now + d ≤ due + slack))
  | .refused | .established | .text _ | .otherFrame | .ended => .isTrue trivial

def step (slack : ℕ) (fromStr : W → Option (ServerMessage F)) (c : TimedClient F)
    (e : ToxicityClient.Event W) : Option (TimedClient F) :=
  if c.OnTime slack e then (c.client.step fromStr e).map fun client ↦ c.after client e
  else none

section Step

variable {slack : ℕ} {fromStr : W → Option (ServerMessage F)} {c c' : TimedClient F}
  {e : ToxicityClient.Event W}

theorem step_eq_some :
    step slack fromStr c e = some c' ↔
      c.OnTime slack e ∧ ∃ client, c.client.step fromStr e = some client ∧
        c.after client e = c' := by
  simp only [step, Option.ite_none_right_eq_some, Option.map_eq_some_iff]

theorem after_client (client : ToxicityClient F) : (c.after client e).client = client := by
  cases e <;> rfl

/-- The timers only restrict what the client does. -/
theorem client_step (h : step slack fromStr c e = some c') :
    c.client.step fromStr e = some c'.client := by
  obtain ⟨-, client, hclient, rfl⟩ := step_eq_some.mp h
  rw [after_client]
  exact hclient

theorem client_run {es : List (ToxicityClient.Event W)}
    (hrun : run (step slack fromStr) c es = some c') :
    run (ToxicityClient.step fromStr) c.client es = some c'.client := by
  induction es generalizing c with
  | nil =>
      obtain rfl := Option.some.inj hrun
      rfl
  | cons e es ih =>
      obtain ⟨c₁, hstep, hrun⟩ := run_cons_eq_some.mp hrun
      exact run_cons_eq_some.mpr ⟨c₁.client, client_step hstep, ih hrun⟩

end Step

/-! ## The silence before a check -/

/-- In a session the next check is near, and unless the client is stale it comes at
most `staleAfter` and a period after the last text. -/
structure Watched (slack : ℕ) (c : TimedClient F) (lastMsgAt : ℕ) : Prop where
  heard : lastMsgAt ≤ c.client.now
  soon : c.tick ≤ c.client.now + checkPeriod c.client.staleAfter
  notLate : c.client.now ≤ c.tick + slack
  fresh : c.client.state ≠ .stale →
    c.tick ≤ lastMsgAt + c.client.staleAfter + checkPeriod c.client.staleAfter

theorem Watched.le {slack : ℕ} {c : TimedClient F} {lastMsgAt : ℕ} (h : Watched slack c lastMsgAt)
    (hstate : c.client.state ≠ .stale) :
    c.client.now ≤
      lastMsgAt + c.client.staleAfter + checkPeriod c.client.staleAfter + slack :=
  h.notLate.trans (Nat.add_le_add_right (h.fresh hstate) slack)

def InTime (slack : ℕ) (c : TimedClient F) : Prop :=
  ∀ lastMsgAt, c.client.phase = .session lastMsgAt → Watched slack c lastMsgAt

theorem InTime.step {slack : ℕ} {fromStr : W → Option (ServerMessage F)} {c c' : TimedClient F}
    {e : ToxicityClient.Event W} (h : InTime slack c)
    (hstep : step slack fromStr c e = some c') : InTime slack c' := by
  obtain ⟨hontime, client, hclient, rfl⟩ := step_eq_some.mp hstep
  cases e with
  | attempt =>
      obtain ⟨-, rfl⟩ := attempt_eq_some hclient
      rintro _ ⟨⟩
  | refused =>
      obtain ⟨-, rfl⟩ := refused_eq_some hclient
      rintro _ ⟨⟩
  | established =>
      obtain ⟨-, rfl⟩ := established_eq_some hclient
      rintro _ ⟨⟩
      constructor <;> simp only [TimedClient.after] <;> omega
  | text w =>
      obtain ⟨⟨lastMsgAt, hphase⟩, rfl⟩ := text_eq_some hclient
      have hwatched := h lastMsgAt hphase
      rintro _ ⟨⟩
      refine ⟨Nat.le_refl _, hwatched.soon, hwatched.notLate, fun _ ↦ ?_⟩
      have hsoon := hwatched.soon
      simp only [TimedClient.after]
      omega
  | otherFrame =>
      obtain ⟨-, rfl⟩ := otherFrame_eq_some hclient
      exact h
  | stalenessCheck =>
      obtain ⟨lastMsgAt, hphase, rfl⟩ := stalenessCheck_eq_some hclient
      have hwatched := h lastMsgAt hphase
      have hdue : c.tick ≤ c.client.now := hontime
      have hlate := hwatched.notLate
      have hheard := hwatched.heard
      split
      case isTrue =>
        intro t ht
        obtain rfl := ClientPhase.session.inj (hphase.symm.trans ht)
        constructor <;> simp only [TimedClient.after]
        · exact hheard
        · omega
        · omega
        · exact fun hstate ↦ absurd rfl hstate
      case isFalse hfresh =>
        -- nothing has expired, so the due time that this check had was early enough
        intro t ht
        obtain rfl := ClientPhase.session.inj (hphase.symm.trans ht)
        constructor <;> simp only [TimedClient.after]
        · exact hheard
        · omega
        · omega
        · intro _
          omega
  | ended =>
      obtain ⟨-, rfl⟩ := ended_eq_some hclient
      rintro _ ⟨⟩
  | wait d =>
      cases hclient
      intro t ht
      have hwatched := h t ht
      have hdue : c.client.now + d ≤ c.tick + slack := by
        have hphase : c.client.phase = .session t := ht
        exact hontime c.tick (by simp [TimedClient.due, hphase])
      have hsoon := hwatched.soon
      have hheard := hwatched.heard
      exact ⟨by simp only [TimedClient.after]; omega, by simp only [TimedClient.after]; omega,
        hdue, hwatched.fresh⟩

theorem inTime_connect (slack staleAfter : ℕ) (cfg : BackoffConfig) :
    InTime slack (connect staleAfter cfg : TimedClient F) := by
  rintro _ ⟨⟩

/-! ## A server that keeps talking -/

/-- No session goes without a text for longer than `staleAfter`. -/
def Fed (c : TimedClient F) : ToxicityClient.Event W → Prop
  | .wait d => ∀ lastMsgAt, c.client.phase = .session lastMsgAt →
      c.client.now + d ≤ lastMsgAt + c.client.staleAfter
  | _ => True

/-- Nothing has given a reason to report the server stale since the last attempt. -/
structure Trusting (c : TimedClient F) : Prop where
  recent : ∀ lastMsgAt, c.client.phase = .session lastMsgAt →
    c.client.now ≤ lastMsgAt + c.client.staleAfter
  unalarmed : c.client.phase ≠ .waiting → c.client.state ≠ .stale

theorem handleMessage_ne_stale {state : ToxicityState F} (h : state ≠ .stale)
    (msg : Option (ServerMessage F)) : handleMessage state msg ≠ .stale := by
  rcases msg with _ | ⟨exchange, symbol, bucketId, tsCloseNs, trades, vpin, cdf⟩ | ⟨_⟩ | ⟨_⟩
  · exact h
  · cases vpin <;> exact fun hstale ↦ (nomatch hstale)
  · cases state <;> first | exact h | exact fun hstale ↦ (nomatch hstale)
  · exact h

theorem Trusting.step {slack : ℕ} {fromStr : W → Option (ServerMessage F)} {c c' : TimedClient F}
    {e : ToxicityClient.Event W} (h : Trusting c) (hfed : Fed c e)
    (hstep : step slack fromStr c e = some c') : Trusting c' := by
  obtain ⟨-, client, hclient, rfl⟩ := step_eq_some.mp hstep
  cases e with
  | attempt =>
      obtain ⟨-, rfl⟩ := attempt_eq_some hclient
      exact ⟨fun _ ht ↦ (nomatch ht), fun _ hstale ↦ (nomatch hstale)⟩
  | refused =>
      obtain ⟨-, rfl⟩ := refused_eq_some hclient
      exact ⟨fun _ ht ↦ (nomatch ht), fun hphase ↦ absurd rfl hphase⟩
  | established =>
      obtain ⟨hphase, rfl⟩ := established_eq_some hclient
      refine ⟨?_, fun _ ↦ h.unalarmed (by simp [hphase])⟩
      rintro _ ⟨⟩
      exact Nat.le_add_right _ _
  | text w =>
      obtain ⟨⟨lastMsgAt, hphase⟩, rfl⟩ := text_eq_some hclient
      refine ⟨?_, fun _ ↦ handleMessage_ne_stale (h.unalarmed (by simp [hphase])) _⟩
      rintro _ ⟨⟩
      exact Nat.le_add_right _ _
  | otherFrame =>
      obtain ⟨-, rfl⟩ := otherFrame_eq_some hclient
      exact h
  | stalenessCheck =>
      obtain ⟨lastMsgAt, hphase, rfl⟩ := stalenessCheck_eq_some hclient
      have hrecent := h.recent lastMsgAt hphase
      rw [if_neg (by omega)]
      exact ⟨h.recent, h.unalarmed⟩
  | ended =>
      obtain ⟨-, rfl⟩ := ended_eq_some hclient
      exact ⟨fun _ ht ↦ (nomatch ht), fun hphase ↦ absurd rfl hphase⟩
  | wait d =>
      cases hclient
      exact ⟨fun t ht ↦ hfed t ht, h.unalarmed⟩

theorem trusting_connect (staleAfter : ℕ) (cfg : BackoffConfig) :
    Trusting (connect staleAfter cfg : TimedClient F) :=
  ⟨fun _ ht ↦ (nomatch ht), fun hphase ↦ absurd rfl hphase⟩

/-! ## The sleep between two attempts -/

structure Retrying (slack longest : ℕ) (c : TimedClient F) : Prop where
  max_eq : c.backoff.max = longest
  soon : c.client.phase = .waiting → c.wakeAt ≤ c.client.now + longest
  notLate : c.client.phase = .waiting → c.client.now ≤ c.wakeAt + slack

theorem Retrying.step {slack longest : ℕ} {fromStr : W → Option (ServerMessage F)}
    {c c' : TimedClient F} {e : ToxicityClient.Event W} (h : Retrying slack longest c)
    (hstep : step slack fromStr c e = some c') : Retrying slack longest c' := by
  obtain ⟨hontime, client, hclient, rfl⟩ := step_eq_some.mp hstep
  have hdelay : c.backoff.nextDelay.1 ≤ longest := h.max_eq ▸ c.backoff.nextDelay_le_max
  cases e with
  | attempt =>
      obtain ⟨-, rfl⟩ := attempt_eq_some hclient
      exact ⟨h.max_eq, fun hphase ↦ (nomatch hphase), fun hphase ↦ (nomatch hphase)⟩
  | refused =>
      obtain ⟨-, rfl⟩ := refused_eq_some hclient
      exact ⟨h.max_eq, fun _ ↦ Nat.add_le_add_left hdelay _,
        fun _ ↦ (Nat.le_add_right _ _).trans (Nat.le_add_right _ _)⟩
  | established =>
      obtain ⟨-, rfl⟩ := established_eq_some hclient
      exact ⟨h.max_eq, fun hphase ↦ (nomatch hphase), fun hphase ↦ (nomatch hphase)⟩
  | text w =>
      obtain ⟨-, rfl⟩ := text_eq_some hclient
      exact ⟨h.max_eq, fun hphase ↦ (nomatch hphase), fun hphase ↦ (nomatch hphase)⟩
  | otherFrame =>
      obtain ⟨-, rfl⟩ := otherFrame_eq_some hclient
      exact h
  | stalenessCheck =>
      obtain ⟨lastMsgAt, hphase, rfl⟩ := stalenessCheck_eq_some hclient
      split <;>
        exact ⟨h.max_eq, fun hwaiting ↦ (nomatch hphase.symm.trans hwaiting),
          fun hwaiting ↦ (nomatch hphase.symm.trans hwaiting)⟩
  | ended =>
      obtain ⟨-, rfl⟩ := ended_eq_some hclient
      exact ⟨h.max_eq, fun _ ↦ Nat.add_le_add_left hdelay _,
        fun _ ↦ (Nat.le_add_right _ _).trans (Nat.le_add_right _ _)⟩
  | wait d =>
      cases hclient
      refine ⟨h.max_eq, fun hphase ↦ ?_, fun hphase ↦ ?_⟩
      · exact (h.soon hphase).trans (Nat.add_le_add_right (Nat.le_add_right _ _) _)
      · have hphase : c.client.phase = .waiting := hphase
        exact hontime c.wakeAt (by simp [TimedClient.due, hphase])

theorem retrying_connect (slack staleAfter : ℕ) (cfg : BackoffConfig) :
    Retrying slack cfg.max (connect staleAfter cfg : TimedClient F) :=
  ⟨rfl, fun _ ↦ Nat.zero_le _, fun _ ↦ Nat.zero_le _⟩

/-- Between two attempts time can only pass. -/
theorem step_of_waiting {slack : ℕ} {fromStr : W → Option (ServerMessage F)}
    {c c' : TimedClient F} {e : ToxicityClient.Event W} (hphase : c.client.phase = .waiting)
    (he : e ≠ .attempt) (hstep : step slack fromStr c e = some c') :
    c'.client.phase = .waiting ∧ c'.wakeAt = c.wakeAt := by
  obtain ⟨-, client, hclient, rfl⟩ := step_eq_some.mp hstep
  cases e with
  | attempt => exact absurd rfl he
  | wait d =>
      cases hclient
      exact ⟨hphase, rfl⟩
  | refused => exact nomatch hphase.symm.trans (refused_eq_some hclient).1
  | established => exact nomatch hphase.symm.trans (established_eq_some hclient).1
  | text w =>
      obtain ⟨⟨t, ht⟩, -⟩ := text_eq_some hclient
      exact nomatch hphase.symm.trans ht
  | otherFrame =>
      obtain ⟨⟨t, ht⟩, -⟩ := otherFrame_eq_some hclient
      exact nomatch hphase.symm.trans ht
  | stalenessCheck =>
      obtain ⟨t, ht, -⟩ := stalenessCheck_eq_some hclient
      exact nomatch hphase.symm.trans ht
  | ended =>
      obtain ⟨⟨t, ht⟩, -⟩ := ended_eq_some hclient
      exact nomatch hphase.symm.trans ht

theorem run_of_waiting {slack : ℕ} {fromStr : W → Option (ServerMessage F)}
    {c c' : TimedClient F} {es : List (ToxicityClient.Event W)}
    (hphase : c.client.phase = .waiting) (hes : ∀ e ∈ es, e ≠ .attempt)
    (hrun : run (step slack fromStr) c es = some c') :
    c'.client.phase = .waiting ∧ c'.wakeAt = c.wakeAt := by
  induction es generalizing c with
  | nil =>
      obtain rfl := Option.some.inj hrun
      exact ⟨hphase, rfl⟩
  | cons e es ih =>
      obtain ⟨c₁, hstep, hrun⟩ := run_cons_eq_some.mp hrun
      obtain ⟨he, hes⟩ := List.forall_mem_cons.mp hes
      obtain ⟨hwaiting, hwake⟩ := step_of_waiting hphase he hstep
      rw [← hwake]
      exact ih hwaiting hes hrun

/-- Whatever happened before, the next attempt starts within the largest delay. -/
theorem next_attempt_within_max {slack staleAfter : ℕ} {cfg : BackoffConfig}
    {fromStr : W → Option (ServerMessage F)} {es es' : List (ToxicityClient.Event W)}
    {c c' : TimedClient F}
    (hrun : run (step slack fromStr) (connect staleAfter cfg) es = some c)
    (hphase : c.client.phase = .waiting) (hes' : ∀ e ∈ es', e ≠ .attempt)
    (hrun' : run (step slack fromStr) c es' = some c') :
    c'.client.now ≤ c.client.now + cfg.max + slack := by
  have hstep : ∀ (c : TimedClient F) e c', Retrying slack cfg.max c →
      step slack fromStr c e = some c' → Retrying slack cfg.max c' :=
    fun c e c' h hstep ↦ h.step hstep
  have hinv : Retrying slack cfg.max c :=
    invariant hstep (retrying_connect slack staleAfter cfg) hrun
  have hinv' : Retrying slack cfg.max c' := invariant hstep hinv hrun'
  obtain ⟨hwaiting, hwake⟩ := run_of_waiting hphase hes' hrun'
  calc c'.client.now ≤ c.wakeAt + slack := hwake ▸ hinv'.notLate hwaiting
    _ ≤ c.client.now + cfg.max + slack := Nat.add_le_add_right (hinv.soon hphase) slack

/-! ## Live and stale in time -/

theorem staleAfter_step {fromStr : W → Option (ServerMessage F)} {c c' : ToxicityClient F}
    {e : ToxicityClient.Event W} (h : c.step fromStr e = some c') :
    c'.staleAfter = c.staleAfter := by
  cases e with
  | attempt => rw [(attempt_eq_some h).2]
  | refused => rw [(refused_eq_some h).2]
  | established => rw [(established_eq_some h).2]
  | text w => rw [(text_eq_some h).2]
  | otherFrame => rw [(otherFrame_eq_some h).2]
  | stalenessCheck =>
      obtain ⟨_, -, rfl⟩ := stalenessCheck_eq_some h
      split <;> rfl
  | ended => rw [(ended_eq_some h).2]
  | wait d =>
      cases h
      rfl

theorem staleAfter_run {fromStr : W → Option (ServerMessage F)} {staleAfter : ℕ}
    {es : List (ToxicityClient.Event W)} {c : ToxicityClient F}
    (hrun : run (ToxicityClient.step fromStr) (ToxicityClient.connect staleAfter) es = some c) :
    c.staleAfter = staleAfter := by
  have hstep : ∀ (c : ToxicityClient F) e c', c.staleAfter = staleAfter →
      c.step fromStr e = some c' → c'.staleAfter = staleAfter :=
    fun c e c' h hstep ↦ (staleAfter_step hstep).trans h
  have hinit : (ToxicityClient.connect staleAfter : ToxicityClient F).staleAfter = staleAfter := rfl
  have hinv := invariant hstep hinit hrun
  exact hinv

/-- In every run of the client with its timers: a session not reported stale had its last
text, or was opened if none has come, within `staleAfter`, a check period and the slack; a
live state is the last reading of such a session; and a session that is never left without a
text for `staleAfter`, counted from its opening, is never reported stale. -/
theorem silence_is_noticed (slack staleAfter : ℕ) (cfg : BackoffConfig)
    (fromStr : W → Option (ServerMessage F)) (es : List (ToxicityClient.Event W))
    (c : TimedClient F) (hrun : run (step slack fromStr) (connect staleAfter cfg) es = some c) :
    (∀ lastMsgAt, c.client.phase = .session lastMsgAt → c.client.state ≠ .stale →
      c.client.now ≤ lastMsgAt + staleAfter + checkPeriod staleAfter + slack) ∧
    (∀ vpin vpinCdf tradesInBucket, c.client.state = .live vpin vpinCdf tradesInBucket →
      ∃ lastMsgAt, c.client.phase = .session lastMsgAt ∧
        c.client.now ≤ lastMsgAt + staleAfter + checkPeriod staleAfter + slack ∧
        Live.Backed fromStr staleAfter es vpin vpinCdf tradesInBucket) ∧
    (Along (step slack fromStr) Fed (connect staleAfter cfg) es →
      ∀ lastMsgAt, c.client.phase = .session lastMsgAt → c.client.state ≠ .stale) := by
  have hclient := client_run hrun
  have hstale : c.client.staleAfter = staleAfter := staleAfter_run hclient
  have hintime : InTime slack c :=
    invariant (fun _ _ _ h hstep ↦ h.step hstep) (inTime_connect slack staleAfter cfg) hrun
  have hbound : ∀ lastMsgAt, c.client.phase = .session lastMsgAt → c.client.state ≠ .stale →
      c.client.now ≤ lastMsgAt + staleAfter + checkPeriod staleAfter + slack := by
    intro lastMsgAt hphase hstate
    have hle := (hintime lastMsgAt hphase).le hstate
    rwa [hstale] at hle
  refine ⟨hbound, ?_, ?_⟩
  · intro vpin vpinCdf trades hlive
    have hinv : Live.Inv fromStr staleAfter es c.client :=
      invariant_trace (fun _ _ _ _ hrun h hstep ↦ h.step hrun hstep)
        (Live.inv_connect fromStr staleAfter) hclient
    obtain ⟨⟨lastMsgAt, hphase⟩, hbacked⟩ := hinv.live vpin vpinCdf trades hlive
    have hstate : c.client.state ≠ .stale := by
      rw [hlive]
      exact fun hstale ↦ (nomatch hstale)
    exact ⟨lastMsgAt, hphase, hbound lastMsgAt hphase hstate, hbacked⟩
  · intro hfed lastMsgAt hphase
    have htrusting : Trusting c :=
      invariant_along (fun _ _ _ h hfed hstep ↦ h.step hfed hstep)
        (trusting_connect staleAfter cfg) hfed hrun
    exact htrusting.unalarmed (by simp [hphase])

/-! ## A client whose server falls silent -/

open Staleness (parseFew)

/-- Fourteen milliseconds after the reading, with the third check due. -/
def silentServer : List (ToxicityClient.Event String) :=
  [.attempt, .established, .wait 1000000, .text "reading", .wait 4000000, .stalenessCheck,
    .wait 5000000, .stalenessCheck, .wait 5000000]

theorem silence_is_noticed_silentServer :
    ∃ c : TimedClient ℕ,
      run (step 0 parseFew) (connect 10000000 .default) silentServer = some c ∧
      c.client.state = .live 1 none 3 ∧
      (∀ lastMsgAt, c.client.phase = .session lastMsgAt → c.client.state ≠ .stale →
        c.client.now ≤ lastMsgAt + 10000000 + checkPeriod 10000000 + 0) ∧
      (∀ vpin vpinCdf tradesInBucket, c.client.state = .live vpin vpinCdf tradesInBucket →
        ∃ lastMsgAt, c.client.phase = .session lastMsgAt ∧
          c.client.now ≤ lastMsgAt + 10000000 + checkPeriod 10000000 + 0 ∧
          Live.Backed parseFew 10000000 silentServer vpin vpinCdf tradesInBucket) ∧
      (Along (step 0 parseFew) Fed (connect 10000000 .default) silentServer →
        ∀ lastMsgAt, c.client.phase = .session lastMsgAt → c.client.state ≠ .stale) :=
  ⟨_, rfl, rfl, silence_is_noticed 0 10000000 .default parseFew silentServer _ rfl⟩

end Geiger.Deadline
