import Geiger.Ingest.Sequence
import Geiger.Library.Potential
import Mathlib.Tactic.IntervalCases
import Mathlib.Tactic.NormNum

/-!
# How often an adapter reconnects

The delays depend only on which attempts got connected: the counter of the
backoff is the number of attempts since the last of these.
-/

namespace Geiger

/-! ## Delays from outcomes -/

namespace Backoff

/-- The counter that the next delay is computed from: a connection resets it. -/
def counter (k : UInt32) (established : Bool) : UInt32 := if established then 0 else k

def nextCounter (k : UInt32) (established : Bool) : UInt32 := counter k established + 1

def delay (cfg : BackoffConfig) (k : UInt32) (established : Bool) : ℕ :=
  (ExponentialBackoff.mk (counter k established) cfg.base cfg.max).nextDelay.1

def delays (cfg : BackoffConfig) : UInt32 → List Bool → List ℕ :=
  Potential.costs nextCounter (delay cfg)

/-- What an attempt is worth beyond the base delay: nothing if it got connected. -/
def excess (k : UInt32) (established : Bool) : ℕ :=
  min (2 ^ (counter k established).toNat) 120 - 1

def excesses : UInt32 → List Bool → List ℕ := Potential.costs nextCounter excess

theorem delay_default (k : UInt32) (established : Bool) :
    delay .default k established = 250000000 * (excess k established + 1) := by
  unfold delay excess
  generalize counter k established = n
  have hpos : 1 ≤ min (2 ^ n.toNat) 120 := le_min Nat.one_le_two_pow (by norm_num)
  rw [Nat.sub_add_cancel hpos]
  simp only [ExponentialBackoff.nextDelay, ExponentialBackoff.mult, BackoffConfig.default,
    Duration.saturatingMul]
  rcases le_or_gt n.toNat 6 with hsmall | hlarge
  · generalize n.toNat = m at hsmall
    interval_cases m <;> decide
  · have hpow : 2 ^ 7 ≤ 2 ^ min n.toNat 20 := Nat.pow_le_pow_right (by norm_num) (by omega)
    have hcap : 2 ^ 7 ≤ 2 ^ n.toNat := Nat.pow_le_pow_right (by norm_num) (by omega)
    have hbase : Duration.fromMillis 250 = 250000000 := rfl
    have hmax : Duration.fromSecs 30 = 30000000000 := rfl
    have hlast : Duration.maxNs = 18446744073709551615999999999 := rfl
    rw [hbase, hmax, hlast]
    omega

/-! ## The least that 300 attempts can sleep -/

/-- What a row of failures starting here still lacks to 16 units for each attempt. -/
def lack (k : UInt32) : ℕ :=
  if k = 0 then 49 else if k = 1 then 34 else if k = 2 then 20 else if k = 3 then 8 else 0

def debt (established : Bool) : ℕ := if established then 49 else 0

theorem lack_le (k : UInt32) : lack k ≤ 49 := by
  unfold lack
  split_ifs <;> norm_num

/-- A failed attempt in a row of at least seven is worth 120 units, whatever follows. -/
theorem fifteen_le_of_failure (k : UInt32) : 15 + lack (k + 1) ≤ excess k false + lack k := by
  rcases le_or_gt k.toNat 6 with hsmall | hlarge
  · have hk : k = UInt32.ofNat k.toNat := UInt32.ofNat_toNat.symm
    rw [hk]
    generalize k.toNat = m at hsmall
    interval_cases m <;> decide
  · have hlack := lack_le (k + 1)
    have hcap : 2 ^ 7 ≤ 2 ^ k.toNat := Nat.pow_le_pow_right (by norm_num) hlarge
    have hexcess : excess k false = min (2 ^ k.toNat) 120 - 1 := rfl
    omega

theorem fifteen_le (k : UInt32) (established : Bool) :
    15 + lack (nextCounter k established) ≤ excess k established + debt established + lack k := by
  cases established with
  | true =>
      have hnext : lack (nextCounter k true) = 34 := rfl
      have hdebt : debt true = 49 := rfl
      omega
  | false => exact fifteen_le_of_failure k

theorem sum_debt (outcomes : List Bool) :
    (outcomes.map debt).sum = 49 * outcomes.count true := by
  induction outcomes with
  | nil => rfl
  | cons established outcomes ih =>
      cases established <;> simp [ih, debt, Nat.mul_add, Nat.add_comm]

/-- Whatever came before: 15 units for each attempt, up to 49 in all and 49 for each
attempt that got connected. -/
theorem le_sum_excesses (k : UInt32) (outcomes : List Bool) :
    15 * outcomes.length ≤ (excesses k outcomes).sum + 49 * outcomes.count true + 49 := by
  have hbound := Potential.credit_le_sum_costs fifteen_le k outcomes
  have hlack := lack_le k
  rw [sum_debt, List.map_const', List.sum_replicate_nat] at hbound
  unfold excesses
  omega

theorem sum_delays_default (k : UInt32) (outcomes : List Bool) :
    (delays .default k outcomes).sum =
      250000000 * ((excesses k outcomes).sum + outcomes.length) :=
  Potential.sum_costs_affine delay_default k outcomes

end Backoff

/-! ## The attempts of a run -/

/-- A connection attempt that has ended, with the sleep after it. -/
structure Attempt where
  established : Bool
  delay : ℕ

namespace Adapter

open Runs Backoff

def slept (a a' : Adapter) : List Attempt :=
  match a.phase, a'.phase with
  | .connecting, .sleeping delay => [⟨false, delay⟩]
  | .session _, .sleeping delay => [⟨true, delay⟩]
  | _, _ => []

def attempts (decode : Decoder) (cfg : BackoffConfig) (es : List Event) : List Attempt :=
  emitted (step decode) slept (new cfg) es

/-- What one step does to the backoff: an attempt ends and the next delay is taken,
or a connection resets it, or it stays as it is. -/
inductive BackoffStep (a a' : Adapter) : Prop where
  | refused (hphase : a.phase = .connecting) (heq : a' = a.endSession)
  | closed (trades : List NormalizedTrade) (hphase : a.phase = .session trades)
      (hnext : a'.phase = .sleeping a.backoff.nextDelay.1)
      (hbackoff : a'.backoff = a.backoff.nextDelay.2)
  | opened (hphase : a.phase = .connecting) (hnext : a'.phase = .session [])
      (hbackoff : a'.backoff = a.backoff.reset)
  | kept (hbackoff : a'.backoff = a.backoff) (hslept : slept a a' = [])
      (hsession : (∃ ts, a'.phase = .session ts) ↔ ∃ ts, a.phase = .session ts)

theorem backoffStep {decode : Decoder} {a a' : Adapter} {e : Event}
    (h : a.step decode e = some a') : BackoffStep a a' := by
  cases e with
  | connectFailed =>
      obtain ⟨hphase, rfl⟩ := connectFailed_eq_some h
      exact .refused hphase rfl
  | connected =>
      obtain ⟨hphase, rfl⟩ := connected_eq_some h
      exact .opened hphase rfl rfl
  | text text now =>
      obtain ⟨hphase, rfl⟩ := text_eq_some h
      rcases hcall : decode text now a.sequence with ⟨e | trades, sequence⟩
      · apply BackoffStep.closed [] hphase <;> simp [onText, hcall, endSession]
      · apply BackoffStep.kept <;> simp [onText, hcall, slept, hphase]
  | control =>
      obtain ⟨hphase, rfl⟩ := control_eq_some h
      exact .kept rfl (by simp [slept, hphase]) Iff.rfl
  | closed =>
      obtain ⟨hphase, rfl⟩ := ended_eq_some (.inl rfl) h
      exact .closed [] hphase rfl rfl
  | failed =>
      obtain ⟨hphase, rfl⟩ := ended_eq_some (.inr rfl) h
      exact .closed [] hphase rfl rfl
  | send =>
      obtain ⟨t, rest, hphase, rfl⟩ := send_eq_some h
      unfold onSend
      split
      · apply BackoffStep.kept <;> simp [slept, hphase]
      · exact .closed (t :: rest) hphase rfl rfl
  | receiverDropped =>
      obtain rfl := receiverDropped_eq_some h
      refine .kept rfl ?_ Iff.rfl
      unfold slept
      cases a.phase <;> rfl
  | wake =>
      obtain ⟨⟨delay, hphase⟩, rfl⟩ := wake_eq_some h
      exact .kept rfl (by simp [slept, hphase]) (by simp [hphase])

/-- The counter does not matter when the next attempt gets connected. -/
theorem delays_of_established (cfg : BackoffConfig) (k k' : UInt32) {outcomes : List Bool}
    (h : ∀ established ∈ outcomes.head?, established = true) :
    delays cfg k outcomes = delays cfg k' outcomes := by
  cases outcomes with
  | nil => rfl
  | cons established outcomes =>
      obtain rfl := h established rfl
      rfl

def InSession (a : Adapter) : Prop := ∃ trades, a.phase = .session trades

theorem delay_attempts {decode : Decoder} (cfg : BackoffConfig) (k : UInt32) (es : List Event)
    (a : Adapter) (hbackoff : a.backoff = ⟨k, cfg.base, cfg.max⟩) (hreset : a.InSession → k = 0) :
    ((emitted (step decode) slept a es).map Attempt.delay =
      delays cfg k ((emitted (step decode) slept a es).map Attempt.established)) ∧
    (a.InSession → ∀ established ∈
      ((emitted (step decode) slept a es).map Attempt.established).head?, established = true) := by
  induction es generalizing a k with
  | nil => exact ⟨rfl, by simp [emitted]⟩
  | cons e es ih =>
      cases hstep : a.step decode e with
      | none => simp [emitted, hstep, delays, Potential.costs]
      | some a' =>
          simp only [emitted, hstep, Option.elim_some]
          cases backoffStep hstep with
          | refused hphase heq =>
              subst heq
              obtain ⟨hdelays, -⟩ := ih (nextCounter k false) a.endSession
                (by simp [endSession, hbackoff, ExponentialBackoff.nextDelay, nextCounter, counter])
                (by rintro ⟨ts, ⟨⟩⟩)
              have hslept : slept a a.endSession = [⟨false, delay cfg k false⟩] := by
                simp [slept, hphase, endSession, hbackoff, delay, counter]
              rw [hslept]
              refine ⟨?_, ?_⟩
              · simpa [delays, Potential.costs] using hdelays
              · rintro ⟨ts, hts⟩
                rw [hphase] at hts
                cases hts
          | closed trades hphase hnext hnextBackoff =>
              obtain rfl := hreset ⟨trades, hphase⟩
              obtain ⟨hdelays, -⟩ := ih (nextCounter 0 true) a'
                (by simp [hnextBackoff, hbackoff, ExponentialBackoff.nextDelay, nextCounter,
                  counter])
                (by rintro ⟨ts, hts⟩; rw [hnext] at hts; cases hts)
              have hslept : slept a a' = [⟨true, delay cfg 0 true⟩] := by
                simp [slept, hphase, hnext, hbackoff, delay, counter]
              rw [hslept]
              refine ⟨?_, by simp⟩
              simpa [delays, Potential.costs] using hdelays
          | opened hphase hnext hnextBackoff =>
              obtain ⟨hdelays, hhead⟩ := ih 0 a'
                (by rw [hnextBackoff, hbackoff]; rfl) (fun _ ↦ rfl)
              have hslept : slept a a' = [] := by simp [slept, hphase, hnext]
              rw [hslept, List.nil_append, hdelays]
              refine ⟨delays_of_established cfg 0 k (hhead ⟨[], hnext⟩), ?_⟩
              intro
              exact hhead ⟨[], hnext⟩
          | kept hnextBackoff hslept hsession =>
              obtain ⟨hdelays, hhead⟩ := ih k a' (hnextBackoff.trans hbackoff)
                (fun h ↦ hreset (hsession.mp h))
              rw [hslept, List.nil_append]
              exact ⟨hdelays, fun h ↦ hhead (hsession.mpr h)⟩

theorem delay_attempts_new (decode : Decoder) (cfg : BackoffConfig) (es : List Event) :
    (attempts decode cfg es).map Attempt.delay =
      delays cfg 0 ((attempts decode cfg es).map Attempt.established) :=
  (delay_attempts cfg 0 es (new cfg) rfl (fun _ ↦ rfl)).1

/-- In units of the base delay beyond the first: what the outcomes of the window are
worth when `before` are the outcomes ahead of it. -/
def worth (before window : List Bool) : ℕ := (excesses (before.foldl nextCounter 0) window).sum

theorem sum_delay_window (decode : Decoder) (es : List Event) (before window after : List Attempt)
    (hlog : attempts decode .default es = before ++ window ++ after) :
    (window.map Attempt.delay).sum = 250000000 *
      (worth (before.map Attempt.established) (window.map Attempt.established) +
        window.length) := by
  have hdelays := delay_attempts_new decode .default es
  rw [hlog] at hdelays
  simp only [List.map_append, delays, Potential.costs_append] at hdelays
  have hwindow := (List.append_inj (List.append_inj hdelays (by simp)).1 (by simp)).2
  have hsum := sum_delays_default ((before.map Attempt.established).foldl nextCounter 0)
    (window.map Attempt.established)
  rw [hwindow]
  simpa [worth, delays] using hsum

/-- In every run, for any 300 attempts in a row: the sleeps after them reach 300
seconds exactly when their failures are worth 900 base delays more, and always when
at most 72 of them got connected. -/
theorem window_delays_iff (decode : Decoder) (es : List Event) (before window after : List Attempt)
    (hlog : attempts decode .default es = before ++ window ++ after)
    (hlength : window.length = 300) :
    (300 * 10 ^ 9 ≤ (window.map Attempt.delay).sum ↔
      900 ≤ worth (before.map Attempt.established) (window.map Attempt.established)) ∧
    ((window.map Attempt.established).count true ≤ 72 →
      300 * 10 ^ 9 ≤ (window.map Attempt.delay).sum) := by
  have hsum := sum_delay_window decode es before window after hlog
  have hworth := le_sum_excesses ((before.map Attempt.established).foldl nextCounter 0)
    (window.map Attempt.established)
  rw [List.length_map, hlength] at hworth
  rw [hlength] at hsum
  unfold worth at hsum ⊢
  constructor
  · omega
  · intro hfew
    omega

/-- The venue accepts (`true`) or refuses each attempt, and closes every session
before its first message. -/
def brief (outcomes : List Bool) : List Event :=
  outcomes.flatMap fun established ↦
    if established then [.connected, .closed, .wake] else [.connectFailed, .wake]

def silent : Decoder := decoder (fun _ ↦ none) btcusdt .binance

theorem window_delays_iff_refused :
    (300 * 10 ^ 9 ≤
        ((attempts silent .default (brief (List.replicate 300 false))).map Attempt.delay).sum ↔
      900 ≤ worth [] ((attempts silent .default (brief (List.replicate 300 false))).map
        Attempt.established)) ∧
    (((attempts silent .default (brief (List.replicate 300 false))).map
        Attempt.established).count true ≤ 72 →
      300 * 10 ^ 9 ≤
        ((attempts silent .default (brief (List.replicate 300 false))).map Attempt.delay).sum) :=
  window_delays_iff silent (brief (List.replicate 300 false)) []
    (attempts silent .default (brief (List.replicate 300 false))) [] (List.append_nil _).symm
    (by decide +kernel)

/-- Sessions that are closed as soon as they open are retried every 250 ms: 300
attempts in 75 seconds. -/
theorem closed_sessions_retry_fast :
    ¬ ∀ es before window after, attempts silent .default es = before ++ window ++ after →
      window.length = 300 → 300 * 10 ^ 9 ≤ (window.map Attempt.delay).sum := by
  intro h
  have hlength : (attempts silent .default (brief (List.replicate 300 true))).length = 300 := by
    decide +kernel
  have hsum : ((attempts silent .default (brief (List.replicate 300 true))).map
      Attempt.delay).sum = 75 * 10 ^ 9 := by
    decide +kernel
  have hlong := h (brief (List.replicate 300 true)) []
    (attempts silent .default (brief (List.replicate 300 true))) [] (List.append_nil _).symm hlength
  rw [hsum] at hlong
  norm_num at hlong

/-- Every fourth or fifth attempt gets connected: 73 connections already are too many. -/
def scattered : List Bool :=
  [false, false, false, false] ++ (List.replicate 69 [true, false, false, false]).flatten ++
    (List.replicate 4 [true, false, false, false, false]).flatten

theorem seventyThree_not_enough :
    let log := attempts silent .default (brief scattered)
    log.length = 300 ∧ (log.map Attempt.established).count true = 73 ∧
      (log.map Attempt.delay).sum < 300 * 10 ^ 9 := by
  decide +kernel

/-! ## After the receiver is gone -/

def NoFurtherAttempt (decode : Decoder) (a : Adapter) : Prop :=
  ∀ es b, run (step decode) a es = some b → b.phase ≠ .connecting

theorem receiverAlive_of_step {decode : Decoder} {a a' : Adapter} {e : Event}
    (h : a.step decode e = some a') :
    e = .receiverDropped ∧ a'.receiverAlive = false ∨
      e ≠ .receiverDropped ∧ a'.receiverAlive = a.receiverAlive := by
  cases e with
  | receiverDropped =>
      obtain rfl := receiverDropped_eq_some h
      exact Or.inl ⟨rfl, rfl⟩
  | connectFailed =>
      obtain ⟨-, rfl⟩ := connectFailed_eq_some h
      exact Or.inr ⟨by simp, rfl⟩
  | connected =>
      obtain ⟨-, rfl⟩ := connected_eq_some h
      exact Or.inr ⟨by simp, rfl⟩
  | text text now =>
      obtain ⟨-, rfl⟩ := text_eq_some h
      refine Or.inr ⟨by simp, ?_⟩
      unfold onText
      split <;> rfl
  | control =>
      obtain ⟨-, rfl⟩ := control_eq_some h
      exact Or.inr ⟨by simp, rfl⟩
  | closed =>
      obtain ⟨-, rfl⟩ := ended_eq_some (.inl rfl) h
      exact Or.inr ⟨by simp, rfl⟩
  | failed =>
      obtain ⟨-, rfl⟩ := ended_eq_some (.inr rfl) h
      exact Or.inr ⟨by simp, rfl⟩
  | send =>
      obtain ⟨t, rest, -, rfl⟩ := send_eq_some h
      refine Or.inr ⟨by simp, ?_⟩
      unfold onSend
      split <;> rfl
  | wake =>
      obtain ⟨-, rfl⟩ := wake_eq_some h
      exact Or.inr ⟨by simp, rfl⟩

theorem receiver_stays_gone {decode : Decoder} {cfg : BackoffConfig} {es : List Event}
    {a : Adapter} (hrun : run (step decode) (new cfg) es = some a)
    (hdropped : .receiverDropped ∈ es) : a.receiverAlive = false := by
  have hinv : ∀ es (a a' : Adapter) e, (.receiverDropped ∈ es → a.receiverAlive = false) →
      a.step decode e = some a' → .receiverDropped ∈ es ++ [e] → a'.receiverAlive = false := by
    intro es a a' e hgone hstep hmem
    rcases receiverAlive_of_step hstep with ⟨-, h⟩ | ⟨hother, h⟩
    · exact h
    · rw [h]
      rcases List.mem_append.mp hmem with hmem | hmem
      · exact hgone hmem
      · exact absurd (List.mem_singleton.mp hmem).symm hother
  have hgone : ∀ es a, run (step decode) (new cfg) es = some a →
      .receiverDropped ∈ es → a.receiverAlive = false := by
    intro es a hrun
    exact invariant_trace (fun es a e a' _ hgone hstep ↦ hinv es a a' e hgone hstep)
      (fun h ↦ absurd h (List.not_mem_nil)) hrun
  exact hgone es a hrun hdropped

/-- A send that fails ends the session like any other end, so the loop of `run` goes
on: whatever step comes next is a connection attempt. -/
theorem attempts_after_failed_send (fromStr : String → Option Json) (symbol : Symbol)
    (venue : Exchange) (cfg : BackoffConfig) (es : List Event) (a : Adapter)
    (hdropped : .receiverDropped ∈ es)
    (hrun : run (step (decoder fromStr symbol venue)) (new cfg) (es ++ [.send]) = some a) :
    ¬ NoFurtherAttempt (decoder fromStr symbol venue) a ∧
      ∀ e a', a.step (decoder fromStr symbol venue) e = some a' → a'.phase = .connecting := by
  obtain ⟨b, hb, hsend⟩ := run_concat_eq_some.mp hrun
  have hgone := receiver_stays_gone hb hdropped
  obtain ⟨t, rest, -, rfl⟩ := send_eq_some hsend
  have hended : b.onSend t rest = b.endSession := by simp [onSend, hgone]
  rw [hended]
  constructor
  · intro hstopped
    exact hstopped [.wake] _ rfl rfl
  · intro e a' hnext
    cases e with
    | wake =>
        obtain ⟨-, rfl⟩ := wake_eq_some hnext
        rfl
    | receiverDropped => simp [step, endSession, hgone] at hnext
    | _ => cases hnext

/-- The worker dies between the decoding of a trade and its sending. -/
def droppedMidSession : List Event :=
  [.connected, .text (pushText "16578.50") fun _ ↦ 0, .receiverDropped]

theorem attempts_after_failed_send_droppedMidSession :
    ∃ a, run (step (decoder readPush btcusdt .bybit)) (new .default)
        (droppedMidSession ++ [.send]) = some a ∧
      ¬ NoFurtherAttempt (decoder readPush btcusdt .bybit) a ∧
      ∀ e a', a.step (decoder readPush btcusdt .bybit) e = some a' → a'.phase = .connecting := by
  have hrun : (run (step (decoder readPush btcusdt .bybit)) (new .default)
      (droppedMidSession ++ [.send])).isSome = true := by
    decide +kernel
  obtain ⟨a, hrun⟩ := Option.isSome_iff_exists.mp hrun
  exact ⟨a, hrun, attempts_after_failed_send readPush btcusdt .bybit .default droppedMidSession a
    (by simp [droppedMidSession]) hrun⟩

/-- The send of the trade fails, and after the delay the adapter connects again. -/
theorem reconnects_without_receiver :
    ¬ ∀ es a, .receiverDropped ∈ es →
      run (step (decoder readPush btcusdt .bybit)) (new .default) (es ++ [.send]) = some a →
      NoFurtherAttempt (decoder readPush btcusdt .bybit) a := by
  intro h
  have hruns : ((run (step (decoder readPush btcusdt .bybit)) (new .default)
      (droppedMidSession ++ [.send])).bind fun a ↦
        run (step (decoder readPush btcusdt .bybit)) a [.wake]).isSome = true := by
    decide +kernel
  obtain ⟨b, hruns⟩ := Option.isSome_iff_exists.mp hruns
  obtain ⟨a, hrun, hwake⟩ := Option.bind_eq_some_iff.mp hruns
  apply h droppedMidSession a (by simp [droppedMidSession]) hrun [.wake] b hwake
  obtain ⟨c, hstep, hend⟩ := run_cons_eq_some.mp hwake
  obtain rfl := Option.some.inj hend
  obtain ⟨-, rfl⟩ := wake_eq_some hstep
  rfl

end Adapter

end Geiger
