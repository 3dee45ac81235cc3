import Geiger.Ingest.Backoff
import Geiger.Ingest.Decode
import Geiger.Library.Runs

/-!
# The run loop of an adapter

`run` and `run_once`, which are the same for the three venues apart from the
decoder.  An event is what the connection, the timers or the worker at the other
end of the trade channel do next.
-/

namespace Geiger

inductive AdapterPhase where
  | connecting
  /-- In a session, with these decoded trades still to be sent. -/
  | session (trades : List NormalizedTrade)
  | sleeping (delay : ℕ)

structure Adapter where
  phase : AdapterPhase
  sequence : UInt64
  backoff : ExponentialBackoff
  receiverAlive : Bool
  /-- What has been sent on the trade channel. -/
  sent : List NormalizedTrade

namespace Adapter

inductive Event where
  | connectFailed
  | connected
  | text (text : String) (now : ℕ → UInt64)
  /-- A ping, the tick of the application ping, or a frame that is ignored. -/
  | control
  | closed
  | failed
  | send
  | receiverDropped
  | wake

def new (cfg : BackoffConfig) : Adapter where
  phase := .connecting
  sequence := 0
  backoff := cfg.build
  receiverAlive := true
  sent := []

/-- `run_once` has returned, with `Ok` or with an error: `run` sleeps either way. -/
def endSession (a : Adapter) : Adapter :=
  { a with phase := .sleeping a.backoff.nextDelay.1, backoff := a.backoff.nextDelay.2 }

/-- A decoded batch is queued; a decode error ends the session. -/
def onText (decode : Decoder) (a : Adapter) (text : String) (now : ℕ → UInt64) : Adapter :=
  match decode text now a.sequence with
  | (.ok trades, sequence) => { a with phase := .session trades, sequence }
  | (.error _, sequence) => { a with sequence }.endSession

def onSend (a : Adapter) (t : NormalizedTrade) (rest : List NormalizedTrade) : Adapter :=
  if a.receiverAlive then { a with phase := .session rest, sent := a.sent ++ [t] }
  else a.endSession

def step (decode : Decoder) (a : Adapter) : Event → Option Adapter
  | .connectFailed =>
    match a.phase with
    | .connecting => some a.endSession
    | _ => none
  | .connected =>
    match a.phase with
    | .connecting => some { a with phase := .session [], backoff := a.backoff.reset }
    | _ => none
  | .text text now =>
    match a.phase with
    | .session [] => some (a.onText decode text now)
    | _ => none
  | .control =>
    match a.phase with
    | .session [] => some a
    | _ => none
  | .closed | .failed =>
    match a.phase with
    | .session [] => some a.endSession
    | _ => none
  | .send =>
    match a.phase with
    | .session (t :: rest) => some (a.onSend t rest)
    | _ => none
  | .receiverDropped => if a.receiverAlive then some { a with receiverAlive := false } else none
  | .wake =>
    match a.phase with
    | .sleeping _ => some { a with phase := .connecting }
    | _ => none

/-! ## What each step does -/

variable {decode : Decoder} {a a' : Adapter}

theorem connectFailed_eq_some (h : a.step decode .connectFailed = some a') :
    a.phase = .connecting ∧ a' = a.endSession := by
  simp only [step] at h
  split at h
  · exact ⟨‹_›, (Option.some.inj h).symm⟩
  · cases h

theorem connected_eq_some (h : a.step decode .connected = some a') :
    a.phase = .connecting ∧ a' = { a with phase := .session [], backoff := a.backoff.reset } := by
  simp only [step] at h
  split at h
  · exact ⟨‹_›, (Option.some.inj h).symm⟩
  · cases h

theorem text_eq_some {text : String} {now : ℕ → UInt64}
    (h : a.step decode (.text text now) = some a') :
    a.phase = .session [] ∧ a' = a.onText decode text now := by
  simp only [step] at h
  split at h
  · exact ⟨‹_›, (Option.some.inj h).symm⟩
  · cases h

theorem control_eq_some (h : a.step decode .control = some a') :
    a.phase = .session [] ∧ a' = a := by
  simp only [step] at h
  split at h
  · exact ⟨‹_›, (Option.some.inj h).symm⟩
  · cases h

theorem ended_eq_some {e : Event} (he : e = .closed ∨ e = .failed)
    (h : a.step decode e = some a') : a.phase = .session [] ∧ a' = a.endSession := by
  rcases he with rfl | rfl <;> simp only [step] at h <;> split at h
  all_goals first | exact ⟨‹_›, (Option.some.inj h).symm⟩ | cases h

theorem send_eq_some (h : a.step decode .send = some a') :
    ∃ t rest, a.phase = .session (t :: rest) ∧ a' = a.onSend t rest := by
  simp only [step] at h
  split at h
  · exact ⟨_, _, ‹_›, (Option.some.inj h).symm⟩
  · cases h

theorem receiverDropped_eq_some (h : a.step decode .receiverDropped = some a') :
    a' = { a with receiverAlive := false } := by
  simp only [step, Option.ite_none_right_eq_some, Option.some.injEq] at h
  exact h.2.symm

theorem wake_eq_some (h : a.step decode .wake = some a') :
    (∃ delay, a.phase = .sleeping delay) ∧ a' = { a with phase := .connecting } := by
  simp only [step] at h
  split at h
  · exact ⟨⟨_, ‹_›⟩, (Option.some.inj h).symm⟩
  · cases h

end Adapter

end Geiger
