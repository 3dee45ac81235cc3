import Geiger.Library.Runs
import Geiger.Service.Protocol

/-!
# The client

One attempt after the other, each with at most one session.  A session that ends
and the `Stale` sent right after it are one step; the backoff between attempts is
only time that passes.  Times are nanoseconds of one monotone clock.
-/

namespace Geiger

inductive ToxicityState (F : Type*) where
  | connecting
  | warming (tradesInBucket : UInt32)
  | live (vpin : F) (vpinCdf : Option F) (tradesInBucket : UInt32)
  | stale
deriving DecidableEq

inductive ClientPhase where
  | waiting
  | connecting
  | session (lastMsgAt : ℕ)
deriving DecidableEq

structure ToxicityClient (F : Type*) where
  staleAfter : ℕ
  now : ℕ
  phase : ClientPhase
  state : ToxicityState F
deriving DecidableEq

namespace ToxicityClient

variable {F W : Type}

inductive Event (W : Type) where
  | attempt
  | refused
  | established
  | text (w : W)
  | otherFrame
  | stalenessCheck
  | ended
  | wait (d : ℕ)

def connect (staleAfter : ℕ) : ToxicityClient F := ⟨staleAfter, 0, .waiting, .connecting⟩

def readingState (tradesInBucket : UInt32) (vpin vpinCdf : Option F) : ToxicityState F :=
  match vpin with
  | some v => .live v vpinCdf tradesInBucket
  | none => .warming tradesInBucket

/-- A heartbeat only lifts `Stale` and `Connecting`. -/
def heartbeatState : ToxicityState F → ToxicityState F
  | .stale => .warming 0
  | .connecting => .warming 0
  | state => state

/-- The effect of a text frame on the published state; `none` is malformed text. -/
def handleMessage (state : ToxicityState F) : Option (ServerMessage F) → ToxicityState F
  | some (.reading _ _ _ _ tradesInBucket vpin vpinCdf) =>
    readingState tradesInBucket vpin vpinCdf
  | some (.heartbeat _) => heartbeatState state
  | some (.error _) => state
  | none => state

def step (fromStr : W → Option (ServerMessage F)) (c : ToxicityClient F) :
    Event W → Option (ToxicityClient F)
  | .attempt =>
    if c.phase = .waiting then some { c with phase := .connecting, state := .connecting }
    else none
  | .refused =>
    if c.phase = .connecting then some { c with phase := .waiting, state := .stale } else none
  | .established =>
    if c.phase = .connecting then some { c with phase := .session c.now } else none
  | .text w =>
    match c.phase with
    | .session _ => some { c with
        phase := .session c.now, state := handleMessage c.state (fromStr w) }
    | _ => none
  | .otherFrame =>
    match c.phase with
    | .session _ => some c
    | _ => none
  | .stalenessCheck =>
    match c.phase with
    | .session lastMsgAt =>
      some (if c.staleAfter < c.now - lastMsgAt then { c with state := .stale } else c)
    | _ => none
  | .ended =>
    match c.phase with
    | .session _ => some { c with phase := .waiting, state := .stale }
    | _ => none
  | .wait d => some { c with now := c.now + d }

/-! ## What each step does -/

section Steps

variable {fromStr : W → Option (ServerMessage F)} {c c' : ToxicityClient F}

theorem attempt_eq_some (h : c.step fromStr .attempt = some c') :
    c.phase = .waiting ∧ c' = { c with phase := .connecting, state := .connecting } := by
  simp only [step, Option.ite_none_right_eq_some, Option.some.injEq] at h
  exact ⟨h.1, h.2.symm⟩

theorem refused_eq_some (h : c.step fromStr .refused = some c') :
    c.phase = .connecting ∧ c' = { c with phase := .waiting, state := .stale } := by
  simp only [step, Option.ite_none_right_eq_some, Option.some.injEq] at h
  exact ⟨h.1, h.2.symm⟩

theorem established_eq_some (h : c.step fromStr .established = some c') :
    c.phase = .connecting ∧ c' = { c with phase := .session c.now } := by
  simp only [step, Option.ite_none_right_eq_some, Option.some.injEq] at h
  exact ⟨h.1, h.2.symm⟩

theorem text_eq_some {w : W} (h : c.step fromStr (.text w) = some c') :
    (∃ lastMsgAt, c.phase = .session lastMsgAt) ∧
      c' = { c with
        phase := .session c.now, state := handleMessage c.state (fromStr w) } := by
  simp only [step] at h
  split at h
  · exact ⟨⟨_, ‹_›⟩, (Option.some.inj h).symm⟩
  · cases h

theorem otherFrame_eq_some (h : c.step fromStr .otherFrame = some c') :
    (∃ lastMsgAt, c.phase = .session lastMsgAt) ∧ c' = c := by
  simp only [step] at h
  split at h
  · exact ⟨⟨_, ‹_›⟩, (Option.some.inj h).symm⟩
  · cases h

theorem stalenessCheck_eq_some (h : c.step fromStr .stalenessCheck = some c') :
    ∃ lastMsgAt, c.phase = .session lastMsgAt ∧
      c' = if c.staleAfter < c.now - lastMsgAt then { c with state := .stale } else c := by
  simp only [step] at h
  split at h
  · exact ⟨_, ‹_›, (Option.some.inj h).symm⟩
  · cases h

theorem ended_eq_some (h : c.step fromStr .ended = some c') :
    (∃ lastMsgAt, c.phase = .session lastMsgAt) ∧
      c' = { c with phase := .waiting, state := .stale } := by
  simp only [step] at h
  split at h
  · exact ⟨⟨_, ‹_›⟩, (Option.some.inj h).symm⟩
  · cases h

end Steps

end ToxicityClient

end Geiger
