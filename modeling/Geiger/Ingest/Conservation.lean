import Geiger.Ingest.Sequence
import Geiger.Library.Projection

/-!
# No trade is lost on the way to the channel

While the worker lives, an adapter has sent or still holds every trade that its decoder
has returned, each once and in order, over all sessions.
-/

namespace Geiger.Adapter

open Runs

variable {decode : Decoder} {a a' : Adapter}

/-- The trades that this event brings in. -/
def decoded (decode : Decoder) (a : Adapter) : Event → List NormalizedTrade
  | .text text now => ((decode text now a.sequence).1.toOption).getD []
  | _ => []

/-- What one step does to the trades in hand. -/
structure Conserves (a a' : Adapter) (brought : List NormalizedTrade) : Prop where
  sent : a.sent <+: a'.sent
  alive : a'.receiverAlive = true → a.receiverAlive = true
  all : a'.receiverAlive = true → a'.sent ++ a'.queued = a.sent ++ a.queued ++ brought
  dead : a'.receiverAlive = false → a'.sent = a.sent

theorem conserves_of_eq (hsent : a'.sent = a.sent) (hqueued : a'.queued = a.queued)
    (halive : a'.receiverAlive = true → a.receiverAlive = true) : Conserves a a' [] := by
  refine ⟨hsent ▸ List.prefix_refl _, halive, fun _ ↦ ?_, fun _ ↦ hsent⟩
  rw [hsent, hqueued, List.append_nil]

theorem conserves_onText (hphase : a.phase = .session []) (text : String) (now : ℕ → UInt64) :
    Conserves a (a.onText decode text now) (decoded decode a (.text text now)) := by
  cases hdecode : decode text now a.sequence with
  | mk out sequence =>
      simp only [onText, decoded, hdecode]
      cases out with
      | error e =>
          refine ⟨List.prefix_refl _, id, fun _ ↦ ?_, fun _ ↦ rfl⟩
          simp [endSession, queued, hphase, Except.toOption]
      | ok trades =>
          refine ⟨List.prefix_refl _, id, fun _ ↦ ?_, fun _ ↦ rfl⟩
          simp [hphase, queued, Except.toOption]

theorem conserves_onSend {t : NormalizedTrade} {rest : List NormalizedTrade}
    (hphase : a.phase = .session (t :: rest)) : Conserves a (a.onSend t rest) [] := by
  unfold onSend
  split
  · rename_i hlive
    refine ⟨List.prefix_append _ _, id, fun _ ↦ ?_, fun hdead ↦ nomatch hlive.symm.trans hdead⟩
    simp [queued, hphase]
  · rename_i hdead
    exact ⟨List.prefix_refl _, id, fun halive ↦ absurd halive hdead, fun _ ↦ rfl⟩

/-- One step, one case for each event. -/
theorem conserves_step {e : Event} (hstep : a.step decode e = some a') :
    Conserves a a' (decoded decode a e) := by
  cases e with
  | connectFailed =>
      obtain ⟨hphase, rfl⟩ := connectFailed_eq_some hstep
      exact conserves_of_eq rfl (by simp [queued, endSession, hphase]) id
  | connected =>
      obtain ⟨hphase, rfl⟩ := connected_eq_some hstep
      exact conserves_of_eq rfl (by simp [queued, hphase]) id
  | text text now =>
      obtain ⟨hphase, rfl⟩ := text_eq_some hstep
      exact conserves_onText hphase text now
  | control =>
      obtain ⟨-, rfl⟩ := control_eq_some hstep
      exact conserves_of_eq rfl rfl id
  | closed =>
      obtain ⟨hphase, rfl⟩ := ended_eq_some (.inl rfl) hstep
      exact conserves_of_eq rfl (by simp [queued, endSession, hphase]) id
  | failed =>
      obtain ⟨hphase, rfl⟩ := ended_eq_some (.inr rfl) hstep
      exact conserves_of_eq rfl (by simp [queued, endSession, hphase]) id
  | send =>
      obtain ⟨t, rest, hphase, rfl⟩ := send_eq_some hstep
      exact conserves_onSend hphase
  | receiverDropped =>
      obtain rfl := receiverDropped_eq_some hstep
      exact conserves_of_eq rfl rfl fun halive ↦ absurd halive Bool.false_ne_true
  | wake =>
      obtain ⟨⟨delay, hphase⟩, rfl⟩ := wake_eq_some hstep
      exact conserves_of_eq rfl (by simp [queued, hphase]) id

end Geiger.Adapter
