import Geiger.Client.Session
import Mathlib.Order.Lattice

/-!
# Staleness

`Observed` watches a run of the client from outside: when a reading or heartbeat
of the session was last heard, and when another text frame was.  The client's own
timestamp is the later of the two.
-/

namespace Geiger.Staleness

open Runs ToxicityClient

variable {F W : Type}

structure Observed (F : Type) where
  client : ToxicityClient F
  heardAt : ℕ
  /-- The last error message or malformed text of the session. -/
  noiseAt : Option ℕ

/-- Readings and heartbeats, but not errors and not malformed text. -/
def isNews : Option (ServerMessage F) → Bool
  | some (.reading ..) => true
  | some (.heartbeat _) => true
  | _ => false

def start (staleAfter : ℕ) : Observed F := ⟨connect staleAfter, 0, none⟩

def note (fromStr : W → Option (ServerMessage F)) (o : Observed F) :
    ToxicityClient.Event W → ℕ × Option ℕ
  | .established => (o.client.now, none)
  | .text w =>
    if isNews (fromStr w) then (o.client.now, o.noiseAt) else (o.heardAt, some o.client.now)
  | _ => (o.heardAt, o.noiseAt)

def observe (fromStr : W → Option (ServerMessage F)) (o : Observed F)
    (e : ToxicityClient.Event W) : Option (Observed F) :=
  (o.client.step fromStr e).map fun client ↦
    ⟨client, (note fromStr o e).1, (note fromStr o e).2⟩

theorem run_observe (fromStr : W → Option (ServerMessage F)) (o : Observed F)
    (es : List (ToxicityClient.Event W)) :
    (run (observe fromStr) o es).map Observed.client =
      run (ToxicityClient.step fromStr) o.client es := by
  induction es generalizing o with
  | nil => rfl
  | cons e es ih =>
      simp only [run, observe]
      cases o.client.step fromStr e with
      | none => rfl
      | some client => exact ih _

structure Inv (o : Observed F) : Prop where
  heardAt_le : o.heardAt ≤ o.client.now
  noiseAt_le : ∀ t ∈ o.noiseAt, t ≤ o.client.now
  lastMsgAt : ∀ t, o.client.phase = .session t → t = max o.heardAt (o.noiseAt.getD 0)

theorem inv_start (staleAfter : ℕ) : Inv (start staleAfter : Observed F) := by
  refine ⟨Nat.le_refl _, by simp [start], ?_⟩
  rintro t ⟨⟩

theorem Inv.noise_le {o : Observed F} (h : Inv o) : o.noiseAt.getD 0 ≤ o.client.now := by
  cases hnoise : o.noiseAt with
  | none => exact Nat.zero_le _
  | some t => exact h.noiseAt_le t hnoise

theorem Inv.observe {fromStr : W → Option (ServerMessage F)} {o o' : Observed F} (h : Inv o)
    {e : ToxicityClient.Event W} (hstep : observe fromStr o e = some o') : Inv o' := by
  obtain ⟨client, hclient, rfl⟩ := Option.map_eq_some_iff.mp hstep
  cases e with
  | attempt =>
      obtain ⟨-, rfl⟩ := attempt_eq_some hclient
      exact ⟨h.heardAt_le, h.noiseAt_le, by rintro t ⟨⟩⟩
  | refused =>
      obtain ⟨-, rfl⟩ := refused_eq_some hclient
      exact ⟨h.heardAt_le, h.noiseAt_le, by rintro t ⟨⟩⟩
  | established =>
      obtain ⟨-, rfl⟩ := established_eq_some hclient
      refine ⟨Nat.le_refl _, by simp [note], ?_⟩
      rintro t ⟨⟩
      simp [note]
  | text w =>
      obtain ⟨-, rfl⟩ := text_eq_some hclient
      simp only [note]
      split
      · refine ⟨Nat.le_refl _, h.noiseAt_le, ?_⟩
        rintro t ⟨⟩
        exact (max_eq_left h.noise_le).symm
      · refine ⟨h.heardAt_le, by simp, ?_⟩
        rintro t ⟨⟩
        exact (max_eq_right h.heardAt_le).symm
  | otherFrame =>
      obtain ⟨-, rfl⟩ := otherFrame_eq_some hclient
      exact ⟨h.heardAt_le, h.noiseAt_le, h.lastMsgAt⟩
  | stalenessCheck =>
      obtain ⟨lastMsgAt, -, rfl⟩ := stalenessCheck_eq_some hclient
      split <;> exact ⟨h.heardAt_le, h.noiseAt_le, h.lastMsgAt⟩
  | ended =>
      obtain ⟨-, rfl⟩ := ended_eq_some hclient
      exact ⟨h.heardAt_le, h.noiseAt_le, by rintro t ⟨⟩⟩
  | wait d =>
      cases hclient
      refine ⟨h.heardAt_le.trans (Nat.le_add_right _ _), ?_, h.lastMsgAt⟩
      intro t ht
      exact (h.noiseAt_le t ht).trans (Nat.le_add_right _ _)

def Silent (o : Observed F) : Prop := o.client.staleAfter < o.client.now - o.heardAt

def NoiseFree (o : Observed F) : Prop :=
  ∀ t ∈ o.noiseAt, o.client.staleAfter < o.client.now - t

theorem expired_iff {o : Observed F} (hsilent : Silent o) :
    o.client.staleAfter < o.client.now - max o.heardAt (o.noiseAt.getD 0) ↔ NoiseFree o := by
  unfold Silent at hsilent
  unfold NoiseFree
  cases o.noiseAt with
  | none => simpa using hsilent
  | some t =>
      simp only [Option.getD_some, Option.mem_def, Option.some.injEq, forall_eq']
      omega

/-- A check leaves `Stale` behind when the timestamp has expired, and otherwise
leaves the state alone. -/
theorem stale_after_check_iff {fromStr : W → Option (ServerMessage F)} {o o' : Observed F}
    (h : Inv o) (hcheck : observe fromStr o .stalenessCheck = some o') :
    o'.client.state = .stale ↔
      o.client.staleAfter < o.client.now - max o.heardAt (o.noiseAt.getD 0) ∨
        o.client.state = .stale := by
  obtain ⟨client, hclient, rfl⟩ := Option.map_eq_some_iff.mp hcheck
  obtain ⟨lastMsgAt, hphase, rfl⟩ := stalenessCheck_eq_some hclient
  rw [← h.lastMsgAt lastMsgAt hphase]
  split <;> simp [*]

/-- At every staleness check of every run: the client reports a silence of more
than `staleAfter` exactly when no other text frame came within that time, or it
was stale already. -/
theorem stale_iff_noiseFree (fromStr : W → Option (ServerMessage F)) (staleAfter : ℕ)
    (es : List (ToxicityClient.Event W)) (o o' : Observed F)
    (hrun : run (observe fromStr) (start staleAfter) es = some o)
    (hcheck : observe fromStr o .stalenessCheck = some o') :
    (Silent o → o'.client.state = .stale) ↔
      (Silent o → NoiseFree o ∨ o.client.state = .stale) := by
  have hinv : Inv o := invariant (fun o e o' h hstep ↦ h.observe hstep) (inv_start staleAfter) hrun
  apply forall_congr'
  intro hsilent
  rw [stale_after_check_iff hinv hcheck, expired_iff hsilent]

/-! ## A connection that talks without saying anything -/

def parseFew (text : String) : Option (ServerMessage ℕ) :=
  if text = "reading" then some (.reading "binance" "BTCUSDT" 0 0 3 (some 1) none)
  else if text = "heartbeat" then some (.heartbeat 0)
  else none

def liveThenNoise : List (ToxicityClient.Event String) :=
  [.attempt, .established, .text "reading", .wait 8, .text "garbage", .wait 3]

def liveThenSilence : List (ToxicityClient.Event String) :=
  [.attempt, .established, .text "reading", .wait 11]

theorem stale_iff_noiseFree_liveThenSilence :
    ∃ o o' : Observed ℕ, run (observe parseFew) (start 10) liveThenSilence = some o ∧
      observe parseFew o .stalenessCheck = some o' ∧
      ((Silent o → o'.client.state = .stale) ↔
        (Silent o → NoiseFree o ∨ o.client.state = .stale)) :=
  ⟨_, _, rfl, rfl, stale_iff_noiseFree parseFew 10 liveThenSilence _ _ rfl rfl⟩

/-- Eleven units after the reading, and three after some malformed text, the
client still reports it live. -/
theorem liveThenNoise_not_stale :
    ∃ o o' : Observed ℕ, run (observe parseFew) (start 10) liveThenNoise = some o ∧
      observe parseFew o .stalenessCheck = some o' ∧ Silent o ∧
      o'.client.state = .live 1 none 3 := by
  refine ⟨_, _, rfl, rfl, ?_, rfl⟩
  unfold Silent
  decide

end Geiger.Staleness
