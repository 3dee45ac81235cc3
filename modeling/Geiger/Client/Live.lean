import Geiger.Client.Staleness

/-!
# Where a live state comes from

A live state is read back through the events that led to it: to the reading that
set it, and behind that to the connection of the session still open.
-/

namespace Geiger.Live

open Runs ToxicityClient

variable {F W : Type}

/-- Events that neither open a session nor close one. -/
inductive InSession : ToxicityClient.Event W → Prop where
  | text (w : W) : InSession (.text w)
  | otherFrame : InSession .otherFrame
  | stalenessCheck : InSession .stalenessCheck
  | wait (d : ℕ) : InSession (.wait d)

def IsReading : Option (ServerMessage F) → Prop
  | some (.reading ..) => True
  | _ => False

/-- A staleness check in this state sends `Stale`. -/
def Fires (c : ToxicityClient F) : Prop :=
  ∃ lastMsgAt, c.phase = .session lastMsgAt ∧ c.staleAfter < c.now - lastMsgAt

/-- No staleness check among `es`, started in `c`, fires. -/
def NoneFired (fromStr : W → Option (ServerMessage F)) (c : ToxicityClient F)
    (es : List (ToxicityClient.Event W)) : Prop :=
  Along (ToxicityClient.step fromStr) (fun c e ↦ e = .stalenessCheck → ¬ Fires c) c es

/-- The values shown come from the text `w` of the session opened after `past`: it is
the last reading since, and no check has fired after it. -/
structure Backing (fromStr : W → Option (ServerMessage F)) (staleAfter : ℕ)
    (past heard : List (ToxicityClient.Event W)) (w : W)
    (since : List (ToxicityClient.Event W)) (vpin : F) (vpinCdf : Option F)
    (tradesInBucket : UInt32) : Prop where
  oneSession : ∀ e ∈ heard ++ .text w :: since, InSession e
  carries : ∃ exchange symbol bucketId tsCloseNs, fromStr w =
    some (.reading exchange symbol bucketId tsCloseNs tradesInBucket (some vpin) vpinCdf)
  latest : ∀ w', .text w' ∈ since → ¬ IsReading (fromStr w')
  unfired : ∃ c, run (ToxicityClient.step fromStr) (connect staleAfter)
    (past ++ .established :: (heard ++ [.text w])) = some c ∧ NoneFired fromStr c since

def Backed (fromStr : W → Option (ServerMessage F)) (staleAfter : ℕ)
    (es : List (ToxicityClient.Event W)) (vpin : F) (vpinCdf : Option F)
    (tradesInBucket : UInt32) : Prop :=
  ∃ past heard w since, es = past ++ .established :: (heard ++ .text w :: since) ∧
    Backing fromStr staleAfter past heard w since vpin vpinCdf tradesInBucket

def Open (es : List (ToxicityClient.Event W)) : Prop :=
  ∃ past session, es = past ++ .established :: session ∧ ∀ e ∈ session, InSession e

/-! ## What keeps a session and a backing -/

theorem Open.concat {es : List (ToxicityClient.Event W)} (h : Open es)
    {e : ToxicityClient.Event W} (he : InSession e) : Open (es ++ [e]) := by
  obtain ⟨past, session, rfl, hsession⟩ := h
  refine ⟨past, session ++ [e], by simp, ?_⟩
  intro e' he'
  rcases List.mem_append.mp he' with h | h
  · exact hsession e' h
  · obtain rfl := List.mem_singleton.mp h
    exact he

section Backed

variable {fromStr : W → Option (ServerMessage F)} {staleAfter : ℕ}
  {es : List (ToxicityClient.Event W)} {c : ToxicityClient F} {vpin : F} {vpinCdf : Option F}
  {tradesInBucket : UInt32}

theorem Backed.concat (h : Backed fromStr staleAfter es vpin vpinCdf tradesInBucket)
    (hrun : run (ToxicityClient.step fromStr) (connect staleAfter) es = some c)
    {e : ToxicityClient.Event W} (he : InSession e)
    (hreading : ∀ w, e = .text w → ¬ IsReading (fromStr w))
    (hcheck : e = .stalenessCheck → ¬ Fires c) :
    Backed fromStr staleAfter (es ++ [e]) vpin vpinCdf tradesInBucket := by
  obtain ⟨past, heard, w, since, rfl, h⟩ := h
  obtain ⟨c₀, hc₀, hnone⟩ := h.unfired
  have hsince : run (ToxicityClient.step fromStr) c₀ since = some c := by
    have hsplit : past ++ .established :: (heard ++ .text w :: since) =
        (past ++ .established :: (heard ++ [.text w])) ++ since := by simp
    rw [hsplit, run_append, hc₀] at hrun
    exact hrun
  refine ⟨past, heard, w, since ++ [e], by simp, ?_, h.carries, ?_, c₀, hc₀, ?_⟩
  · intro e' he'
    rw [← List.cons_append, ← List.append_assoc] at he'
    rcases List.mem_append.mp he' with h' | h'
    · exact h.oneSession e' h'
    · obtain rfl := List.mem_singleton.mp h'
      exact he
  · intro w' hw'
    rcases List.mem_append.mp hw' with h' | h'
    · exact h.latest w' h'
    · exact hreading w' (List.mem_singleton.mp h').symm
  · apply along_append.mpr
    refine ⟨hnone, ?_⟩
    intro c' hc'
    obtain rfl := Option.some.inj (hsince.symm.trans hc')
    exact ⟨hcheck, fun _ _ ↦ trivial⟩

theorem backed_of_reading (hopen : Open es)
    (hrun : run (ToxicityClient.step fromStr) (connect staleAfter) (es ++ [.text w]) = some c)
    (hw : ∃ exchange symbol bucketId tsCloseNs, fromStr w =
      some (.reading exchange symbol bucketId tsCloseNs tradesInBucket (some vpin) vpinCdf)) :
    Backed fromStr staleAfter (es ++ [.text w]) vpin vpinCdf tradesInBucket := by
  obtain ⟨past, session, rfl, hsession⟩ := hopen
  refine ⟨past, session, w, [], by simp, ?_, hw, by simp, c, by simpa using hrun, trivial⟩
  intro e he
  rcases List.mem_append.mp he with h | h
  · exact hsession e h
  · obtain rfl := List.mem_singleton.mp h
    exact .text w

end Backed

/-! ## Messages and the published state -/

/-- A live or warming state: what a quoting loop may act on. -/
def Known : ToxicityState F → Prop
  | .live .. => True
  | .warming _ => True
  | _ => False

theorem handleMessage_of_not_reading {state : ToxicityState F} {msg : Option (ServerMessage F)}
    (hmsg : ¬ IsReading msg) (hstate : Known state) : handleMessage state msg = state := by
  rcases msg with _ | ⟨_⟩ | ⟨_⟩ | ⟨_⟩
  · rfl
  · exact absurd trivial hmsg
  · cases state <;> first | rfl | exact hstate.elim
  · rfl

theorem live_of_handleMessage {state : ToxicityState F} {msg : Option (ServerMessage F)}
    {vpin : F} {vpinCdf : Option F} {tradesInBucket : UInt32}
    (hlive : handleMessage state msg = .live vpin vpinCdf tradesInBucket) :
    (∃ exchange symbol bucketId tsCloseNs, msg =
      some (.reading exchange symbol bucketId tsCloseNs tradesInBucket (some vpin) vpinCdf)) ∨
    (¬ IsReading msg ∧ state = .live vpin vpinCdf tradesInBucket) := by
  rcases msg with _ | ⟨exchange, symbol, bucketId, tsCloseNs, trades, v, cdf⟩ | ⟨_⟩ | ⟨_⟩
  · exact Or.inr ⟨id, hlive⟩
  · cases v with
    | none => cases hlive
    | some v =>
        obtain ⟨rfl, rfl, rfl⟩ := ToxicityState.live.inj hlive
        exact Or.inl ⟨exchange, symbol, bucketId, tsCloseNs, rfl⟩
  · refine Or.inr ⟨id, ?_⟩
    cases state <;> first | exact hlive | cases hlive
  · exact Or.inr ⟨id, hlive⟩

/-! ## The invariant -/

/-- What the events so far say about the client's phase and state. -/
structure Inv (fromStr : W → Option (ServerMessage F)) (staleAfter : ℕ)
    (es : List (ToxicityClient.Event W)) (c : ToxicityClient F) : Prop where
  session : ∀ t, c.phase = .session t → Open es
  live : ∀ vpin vpinCdf tradesInBucket, c.state = .live vpin vpinCdf tradesInBucket →
    (∃ t, c.phase = .session t) ∧ Backed fromStr staleAfter es vpin vpinCdf tradesInBucket

theorem inv_connect (fromStr : W → Option (ServerMessage F)) (staleAfter : ℕ) :
    Inv fromStr staleAfter [] (connect staleAfter) :=
  ⟨fun _ h ↦ (nomatch h), fun _ _ _ h ↦ (nomatch h)⟩

theorem Inv.step {fromStr : W → Option (ServerMessage F)} {staleAfter : ℕ}
    {es : List (ToxicityClient.Event W)} {c c' : ToxicityClient F} {e : ToxicityClient.Event W}
    (hrun : run (ToxicityClient.step fromStr) (connect staleAfter) es = some c)
    (h : Inv fromStr staleAfter es c) (hstep : c.step fromStr e = some c') :
    Inv fromStr staleAfter (es ++ [e]) c' := by
  have hrun' := run_concat_eq_some.mpr ⟨c, hrun, hstep⟩
  cases e with
  | attempt =>
      obtain ⟨-, rfl⟩ := attempt_eq_some hstep
      exact ⟨fun _ h ↦ (nomatch h), fun _ _ _ h ↦ (nomatch h)⟩
  | refused =>
      obtain ⟨-, rfl⟩ := refused_eq_some hstep
      exact ⟨fun _ h ↦ (nomatch h), fun _ _ _ h ↦ (nomatch h)⟩
  | established =>
      obtain ⟨hphase, rfl⟩ := established_eq_some hstep
      refine ⟨fun _ _ ↦ ⟨es, [], rfl, by simp⟩, ?_⟩
      intro vpin vpinCdf trades hlive
      obtain ⟨⟨t, ht⟩, -⟩ := h.live vpin vpinCdf trades hlive
      rw [hphase] at ht
      cases ht
  | text w =>
      obtain ⟨⟨t, ht⟩, rfl⟩ := text_eq_some hstep
      refine ⟨fun _ _ ↦ (h.session t ht).concat (.text w), ?_⟩
      intro vpin vpinCdf trades hlive
      refine ⟨⟨c.now, rfl⟩, ?_⟩
      rcases live_of_handleMessage hlive with hw | ⟨hnot, hlive⟩
      · exact backed_of_reading (h.session t ht) hrun' hw
      · apply (h.live vpin vpinCdf trades hlive).2.concat hrun (.text w)
        · rintro w' ⟨⟩
          exact hnot
        · rintro ⟨⟩
  | otherFrame =>
      obtain ⟨-, rfl⟩ := otherFrame_eq_some hstep
      refine ⟨fun t ht ↦ (h.session t ht).concat .otherFrame, ?_⟩
      intro vpin vpinCdf trades hlive
      obtain ⟨hphase, hbacked⟩ := h.live vpin vpinCdf trades hlive
      exact ⟨hphase, hbacked.concat hrun .otherFrame (by rintro _ ⟨⟩) (by rintro ⟨⟩)⟩
  | stalenessCheck =>
      obtain ⟨lastMsgAt, hphase, rfl⟩ := stalenessCheck_eq_some hstep
      have hopen := (h.session lastMsgAt hphase).concat .stalenessCheck
      split
      case isTrue => exact ⟨fun _ _ ↦ hopen, fun _ _ _ h ↦ (nomatch h)⟩
      case isFalse hfresh =>
        refine ⟨fun _ _ ↦ hopen, ?_⟩
        intro vpin vpinCdf trades hlive
        obtain ⟨hsession, hbacked⟩ := h.live vpin vpinCdf trades hlive
        refine ⟨hsession, hbacked.concat hrun .stalenessCheck (by rintro _ ⟨⟩) ?_⟩
        rintro - ⟨t, ht, hfires⟩
        obtain rfl := ClientPhase.session.inj (hphase.symm.trans ht)
        exact hfresh hfires
  | ended =>
      obtain ⟨-, rfl⟩ := ended_eq_some hstep
      exact ⟨fun _ h ↦ (nomatch h), fun _ _ _ h ↦ (nomatch h)⟩
  | wait d =>
      cases hstep
      refine ⟨fun t ht ↦ (h.session t ht).concat (.wait d), ?_⟩
      intro vpin vpinCdf trades hlive
      obtain ⟨hphase, hbacked⟩ := h.live vpin vpinCdf trades hlive
      exact ⟨hphase, hbacked.concat hrun (.wait d) (by rintro _ ⟨⟩) (by rintro ⟨⟩)⟩

/-- In every reachable state: a live state shows the last reading of the session that
is open now, with no check fired since, and only readings change what is known. -/
theorem live_is_backed (fromStr : W → Option (ServerMessage F)) (staleAfter : ℕ)
    (es : List (ToxicityClient.Event W)) (c : ToxicityClient F)
    (hrun : run (ToxicityClient.step fromStr) (connect staleAfter) es = some c) :
    (∀ vpin vpinCdf tradesInBucket, c.state = .live vpin vpinCdf tradesInBucket →
      (∃ lastMsgAt, c.phase = .session lastMsgAt) ∧
        Backed fromStr staleAfter es vpin vpinCdf tradesInBucket) ∧
    ∀ w c', ¬ IsReading (fromStr w) → Known c.state →
      c.step fromStr (.text w) = some c' → c'.state = c.state := by
  constructor
  · have hinv : Inv fromStr staleAfter es c :=
      invariant_trace (fun _ _ _ _ hrun h hstep ↦ h.step hrun hstep)
        (inv_connect fromStr staleAfter) hrun
    exact hinv.live
  · intro w c' hnot hknown hstep
    obtain ⟨-, rfl⟩ := text_eq_some hstep
    exact handleMessage_of_not_reading hnot hknown

open Staleness (parseFew) in
theorem live_is_backed_liveThenNoise :
    ∃ c : ToxicityClient ℕ,
      run (ToxicityClient.step parseFew) (connect 10) Staleness.liveThenNoise = some c ∧
      ((∀ vpin vpinCdf tradesInBucket, c.state = .live vpin vpinCdf tradesInBucket →
        (∃ lastMsgAt, c.phase = .session lastMsgAt) ∧
          Backed parseFew 10 Staleness.liveThenNoise vpin vpinCdf tradesInBucket) ∧
      ∀ w c', ¬ IsReading (parseFew w) → Known c.state →
        c.step parseFew (.text w) = some c' → c'.state = c.state) :=
  ⟨_, rfl, live_is_backed parseFew 10 Staleness.liveThenNoise _ rfl⟩

end Geiger.Live
