import Geiger.Deployment.System
import Geiger.Ingest.Conservation
import Geiger.Ingest.Reconnect
import Geiger.Service.Lagging

/-!
# From the venue to the connection

In every run of the system each worker has been fed a first part of the trades that its
adapter decoded, and each connection keeps what it has written.
-/

namespace Geiger

open Runs

variable {K W : Type} [Field K] [LinearOrder K] [FloorSemiring K]

/-! ## What reaches a connection -/

namespace Fanout

variable {α : Type*} {s s' : Fanout α} {missed : ℕ → ℕ} {c : ℕ}

theorem Follows.mem_published {conn : Conn α} {n : ℕ} (h : Follows s conn n) :
    ∀ m ∈ conn.written, m ∈ s.published := by
  unfold Follows at h
  cases hphase : conn.phase <;> simp only [hphase] at h
  · rw [h.2]
    exact fun m hm ↦ nomatch hm
  · rw [h.2.1]
    exact fun m hm ↦ nomatch hm
  · obtain ⟨p, hp⟩ := h
    obtain ⟨snapshot, older, hwritten, hsub, -, hmem⟩ := hp.written
    have hlog : ∀ {i j : ℕ}, ∀ m ∈ between s.channel.log i j, m ∈ s.published :=
      fun m hm ↦ List.mem_append_left _ (List.mem_of_mem_take (List.mem_of_mem_drop hm))
    intro m hm
    rw [hwritten] at hm
    rcases List.mem_append.mp hm with hm | hm
    · rcases List.mem_append.mp hm with hm | hm
      · exact hmem m (Option.mem_toList.mp hm)
      · exact hlog m (hsub.subset hm)
    · exact hlog m hm

/-- What a connection has written stays written. -/
theorem Lossy.written_prefix (h : Lossy s missed) {e : Event α} (hstep : s.step e = some s')
    (hphase : (s.conns c).phase ≠ .idle) :
    (s'.conns c).phase ≠ .idle ∧ (s.conns c).written <+: (s'.conns c).written := by
  cases e with
  | store m =>
      obtain ⟨-, rfl⟩ := store_eq_some hstep
      exact ⟨hphase, List.prefix_refl _⟩
  | send =>
      obtain ⟨m, -, rfl⟩ := send_eq_some hstep
      exact ⟨hphase, List.prefix_refl _⟩
  | subscribe d =>
      obtain ⟨hidle, rfl⟩ := subscribe_eq_some hstep
      have hcd : c ≠ d := fun hcd ↦ hphase (hcd ▸ hidle)
      rw [setConn_conns_of_ne _ _ hcd]
      exact ⟨hphase, List.prefix_refl _⟩
  | snapshot d =>
      obtain ⟨hd, rfl⟩ := snapshot_eq_some hstep
      by_cases hcd : c = d
      · subst hcd
        have hfollows := h.conns c
        simp only [Follows, hd] at hfollows
        rw [setConn_conns_self, hfollows.2.1]
        exact ⟨by simp, List.nil_prefix⟩
      · rw [setConn_conns_of_ne _ _ hcd]
        exact ⟨hphase, List.prefix_refl _⟩
  | recv d =>
      obtain ⟨hd, ⟨received, next⟩, -, rfl⟩ := recv_eq_some hstep
      by_cases hcd : c = d
      · subst hcd
        rw [setConn_conns_self]
        cases received with
        | message m => exact ⟨by simp [recvConn, hd], List.prefix_append _ _⟩
        | lagged n => exact ⟨by simp [recvConn, hd], List.prefix_refl _⟩
      · rw [setConn_conns_of_ne _ _ hcd]
        exact ⟨hphase, List.prefix_refl _⟩

/-- Every connection that was open in `s` has kept what it had written. -/
structure Keeps (s s' : Fanout α) : Prop where
  lossy : ∃ missed, Lossy s' missed
  written : ∀ c, (s.conns c).phase ≠ .idle →
    (s'.conns c).phase ≠ .idle ∧ (s.conns c).written <+: (s'.conns c).written

theorem Lossy.keeps (h : Lossy s missed) {es : List (Event α)}
    (hrun : run Fanout.step s es = some s') : Keeps s s' := by
  have hpreserved : ∀ (t : Fanout α) e t', Keeps s t → t.step e = some t' → Keeps s t' := by
    rintro t e t' ⟨⟨missed', hlossy⟩, hwritten⟩ hstep
    refine ⟨⟨_, hlossy.step hstep⟩, fun c hc ↦ ?_⟩
    obtain ⟨hphase, hwritten⟩ := hwritten c hc
    obtain ⟨hphase', hwritten'⟩ := hlossy.written_prefix hstep hphase
    exact ⟨hphase', hwritten.trans hwritten'⟩
  have hinit : Keeps s s := ⟨⟨missed, h⟩, fun c hc ↦ ⟨hc, List.prefix_refl _⟩⟩
  exact invariant hpreserved hinit hrun

end Fanout

namespace Service

omit [FloorSemiring K] in
/-- The service's own events bring no trade to a stream. -/
theorem taken_toStream {s : Service K} {e : Event K} (he : Deployment.IsInternal e) (i : ℕ) :
    Stream.taken (toStream i s e) = [] := by
  cases e with
  | spawn | reload _ | visit => rfl
  | subscribe req c =>
      simp only [toStream]
      split <;> rfl
  | stream j e =>
      simp only [toStream]
      split
      · cases e with
        | trade t => cases he
        | _ => rfl
      · rfl

end Service

namespace Deployment

/-! ## The invariant -/

/-- A stream with its adapter, which has been given the trades `heard` by the venue: the
worker has been fed what was taken from the channel, and nothing else was lost. -/
structure Fed (m : Libm K) (heard : List NormalizedTrade) (w : Spawned K) (f : Feed) :
    Prop where
  received_le : f.received ≤ f.adapter.sent.length
  taken : Stream.HasTaken m (f.adapter.sent.take f.received) w.stream
  lossy : ∃ missed, Fanout.Lossy w.stream.fanout missed
  conserved : f.adapter.receiverAlive = true → f.adapter.sent ++ f.adapter.queued = heard
  sent : f.adapter.sent <+: heard
  dropped : f.adapter.receiverAlive = false → ended w.stream.worker = true

structure Inv (m : Libm K) (heartbeatInterval : ℕ) (heard : ℕ → List NormalizedTrade)
    (d : Deployment K) : Prop where
  wired : d.service.WellWired heartbeatInterval
  feeds_length : d.feeds.length = d.service.registry.items.length
  fed : ∀ (i : ℕ) (w : Spawned K) (f : Feed), d.service.registry.items[i]? = some w →
    d.feeds[i]? = some f → Fed m (heard i) w f
  unheard : ∀ i, d.service.registry.items[i]? = none → heard i = []

section Streams

variable {m : Libm K} {s s' : Service K} {w : Spawned K} {f : Feed} {heard : List NormalizedTrade}

theorem ended_of_step {s s' : Stream K} (h : ended s.worker = true) {e : Stream.Event}
    (hstep : s.step m e = some s') : ended s'.worker = true := by
  have hidle : ∀ engine await, s.worker ≠ .running engine await := by
    intro engine await hworker
    rw [hworker] at h
    cases h
  cases e with
  | start =>
      obtain ⟨hworker, -⟩ := Stream.start_eq_some hstep
      rw [hworker] at h
      cases h
  | heartbeat tsNs =>
      obtain ⟨engine, hworker, -⟩ := Stream.heartbeat_eq_some hstep
      exact absurd hworker (hidle engine _)
  | trade t =>
      obtain ⟨engine, hworker, -⟩ := Stream.trade_eq_some hstep
      exact absurd hworker (hidle engine _)
  | closed =>
      obtain ⟨engine, hworker, -⟩ := Stream.closed_eq_some hstep
      exact absurd hworker (hidle engine _)
  | proceed =>
      obtain ⟨engine, _, _, hworker, -⟩ | ⟨engine, _, _, hworker, -⟩ | ⟨engine, _, hworker, -⟩ :=
        Stream.proceed_eq_some hstep
      all_goals exact absurd hworker (hidle engine _)
  | subscribe c | snapshot c | recv c =>
      obtain ⟨fanout, -, rfl⟩ := Stream.connStep_eq_some hstep
      exact h

variable [IsStrictOrderedRing K] {build : Build}

theorem ended_of_stepIn {s s' : Stream K} (hinv : Stream.WorkerInv s)
    (h : ended s.worker = true) {e : Stream.Event} (hstep : s.stepIn build m e = some s') :
    ended s'.worker = true := by
  obtain hstep' | ⟨engine, t, -, -, rfl⟩ := Stream.stepIn_cases hinv hstep
  · exact ended_of_step h hstep'
  · rfl

theorem ended_of_run {s s' : Stream K} (hinv : Stream.WorkerInv s)
    (h : ended s.worker = true) {es : List Stream.Event}
    (hrun : Runs.run (Stream.stepIn build m) s es = some s') : ended s'.worker = true :=
  (@invariant _ _ _ _ _ _ (fun s : Stream K ↦ Stream.WorkerInv s ∧ ended s.worker = true)
    (fun _ _ _ h hstep ↦ ⟨(h.1.step hstep).1, ended_of_stepIn h.1 h.2 hstep⟩) ⟨hinv, h⟩ hrun).2

theorem lossy_of_run {s s' : Stream K} (hinv : Stream.WorkerInv s)
    (h : ∃ missed, Fanout.Lossy s.fanout missed) {es : List Stream.Event}
    (hrun : Runs.run (Stream.stepIn build m) s es = some s') :
    ∃ missed, Fanout.Lossy s'.fanout missed := by
  obtain ⟨missed, hlossy⟩ := h
  obtain ⟨es', hfanout⟩ := (Stream.kept_of_run hinv hrun).fanout
  exact (hlossy.keeps hfanout).lossy

/-- A stream that takes steps without a trade stays fed. -/
theorem Fed.run (h : Fed m heard w f) {es : List Stream.Event} {stream : Stream K}
    (hrun : Runs.run (Stream.stepIn build m) w.stream es = some stream)
    (htaken : Stream.taken es = []) : Fed m heard { w with stream } f := by
  have htake := h.taken.run hrun
  rw [htaken, List.append_nil] at htake
  exact ⟨h.received_le, htake, lossy_of_run h.taken.worker h.lossy hrun, h.conserved, h.sent,
    fun hdead ↦ ended_of_run h.taken.worker (h.dropped hdead) hrun⟩

omit [FloorSemiring K] [IsStrictOrderedRing K] in
theorem lossy_fresh (r : Resolved K) (heartbeatInterval : ℕ) :
    Fanout.Lossy (Service.spawned heartbeatInterval r).stream.fanout fun _ ↦ 0 :=
  Fanout.lossy_new _

omit [IsStrictOrderedRing K] in
theorem fed_new (m : Libm K) {r : Resolved K}
    (hr : resolveStream r.config = .ok (r.exchange, r.engineCfg)) (heartbeatInterval : ℕ) :
    Fed m [] (Service.spawned heartbeatInterval r)
      (Feed.new (Service.spawned heartbeatInterval r).backoff) :=
  ⟨le_rfl, Stream.hasTaken_new m (Stream.new_of_resolveStream hr) _ _ _ _,
    ⟨_, lossy_fresh r heartbeatInterval⟩, fun _ ↦ rfl, List.nil_prefix, fun h ↦ nomatch h⟩

/-- The worker takes one more trade. -/
theorem Fed.receive (h : Fed m heard w f) {t : NormalizedTrade} {stream : Stream K}
    (ht : f.adapter.sent[f.received]? = some t)
    (hstep : w.stream.stepIn build m (.trade t) = some stream) :
    Fed m heard { w with stream } { f with received := f.received + 1 } := by
  have hrun : Runs.run (Stream.stepIn build m) w.stream [.trade t] = some stream :=
    run_cons_eq_some.mpr ⟨stream, hstep, rfl⟩
  have htaken := h.taken.step hstep
  have htake : f.adapter.sent.take (f.received + 1) =
      f.adapter.sent.take f.received ++ Stream.taken [.trade t] := by
    rw [List.take_add_one, ht]
    rfl
  rw [← htake] at htaken
  exact ⟨(List.getElem?_eq_some_iff.mp ht).1, htaken,
    lossy_of_run h.taken.worker h.lossy hrun, h.conserved, h.sent,
    fun hdead ↦ ended_of_run h.taken.worker (h.dropped hdead) hrun⟩

omit [IsStrictOrderedRing K] in
/-- The adapter takes a step, and drops its receiver only if the worker has ended. -/
theorem Fed.adapter (h : Fed m heard w f) {decode : Decoder} {e : Adapter.Event}
    {adapter : Adapter} (hstep : f.adapter.step decode e = some adapter)
    (hdropped : adapter.receiverAlive = false → ended w.stream.worker = true) :
    Fed m (heard ++ f.adapter.decoded decode e) w { f with adapter } := by
  have hconserves := Adapter.conserves_step hstep
  obtain ⟨more, hmore⟩ := hconserves.sent
  have hall : adapter.receiverAlive = true →
      adapter.sent ++ adapter.queued = heard ++ f.adapter.decoded decode e := by
    intro halive
    rw [hconserves.all halive, h.conserved (hconserves.alive halive)]
  refine ⟨h.received_le.trans hconserves.sent.length_le, ?_, h.lossy, hall, ?_, hdropped⟩
  · simp only
    rw [← hmore, List.take_append_of_le_length h.received_le]
    exact h.taken
  · by_cases halive : adapter.receiverAlive = true
    · exact ⟨_, hall halive⟩
    · simp only
      rw [hconserves.dead (by simpa using halive)]
      exact h.sent.trans (List.prefix_append _ _)

end Streams

/-! ## The steps of the system -/

section Steps

variable [IsStrictOrderedRing K] {world : World K W} {heartbeatInterval : ℕ}
  {heard : ℕ → List NormalizedTrade} {d d' : Deployment K}

/-- The trades that an event brings in for the stream at `i`. -/
def heardBy (world : World K W) (i : ℕ) (d : Deployment K) : Event K → List NormalizedTrade
  | .adapter j e =>
    if j = i then
      match d.service.registry.items[i]?, d.feeds[i]? with
      | some w, some f => f.adapter.decoded (decoderOf world w) e
      | _, _ => []
    else []
  | _ => []

omit [IsStrictOrderedRing K] in
theorem Inv.exists_feed {m : Libm K} (h : Inv m heartbeatInterval heard d) {i : ℕ}
    {w : Spawned K} (hw : d.service.registry.items[i]? = some w) :
    ∃ f, d.feeds[i]? = some f ∧ Fed m (heard i) w f := by
  have hlt : i < d.feeds.length := by
    rw [h.feeds_length]
    exact (List.getElem?_eq_some_iff.mp hw).1
  exact ⟨_, List.getElem?_eq_getElem hlt, h.fed i w _ hw (List.getElem?_eq_getElem hlt)⟩

/-- The service takes a step of its own. -/
theorem Inv.withService (h : Inv world.libm heartbeatInterval heard d) {e : Service.Event K}
    (he : IsInternal e) {service : Service K}
    (hstep : d.service.step world.libm world.readStreams e = some service) :
    Inv world.libm heartbeatInterval heard (d.withService service) := by
  have hfollow : ∀ (i : ℕ) (w : Spawned K), d.service.registry.items[i]? = some w →
      ∃ stream, Runs.run (Stream.step world.libm) w.stream (d.service.toStream i e) =
          some stream ∧ service.registry.items[i]? = some { w with stream } :=
    fun i w hw ↦ h.wired.follow hstep hw
  have hle : d.feeds.length ≤ service.registry.items.length := by
    by_contra hlt
    have hlast : service.registry.items.length < d.service.registry.items.length := by
      rw [← h.feeds_length]
      omega
    obtain ⟨stream, -, hw⟩ := hfollow _ _ (List.getElem?_eq_getElem hlast)
    exact lt_irrefl _ (List.getElem?_eq_some_iff.mp hw).1
  refine ⟨h.wired.step hstep, ?_, ?_, ?_⟩
  · simp only [Deployment.withService, List.length_append, List.length_map, List.length_drop]
    omega
  · intro i w f hw hf
    have hw : service.registry.items[i]? = some w := hw
    cases hold : d.service.registry.items[i]? with
    | some w₀ =>
        obtain ⟨stream, hrun, hw'⟩ := hfollow i w₀ hold
        obtain rfl := Option.some.inj (hw'.symm.trans hw)
        obtain ⟨f₀, hf₀, hfed⟩ := h.exists_feed hold
        have hf₁ : (d.withService service).feeds[i]? = some f₀ :=
          (List.getElem?_append_left (List.getElem?_eq_some_iff.mp hf₀).1).trans hf₀
        obtain rfl := Option.some.inj (hf₁.symm.trans hf)
        have htaken := Service.taken_toStream he i (s := d.service)
        rw [← @Stream.run_stepIn K _ _ _ _ _ world.build _ htaken] at hrun
        exact hfed.run hrun htaken
    | none =>
        obtain ⟨-, hborn⟩ := h.wired.born hstep hold
        obtain ⟨r, rfl⟩ := hborn w hw
        have hwired := (h.wired.step hstep).wired _ (List.mem_of_getElem? hw)
        have hlen : d.feeds.length ≤ i := by
          rw [h.feeds_length]
          exact List.getElem?_eq_none_iff.mp hold
        have hf₁ : (d.withService service).feeds[i]? =
            some (Feed.new (Service.spawned heartbeatInterval r).backoff) := by
          rw [Deployment.withService, List.getElem?_append_right hlen, List.getElem?_map,
            List.getElem?_drop, Nat.add_sub_cancel' hlen, hw]
          rfl
        obtain rfl := Option.some.inj (hf₁.symm.trans hf)
        rw [h.unheard i hold]
        exact fed_new world.libm hwired.resolved heartbeatInterval
  · intro i hnone
    cases hold : d.service.registry.items[i]? with
    | none => exact h.unheard i hold
    | some w =>
        obtain ⟨stream, -, hw⟩ := hfollow i w hold
        exact nomatch hnone.symm.trans hw

omit [FloorSemiring K] [IsStrictOrderedRing K] in
theorem adapterStep_eq_some {i : ℕ} {e : Adapter.Event} (h : d.adapterStep world i e = some d') :
    ∃ w f adapter, d.service.registry.items[i]? = some w ∧ d.feeds[i]? = some f ∧
      f.adapter.step (decoderOf world w) e = some adapter ∧
      (e = .receiverDropped → ended w.stream.worker = true) ∧
      d' = d.setFeed i { f with adapter } := by
  unfold adapterStep at h
  split at h
  · rename_i w f hw hf
    split at h
    · cases h
    · rename_i hdropped
      obtain ⟨adapter, hadapter, rfl⟩ := Option.map_eq_some_iff.mp h
      refine ⟨w, f, adapter, hw, hf, hadapter, fun he ↦ ?_, rfl⟩
      by_contra hrunning
      exact hdropped he (by simpa using hrunning)
  · cases h

omit [IsStrictOrderedRing K] in
/-- An adapter takes a step. -/
theorem Inv.adapterStep (h : Inv world.libm heartbeatInterval heard d) {j : ℕ}
    {e : Adapter.Event} (hstep : d.adapterStep world j e = some d') :
    Inv world.libm heartbeatInterval
      (fun i ↦ heard i ++ heardBy world i d (.adapter j e)) d' := by
  obtain ⟨w, f, adapter, hw, hf, hadapter, hdropped, rfl⟩ := adapterStep_eq_some hstep
  refine ⟨h.wired, ?_, ?_, ?_⟩
  · simpa [Deployment.setFeed] using h.feeds_length
  · intro i v g hv hg
    have hv : d.service.registry.items[i]? = some v := hv
    by_cases hij : i = j
    · subst hij
      obtain rfl := Option.some.inj (hw.symm.trans hv)
      have hg₁ : (d.setFeed i { f with adapter }).feeds[i]? = some { f with adapter } := by
        simp [Deployment.setFeed, (List.getElem?_eq_some_iff.mp hf).1]
      obtain rfl := Option.some.inj (hg₁.symm.trans hg)
      have hfed := h.fed i w f hw hf
      have hheard : heardBy world i d (.adapter i e) =
          f.adapter.decoded (decoderOf world w) e := by simp [heardBy, hw, hf]
      rw [hheard]
      refine hfed.adapter hadapter fun hdead ↦ ?_
      by_cases halive : f.adapter.receiverAlive = true
      · apply hdropped
        rcases Adapter.receiverAlive_of_step hadapter with ⟨he, -⟩ | ⟨-, hsame⟩
        · exact he
        · rw [hsame, halive] at hdead
          cases hdead
      · exact hfed.dropped (by simpa using halive)
    · have hg₁ : d.feeds[i]? = some g := by
        rw [← hg]
        simp [Deployment.setFeed, Ne.symm hij]
      have hheard : heardBy world i d (.adapter j e) = [] := by simp [heardBy, Ne.symm hij]
      rw [hheard, List.append_nil]
      exact h.fed i v g hv hg₁
  · intro i hnone
    have hij : j ≠ i := by
      rintro rfl
      exact nomatch hw.symm.trans hnone
    simp [heardBy, hij, h.unheard i hnone]

omit [IsStrictOrderedRing K] in
theorem receive_eq_some {i : ℕ} (h : d.receive world i = some d') :
    ∃ f t w stream service, d.feeds[i]? = some f ∧ f.adapter.sent[f.received]? = some t ∧
      d.service.registry.items[i]? = some w ∧
      w.stream.stepIn world.build world.libm (.trade t) = some stream ∧
      service = { d.service with registry := d.service.registry.set i { w with stream } } ∧
      d' = { d with service }.setFeed i { f with received := f.received + 1 } := by
  obtain ⟨f, hf, h⟩ := Option.bind_eq_some_iff.mp h
  obtain ⟨t, ht, h⟩ := Option.bind_eq_some_iff.mp h
  obtain ⟨service, hservice, rfl⟩ := Option.map_eq_some_iff.mp h
  obtain ⟨w, stream, hw, hstream, heq⟩ := Service.streamStepIn_eq_some hservice
  exact ⟨f, t, w, stream, service, hf, ht, hw, hstream, heq, rfl⟩

/-- A worker takes a trade from its channel. -/
theorem Inv.receive (h : Inv world.libm heartbeatInterval heard d) {j : ℕ}
    (hstep : d.receive world j = some d') : Inv world.libm heartbeatInterval heard d' := by
  obtain ⟨f, t, w, stream, service, hf, ht, hw, hstream, rfl, rfl⟩ := receive_eq_some hstep
  have hfed := h.fed j w f hw hf
  have hlt : j < d.service.registry.items.length := (List.getElem?_eq_some_iff.mp hw).1
  refine ⟨h.wired.set hw (Stream.kept_of_step hfed.taken.worker hstream).setup, ?_, ?_, ?_⟩
  · simp [Deployment.setFeed, h.feeds_length, Directory.set]
  · intro i v g hv hg
    have hv : (d.service.registry.set j { w with stream }).items[i]? = some v := hv
    by_cases hij : i = j
    · subst hij
      have hv₁ : (d.service.registry.set i { w with stream }).items[i]? =
          some { w with stream } := by
        simp [Directory.set, hlt]
      obtain rfl := Option.some.inj (hv₁.symm.trans hv)
      have hg₁ : (d.setFeed i { f with received := f.received + 1 }).feeds[i]? =
          some { f with received := f.received + 1 } := by
        simp [Deployment.setFeed, (List.getElem?_eq_some_iff.mp hf).1]
      obtain rfl := Option.some.inj (hg₁.symm.trans hg)
      exact hfed.receive ht hstream
    · have hg₁ : d.feeds[i]? = some g := by
        rw [← hg]
        simp [Deployment.setFeed, Ne.symm hij]
      have hv₁ : d.service.registry.items[i]? = some v := by
        rw [← hv]
        simp [Directory.set, Ne.symm hij]
      exact h.fed i v g hv₁ hg₁
  · intro i hnone
    have hnone : (d.service.registry.set j { w with stream }).items[i]? = none := hnone
    apply h.unheard i
    simpa [Directory.set] using hnone

omit [FloorSemiring K] [IsStrictOrderedRing K] in
theorem clientStep_eq_some {j : ℕ} {link : Link} {e : ToxicityClient.Event W}
    (h : d.clientStep world j link e = some d') :
    ∃ client, (d.subscribers j).client.step world.codec.fromStr e = some client ∧
      d' = d.setSubscriber j { d.subscribers j with client, link } := by
  obtain ⟨client, hclient, rfl⟩ := Option.map_eq_some_iff.mp h
  exact ⟨client, hclient, rfl⟩

omit [IsStrictOrderedRing K] in
/-- A request is read: it is for an unknown key, or a stream is found and subscribed to. -/
theorem served_eq_some {j c : ℕ} (h : d.served world j c = some d') :
    (d.subscribers j).link = .requested ∧
    ((d.service.registry.index (d.subscribers j).key = none ∧
        d' = d.setSubscriber j { d.subscribers j with link := .unknown false }) ∨
      ∃ i w stream service, d.service.registry.index (d.subscribers j).key = some i ∧
        d.service.registry.items[i]? = some w ∧
        w.stream.step world.libm (.subscribe c) = some stream ∧
        d.service.step world.libm world.readStreams (.subscribe (d.subscribers j).request c) =
          some service ∧
        service = { d.service with registry := d.service.registry.set i { w with stream } } ∧
        d' = { d with service }.setSubscriber j
          { d.subscribers j with link := .attached i c 0 }) := by
  obtain ⟨hlink, h⟩ := Option.ite_none_right_eq_some.mp h
  refine ⟨hlink, ?_⟩
  split at h
  · rename_i hindex
    exact .inl ⟨hindex, (Option.some.inj h).symm⟩
  · rename_i i hindex
    obtain ⟨service, hservice, rfl⟩ := Option.map_eq_some_iff.mp h
    have hstep := (Option.ite_none_right_eq_some.mp hservice).2
    unfold Service.onSubscribe at hstep
    rw [show d.service.registry.index (streamKey (d.subscribers j).request.exchange
      (d.subscribers j).request.symbol) = some i from hindex] at hstep
    obtain ⟨w, stream, hw, hstream, heq⟩ := Service.streamStep_eq hstep
    exact .inr ⟨i, w, stream, service, hindex, hw, hstream, hservice, heq, rfl⟩

/-- A subscription spawns nothing, so no adapter is started. -/
theorem Inv.served (h : Inv world.libm heartbeatInterval heard d) {j c : ℕ}
    (hstep : d.served world j c = some d') : Inv world.libm heartbeatInterval heard d' := by
  obtain ⟨-, ⟨-, rfl⟩ | ⟨i, w, stream, service, -, hw, -, hservice, heq, rfl⟩⟩ :=
    served_eq_some hstep
  · exact ⟨h.wired, h.feeds_length, h.fed, h.unheard⟩
  · have hlength : service.registry.items.length = d.feeds.length := by
      rw [heq, h.feeds_length]
      exact List.length_set
    have hsame : d.withService service = { d with service } := by
      rw [Deployment.withService, ← hlength, List.drop_length, List.map_nil, List.append_nil]
    have hinv := h.withService (e := .subscribe (d.subscribers j).request c) rfl hservice
    rw [hsame] at hinv
    exact ⟨hinv.wired, hinv.feeds_length, hinv.fed, hinv.unheard⟩

omit [IsStrictOrderedRing K] in
/-- Apart from a request that is read, a subscriber's step is one of its client. -/
theorem subscriberStep_cases {j : ℕ} {e : Subscriber.Event}
    (h : d.subscriberStep world j e = some d') :
    (∃ c, e = .served c ∧ d.served world j c = some d') ∨
      (∀ c, e ≠ .served c) ∧ ∃ link e', d.clientStep world j link e' = some d' := by
  cases e with
  | served c => exact .inl ⟨c, rfl, h⟩
  | established =>
      simp only [Deployment.subscriberStep] at h
      split at h
      · exact .inr ⟨by simp, _, _, h⟩
      · cases h
  | deliver =>
      obtain ⟨⟨msg, link⟩, -, h⟩ := Option.bind_eq_some_iff.mp h
      exact .inr ⟨by simp, _, _, h⟩
  | wait n => exact .inr ⟨by simp, _, .wait n, h⟩
  | attempt => exact .inr ⟨by simp, _, .attempt, h⟩
  | refused => exact .inr ⟨by simp, _, .refused, h⟩
  | otherFrame => exact .inr ⟨by simp, _, .otherFrame, h⟩
  | stalenessCheck => exact .inr ⟨by simp, _, .stalenessCheck, h⟩
  | ended => exact .inr ⟨by simp, _, .ended, h⟩

theorem Inv.subscriberStep (h : Inv world.libm heartbeatInterval heard d) {j : ℕ}
    {e : Subscriber.Event} (hstep : d.subscriberStep world j e = some d') :
    Inv world.libm heartbeatInterval heard d' := by
  obtain ⟨c, -, hstep⟩ | ⟨-, link, e', hstep⟩ := subscriberStep_cases hstep
  · exact h.served hstep
  · obtain ⟨client, -, rfl⟩ := clientStep_eq_some hstep
    exact ⟨h.wired, h.feeds_length, h.fed, h.unheard⟩

theorem Inv.step (h : Inv world.libm heartbeatInterval heard d) {e : Event K}
    (hstep : d.step world e = some d') :
    Inv world.libm heartbeatInterval (fun i ↦ heard i ++ heardBy world i d e) d' := by
  have hquiet : (fun i ↦ heard i ++ []) = heard := funext fun i ↦ List.append_nil _
  cases e with
  | service e =>
      obtain ⟨he, hstep⟩ := Option.ite_none_right_eq_some.mp hstep
      obtain ⟨service, hservice, rfl⟩ := Option.map_eq_some_iff.mp hstep
      simp only [heardBy, hquiet]
      exact h.withService he hservice
  | adapter i e => exact h.adapterStep hstep
  | receive i =>
      simp only [heardBy, hquiet]
      exact h.receive hstep
  | subscriber j e =>
      simp only [heardBy, hquiet]
      exact h.subscriberStep hstep

/-! ## The streams -/

omit [IsStrictOrderedRing K] in
/-- A stream goes on from where it was. -/
theorem Inv.follow (h : Inv world.libm heartbeatInterval heard d) {e : Event K}
    (hstep : d.step world e = some d') {i : ℕ} {w : Spawned K}
    (hw : d.service.registry.items[i]? = some w) :
    ∃ es stream, Runs.run (Stream.stepIn world.build world.libm) w.stream es = some stream ∧
      d'.service.registry.items[i]? = some { w with stream } := by
  have hservice : ∀ {e : Service.Event K} {service : Service K}, IsInternal e →
      d.service.step world.libm world.readStreams e = some service →
      ∃ es stream, Runs.run (Stream.stepIn world.build world.libm) w.stream es = some stream ∧
        service.registry.items[i]? = some { w with stream } := by
    intro e service he hstep
    obtain ⟨stream, hrun, hw'⟩ := h.wired.follow hstep hw
    exact ⟨_, stream, (Stream.run_stepIn (Service.taken_toStream he i)).trans hrun, hw'⟩
  have hstay : d'.service = d.service → ∃ es stream,
      Runs.run (Stream.stepIn world.build world.libm) w.stream es = some stream ∧
        d'.service.registry.items[i]? = some { w with stream } :=
    fun hsame ↦ ⟨[], w.stream, rfl, by rw [hsame]; exact hw⟩
  cases e with
  | service e =>
      obtain ⟨he, hstep⟩ := Option.ite_none_right_eq_some.mp hstep
      obtain ⟨service, hserved, rfl⟩ := Option.map_eq_some_iff.mp hstep
      exact hservice he hserved
  | adapter j e =>
      obtain ⟨_, f, adapter, -, -, -, -, rfl⟩ := adapterStep_eq_some hstep
      exact hstay rfl
  | receive j =>
      obtain ⟨f, t, w', stream, service, -, -, hw', hstream, rfl, rfl⟩ := receive_eq_some hstep
      by_cases hij : i = j
      · subst hij
        obtain rfl := Option.some.inj (hw'.symm.trans hw)
        refine ⟨[.trade t], stream, run_cons_eq_some.mpr ⟨stream, hstream, rfl⟩, ?_⟩
        simp [Deployment.setFeed, Directory.set, (List.getElem?_eq_some_iff.mp hw).1]
      · refine ⟨[], w.stream, rfl, ?_⟩
        simpa [Deployment.setFeed, Directory.set, Ne.symm hij] using hw
  | subscriber j e =>
      obtain ⟨c, rfl, hstep⟩ | ⟨-, link, e', hstep⟩ := subscriberStep_cases hstep
      · obtain ⟨-, ⟨-, rfl⟩ | ⟨k, w', stream, service, -, -, -, hserved, -, rfl⟩⟩ :=
          served_eq_some hstep
        · exact hstay rfl
        · exact hservice (e := .subscribe (d.subscribers j).request c) rfl hserved
      · obtain ⟨client, -, rfl⟩ := clientStep_eq_some hstep
        exact hstay rfl

end Steps

/-! ## Runs -/

section Runs

variable [IsStrictOrderedRing K] {world : World K W} {cfg : ServiceConfig K} {s₀ : Service K}
  {request : ℕ → SubscribeRequest} {headers : ℕ → Headers} {staleAfter : ℕ → ℕ}
  {es : List (Event K)} {d : Deployment K}

/-- The trades decoded from what the venue has sent on the stream at `i`, in order. -/
def venueTrades (world : World K W) (i : ℕ) (d : Deployment K) (es : List (Event K)) :
    List NormalizedTrade := told (step world) (heardBy world i) d es

omit [IsStrictOrderedRing K] in
theorem inv_deploy (hstart : Service.start cfg = .ok s₀) :
    Inv world.libm cfg.heartbeatInterval (fun _ ↦ [])
      (deploy s₀ request headers staleAfter) := by
  have hempty : s₀.registry.items = [] := by
    rw [(Service.start_eq_ok hstart).2.2]
    rfl
  refine ⟨Service.wellWired_of_start hstart, by simp [deploy, hempty], ?_, fun _ _ ↦ rfl⟩
  intro i w f hw
  simp [deploy, hempty] at hw

theorem inv_run (hstart : Service.start cfg = .ok s₀)
    (hrun : run (step world) (deploy s₀ request headers staleAfter) es = some d) :
    Inv world.libm cfg.heartbeatInterval
      (fun i ↦ venueTrades world i (deploy s₀ request headers staleAfter) es) d := by
  refine @invariant_trace _ _ _ _ _ _ (fun es d ↦ Inv world.libm cfg.heartbeatInterval
    (fun i ↦ venueTrades world i (deploy s₀ request headers staleAfter) es) d) ?_
    (inv_deploy hstart) hrun
  intro es d e d' hd h hstep
  have hheard : (fun i ↦ venueTrades world i (deploy s₀ request headers staleAfter)
      (es ++ [e])) = fun i ↦ venueTrades world i (deploy s₀ request headers staleAfter) es ++
        heardBy world i d e := funext fun i ↦ told_concat e hd
  rw [hheard]
  exact h.step hstep

end Runs

end Deployment

end Geiger
