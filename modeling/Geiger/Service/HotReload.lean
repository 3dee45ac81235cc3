import Geiger.Service.Keys

/-!
# Hot reload only adds

Seen through what each stream was spawned with, the reload loop offers the valid
entries of each file in turn to the registry, and nothing else that runs beside it
changes what the registry holds.  In the registry the first offer under a key wins.
-/

namespace Geiger

open Runs

variable {K : Type} [Field K] [LinearOrder K]

/-- What `spawn_stream` hands to the adapter and to the worker of a stream. -/
structure Wiring (K : Type) where
  exchange : Exchange
  config : StreamConfig K
  backoff : BackoffConfig
  exchangeName : String
  symbol : String
  engineCfg : VpinEngineConfig K
  heartbeatInterval : ℕ

def Wiring.key (w : Wiring K) : String := w.config.key

def Resolved.wiring (r : Resolved K) (heartbeatInterval : ℕ) : Wiring K where
  exchange := r.exchange
  config := r.config
  backoff := r.config.backoffConfig
  exchangeName := r.config.exchange
  symbol := r.config.symbol
  engineCfg := r.engineCfg
  heartbeatInterval

def Spawned.wiring (w : Spawned K) : Wiring K where
  exchange := w.exchange
  config := w.config
  backoff := w.backoff
  exchangeName := w.stream.exchange
  symbol := w.stream.symbol
  engineCfg := w.stream.engineCfg
  heartbeatInterval := w.stream.heartbeatInterval

/-- The wiring of an entry that `resolve_stream` accepts. -/
def StreamConfig.wiring (heartbeatInterval : ℕ) (c : StreamConfig K) : Option (Wiring K) :=
  (resolveStream c).toOption.map fun r ↦ Resolved.wiring ⟨r.1, c, r.2⟩ heartbeatInterval

theorem StreamConfig.wiring_of_error {heartbeatInterval : ℕ} {c : StreamConfig K}
    {e : ResolveError K} (h : resolveStream c = .error e) : c.wiring heartbeatInterval = none := by
  rw [wiring, h]
  rfl

theorem StreamConfig.wiring_of_ok {heartbeatInterval : ℕ} {c : StreamConfig K}
    {r : Exchange × VpinEngineConfig K} (h : resolveStream c = .ok r) :
    c.wiring heartbeatInterval = some (Resolved.wiring ⟨r.1, c, r.2⟩ heartbeatInterval) := by
  rw [wiring, h]
  rfl

theorem StreamConfig.wiring_ne_none {heartbeatInterval : ℕ} {c : StreamConfig K}
    (h : (resolveStream c).isOk) : c.wiring heartbeatInterval ≠ none := by
  cases hresolve : resolveStream c with
  | error e =>
      rw [hresolve] at h
      cases h
  | ok r =>
      rw [wiring_of_ok hresolve]
      exact Option.some_ne_none _

theorem StreamConfig.exists_of_wiring {heartbeatInterval : ℕ} {c : StreamConfig K} {w : Wiring K}
    (h : c.wiring heartbeatInterval = some w) :
    ∃ exchange engineCfg, resolveStream c = .ok (exchange, engineCfg) ∧
      w = Resolved.wiring ⟨exchange, c, engineCfg⟩ heartbeatInterval := by
  cases hresolve : resolveStream c with
  | error e =>
      rw [wiring_of_error hresolve] at h
      cases h
  | ok r =>
      rw [wiring_of_ok hresolve] at h
      exact ⟨r.1, r.2, rfl, (Option.some.inj h).symm⟩

namespace Service

/-- The registry with every stream as it was spawned. -/
def wirings (s : Service K) : Directory String (Wiring K) := s.registry.map Spawned.wiring

structure OnlyAdds (s t : Service K) : Prop where
  /-- No key's entry is removed or replaced. -/
  kept : ∀ k i, s.registry.index k = some i → t.registry.index k = some i
  /-- Streams are spawned under free keys, never two under one, and the earlier ones
  stay as they were spawned. -/
  added : ∃ added : List (Wiring K), t.wirings.items = s.wirings.items ++ added ∧
    (added.map Wiring.key).Nodup ∧ ∀ w ∈ added, s.registry.index w.key = none

/-- What a poll that read these entries has made of the registry. -/
structure Polled (s : Service K) (streams : List (StreamConfig K)) (t : Service K) : Prop where
  listed : ∀ c ∈ streams, (resolveStream c).isOk → t.registry.index c.key ≠ none
  /-- A key that was free is wired from the first valid entry for it. -/
  wired : ∀ k i, s.registry.index k = none → t.registry.index k = some i →
    ∃ c exchange engineCfg w,
      streams.find? (fun c ↦ c.key = k ∧ (resolveStream c).isOk) = some c ∧
      resolveStream c = .ok (exchange, engineCfg) ∧ t.registry.items[i]? = some w ∧
      w.wiring = Resolved.wiring ⟨exchange, c, engineCfg⟩ s.heartbeatInterval

end Service

/-! ## What a running stream keeps -/

namespace Stream

variable [FloorSemiring K] {m : Libm K} {s s' : Stream K}

/-- What the stream was created with. -/
def setup (s : Stream K) : String × String × VpinEngineConfig K × ℕ :=
  (s.exchange, s.symbol, s.engineCfg, s.heartbeatInterval)

theorem setup_startWorker (s : Stream K) : s.startWorker.setup = s.setup := by
  rw [startWorker]
  split
  · rfl
  · dsimp only
    split <;> rfl

theorem setup_onTrade (s : Stream K) (engine : VpinEngine K) (t : NormalizedTrade) :
    (s.onTrade m engine t).setup = s.setup := by
  rw [onTrade]
  split <;> rfl

theorem setup_step {e : Event} (h : s.step m e = some s') : s'.setup = s.setup := by
  cases e with
  | start =>
      obtain ⟨-, rfl⟩ := start_eq_some h
      exact s.setup_startWorker
  | heartbeat tsNs =>
      obtain ⟨engine, -, rfl⟩ := heartbeat_eq_some h
      rfl
  | trade t =>
      obtain ⟨engine, -, rfl⟩ := trade_eq_some h
      exact s.setup_onTrade engine t
  | closed =>
      obtain ⟨engine, -, rfl⟩ := closed_eq_some h
      rfl
  | proceed =>
      obtain ⟨_, _, _, -, -, rfl⟩ | ⟨_, _, _, -, -, rfl⟩ | ⟨_, _, -, rfl⟩ := proceed_eq_some h
      · rfl
      · rfl
      · rfl
  | subscribe c | snapshot c | recv c =>
      obtain ⟨fanout, -, rfl⟩ := connStep_eq_some h
      rfl

end Stream

namespace Service

/-! ## What each step offers -/

theorem wirings_spawnStream (s : Service K) (r : Resolved K) :
    (s.spawnStream r).wirings = s.wirings.insert r.config.key (r.wiring s.heartbeatInterval) :=
  Directory.map_insert _ _ _

theorem wirings_visitStream (s : Service K) (c : StreamConfig K) :
    (s.visitStream c).wirings =
      s.wirings.offerAll Wiring.key (c.wiring s.heartbeatInterval).toList := by
  cases hresolve : resolveStream c with
  | error e =>
      have hsame : s.visitStream c = s := by
        unfold visitStream
        rw [hresolve]
        split <;> rfl
      rw [hsame, StreamConfig.wiring_of_error hresolve]
      rfl
  | ok r =>
      rw [StreamConfig.wiring_of_ok hresolve]
      change _ = s.wirings.offer Wiring.key _
      cases hindex : s.registry.index c.key with
      | some i =>
          have hsame : s.visitStream c = s := by simp [visitStream, hindex]
          rw [hsame, Directory.offer_of_some]
          exact hindex
      | none =>
          have hspawn : s.visitStream c = s.spawnStream ⟨r.1, c, r.2⟩ := by
            simp [visitStream, hindex, hresolve]
          rw [hspawn, wirings_spawnStream, Directory.offer_of_none]
          · rfl
          · exact hindex

/-- What a file offers to the registry. -/
def offers (heartbeatInterval : ℕ) (streams : List (StreamConfig K)) : List (Wiring K) :=
  streams.filterMap (StreamConfig.wiring heartbeatInterval)

theorem find?_offers (heartbeatInterval : ℕ) (streams : List (StreamConfig K)) (k : String) :
    (offers heartbeatInterval streams).find? (·.key = k) =
      (streams.find? fun c ↦ c.key = k ∧ (resolveStream c).isOk).bind
        (StreamConfig.wiring heartbeatInterval) := by
  induction streams with
  | nil => rfl
  | cons c streams ih =>
      cases hresolve : resolveStream c with
      | error e =>
          have hinvalid : (resolveStream c).isOk = false := by rw [hresolve]; rfl
          rw [offers, List.filterMap_cons_none (StreamConfig.wiring_of_error hresolve),
            List.find?_cons_of_neg (by simp [hinvalid])]
          exact ih
      | ok r =>
          have hvalid : (resolveStream c).isOk = true := by rw [hresolve]; rfl
          have hwiring : c.wiring heartbeatInterval = some _ := StreamConfig.wiring_of_ok hresolve
          rw [offers, List.filterMap_cons_some hwiring]
          by_cases hk : c.key = k
          · rw [List.find?_cons_of_pos (by simp [Wiring.key, Resolved.wiring, hk]),
              List.find?_cons_of_pos (by simp [hk, hvalid]), Option.bind_some, hwiring]
          · rw [List.find?_cons_of_neg (by simp [Wiring.key, Resolved.wiring, hk]),
              List.find?_cons_of_neg (by simp [hk])]
            exact ih

theorem visitStream_frame (s : Service K) (c : StreamConfig K) :
    (s.visitStream c).starting = s.starting ∧ (s.visitStream c).reloading = s.reloading ∧
      (s.visitStream c).heartbeatInterval = s.heartbeatInterval := by
  rcases visitStream_eq s c with heq | ⟨r, -, -, heq⟩
  · rw [heq]
    exact ⟨rfl, rfl, rfl⟩
  · rw [heq]
    exact ⟨rfl, rfl, rfl⟩

variable [FloorSemiring K] {m : Libm K}
  {fromStr : String → Except String (List (StreamConfig K))} {s s' : Service K}

theorem wirings_streamStep {i : ℕ} {e : Stream.Event} (h : s.streamStep m i e = some s') :
    s'.wirings = s.wirings ∧ s'.starting = s.starting ∧ s'.reloading = s.reloading ∧
      s'.heartbeatInterval = s.heartbeatInterval := by
  obtain ⟨w, hw, h⟩ := Option.bind_eq_some_iff.mp h
  obtain ⟨stream, hstream, rfl⟩ := Option.map_eq_some_iff.mp h
  refine ⟨Directory.map_set hw ?_, rfl, rfl, rfl⟩
  have hsetup := Stream.setup_step hstream
  simp only [Stream.setup, Prod.mk.injEq] at hsetup
  simp only [Spawned.wiring, hsetup]

/-- After the initial spawns a step either visits the next entry and offers it, or
leaves the registry as it was spawned. -/
theorem step_offers {e : Event K} (hstarting : s.starting = [])
    (h : s.step m fromStr e = some s') :
    s'.starting = [] ∧ s'.heartbeatInterval = s.heartbeatInterval ∧
      ((∃ c, s.reloading = c :: s'.reloading ∧
          s'.wirings = s.wirings.offerAll Wiring.key (c.wiring s.heartbeatInterval).toList) ∨
        s'.wirings = s.wirings ∧
          ((∀ raw, e ≠ .reload raw) → s'.reloading = s.reloading)) := by
  obtain ⟨r, rest, hspawn, -⟩ | ⟨raw, reloading, rfl, -, rfl⟩ | ⟨c, rest, hreloading, rfl⟩ |
    rfl | ⟨i, e', hi⟩ := step_cases h
  · rw [hstarting] at hspawn
    cases hspawn
  · exact ⟨hstarting, rfl, .inr ⟨rfl, fun hne ↦ absurd rfl (hne raw)⟩⟩
  · obtain ⟨hstarting', hrest, hheartbeat⟩ := visitStream_frame { s with reloading := rest } c
    refine ⟨hstarting'.trans hstarting, hheartbeat, .inl ⟨c, ?_, ?_⟩⟩
    · rw [hreloading, hrest]
    · exact wirings_visitStream { s with reloading := rest } c
  · exact ⟨hstarting, rfl, .inr ⟨rfl, fun _ ↦ rfl⟩⟩
  · obtain ⟨hwirings, hstarting', hreloading, hheartbeat⟩ := wirings_streamStep hi
    exact ⟨hstarting'.trans hstarting, hheartbeat, .inr ⟨hwirings, fun _ ↦ hreloading⟩⟩

omit [FloorSemiring K] in
theorem index_of_offered {t : Service K} {offered : List (Wiring K)} {k : String} {i : ℕ}
    (hwirings : t.wirings = s.wirings.offerAll Wiring.key offered)
    (hindex : s.registry.index k = some i) : t.registry.index k = some i := by
  have hkept : t.wirings.index k = some i := by
    rw [hwirings]
    exact Directory.index_offerAll_of_some hindex
  exact hkept

/-! ## Runs -/

/-- The registry has been offered the entries visited so far. -/
structure Offered (s : Service K) (streams : List (StreamConfig K)) (t : Service K) : Prop where
  starting : t.starting = []
  heartbeatInterval : t.heartbeatInterval = s.heartbeatInterval
  visited : ∃ visited, streams = visited ++ t.reloading ∧
    t.wirings = s.wirings.offerAll Wiring.key (offers s.heartbeatInterval visited)

theorem Offered.step {streams : List (StreamConfig K)} {t t' : Service K} {e : Event K}
    (h : Offered s streams t) (he : ∀ raw, e ≠ .reload raw) (hstep : t.step m fromStr e = some t') :
    Offered s streams t' := by
  obtain ⟨hstarting, hheartbeat, hoffers⟩ := step_offers h.starting hstep
  obtain ⟨visited, hstreams, hwirings⟩ := h.visited
  refine ⟨hstarting, hheartbeat.trans h.heartbeatInterval, ?_⟩
  rcases hoffers with ⟨c, hreloading, hwirings'⟩ | ⟨hwirings', hreloading⟩
  · refine ⟨visited ++ [c], ?_, ?_⟩
    · rw [hstreams, hreloading, List.append_assoc]
      rfl
    · rw [hwirings', hwirings, offers, offers, List.filterMap_append, Directory.offerAll_append,
        h.heartbeatInterval, List.filterMap_cons]
      cases c.wiring s.heartbeatInterval <;> rfl
  · exact ⟨visited, by rw [hstreams, hreloading he], hwirings'.trans hwirings⟩

/-- A poll from its reading of the file on, with anything running beside it. -/
theorem offered_of_run {streams : List (StreamConfig K)} {t u : Service K} {es : List (Event K)}
    (h : Offered s streams t) (hes : ∀ raw, .reload raw ∉ es)
    (hrun : run (step m fromStr) t es = some u) : Offered s streams u := by
  have hguard : Along (step m fromStr) (fun _ e ↦ ∀ raw, e ≠ .reload raw) t es := by
    apply along_of_mem
    intro e he _ raw heq
    exact hes raw (heq ▸ he)
  exact invariant_along (fun _ _ _ ht he hstep ↦ ht.step he hstep) h hguard hrun

omit [FloorSemiring K] in
/-- After a poll the registry has under a free key what the first valid entry for it
offered. -/
theorem Offered.found {streams : List (StreamConfig K)} {t : Service K}
    (h : Offered s streams t) (hdone : t.reloading = []) {k : String}
    (hfree : s.registry.index k = none) :
    (t.registry.index k).map (t.wirings.items[·]?) =
      ((streams.find? fun c ↦ c.key = k ∧ (resolveStream c).isOk).bind
        (StreamConfig.wiring s.heartbeatInterval)).map some := by
  obtain ⟨visited, hstreams, hwirings⟩ := h.visited
  rw [hdone, List.append_nil] at hstreams
  subst hstreams
  rw [← find?_offers, ← Directory.found_offerAll_of_none (d := s.wirings) hfree, ← hwirings]
  rfl

omit [FloorSemiring K] in
theorem Offered.polled {streams : List (StreamConfig K)} {t : Service K}
    (h : Offered s streams t) (hdone : t.reloading = []) : Polled s streams t := by
  constructor
  · intro c hc hvalid hnone
    cases hindex : s.registry.index c.key with
    | some i =>
        obtain ⟨visited, -, hwirings⟩ := h.visited
        rw [index_of_offered hwirings hindex] at hnone
        cases hnone
    | none =>
        have hnot := h.found hdone hindex
        rw [hnone, Option.map_none, eq_comm, Option.map_eq_none_iff,
          Option.bind_eq_none_iff] at hnot
        have hlisted : (streams.find? fun c' ↦ c'.key = c.key ∧ (resolveStream c').isOk).isSome :=
          List.find?_isSome.mpr ⟨c, hc, by simp [hvalid]⟩
        obtain ⟨c', hfind⟩ := Option.isSome_iff_exists.mp hlisted
        have hc' := List.find?_some hfind
        rw [decide_eq_true_iff] at hc'
        exact StreamConfig.wiring_ne_none hc'.2 (hnot c' hfind)
  · intro k i hfree hindex
    have hnew := h.found hdone hfree
    rw [hindex, Option.map_some, eq_comm, Option.map_eq_some_iff] at hnew
    obtain ⟨wiring, hbind, hitem⟩ := hnew
    obtain ⟨c, hfind, hwiring⟩ := Option.bind_eq_some_iff.mp hbind
    obtain ⟨exchange, engineCfg, hresolve, rfl⟩ := StreamConfig.exists_of_wiring hwiring
    have hitem' : (t.registry.items.map Spawned.wiring)[i]? = some _ := hitem.symm
    rw [List.getElem?_map] at hitem'
    obtain ⟨w, hw, hwired⟩ := Option.map_eq_some_iff.mp hitem'
    exact ⟨c, exchange, engineCfg, w, hfind, hresolve, hw, hwired⟩

/-- A poll never gets stuck: from wherever it stands it can visit the rest. -/
theorem exists_run_visited (m : Libm K)
    (fromStr : String → Except String (List (StreamConfig K))) (s : Service K) :
    ∃ t, run (step m fromStr) s (.replicate s.reloading.length .visit) = some t ∧
      t.reloading = [] := by
  induction hreloading : s.reloading generalizing s with
  | nil => exact ⟨s, rfl, hreloading⟩
  | cons c rest ih =>
      have hstep : s.step m fromStr .visit = some ({ s with reloading := rest }.visitStream c) := by
        simp [step, hreloading]
      obtain ⟨-, hrest, -⟩ := visitStream_frame { s with reloading := rest } c
      obtain ⟨t, hrun, hdone⟩ := ih _ hrest
      exact ⟨t, run_cons_eq_some.mpr ⟨_, hstep, hrun⟩, hdone⟩

/-- The registry has been made some offers, and no initial spawn is left. -/
def Grown (s t : Service K) : Prop :=
  t.starting = [] ∧ ∃ offered, t.wirings = s.wirings.offerAll Wiring.key offered

theorem Grown.step {t t' : Service K} {e : Event K} (h : Grown s t)
    (hstep : t.step m fromStr e = some t') : Grown s t' := by
  obtain ⟨hstarting, offered, hwirings⟩ := h
  obtain ⟨hstarting', -, ⟨c, -, hoffer⟩ | ⟨hsame, -⟩⟩ := step_offers hstarting hstep
  · refine ⟨hstarting', offered ++ (c.wiring t.heartbeatInterval).toList, ?_⟩
    rw [hoffer, hwirings, Directory.offerAll_append]
  · exact ⟨hstarting', offered, hsame.trans hwirings⟩

theorem onlyAdds_of_run (hstarting : s.starting = []) {es : List (Event K)}
    (hrun : run (step m fromStr) s es = some s') : OnlyAdds s s' := by
  have hinit : Grown s s := ⟨hstarting, [], rfl⟩
  have hgrown : Grown s s' := invariant (fun _ _ _ h hstep ↦ h.step hstep) hinit hrun
  obtain ⟨-, offered, hwirings⟩ := hgrown
  constructor
  · intro k i hindex
    exact index_of_offered hwirings hindex
  · obtain ⟨added, hitems, -, hnodup, hfree⟩ :=
      Directory.exists_items_offerAll Wiring.key s.wirings offered
    exact ⟨added, by rw [hwirings, hitems], hnodup, hfree⟩

/-- Whatever the polls read and whatever runs beside them, hot reload only adds
streams, each key once; a failed reading changes nothing, and a poll that read its
file adds every valid entry, the first for each key. -/
theorem hot_reload_only_adds (m : Libm K)
    (fromStr : String → Except String (List (StreamConfig K))) {s₀ s : Service K}
    (hstarting : s₀.starting = []) {es : List (Event K)}
    (hrun : run (step m fromStr) s₀ es = some s) :
    OnlyAdds s₀ s ∧
      ∀ raw s', s.step m fromStr (.reload raw) = some s' →
        (∀ e, loadStreams (fun _ ↦ raw) fromStr s.streamsFile = .error e → s' = s) ∧
        ∀ streams, loadStreams (fun _ ↦ raw) fromStr s.streamsFile = .ok streams →
          ∀ es' t, (∀ raw, .reload raw ∉ es') → run (step m fromStr) s' es' = some t →
            (∃ t', run (step m fromStr) t (.replicate t.reloading.length .visit) = some t' ∧
              t'.reloading = []) ∧
            (t.reloading = [] → Polled s streams t) := by
  refine ⟨onlyAdds_of_run hstarting hrun, ?_⟩
  intro raw s' hreload
  have hs : s.starting = [] := (reload_eq_some hreload).1
  simp only [step, Option.ite_none_right_eq_some] at hreload
  obtain ⟨-, hreload⟩ := hreload
  constructor
  · intro e hload
    rw [hload] at hreload
    exact (Option.some.inj hreload).symm
  · intro streams hload es' t hes' hrun'
    rw [hload] at hreload
    obtain rfl := Option.some.inj hreload
    have hoffered : Offered s streams { s with reloading := streams } := ⟨hs, rfl, [], rfl, rfl⟩
    exact ⟨exists_run_visited m fromStr t, (offered_of_run hoffered hes' hrun').polled⟩

/-- Another casing of a key in use, then one key three times, invalid at first. -/
def fourEntries : List (StreamConfig ℚ) :=
  [btcusdt "Binance" "btcusdt", { btcusdt "bybit" "ETHUSDT" with bucketVolume := 0 },
    { btcusdt "Bybit" "ethusdt" with bucketVolume := 7 }, btcusdt "bybit" "ETHUSDT"]

def readFourEntries (_ : String) : Except String (List (StreamConfig ℚ)) := .ok fourEntries

def oneStream : Service ℚ :=
  spawnStream ⟨"streams.json", Duration.fromSecs 5, some (Duration.fromSecs 60), [], [], .empty⟩
    ⟨.binance, btcusdt "binance" "BTCUSDT", ⟨50, 50, 50, none, none⟩⟩

theorem hot_reload_only_adds_fourEntries :
    ∃ s s' t, run (step noLibm readFourEntries) oneStream [.reload (.error "gone")] = some s ∧
      OnlyAdds oneStream s ∧ s.step noLibm readFourEntries (.reload (.ok streamsText)) = some s' ∧
      run (step noLibm readFourEntries) s' (.replicate 4 .visit) = some t ∧
      Polled s fourEntries t ∧ t.spawnedKeys = ["binance:BTCUSDT", "bybit:ETHUSDT"] := by
  have hvisits : (run (step noLibm readFourEntries)
      { oneStream with reloading := fourEntries } (.replicate 4 .visit)).map
        (fun t ↦ (t.reloading.isEmpty, t.spawnedKeys)) =
      some (true, ["binance:BTCUSDT", "bybit:ETHUSDT"]) := by decide +kernel
  obtain ⟨t, hrun, heq⟩ := Option.map_eq_some_iff.mp hvisits
  obtain ⟨hdone, hkeys⟩ := Prod.mk.inj heq
  have hgone : run (step noLibm readFourEntries) oneStream [.reload (.error "gone")] =
      some oneStream := rfl
  obtain ⟨hadds, hpolls⟩ := hot_reload_only_adds noLibm readFourEntries rfl hgone
  obtain ⟨-, hpolled⟩ := hpolls (.ok streamsText) { oneStream with reloading := fourEntries } rfl
  obtain ⟨-, hpolled⟩ := hpolled fourEntries rfl (.replicate 4 .visit) t (by simp) hrun
  exact ⟨oneStream, _, t, hgone, hadds, rfl, hrun, hpolled (List.isEmpty_iff.mp hdone), hkeys⟩

end Service

end Geiger
