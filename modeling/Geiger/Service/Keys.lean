import Geiger.Service.Streams

/-!
# One worker per stream key

The reload loop spawns under free keys only.  The initial spawns do not look, so
two configured streams with one key leave a worker that nobody can subscribe to.
-/

namespace Geiger.Service

open Runs

variable {K : Type} [Field K] [LinearOrder K]

/-- Workers and registry entries correspond, and keys tell workers apart. -/
structure OneWorkerPerKey (s : Service K) : Prop where
  /-- The entry found under a key is the one the worker with that key publishes to. -/
  registered : ∀ (k : String) (i : ℕ), s.registry.index k = some i ↔
    ∃ w, s.registry.items[i]? = some w ∧ w.key = k
  distinct : ∀ (i j : ℕ) (v w : Spawned K), s.registry.items[i]? = some v →
    s.registry.items[j]? = some w → v.key = w.key → i = j

def startingKeys (s : Service K) : List String := s.starting.map fun r ↦ r.config.key

def spawnedKeys (s : Service K) : List String := s.registry.items.map Spawned.key

theorem registered_iff_faithful {s : Service K} :
    (∀ k i, s.registry.index k = some i ↔
      ∃ w, s.registry.items[i]? = some w ∧ w.key = k) ↔
    Directory.Faithful Spawned.key s.registry := by
  simp only [Directory.Faithful, List.getElem?_map, Option.map_eq_some_iff]

theorem oneWorkerPerKey_iff {s : Service K} (h : Directory.Sound Spawned.key s.registry) :
    OneWorkerPerKey s ↔ s.spawnedKeys.Nodup := by
  rw [spawnedKeys, ← h.faithful_iff, ← registered_iff_faithful]
  constructor
  · intro hone
    exact hone.registered
  · intro hreg
    refine ⟨hreg, ?_⟩
    intro i j v w hv hw hkey
    have hi := (hreg v.key i).mpr ⟨v, hv, rfl⟩
    have hj := (hreg v.key j).mpr ⟨w, hw, hkey.symm⟩
    exact Option.some.inj (hi.symm.trans hj)

/-! ## Starting -/

theorem resolveAll_config {configs : List (StreamConfig K)} {resolved : List (Resolved K)}
    (h : resolveAll configs = .ok resolved) : resolved.map (·.config) = configs := by
  have hconfigs : List.Forall₂ (fun c r ↦ c = Resolved.config r) configs resolved :=
    (forall₂_of_resolveAll h).imp fun _ _ hr ↦ hr.2.symm
  rw [← List.forall₂_map_right_iff, List.forall₂_eq_eq_eq] at hconfigs
  exact hconfigs.symm

theorem startingKeys_of_start {cfg : ServiceConfig K} {s : Service K} (h : start cfg = .ok s) :
    s.startingKeys = cfg.streams.map StreamConfig.key ∧ s.reloading = [] ∧
      s.registry = .empty := by
  obtain ⟨hall, hreloading, hregistry⟩ := start_eq_ok h
  refine ⟨?_, hreloading, hregistry⟩
  rw [← resolveAll_config hall, List.map_map]
  rfl

/-! ## Runs -/

theorem spawnedKeys_spawnStream (s : Service K) (r : Resolved K) :
    (s.spawnStream r).spawnedKeys = s.spawnedKeys ++ [r.config.key] := by
  simp [spawnStream, spawnedKeys, Directory.insert, Spawned.key]

theorem sound_spawnStream {s : Service K} (h : Directory.Sound Spawned.key s.registry)
    (r : Resolved K) : Directory.Sound Spawned.key (s.spawnStream r).registry :=
  h.insert _

/-- No key occurs twice among the streams spawned and those still to be spawned. -/
structure FreshKeys (s : Service K) : Prop where
  sound : Directory.Sound Spawned.key s.registry
  nodup : (s.spawnedKeys ++ s.startingKeys).Nodup
  quiet : s.starting = [] ∨ s.reloading = []

variable [FloorSemiring K] {m : Libm K}
  {fromStr : String → Except String (List (StreamConfig K))} {s s' : Service K}

omit [FloorSemiring K] in
theorem keys_spawnStream {r : Resolved K} {rest : List (Resolved K)}
    (hstarting : s.starting = r :: rest) :
    ({ s with starting := rest }.spawnStream r).spawnedKeys ++
        ({ s with starting := rest }.spawnStream r).startingKeys =
      s.spawnedKeys ++ s.startingKeys := by
  rw [spawnedKeys_spawnStream]
  simp [startingKeys, hstarting, spawnStream, spawnedKeys]

omit [FloorSemiring K] in
theorem FreshKeys.spawnStream (h : FreshKeys s) (hstarting : s.starting = []) {r : Resolved K}
    (hfree : s.registry.index r.config.key = none) : FreshKeys (s.spawnStream r) := by
  refine ⟨sound_spawnStream h.sound r, ?_, .inl hstarting⟩
  have hnodup := h.nodup
  have hempty : s.startingKeys = [] := by simp [startingKeys, hstarting]
  have hempty' : (s.spawnStream r).startingKeys = [] := hempty
  rw [hempty, List.append_nil] at hnodup
  rw [hempty', List.append_nil, spawnedKeys_spawnStream]
  apply hnodup.append (List.nodup_singleton _)
  rw [List.disjoint_singleton]
  intro hmem
  exact h.sound.of_item _ hmem hfree

theorem FreshKeys.streamStep (h : FreshKeys s) {i : ℕ} {e : Stream.Event}
    (hstep : s.streamStep m i e = some s') : FreshKeys s' := by
  obtain ⟨w, stream, hw, rfl⟩ := streamStep_eq_some hstep
  refine ⟨h.sound.set hw rfl, ?_, h.quiet⟩
  have hkeys : (s.registry.set i { w with stream }).items.map Spawned.key = s.spawnedKeys :=
    Directory.map_items_set hw rfl
  rw [spawnedKeys, hkeys]
  exact h.nodup

theorem FreshKeys.step (h : FreshKeys s) {e : Event K} (hstep : s.step m fromStr e = some s') :
    FreshKeys s' := by
  obtain ⟨r, rest, hstarting, rfl⟩ | ⟨raw, reloading, rfl, hstarting, rfl⟩ |
    ⟨c, rest, hreloading, rfl⟩ | rfl | ⟨i, e', hi⟩ := step_cases hstep
  · have hreloading : s.reloading = [] := h.quiet.resolve_left (by simp [hstarting])
    exact ⟨sound_spawnStream h.sound r, keys_spawnStream hstarting ▸ h.nodup, .inr hreloading⟩
  · exact ⟨h.sound, h.nodup, .inl hstarting⟩
  · have hstarting : s.starting = [] := h.quiet.resolve_right (by simp [hreloading])
    have hrest : FreshKeys { s with reloading := rest } := ⟨h.sound, h.nodup, .inl hstarting⟩
    rcases visitStream_eq { s with reloading := rest } c with heq | ⟨r, -, hfree, heq⟩
    · rw [heq]
      exact hrest
    · rw [heq]
      exact hrest.spawnStream hstarting hfree
  · exact h
  · exact h.streamStep hi

/-- `main` reaches the end of the initial spawns, with every configured key spawned. -/
theorem exists_run_spawned (m : Libm K)
    (fromStr : String → Except String (List (StreamConfig K))) (s : Service K)
    (hsound : Directory.Sound Spawned.key s.registry) :
    ∃ es s', run (step m fromStr) s es = some s' ∧
      Directory.Sound Spawned.key s'.registry ∧
      s'.spawnedKeys = s.spawnedKeys ++ s.startingKeys := by
  induction hstarting : s.starting generalizing s with
  | nil => exact ⟨[], s, rfl, hsound, by simp [startingKeys, hstarting]⟩
  | cons r rest ih =>
      have hstep : s.step m fromStr .spawn =
          some ({ s with starting := rest }.spawnStream r) := by simp [step, hstarting]
      obtain ⟨es, s', hrun, hsound', hkeys⟩ :=
        ih ({ s with starting := rest }.spawnStream r) (sound_spawnStream hsound r) rfl
      exact ⟨.spawn :: es, s', run_cons_eq_some.mpr ⟨_, hstep, hrun⟩, hsound',
        hkeys.trans (keys_spawnStream hstarting)⟩

/-- Workers and registry entries correspond in every reachable state exactly when
no two streams of the file read at startup have one key. -/
theorem one_worker_per_key_iff (m : Libm K)
    (fromStr : String → Except String (List (StreamConfig K))) {cfg : ServiceConfig K}
    {s₀ : Service K} (hstart : start cfg = .ok s₀) :
    (∀ es s, run (step m fromStr) s₀ es = some s → OneWorkerPerKey s) ↔
      (cfg.streams.map StreamConfig.key).Nodup := by
  obtain ⟨hkeys, hreloading, hregistry⟩ := startingKeys_of_start hstart
  have hsound : Directory.Sound Spawned.key s₀.registry := hregistry ▸ Directory.sound_empty
  have hnone : s₀.spawnedKeys = [] := by simp [spawnedKeys, hregistry, Directory.empty]
  rw [← hkeys]
  constructor
  · intro hall
    obtain ⟨es, s, hrun, hsound', hspawned⟩ := exists_run_spawned m fromStr s₀ hsound
    have hnodup := (oneWorkerPerKey_iff hsound').mp (hall es s hrun)
    rwa [hspawned, hnone, List.nil_append] at hnodup
  · intro hnodup es s hrun
    have hfresh : FreshKeys s₀ := ⟨hsound, by rwa [hnone, List.nil_append], .inr hreloading⟩
    have hfresh' : FreshKeys s := invariant (fun _ _ _ hs ↦ hs.step) hfresh hrun
    exact (oneWorkerPerKey_iff hfresh'.sound).mpr hfresh'.nodup.of_append_left

/-! ## Two streams files -/

def btcusdt (exchange symbol : String) : StreamConfig ℚ :=
  ⟨exchange, symbol, 50, 50, 50, none, none, none⟩

def withStreams (streams : List (StreamConfig ℚ)) : ServiceConfig ℚ :=
  ⟨"streams.json", streams, Duration.fromSecs 5, some (Duration.fromSecs 60)⟩

def noLibm : Libm ℚ := ⟨id, id⟩

def streamsText : String :=
  "\x7b\"streams\":[\x7b\"exchange\":\"Binance\",\"symbol\":\"btcusdt\"," ++
    "\"bucket_volume\":50,\"sigma_window\":50,\"vpin_window\":50\x7d]\x7d"

/-- What the reader makes of this later version of the file. -/
def readStreams (raw : String) : Except String (List (StreamConfig ℚ)) :=
  if raw = streamsText then .ok [btcusdt "Binance" "btcusdt"] else .error "expected value"

def twoVenues : ServiceConfig ℚ :=
  withStreams [btcusdt "binance" "BTCUSDT", btcusdt "bybit" "BTCUSDT"]

theorem one_worker_per_key_iff_twoVenues :
    ∃ s₀, start twoVenues = .ok s₀ ∧
      ∀ es s, run (step noLibm readStreams) s₀ es = some s → OneWorkerPerKey s := by
  have hok : (start twoVenues).isOk = true := by decide +kernel
  cases hstart : start twoVenues with
  | error e =>
      rw [hstart] at hok
      cases hok
  | ok s₀ =>
      refine ⟨s₀, rfl, ?_⟩
      apply (one_worker_per_key_iff noLibm readStreams hstart).mpr
      decide +kernel

def twoCasings : ServiceConfig ℚ :=
  withStreams [btcusdt "binance" "BTCUSDT", btcusdt "Binance" "btcusdt"]

theorem twoCasings_not_oneWorkerPerKey :
    ∃ s₀, start twoCasings = .ok s₀ ∧
      ∃ s, run (step noLibm readStreams) s₀ [.spawn, .spawn] = some s ∧
        s.registry.index "binance:BTCUSDT" = some 1 ∧ ¬ OneWorkerPerKey s := by
  have hrun : ((start twoCasings).toOption.bind fun s₀ ↦
      (run (step noLibm readStreams) s₀ [.spawn, .spawn])).map
        (fun s ↦ (s.registry.index "binance:BTCUSDT", s.spawnedKeys)) =
      some (some 1, ["binance:BTCUSDT", "binance:BTCUSDT"]) := by decide +kernel
  obtain ⟨s, hs, heq⟩ := Option.map_eq_some_iff.mp hrun
  obtain ⟨s₀, hstart, hs⟩ := Option.bind_eq_some_iff.mp hs
  obtain ⟨hindex, hkeys⟩ := Prod.mk.inj heq
  have hok : start twoCasings = .ok s₀ := by
    cases h : start twoCasings with
    | error e => simp [h, Except.toOption] at hstart
    | ok s₀' => simpa [h, Except.toOption] using hstart
  refine ⟨s₀, hok, s, hs, hindex, ?_⟩
  intro hone
  have hhidden : s.registry.items[0]?.map Spawned.key = some "binance:BTCUSDT" := by
    rw [← List.getElem?_map]
    exact congrArg (·[0]?) hkeys
  have hzero := (hone.registered _ 0).mpr (Option.map_eq_some_iff.mp hhidden)
  rw [hindex] at hzero
  cases hzero

end Geiger.Service
