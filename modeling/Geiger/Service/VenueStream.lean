import Geiger.Ingest.Json
import Geiger.Service.Config
import Mathlib.Data.UInt

/-!
# Stream keys and venue streams

What each adapter puts into its URL or its first message, against the key under
which the stream is registered.
-/

namespace Geiger

/-- Where an adapter connects, and what it sends first. -/
structure Subscription where
  url : String
  message : Option Json

namespace Binance

def baseUrl : String := "wss://fstream.binance.com/market/stream"

def buildUrl (symbolLower : String) : String :=
  baseUrl ++ "?streams=" ++ symbolLower ++ "@aggTrade"

def subscription (symbol : String) : Subscription :=
  ⟨buildUrl (toAsciiLowercase symbol), none⟩

end Binance

namespace Bybit

def url : String := "wss://stream.bybit.com/v5/public/linear"

def subscription (symbol : String) : Subscription :=
  ⟨url, some (.object [("op", .string "subscribe"),
    ("args", .array [.string ("publicTrade." ++ symbol)])])⟩

end Bybit

namespace Hyperliquid

def url : String := "wss://api.hyperliquid.xyz/ws"

def subscription (coin : String) : Subscription :=
  ⟨url, some (.object [("method", .string "subscribe"),
    ("subscription", .object [("type", .string "trades"), ("coin", .string coin)])])⟩

end Hyperliquid

/-- What the adapter that `spawn_stream` starts for this exchange subscribes to. -/
def Exchange.subscription : Exchange → String → Subscription
  | .binance => Binance.subscription
  | .bybit => Bybit.subscription
  | .hyperliquid => Hyperliquid.subscription

def Exchange.name : Exchange → String
  | .binance => "binance"
  | .bybit => "bybit"
  | .hyperliquid => "hyperliquid"

/-! ## Case folding -/

theorem toAsciiLowercase_inj {s t : String} :
    toAsciiLowercase s = toAsciiLowercase t ↔
      s.toList.map Char.toLower = t.toList.map Char.toLower := by
  rw [toAsciiLowercase, toAsciiLowercase, String.ofList_inj]

theorem toAsciiUppercase_inj {s t : String} :
    toAsciiUppercase s = toAsciiUppercase t ↔
      s.toList.map Char.toUpper = t.toList.map Char.toUpper := by
  rw [toAsciiUppercase, toAsciiUppercase, String.ofList_inj]

theorem toUpper_comp_toLower : Char.toUpper ∘ Char.toLower = Char.toUpper := by
  funext c
  apply Char.ext
  rw [Function.comp_apply]
  delta Char.toUpper Char.toLower
  split <;> split <;> grind

theorem toLower_comp_toUpper : Char.toLower ∘ Char.toUpper = Char.toLower := by
  funext c
  apply Char.ext
  rw [Function.comp_apply]
  delta Char.toUpper Char.toLower
  split <;> split <;> grind

/-- Both foldings identify the same strings. -/
theorem toAsciiLowercase_eq_iff {s t : String} :
    toAsciiLowercase s = toAsciiLowercase t ↔ toAsciiUppercase s = toAsciiUppercase t := by
  rw [toAsciiLowercase_inj, toAsciiUppercase_inj]
  constructor
  · intro h
    have := congrArg (List.map Char.toUpper) h
    simpa only [List.map_map, toUpper_comp_toLower] using this
  · intro h
    have := congrArg (List.map Char.toLower) h
    simpa only [List.map_map, toLower_comp_toUpper] using this

theorem name_of_parseExchange {s : String} {e : Exchange} (h : parseExchange s = some e) :
    toAsciiLowercase s = e.name := by
  unfold parseExchange at h
  split at h <;> cases h <;> assumption

theorem streamKey_eq_iff {s t a b : String} {e f : Exchange} (he : parseExchange s = some e)
    (hf : parseExchange t = some f) :
    streamKey s a = streamKey t b ↔ e = f ∧ toAsciiUppercase a = toAsciiUppercase b := by
  have hname : ∀ x : List Char, e.name.toList ++ ":".toList ++ x =
      f.name.toList ++ ":".toList ++ (toAsciiUppercase b).toList →
      e = f ∧ x = (toAsciiUppercase b).toList := by
    intro x h
    cases e <;> cases f <;> simp_all [Exchange.name]
  simp only [streamKey, name_of_parseExchange he, name_of_parseExchange hf, ← String.toList_inj,
    String.toList_append]
  constructor
  · intro h
    exact hname _ h
  · rintro ⟨rfl, h⟩
    rw [h]

/-! ## What is subscribed to -/

theorem subscription_inj_binance {a b : String} :
    Exchange.subscription .binance a = Exchange.subscription .binance b ↔
      toAsciiUppercase a = toAsciiUppercase b := by
  rw [← toAsciiLowercase_eq_iff]
  simp only [Exchange.subscription, Binance.subscription, Binance.buildUrl, Subscription.mk.injEq,
    and_true, ← String.toList_inj, String.toList_append, List.append_cancel_left_eq,
    List.append_cancel_right_eq]

theorem subscription_inj_of_ne {e : Exchange} (he : e ≠ .binance) {a b : String} :
    e.subscription a = e.subscription b ↔ a = b := by
  cases e with
  | binance => exact absurd rfl he
  | bybit =>
      simp [Exchange.subscription, Bybit.subscription, ← String.toList_inj]
  | hyperliquid => simp [Exchange.subscription, Hyperliquid.subscription]

/-! ## Keys against subscriptions -/

/-- The symbols differ in letter case only, on a venue whose adapter keeps the case. -/
def CaseClash (e f : Exchange) (a b : String) : Prop :=
  e = f ∧ e ≠ .binance ∧ a ≠ b ∧ toAsciiUppercase a = toAsciiUppercase b

/-- For every two accepted entries the keys say whether the adapters subscribe to the
same stream, unless their symbols clash in case; and adapters of the same stream
always have the same key. -/
theorem key_names_stream_iff {K : Type} [Field K] [LinearOrder K] (a b : StreamConfig K)
    (e f : Exchange) (cfg cfg' : VpinEngineConfig K) (ha : resolveStream a = .ok (e, cfg))
    (hb : resolveStream b = .ok (f, cfg')) :
    ((a.key = b.key ↔ e = f ∧ e.subscription a.symbol = f.subscription b.symbol) ↔
      ¬ CaseClash e f a.symbol b.symbol) ∧
    (e = f ∧ e.subscription a.symbol = f.subscription b.symbol → a.key = b.key) := by
  have hkey : a.key = b.key ↔ e = f ∧ toAsciiUppercase a.symbol = toAsciiUppercase b.symbol :=
    streamKey_eq_iff (resolveStream_eq_ok.mp ha).1 (resolveStream_eq_ok.mp hb).1
  rw [hkey]
  by_cases hef : e = f
  · subst hef
    by_cases he : e = .binance
    · subst he
      simp [subscription_inj_binance, CaseClash]
    · simp only [subscription_inj_of_ne he, CaseClash, he, true_and, ne_eq, not_false_eq_true]
      constructor
      · constructor
        · rintro h ⟨hne, hupper⟩
          exact hne (h.mp hupper)
        · intro h
          constructor
          · intro hupper
            by_contra hne
            exact h ⟨hne, hupper⟩
          · exact congrArg toAsciiUppercase
      · exact congrArg toAsciiUppercase
  · simp [hef, CaseClash]

/-! ## Two casings of a symbol -/

def unitEntry (exchange symbol : String) : StreamConfig ℚ :=
  ⟨exchange, symbol, 1, 2, 1, none, none, none⟩

theorem resolveStream_unitEntry {exchange : String} {e : Exchange}
    (h : parseExchange exchange = some e) (symbol : String) :
    ∃ cfg, resolveStream (unitEntry exchange symbol) = .ok (e, cfg) := by
  have hvalid : (VpinEngineConfig.mk (1 : ℚ) 2 1 none none).Valid := by
    refine ⟨one_pos, le_rfl, le_rfl, ?_, ?_⟩ <;> simp
  exact ⟨_, resolveStream_eq_ok.mpr ⟨h, rfl, VpinEngine.new_of_valid hvalid⟩⟩

theorem key_names_stream_iff_binance :
    ∃ cfg cfg', resolveStream (unitEntry "Binance" "btcusdt") = .ok (.binance, cfg) ∧
      resolveStream (unitEntry "binance" "BTCUSDT") = .ok (.binance, cfg') ∧
      ((unitEntry "Binance" "btcusdt").key = (unitEntry "binance" "BTCUSDT").key ↔
        Exchange.subscription .binance "btcusdt" = Exchange.subscription .binance "BTCUSDT") := by
  have hBinance : parseExchange "Binance" = some .binance := by decide +kernel
  have hbinance : parseExchange "binance" = some .binance := by decide +kernel
  obtain ⟨cfg, ha⟩ := resolveStream_unitEntry hBinance "btcusdt"
  obtain ⟨cfg', hb⟩ := resolveStream_unitEntry hbinance "BTCUSDT"
  refine ⟨cfg, cfg', ha, hb, ?_⟩
  have hclash : ¬ CaseClash .binance .binance "btcusdt" "BTCUSDT" := fun h ↦ h.2.1 rfl
  have hsame := (key_names_stream_iff _ _ _ _ _ _ ha hb).1.mpr hclash
  simp only [true_and] at hsame
  exact hsame

/-- On Bybit the second entry would never start, although it asks for another topic. -/
theorem bybitCasings_share_key :
    ∃ cfg cfg', resolveStream (unitEntry "bybit" "btcusdt") = .ok (.bybit, cfg) ∧
      resolveStream (unitEntry "bybit" "BTCUSDT") = .ok (.bybit, cfg') ∧
      (unitEntry "bybit" "btcusdt").key = (unitEntry "bybit" "BTCUSDT").key ∧
      Exchange.subscription .bybit "btcusdt" ≠ Exchange.subscription .bybit "BTCUSDT" := by
  have hbybit : parseExchange "bybit" = some .bybit := by decide +kernel
  obtain ⟨cfg, ha⟩ := resolveStream_unitEntry hbybit "btcusdt"
  obtain ⟨cfg', hb⟩ := resolveStream_unitEntry hbybit "BTCUSDT"
  refine ⟨cfg, cfg', ha, hb, by decide +kernel, ?_⟩
  rw [Ne, subscription_inj_of_ne (by decide)]
  decide

end Geiger
