import Geiger.Ingest.Numerals
import Geiger.Library.Flags
import Geiger.Service.Config

/-!
# The command line of the capture tool

`debug` stands for the quoting of a string in an error message.
-/

namespace Geiger

namespace Decimal

/-- The digits are read up to the first that makes the value too large. -/
def overflows (acc : ℕ) : List Char → Bool
  | [] => false
  | c :: s => c.isDigit && (2 ^ 64 ≤ acc * 10 + (c.toNat - 48) ||
      overflows (acc * 10 + (c.toNat - 48)) s)

/-- The text of a `ParseIntError`. -/
def parseIntError (s : List Char) : String :=
  let digits := match s with
    | '+' :: rest => rest
    | _ => s
  if s.isEmpty then "cannot parse integer from empty string"
  else if overflows 0 digits then "number too large to fit in target type"
  else "invalid digit found in string"

def u64FromStr (s : String) : Except String UInt64 :=
  match parseU64 s.toList with
  | some n => .ok n
  | none => .error (parseIntError s.toList)

theorem u64FromStr_eq_ok {s : String} {n : UInt64} :
    u64FromStr s = .ok n ↔ parseU64 s.toList = some n := by
  unfold u64FromStr
  cases parseU64 s.toList <;> simp

theorem u64FromStr_repr (n : UInt64) : u64FromStr (Nat.repr n.toNat) = .ok n := by
  rw [u64FromStr_eq_ok, parseU64_eq_some, Nat.toList_repr]
  exact ⟨_, Nat.toDigits_ne_nil, fun _ hc ↦ Nat.isDigit_of_mem_toDigits (by decide) (by decide) hc,
    .inl rfl, Nat.ofDigitChars_ten_toDigits⟩

end Decimal

namespace Capture

open Fallible

structure Args where
  exchange : Exchange
  symbol : String
  output : String
  flushEvery : UInt64

def usage : String :=
  "usage: capture <binance|bybit|hyperliquid> <symbol> <output-file> [--flush-every N]"

/-- The tool and the service know the same names. -/
def parseExchange (s : String) : Option Exchange := Geiger.parseExchange s

section Code

variable (debug : String → String)

def setFlushEvery (_ : UInt64) (flag value : String) : Except String UInt64 :=
  match flag with
  | "--flush-every" => (Decimal.u64FromStr value).mapError fun e ↦
      "bad --flush-every " ++ debug value ++ ": " ++ e
  | other => .error ("unknown flag: " ++ other ++ "\n" ++ usage)

def parseArgs : List String → Except String Args
  | exchangeRaw :: symbol :: output :: args =>
    match parseExchange exchangeRaw with
    | none => .error ("unknown exchange: " ++ debug exchangeRaw ++ "\n" ++ usage)
    | some exchange => do
      let flushEvery ← Flags.walk ("missing value for " ++ ·) (setFlushEvery debug) 100 args
      return ⟨exchange, symbol, output, flushEvery⟩
  | _ => .error usage

end Code

section Grammar

variable {debug : String → String}

theorem setFlushEvery_eq_ok {n n' : UInt64} {flag value : String} :
    setFlushEvery debug n flag value = .ok n' ↔
      flag = "--flush-every" ∧ Decimal.u64FromStr value = .ok n' := by
  unfold setFlushEvery
  split
  · simp [mapError_eq_ok]
  · rename_i hflag
    exact ⟨fun h ↦ (nomatch h), fun h ↦ absurd h.1 hflag⟩

variable {n n' : UInt64} {pairs : List (String × String)} {missing : String → String}

theorem exists_walk_iff :
    (∃ n', Flags.walk missing (setFlushEvery debug) n (Flags.words pairs) = .ok n') ↔
      ∀ p ∈ pairs, p.1 = "--flush-every" ∧ ∃ n, Decimal.u64FromStr p.2 = .ok n := by
  refine @Flags.walk_words_isOk _ _ _ _ _ _
    (fun flag value ↦ flag = "--flush-every" ∧ ∃ n, Decimal.u64FromStr value = .ok n) ?_ pairs
  intro n flag value
  simp only [setFlushEvery_eq_ok, exists_and_left]

theorem flushEvery_of_walk
    (h : Flags.walk missing (setFlushEvery debug) n (Flags.words pairs) = .ok n') :
    (Flags.lastOf "--flush-every" pairs).elim (n' = n)
      fun value ↦ Decimal.u64FromStr value = .ok n' := by
  refine @Flags.get_of_walk _ _ _ _ _ _ _ _ _ id "--flush-every"
    (fun value n ↦ Decimal.u64FromStr value = .ok n) ?_ ?_ pairs h
  · intro s flag value s' hflag hs'
    exact absurd (setFlushEvery_eq_ok.mp hs').1 hflag
  · intro s value s' hs'
    exact (setFlushEvery_eq_ok.mp hs').2

/-- The tool starts with the settings `a` exactly when the command line names a venue, a
symbol and a file and then says how often to flush any number of times. -/
theorem parseArgs_eq_ok {args : List String} {a : Args} :
    parseArgs debug args = .ok a ↔
      ∃ name pairs, args = name :: a.symbol :: a.output :: Flags.words pairs ∧
        parseExchange name = some a.exchange ∧
        (∀ p ∈ pairs, p.1 = "--flush-every" ∧ ∃ n, Decimal.u64FromStr p.2 = .ok n) ∧
        (Flags.lastOf "--flush-every" pairs).elim (a.flushEvery = 100)
          fun value ↦ Decimal.u64FromStr value = .ok a.flushEvery := by
  constructor
  · intro h
    match args, h with
    | name :: symbol :: output :: args, h =>
        cases hexchange : parseExchange name with
        | none => simp only [parseArgs, hexchange, reduceCtorEq] at h
        | some exchange =>
            simp only [parseArgs, hexchange] at h
            obtain ⟨n, hwalk, ha⟩ := ok_of_bind h
            obtain rfl := Except.ok.inj ha
            obtain ⟨pairs, rfl⟩ := Flags.exists_words_of_walk hwalk
            exact ⟨name, pairs, rfl, hexchange, exists_walk_iff.mp ⟨n, hwalk⟩,
              flushEvery_of_walk hwalk⟩
  · rintro ⟨name, pairs, rfl, hexchange, hpairs, hlast⟩
    obtain ⟨n, hwalk⟩ := exists_walk_iff.mpr hpairs
    have hn : n = a.flushEvery := by
      have hn := flushEvery_of_walk hwalk
      cases hvalue : Flags.lastOf "--flush-every" pairs with
      | none =>
          rw [hvalue] at hn hlast
          exact Eq.trans hn (Eq.symm hlast)
      | some value =>
          rw [hvalue] at hn hlast
          exact Except.ok.inj (Eq.trans (Eq.symm hn) hlast)
    simp only [parseArgs, hexchange]
    exact bind_eq_ok.mpr ⟨n, hwalk, by rw [hn]; rfl⟩

end Grammar

end Capture

end Geiger
