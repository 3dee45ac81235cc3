import Geiger.Ingest.Json
import Geiger.Library.Http
import Geiger.Service.Metrics

/-!
# The health endpoint

Only the request line counts, and of it only the second word.  `showJson` stands for the
text of a JSON value.
-/

namespace Geiger.Health

open Decimal (isWhitespace utf8Len)
open Http (Response crlf octets)

/-! ## The request -/

/-- A carriage return belongs to the end of a line. -/
def firstLine (request : List Char) : List Char :=
  if '\n' ∈ request then
    let line := request.takeWhile (· ≠ '\n')
    if line.getLast? = some '\r' then line.dropLast else line
  else request

def splitWhitespace (line : List Char) : List (List Char) :=
  (line.splitOnP isWhitespace).filter fun word ↦ !word.isEmpty

def path (request : String) : String :=
  ((splitWhitespace (firstLine request.toList))[1]?).elim "/" String.ofList

/-- A word and what follows the blank after it. -/
theorem splitWhitespace_cons {word : List Char} (hne : word ≠ [])
    (h : ∀ c ∈ word, ¬ isWhitespace c) (rest : List Char) :
    splitWhitespace (word ++ ' ' :: rest) = word :: splitWhitespace rest := by
  have hsplit : (word ++ ' ' :: rest).splitOnP isWhitespace = word :: rest.splitOnP isWhitespace :=
    List.splitOnP_append_cons_of_forall_mem (by simpa using h) ' ' (by decide) rest
  have hkept : (!word.isEmpty) = true := by simpa using hne
  rw [splitWhitespace, hsplit, List.filter_cons, if_pos hkept]
  rfl

theorem firstLine_crlf {line : List Char} (h : '\n' ∉ line) (rest : List Char) :
    firstLine (line ++ '\r' :: '\n' :: rest) = line := by
  have hline : (line ++ '\r' :: '\n' :: rest).takeWhile (· ≠ '\n') = line ++ ['\r'] := by
    have hall : ∀ c ∈ line ++ ['\r'], decide (c ≠ '\n') = true := by
      intro c hc
      rcases List.mem_append.mp hc with hc | hc
      · exact decide_eq_true fun heq ↦ h (heq ▸ hc)
      · rw [List.mem_singleton.mp hc]
        rfl
    have hsplit : line ++ '\r' :: '\n' :: rest = (line ++ ['\r']) ++ '\n' :: rest := by simp
    rw [hsplit, List.takeWhile_append_of_pos hall]
    simp
  rw [firstLine, if_pos (by simp), hline]
  simp

/-- The target of a request line, whatever the method, the version and the rest. -/
theorem path_requestLine {method target version : List Char} (hmethod : method ≠ [])
    (hmethod' : ∀ c ∈ method, ¬ isWhitespace c) (htarget : target ≠ [])
    (htarget' : ∀ c ∈ target, ¬ isWhitespace c) (hversion : '\n' ∉ version)
    (rest : List Char) :
    path (String.ofList (method ++ ' ' :: (target ++ ' ' :: version) ++ '\r' :: '\n' :: rest)) =
      String.ofList target := by
  have hnewline : isWhitespace '\n' = true := by decide
  have hline : '\n' ∉ method ++ ' ' :: (target ++ ' ' :: version) := by
    simp only [List.mem_append, List.mem_cons, not_or]
    exact ⟨fun h ↦ hmethod' _ h hnewline, by decide, fun h ↦ htarget' _ h hnewline, by decide,
      hversion⟩
  rw [path, String.toList_ofList, firstLine_crlf hline, splitWhitespace_cons hmethod hmethod',
    splitWhitespace_cons htarget htarget']
  rfl

/-! ## The response -/

def entryJson (e : StreamEntry) : Json :=
  .object [("exchange", .string e.exchange), ("symbol", .string e.symbol),
    ("alive", .bool e.health.workerAlive),
    ("trades_processed", .u64 (UInt64.ofNat e.health.tradesProcessed)),
    ("readings_emitted", .u64 (UInt64.ofNat e.health.readingsEmitted)),
    ("last_trade_ts_ns", e.health.lastTradeTsNs.elim .null .u64),
    ("last_heartbeat_ts_ns", e.health.lastHeartbeatTsNs.elim .null .u64)]

def renderHealth (showJson : Json → String) (r : Registry) : String :=
  showJson (.object [("status", .string "ok"),
    ("stream_count", .u64 (UInt64.ofNat r.entries.length)),
    ("streams", .object (r.entries.map fun e ↦ (e.key, entryJson e)))])

/-- Status, content type and body for a path. -/
def route (showJson : Json → String) (r : Registry) (path : String) : String × String × String :=
  if path = "/health" then ("200 OK", "application/json", renderHealth showJson r)
  else if path = "/metrics" then
    ("200 OK", "text/plain; version=0.0.4", Metrics.renderMetrics r)
  else ("404 Not Found", "text/plain", "not found")

def responseText (status contentType body : String) : String :=
  "HTTP/1.1 " ++ status ++ "\r\nContent-Type: " ++ contentType ++ "\r\nContent-Length: " ++
    Nat.repr (utf8Len body.toList) ++ "\r\n\r\n" ++ body

def respond (showJson : Json → String) (r : Registry) (request : String) : String :=
  let (status, contentType, body) := route showJson r (path request)
  responseText status contentType body

/-! ## Reading the response -/

def response (status contentType body : String) : Response where
  status := "HTTP/1.1 ".toList ++ status.toList
  fields := [("Content-Type".toList, contentType.toList),
    ("Content-Length".toList, Nat.toDigits 10 (octets body.toList))]
  body := body.toList

theorem toList_responseText (status contentType body : String) :
    (responseText status contentType body).toList =
      Http.write (response status contentType body) := by
  have htype : "\r\nContent-Type: ".toList = crlf ++ "Content-Type".toList ++ ": ".toList := by
    decide
  have hlength : "\r\nContent-Length: ".toList =
      crlf ++ "Content-Length".toList ++ ": ".toList := by decide
  have hend : "\r\n\r\n".toList = crlf ++ crlf := by decide
  have hoctets : utf8Len body.toList = octets body.toList := rfl
  have hfields : Http.write (response status contentType body) =
      "HTTP/1.1 ".toList ++ status.toList ++ crlf ++
        ("Content-Type".toList ++ ": ".toList ++ contentType.toList ++ crlf ++
          ("Content-Length".toList ++ ": ".toList ++ Nat.toDigits 10 (octets body.toList) ++ crlf ++
            [])) ++ crlf ++ body.toList := rfl
  rw [hfields, List.append_nil]
  simp only [responseText, String.toList_append, Nat.toList_repr, htype, hlength, hend,
    List.append_assoc, hoctets]

theorem trim_of_forall {text : List Char} (h : ∀ c ∈ text, ¬ Http.isBlank c) :
    Http.trim text = text := by
  have hdrop : text.dropWhile Http.isBlank = text := by
    cases text with
    | nil => rfl
    | cons c text => exact List.dropWhile_cons_of_neg (h c List.mem_cons_self)
  rw [Http.trim, hdrop, List.rdropWhile_eq_self_iff]
  exact fun hne ↦ h _ (List.getLast_mem hne)

theorem contentLength_response (status contentType body : String) :
    Http.contentLength (response status contentType body).fields =
      some (octets body.toList) := by
  have hfilter : (response status contentType body).fields.filter Http.IsContentLength =
      [("Content-Length".toList, Nat.toDigits 10 (octets body.toList))] := rfl
  have hall : (Nat.toDigits 10 (octets body.toList)).all Char.isDigit :=
    List.all_eq_true.mpr fun _ hc ↦ Nat.isDigit_of_mem_toDigits (by decide) (by decide) hc
  rw [Http.contentLength, hfilter]
  simp only [ne_eq, Nat.toDigits_ne_nil, not_false_eq_true, hall, and_self, if_true,
    Nat.ofDigitChars_ten_toDigits]

theorem wellFormed_response {status contentType : String} (hstatus : '\n' ∉ status.toList)
    (htype : '\n' ∉ contentType.toList)
    (htrim : Http.trim contentType.toList = contentType.toList) (body : String) :
    (response status contentType body).WellFormed := by
  have hdigits : ∀ c ∈ Nat.toDigits 10 (octets body.toList), c.isDigit :=
    fun _ hc ↦ Nat.isDigit_of_mem_toDigits (by decide) (by decide) hc
  have hblank : ∀ c ∈ Nat.toDigits 10 (octets body.toList), ¬ Http.isBlank c := by
    intro c hc hblank
    simp only [Http.isBlank, decide_eq_true_eq] at hblank
    rcases hblank with rfl | rfl <;> exact absurd (hdigits _ hc) (by decide)
  have htypeName : "Content-Type".toList ≠ [] ∧ ':' ∉ "Content-Type".toList ∧
      '\n' ∉ "Content-Type".toList := by decide
  have hlengthName : "Content-Length".toList ≠ [] ∧ ':' ∉ "Content-Length".toList ∧
      '\n' ∉ "Content-Length".toList := by decide
  constructor
  · exact List.append_ne_nil_of_left_ne_nil (by decide) _
  · exact fun hmem ↦ (List.mem_append.mp hmem).elim (by decide) hstatus
  · refine List.forall_mem_cons.mpr ⟨⟨htypeName.1, htypeName.2.1, htypeName.2.2, htype, htrim⟩,
      List.forall_mem_singleton.mpr
        ⟨hlengthName.1, hlengthName.2.1, hlengthName.2.2, fun hmem ↦ ?_, trim_of_forall hblank⟩⟩
    exact absurd (hdigits _ hmem) (by decide)
  · exact contentLength_response status contentType body

theorem route_cases (showJson : Json → String) (r : Registry) (path : String) :
    path = "/health" ∧
        route showJson r path = ("200 OK", "application/json", renderHealth showJson r) ∨
      path = "/metrics" ∧
        route showJson r path =
          ("200 OK", "text/plain; version=0.0.4", Metrics.renderMetrics r) ∨
      path ≠ "/health" ∧ path ≠ "/metrics" ∧
        route showJson r path = ("404 Not Found", "text/plain", "not found") := by
  by_cases hhealth : path = "/health"
  · exact .inl ⟨hhealth, if_pos hhealth⟩
  · by_cases hmetrics : path = "/metrics"
    · exact .inr (.inl ⟨hmetrics, (if_neg hhealth).trans (if_pos hmetrics)⟩)
    · exact .inr (.inr ⟨hhealth, hmetrics, (if_neg hhealth).trans (if_neg hmetrics)⟩)

theorem plain_route (showJson : Json → String) (r : Registry) (path : String) :
    '\n' ∉ (route showJson r path).1.toList ∧ '\n' ∉ (route showJson r path).2.1.toList ∧
      Http.trim (route showJson r path).2.1.toList = (route showJson r path).2.1.toList := by
  obtain ⟨-, hroute⟩ | ⟨-, hroute⟩ | ⟨-, -, hroute⟩ := route_cases showJson r path <;>
    rw [hroute] <;> dsimp only
  · exact ⟨by decide, by decide, by decide⟩
  · exact ⟨by decide, by decide, by decide⟩
  · exact ⟨by decide, by decide, by decide⟩

/-- Whatever the request, a reader takes the response to its end and has the body that the
path leads to. -/
theorem read_respond (showJson : Json → String) (r : Registry) (request : String) :
    Http.read (respond showJson r request).toList =
      some (response (route showJson r (path request)).1 (route showJson r (path request)).2.1
        (route showJson r (path request)).2.2) := by
  obtain ⟨hstatus, htype, htrim⟩ := plain_route showJson r (path request)
  have hread := Http.read_write
    (wellFormed_response hstatus htype htrim (route showJson r (path request)).2.2)
  rw [← toList_responseText] at hread
  exact hread

end Geiger.Health
