import Geiger.Library.Runs
import Mathlib.Algebra.BigOperators.Group.List.Basic
import Mathlib.Algebra.GroupWithZero.Nat
import Mathlib.Data.List.DropRight

/-!
# Responses over a connection

A reader of one response, one character at a time.  The head is a status and fields, each
on a line that ends with a carriage return and a newline, up to an empty line; the body
has as many octets as the head says, in the encoding of its characters.
-/

namespace Geiger.Http

open Runs
open Nat (ofDigitChars toDigits)

structure Response where
  status : List Char
  fields : List (List Char × List Char)
  body : List Char
deriving DecidableEq

def octets (text : List Char) : ℕ := (text.map Char.utf8Size).sum

/-! ## The reader -/

def isBlank (c : Char) : Bool := c = ' ' ∨ c = '\t'

def trim (text : List Char) : List Char := (text.dropWhile isBlank).rdropWhile isBlank

/-- A name, a colon and a value that may stand between blanks. -/
def field (line : List Char) : Option (List Char × List Char) :=
  match line.takeWhile (· ≠ ':'), line.dropWhile (· ≠ ':') with
  | [], _ | _, [] => none
  | name, _ :: value => some (name, trim value)

def IsContentLength (f : List Char × List Char) : Bool :=
  f.1.map Char.toLower = "content-length".toList

/-- The one length that the fields give. -/
def contentLength (fields : List (List Char × List Char)) : Option ℕ :=
  match fields.filter IsContentLength with
  | [f] => if f.2 ≠ [] ∧ f.2.all Char.isDigit then some (ofDigitChars 10 f.2 0) else none
  | _ => none

inductive Reader where
  | head (lines : List (List Char)) (line : List Char)
  | body (status : List Char) (fields : List (List Char × List Char)) (left : ℕ)
      (text : List Char)

namespace Reader

def endHead : List (List Char) → Option Reader
  | [] => none
  | status :: lines => do
    let fields ← lines.mapM field
    let length ← contentLength fields
    return .body status fields length []

def endLine (lines : List (List Char)) (line : List Char) : Option Reader :=
  if line.getLast? = some '\r' then
    if line.dropLast = [] then endHead lines else some (.head (lines ++ [line.dropLast]) [])
  else none

def step : Reader → Char → Option Reader
  | .head lines line, c =>
    if c = '\n' then endLine lines line else some (.head lines (line ++ [c]))
  | .body status fields left text, c =>
    if c.utf8Size ≤ left then some (.body status fields (left - c.utf8Size) (text ++ [c]))
    else none

end Reader

/-- What is shorter than its head says is refused, and what is longer too. -/
def read (text : List Char) : Option Response :=
  (run Reader.step (.head [] []) text).bind fun
    | .body status fields 0 text => some ⟨status, fields, text⟩
    | _ => none

/-! ## The writer -/

def crlf : List Char := ['\r', '\n']

def fieldText (f : List Char × List Char) : List Char := f.1 ++ ": ".toList ++ f.2

def write (r : Response) : List Char :=
  r.status ++ crlf ++ r.fields.flatMap (fun f ↦ fieldText f ++ crlf) ++ crlf ++ r.body

structure FieldWellFormed (f : List Char × List Char) : Prop where
  name_ne_nil : f.1 ≠ []
  colon : ':' ∉ f.1
  name : '\n' ∉ f.1
  value : '\n' ∉ f.2
  trimmed : trim f.2 = f.2

structure Response.WellFormed (r : Response) : Prop where
  status_ne_nil : r.status ≠ []
  status : '\n' ∉ r.status
  fields : ∀ f ∈ r.fields, FieldWellFormed f
  length : contentLength r.fields = some (octets r.body)

/-! ## Reading what was written -/

theorem octets_cons (c : Char) (text : List Char) :
    octets (c :: text) = c.utf8Size + octets text := by
  simp [octets]

theorem field_fieldText {f : List Char × List Char} (h : FieldWellFormed f) :
    field (fieldText f) = some f := by
  obtain ⟨name, value⟩ := f
  have hname : ∀ c ∈ name, decide (c ≠ ':') = true := fun c hc ↦
    decide_eq_true fun heq ↦ h.colon (heq ▸ hc)
  have htext : fieldText (name, value) = name ++ ':' :: ' ' :: value := by simp [fieldText]
  have htake : (fieldText (name, value)).takeWhile (· ≠ ':') = name := by
    rw [htext, List.takeWhile_append_of_pos hname]
    simp
  have hdrop : (fieldText (name, value)).dropWhile (· ≠ ':') = ':' :: ' ' :: value := by
    rw [htext, List.dropWhile_append_of_pos hname]
    simp
  have htrim : trim (' ' :: value) = value := by
    have hblank : trim (' ' :: value) = trim value := by simp [trim, isBlank]
    rw [hblank]
    exact h.trimmed
  rw [field, htake, hdrop]
  cases name with
  | nil => exact absurd rfl h.name_ne_nil
  | cons c name => simp [htrim]

/-- The characters of a line, without its end. -/
theorem run_line {line : List Char} (h : '\n' ∉ line) (lines : List (List Char))
    (before : List Char) :
    run Reader.step (.head lines before) line = some (.head lines (before ++ line)) := by
  induction line generalizing before with
  | nil => rw [List.append_nil]; rfl
  | cons c line ih =>
      obtain ⟨hc, hline⟩ := not_or.mp (List.mem_cons.not.mp h)
      simp [run, Reader.step, Ne.symm hc, ih hline]

theorem run_line_crlf {line : List Char} (h : '\n' ∉ line) (lines : List (List Char)) :
    run Reader.step (.head lines []) (line ++ crlf) =
      if line = [] then Reader.endHead lines else some (.head (lines ++ [line]) []) := by
  rw [run_append, run_line h]
  simp [crlf, run, Reader.step, Reader.endLine]

theorem run_lines {texts : List (List Char)} (hne : ∀ line ∈ texts, line ≠ [])
    (h : ∀ line ∈ texts, '\n' ∉ line) (lines : List (List Char)) :
    run Reader.step (.head lines []) (texts.flatMap fun line ↦ line ++ crlf) =
      some (.head (lines ++ texts) []) := by
  induction texts generalizing lines with
  | nil => rw [List.append_nil]; rfl
  | cons line texts ih =>
      obtain ⟨hfirst, hne⟩ := List.forall_mem_cons.mp hne
      obtain ⟨hline, h⟩ := List.forall_mem_cons.mp h
      rw [List.flatMap_cons, run_append, run_line_crlf hline, if_neg hfirst, Option.bind_some,
        ih hne h, List.append_assoc]
      rfl

theorem run_body (status : List Char) (fields : List (List Char × List Char))
    (text before : List Char) :
    run Reader.step (.body status fields (octets text) before) text =
      some (.body status fields 0 (before ++ text)) := by
  induction text generalizing before with
  | nil => rw [List.append_nil]; rfl
  | cons c text ih =>
      have hle : c.utf8Size ≤ octets (c :: text) := by
        rw [octets_cons]
        exact Nat.le_add_right _ _
      have hleft : octets (c :: text) - c.utf8Size = octets text := by
        rw [octets_cons, Nat.add_sub_cancel_left]
      simp [run, Reader.step, hle, hleft, ih]

theorem mapM_field {fields : List (List Char × List Char)}
    (h : ∀ f ∈ fields, FieldWellFormed f) : (fields.map fieldText).mapM field = some fields := by
  induction fields with
  | nil => rfl
  | cons f fields ih =>
      obtain ⟨hf, h⟩ := List.forall_mem_cons.mp h
      simp [field_fieldText hf, ih h]

theorem newline_notMem_fieldText {f : List Char × List Char} (h : FieldWellFormed f) :
    '\n' ∉ fieldText f := by
  simp only [fieldText, List.mem_append, not_or]
  exact ⟨⟨h.name, by decide⟩, h.value⟩

/-- A response is read as it was written. -/
theorem read_write {r : Response} (h : r.WellFormed) : read (write r) = some r := by
  have hhead : r.status ++ crlf ++ r.fields.flatMap (fun f ↦ fieldText f ++ crlf) =
      (r.status :: r.fields.map fieldText).flatMap fun line ↦ line ++ crlf := by
    rw [List.flatMap_cons, List.flatMap_map]
  have hlines : run Reader.step (.head [] []) ((r.status :: r.fields.map fieldText).flatMap
      fun line ↦ line ++ crlf) = some (.head (r.status :: r.fields.map fieldText) []) := by
    refine run_lines ?_ ?_ []
    · refine List.forall_mem_cons.mpr ⟨h.status_ne_nil, fun line hline ↦ ?_⟩
      obtain ⟨f, -, rfl⟩ := List.mem_map.mp hline
      simp [fieldText]
    · refine List.forall_mem_cons.mpr ⟨h.status, fun line hline ↦ ?_⟩
      obtain ⟨f, hf, rfl⟩ := List.mem_map.mp hline
      exact newline_notMem_fieldText (h.fields f hf)
  have hempty : run Reader.step (.head (r.status :: r.fields.map fieldText) []) crlf =
      some (.body r.status r.fields (octets r.body) []) := by
    have hblank := @run_line_crlf [] (by simp) (r.status :: r.fields.map fieldText)
    rw [List.nil_append, if_pos rfl] at hblank
    rw [hblank, Reader.endHead, mapM_field h.fields]
    simp [h.length]
  rw [read, write, hhead, run_append, run_append, hlines, Option.bind_some, hempty,
    Option.bind_some, run_body]
  rfl

end Geiger.Http
