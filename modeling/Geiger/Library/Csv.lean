import Geiger.Library.Runs

/-!
# Comma-separated values

A reader of whole records, one character at a time.  A field stands bare or between
quotes; between quotes a comma and a newline are text, and a quote is written twice.
-/

namespace Geiger.Csv

open Runs

/-! ## The reader -/

/-- Where the reader stands in a field: `closing` is after a quote that may be the last. -/
inductive Mode where
  | start
  | bare
  | quoted
  | closing
deriving DecidableEq

structure Reader where
  mode : Mode
  field : List Char
  record : List (List Char)
  records : List (List (List Char))

namespace Reader

def init : Reader := ⟨.start, [], [], []⟩

def endField (r : Reader) : Reader :=
  { r with mode := .start, field := [], record := r.record ++ [r.field] }

def endRecord (r : Reader) : Reader := ⟨.start, [], [], r.records ++ [r.record ++ [r.field]]⟩

def take (r : Reader) (mode : Mode) (c : Char) : Reader :=
  { r with mode, field := r.field ++ [c] }

def step (r : Reader) (c : Char) : Option Reader :=
  match r.mode with
  | .quoted => some (if c = '"' then { r with mode := .closing } else r.take .quoted c)
  | .start =>
    if c = ',' then some r.endField
    else if c = '\n' then some r.endRecord
    else if c = '"' then some { r with mode := .quoted }
    else some (r.take .bare c)
  | .bare =>
    if c = ',' then some r.endField
    else if c = '\n' then some r.endRecord
    else if c = '"' then none
    else some (r.take .bare c)
  | .closing =>
    if c = ',' then some r.endField
    else if c = '\n' then some r.endRecord
    else if c = '"' then some (r.take .quoted '"')
    else none

end Reader

/-- Text that ends within a record is refused. -/
def read (text : List Char) : Option (List (List (List Char))) :=
  (run Reader.step Reader.init text).bind fun r ↦
    if r.mode = .start ∧ r.record = [] then some r.records else none

/-! ## The writer -/

/-- Neither a separator nor a quote. -/
def Plain (s : List Char) : Prop := ',' ∉ s ∧ '"' ∉ s ∧ '\n' ∉ s

instance : DecidablePred Plain := fun _ ↦ inferInstanceAs (Decidable (_ ∧ _))

def double (s : List Char) : List Char := s.flatMap fun c ↦ if c = '"' then ['"', '"'] else [c]

/-- The text of a field, quoted only if it has to be. -/
def escape (s : List Char) : List Char := if Plain s then s else '"' :: double s ++ ['"']

def line (record : List (List Char)) : List Char :=
  (record.map escape).intersperse [','] |>.flatten

def write (records : List (List (List Char))) : List Char :=
  records.flatMap fun record ↦ line record ++ ['\n']

/-! ## Reading what was written -/

section Fields

variable {s : List Char} {field : List Char} {record : List (List Char)}
  {records : List (List (List Char))}

theorem double_cons_of_ne {c : Char} (hc : c ≠ '"') (s : List Char) :
    double (c :: s) = c :: double s := by
  simp [double, hc]

/-- Between quotes. -/
theorem run_double (s field : List Char) :
    run Reader.step ⟨.quoted, field, record, records⟩ (double s ++ ['"']) =
      some ⟨.closing, field ++ s, record, records⟩ := by
  induction s generalizing field with
  | nil => simp [double, run, Reader.step]
  | cons c s ih =>
      by_cases hc : c = '"'
      · subst hc
        have hdouble : double ('"' :: s) = '"' :: '"' :: double s := by simp [double]
        rw [hdouble]
        simp [run, Reader.step, Reader.take, ih]
      · rw [double_cons_of_ne hc]
        simp [run, Reader.step, Reader.take, hc, ih]

theorem Plain.of_cons {c : Char} (h : Plain (c :: s)) :
    (c ≠ ',' ∧ c ≠ '"' ∧ c ≠ '\n') ∧ Plain s := by
  obtain ⟨hcomma, hquote, hnewline⟩ := h
  simp only [List.mem_cons, not_or] at hcomma hquote hnewline
  exact ⟨⟨Ne.symm hcomma.1, Ne.symm hquote.1, Ne.symm hnewline.1⟩, hcomma.2, hquote.2,
    hnewline.2⟩

theorem run_bare (hplain : Plain s) :
    run Reader.step ⟨.bare, field, record, records⟩ s =
      some ⟨.bare, field ++ s, record, records⟩ := by
  induction s generalizing field with
  | nil => simp [run]
  | cons c s ih =>
      obtain ⟨⟨hcomma, hquote, hnewline⟩, hplain⟩ := hplain.of_cons
      simp [run, Reader.step, Reader.take, hcomma, hquote, hnewline, ih hplain]

/-- After the text of a field the reader has the field, and is not between quotes. -/
theorem run_escape (s : List Char) (record : List (List Char))
    (records : List (List (List Char))) :
    ∃ mode, mode ≠ .quoted ∧ run Reader.step ⟨.start, [], record, records⟩ (escape s) =
      some ⟨mode, s, record, records⟩ := by
  by_cases hplain : Plain s
  · rw [escape, if_pos hplain]
    cases s with
    | nil => exact ⟨.start, by simp, rfl⟩
    | cons c s =>
        obtain ⟨⟨hcomma, hquote, hnewline⟩, hplain⟩ := hplain.of_cons
        refine ⟨.bare, by simp, ?_⟩
        simp [run, Reader.step, Reader.take, hcomma, hquote, hnewline, run_bare hplain]
  · rw [escape, if_neg hplain]
    refine ⟨.closing, by simp, ?_⟩
    rw [List.cons_append]
    simpa [run, Reader.step] using run_double s []

theorem step_comma {mode : Mode} (hmode : mode ≠ .quoted) :
    Reader.step ⟨mode, field, record, records⟩ ',' =
      some ⟨.start, [], record ++ [field], records⟩ := by
  cases mode with
  | quoted => exact absurd rfl hmode
  | _ => rfl

theorem step_newline {mode : Mode} (hmode : mode ≠ .quoted) :
    Reader.step ⟨mode, field, record, records⟩ '\n' =
      some ⟨.start, [], [], records ++ [record ++ [field]]⟩ := by
  cases mode with
  | quoted => exact absurd rfl hmode
  | _ => rfl

end Fields

theorem line_cons_cons (s t : List Char) (record : List (List Char)) :
    line (s :: t :: record) = escape s ++ ',' :: line (t :: record) := by
  simp [line]

theorem run_line {fields : List (List Char)} (hne : fields ≠ []) (record : List (List Char))
    (records : List (List (List Char))) :
    run Reader.step ⟨.start, [], record, records⟩ (line fields ++ ['\n']) =
      some ⟨.start, [], [], records ++ [record ++ fields]⟩ := by
  induction fields generalizing record with
  | nil => exact absurd rfl hne
  | cons s fields ih =>
      obtain ⟨mode, hmode, hread⟩ := run_escape s record records
      cases fields with
      | nil =>
          have hline : line [s] = escape s := by simp [line]
          rw [hline, run_append, hread]
          simp [run, step_newline hmode]
      | cons t fields =>
          rw [line_cons_cons, List.append_assoc, run_append, hread, Option.bind_some,
            List.cons_append, run, step_comma hmode, Option.bind_some, ih (by simp),
            List.append_assoc]
          rfl

/-- Records of at least one field are read as they were written. -/
theorem read_write {records : List (List (List Char))} (hne : ∀ record ∈ records, record ≠ []) :
    read (write records) = some records := by
  have hrun : ∀ before, run Reader.step ⟨.start, [], [], before⟩ (write records) =
      some ⟨.start, [], [], before ++ records⟩ := by
    induction records with
    | nil => exact fun before ↦ by rw [List.append_nil]; rfl
    | cons record records ih =>
        intro before
        obtain ⟨hfirst, hrest⟩ := List.forall_mem_cons.mp hne
        have hwrite : write (record :: records) = (line record ++ ['\n']) ++ write records := rfl
        rw [hwrite, run_append, run_line hfirst, Option.bind_some, ih hrest, List.nil_append,
          List.append_assoc]
        rfl
  rw [read, Reader.init, hrun []]
  rfl

end Geiger.Csv
