import Mathlib.Algebra.BigOperators.Group.List.Basic
import Mathlib.Data.List.TakeWhile
import Mathlib.Data.Rat.Cast.Defs

/-!
# The text exposition format

A reader that takes a page of samples one character at a time.  Between the quotes of
a label value a backslash, a quote and a newline have to be escaped, and nothing else
may be.
-/

namespace Geiger.Exposition

open Nat (ofDigitChars toDigits)

structure Label where
  name : List Char
  value : List Char
deriving DecidableEq

structure Series where
  name : List Char
  labels : List Label
deriving DecidableEq

inductive Value where
  | finite (q : ℚ)
  | infinite (negative : Bool)
  | nan
deriving DecidableEq

structure Sample where
  series : Series
  value : Value
  timestamp : Option ℤ
deriving DecidableEq

/-! ## Tokens -/

def isBlank (c : Char) : Bool := c = ' ' ∨ c = '\t'

def isNameStart (c : Char) : Bool := c.isAlpha ∨ c = '_'

def isNameChar (c : Char) : Bool := isNameStart c ∨ c.isDigit

def isMetricName : List Char → Bool
  | [] => false
  | c :: cs => (isNameStart c ∨ c = ':') && cs.all fun c ↦ isNameChar c ∨ c = ':'

def isLabelName : List Char → Bool
  | [] => false
  | c :: cs => isNameStart c && cs.all isNameChar

def words (text : List Char) : List (List Char) :=
  (text.splitOnP isBlank).filter fun w ↦ ¬ w.isEmpty

def kinds : List String := ["counter", "gauge", "histogram", "summary", "untyped"]

/-- What follows a `#` is free, except after `HELP` and `TYPE`. -/
def isComment (text : List Char) : Bool :=
  match words text with
  | [] => true
  | w :: ws =>
    if w = "HELP".toList then ws.head?.any isMetricName
    else if w = "TYPE".toList then
      ws.length = 2 ∧ ws.head?.any isMetricName ∧ ws.getLast?.any (· ∈ kinds.map String.toList)
    else true

def sign : List Char → ℤ × List Char
  | '+' :: cs => (1, cs)
  | '-' :: cs => (-1, cs)
  | cs => (1, cs)

def integer (token : List Char) : Option ℤ :=
  let (s, digits) := sign token
  if digits ≠ [] ∧ digits.all Char.isDigit then some (s * ofDigitChars 10 digits 0) else none

def mantissa (cs : List Char) : Option ℚ :=
  let whole := cs.takeWhile Char.isDigit
  match cs.dropWhile Char.isDigit with
  | [] => if whole = [] then none else some (ofDigitChars 10 whole 0 : ℕ)
  | c :: frac =>
    if c = '.' ∧ frac.all Char.isDigit ∧ whole ++ frac ≠ [] then
      some ((ofDigitChars 10 (whole ++ frac) 0 : ℕ) / ((10 ^ frac.length : ℕ) : ℚ))
    else none

def exponent : List Char → Option ℤ
  | [] => some 0
  | _ :: cs => integer cs

def isExponentMark (c : Char) : Bool := c = 'e' ∨ c = 'E'

/-- A decimal float, read exactly. -/
def decimal (token : List Char) : Option ℚ := do
  let (s, cs) := sign token
  let m ← mantissa (cs.takeWhile fun c ↦ !isExponentMark c)
  let e ← exponent (cs.dropWhile fun c ↦ !isExponentMark c)
  return s * m * (10 : ℚ) ^ e

def number (token : List Char) : Option Value :=
  if token = "NaN".toList then some .nan
  else if token = "+Inf".toList then some (.infinite false)
  else if token = "-Inf".toList then some (.infinite true)
  else (decimal token).map .finite

/-- The value of a sample and perhaps its timestamp. -/
def sample (s : Series) (text : List Char) : Option Sample :=
  match words text with
  | [value] => (number value).map fun v ↦ ⟨s, v, none⟩
  | [value, timestamp] => do
    let v ← number value
    let t ← integer timestamp
    return ⟨s, v, some t⟩
  | _ => none

theorem words_blank (text : List Char) : words (' ' :: text) = words text := by
  have hblank : isBlank ' ' = true := by decide
  rw [words, List.splitOnP_cons_eq_if_modifyHead, if_pos hblank]
  rfl

def isToken (w : List Char) : Bool := !w.isEmpty && w.all fun c ↦ !isBlank c

theorem splitOnP_token {w : List Char} (h : isToken w) : w.splitOnP isBlank = [w] := by
  simp only [isToken, Bool.and_eq_true, List.all_eq_true] at h
  exact List.splitOnP_eq_singleton fun c hc ↦ by simpa using h.2 c hc

theorem words_token {w : List Char} (h : isToken w) : words w = [w] := by
  rw [words, splitOnP_token h]
  simp_all [isToken]

theorem words_append {w : List Char} (h : isToken w) (text : List Char) :
    words (w ++ ' ' :: text) = w :: words text := by
  have hblank : isBlank ' ' = true := by decide
  rw [words, List.splitOnP_append_cons w text hblank, splitOnP_token h, List.filter_append,
    ← words]
  simp_all [isToken]

theorem metricName_token {n : List Char} (h : isMetricName n) : isToken n := by
  cases n with
  | nil => cases h
  | cons c cs =>
      simp only [isMetricName, Bool.and_eq_true, decide_eq_true_eq, List.all_eq_true] at h
      have hblank : ∀ d ∈ c :: cs, ¬ isBlank d := by
        intro d hd hblank
        simp only [isBlank, decide_eq_true_eq] at hblank
        rcases List.mem_cons.mp hd with rfl | hd
        · rcases hblank with rfl | rfl <;> exact absurd h.1 (by decide)
        · rcases hblank with rfl | rfl <;> exact absurd (h.2 _ hd) (by decide)
      simpa [isToken] using hblank

theorem isComment_help {n : List Char} (h : isMetricName n) (help : List Char) :
    isComment (" HELP ".toList ++ n ++ ' ' :: help) := by
  have hwords : words (" HELP ".toList ++ n ++ ' ' :: help) = "HELP".toList :: n :: words help := by
    rw [← words_append (metricName_token h), ← words_append (by decide), ← words_blank]
    rfl
  rw [isComment, hwords]
  simp [h]

theorem isComment_type {n : List Char} (h : isMetricName n) {kind : String} (hkind : kind ∈ kinds) :
    isComment (" TYPE ".toList ++ n ++ ' ' :: kind.toList) := by
  have hkinds : ∀ kind ∈ kinds, isToken kind.toList := by decide
  have hwords : words (" TYPE ".toList ++ n ++ ' ' :: kind.toList) =
      ["TYPE".toList, n, kind.toList] := by
    rw [← words_token (hkinds kind hkind), ← words_append (metricName_token h),
      ← words_append (by decide), ← words_blank]
    rfl
  have hmem : ∃ k ∈ kinds, k.toList = kind.toList := ⟨kind, hkind, rfl⟩
  rw [isComment, hwords]
  simpa [h] using hmem

/-! ## Whole numbers -/

theorem ne_of_digits {cs : List Char} (h : ∀ c ∈ cs, c.isDigit) {token : List Char} {d : Char}
    (hd : d ∈ token) (hdigit : ¬ d.isDigit) : cs ≠ token := by
  rintro rfl
  exact hdigit (h d hd)

theorem sign_of_digits {cs : List Char} (h : ∀ c ∈ cs, c.isDigit) : sign cs = (1, cs) := by
  unfold sign
  split
  · exact absurd (h '+' List.mem_cons_self) (by decide)
  · exact absurd (h '-' List.mem_cons_self) (by decide)
  · rfl

theorem mantissa_of_digits {cs : List Char} (hne : cs ≠ []) (h : ∀ c ∈ cs, c.isDigit) :
    mantissa cs = some (ofDigitChars 10 cs 0 : ℕ) := by
  have hdrop : cs.dropWhile Char.isDigit = [] := List.dropWhile_eq_nil_iff.mpr h
  have htake : cs.takeWhile Char.isDigit = cs := List.takeWhile_eq_self_iff.mpr h
  rw [mantissa, hdrop, htake]
  exact if_neg hne

theorem decimal_of_digits {cs : List Char} (hne : cs ≠ []) (h : ∀ c ∈ cs, c.isDigit) :
    decimal cs = some (ofDigitChars 10 cs 0 : ℕ) := by
  have hmark : ∀ c ∈ cs, ¬ isExponentMark c := by
    intro c hc hmark
    have hdigit := h c hc
    simp only [isExponentMark, decide_eq_true_eq] at hmark
    rcases hmark with rfl | rfl <;> exact absurd hdigit (by decide)
  have htake : cs.takeWhile (fun c ↦ !isExponentMark c) = cs :=
    List.takeWhile_eq_self_iff.mpr fun c hc ↦ by simpa using hmark c hc
  have hdrop : cs.dropWhile (fun c ↦ !isExponentMark c) = [] :=
    List.dropWhile_eq_nil_iff.mpr fun c hc ↦ by simpa using hmark c hc
  rw [decimal, sign_of_digits h]
  simp [htake, hdrop, mantissa_of_digits hne h, exponent]

theorem number_of_digits {cs : List Char} (hne : cs ≠ []) (h : ∀ c ∈ cs, c.isDigit) :
    number cs = some (.finite (ofDigitChars 10 cs 0 : ℕ)) := by
  rw [number, if_neg (ne_of_digits h (d := 'N') (by decide) (by decide)),
    if_neg (ne_of_digits h (d := 'I') (by decide) (by decide)),
    if_neg (ne_of_digits h (d := 'I') (by decide) (by decide)), decimal_of_digits hne h]
  rfl

theorem token_of_digits {cs : List Char} (hne : cs ≠ []) (h : ∀ c ∈ cs, c.isDigit) :
    isToken cs := by
  have hblank : ∀ c ∈ cs, ¬ isBlank c := by
    intro c hc hblank
    have hdigit := h c hc
    simp only [isBlank, decide_eq_true_eq] at hblank
    rcases hblank with rfl | rfl <;> exact absurd hdigit (by decide)
  simpa [isToken, hne] using hblank

theorem sample_toDigits (s : Series) (n : ℕ) :
    sample s (' ' :: toDigits 10 n) = some ⟨s, .finite n, none⟩ := by
  have hdigits : ∀ c ∈ toDigits 10 n, c.isDigit :=
    fun _ hc ↦ Nat.isDigit_of_mem_toDigits (by decide) (by decide) hc
  rw [sample, words_blank, words_token (token_of_digits Nat.toDigits_ne_nil hdigits)]
  simp [number_of_digits Nat.toDigits_ne_nil hdigits]

/-! ## The reader -/

/-- Where in a line the reader is, with what it has of the line. -/
inductive Position where
  | start
  | comment (text : List Char)
  | name (n : List Char)
  | named (n : List Char)
  | labels (s : Series)
  | label (s : Series) (l : List Char)
  | labelled (s : Series) (l : List Char)
  | quote (s : Series) (l : List Char)
  | value (s : Series) (l v : List Char)
  | escape (s : Series) (l v : List Char)
  | closed (s : Series)
  | rest (s : Series) (text : List Char)
deriving DecidableEq

def unescapeChar (c : Char) : Option Char :=
  if c = '\\' then some '\\'
  else if c = '"' then some '"'
  else if c = 'n' then some '\n'
  else none

def Series.add (s : Series) (l : Label) : Series := { s with labels := s.labels ++ [l] }

/-- The next position, and a sample when its line ends. -/
def Position.step : Position → Char → Option (Position × Option Sample)
  | .start, c =>
    if c = '\n' ∨ isBlank c then some (.start, none)
    else if c = '#' then some (.comment [], none)
    else if isNameStart c ∨ c = ':' then some (.name [c], none)
    else none
  | .comment text, c =>
    if c = '\n' then if isComment text then some (.start, none) else none
    else some (.comment (text ++ [c]), none)
  | .name n, c =>
    if isNameChar c ∨ c = ':' then some (.name (n ++ [c]), none)
    else if isBlank c then some (.named n, none)
    else if c = '\x7b' then some (.labels ⟨n, []⟩, none)
    else none
  | .named n, c =>
    if isBlank c then some (.named n, none)
    else if c = '\x7b' then some (.labels ⟨n, []⟩, none)
    else if c = '\n' then none
    else some (.rest ⟨n, []⟩ [c], none)
  | .labels s, c =>
    if isBlank c then some (.labels s, none)
    else if c = '\x7d' then some (.rest s [], none)
    else if isNameStart c then some (.label s [c], none)
    else none
  | .label s l, c =>
    if isNameChar c then some (.label s (l ++ [c]), none)
    else if isBlank c then some (.labelled s l, none)
    else if c = '=' then some (.quote s l, none)
    else none
  | .labelled s l, c =>
    if isBlank c then some (.labelled s l, none)
    else if c = '=' then some (.quote s l, none)
    else none
  | .quote s l, c =>
    if isBlank c then some (.quote s l, none)
    else if c = '"' then some (.value s l [], none)
    else none
  | .value s l v, c =>
    if c = '"' then some (.closed (s.add ⟨l, v⟩), none)
    else if c = '\\' then some (.escape s l v, none)
    else if c = '\n' then none
    else some (.value s l (v ++ [c]), none)
  | .escape s l v, c => (unescapeChar c).map fun c ↦ (.value s l (v ++ [c]), none)
  | .closed s, c =>
    if isBlank c then some (.closed s, none)
    else if c = ',' then some (.labels s, none)
    else if c = '\x7d' then some (.rest s [], none)
    else none
  | .rest s text, c =>
    if c = '\n' then (sample s text).map fun x ↦ (.start, some x)
    else some (.rest s (text ++ [c]), none)

structure Reader where
  samples : List Sample
  position : Position

namespace Reader

def step (r : Reader) (c : Char) : Option Reader :=
  (r.position.step c).map fun p ↦ ⟨r.samples ++ p.2.toList, p.1⟩

def run (r : Reader) (text : List Char) : Option Reader := text.foldlM step r

end Reader

/-- The samples of a page.  Its last line has to end. -/
def parse (page : List Char) : Option (List Sample) :=
  (Reader.run ⟨[], .start⟩ page).bind fun r ↦
    if r.position = .start then some r.samples else none

namespace Reader

variable {ss : List Sample} {p p' : Position} {c : Char}

theorem run_emit {x : Option Sample} (h : p.step c = some (p', x)) (text : List Char) :
    run ⟨ss, p⟩ (c :: text) = run ⟨ss ++ x.toList, p'⟩ text := by
  rw [run, List.foldlM_cons, step, h]
  rfl

theorem run_cons (h : p.step c = some (p', none)) (text : List Char) :
    run ⟨ss, p⟩ (c :: text) = run ⟨ss, p'⟩ text := by
  rw [run_emit h, Option.toList_none, List.append_nil]

/-- A position that collects the characters of a token. -/
theorem run_collect {f : List Char → Position} {cs : List Char}
    (h : ∀ v, ∀ c ∈ cs, (f v).step c = some (f (v ++ [c]), none)) (v text : List Char) :
    run ⟨ss, f v⟩ (cs ++ text) = run ⟨ss, f (v ++ cs)⟩ text := by
  induction cs generalizing v with
  | nil => rw [List.append_nil, List.nil_append]
  | cons c cs ih =>
      have hrest : ∀ v, ∀ c ∈ cs, (f v).step c = some (f (v ++ [c]), none) :=
        fun v c hc ↦ h v c (List.mem_cons_of_mem _ hc)
      rw [List.cons_append, run_cons (h v c List.mem_cons_self), ih hrest, List.append_assoc,
        List.singleton_append]

theorem run_append {r r' : Reader} {text : List Char} (h : r.run text = some r')
    (text' : List Char) : r.run (text ++ text') = r'.run text' := by
  rw [run, List.foldlM_append]
  change (r.run text).bind _ = _
  rw [h]
  rfl

end Reader

/-! ## Writing -/

def escapeChar (c : Char) : List Char :=
  if c = '\\' then ['\\', '\\']
  else if c = '"' then ['\\', '"']
  else if c = '\n' then ['\\', 'n']
  else [c]

def escape (v : List Char) : List Char := v.flatMap escapeChar

def Label.text (l : Label) : List Char := l.name ++ '=' :: '"' :: escape l.value ++ ['"']

def labelsText : List Label → List Char
  | [] => []
  | [l] => l.text
  | l :: ls => l.text ++ ',' :: labelsText ls

def line (s : Series) (n : ℕ) : List Char :=
  s.name ++ '\x7b' :: labelsText s.labels ++ '\x7d' :: ' ' :: toDigits 10 n ++ ['\n']

structure Series.WellFormed (s : Series) : Prop where
  name : isMetricName s.name
  labels : ∀ l ∈ s.labels, isLabelName l.name

namespace Reader

variable {ss : List Sample} {s : Series}

theorem run_escape (l v w text : List Char) :
    run ⟨ss, .value s l v⟩ (escape w ++ text) = run ⟨ss, .value s l (v ++ w)⟩ text := by
  induction w generalizing v with
  | nil => simp [escape]
  | cons c w ih =>
      have hchar (rest : List Char) : run ⟨ss, .value s l v⟩ (escapeChar c ++ rest) =
          run ⟨ss, .value s l (v ++ [c])⟩ rest := by
        unfold escapeChar
        split_ifs with hback hquote hline
        · subst hback
          exact (run_cons rfl _).trans (run_cons rfl _)
        · subst hquote
          exact (run_cons rfl _).trans (run_cons rfl _)
        · subst hline
          exact (run_cons rfl _).trans (run_cons rfl _)
        · apply run_cons
          simp [Position.step, hback, hquote, hline]
      rw [escape, List.flatMap_cons, List.append_assoc, hchar, ← escape, ih, List.append_assoc,
        List.singleton_append]

/-! What each part of a line does -/

theorem step_start {c : Char} (h : isNameStart c ∨ c = ':') :
    Position.start.step c = some (.name [c], none) := by
  have hne (d : Char) (hd : ¬ (isNameStart d ∨ d = ':')) : c ≠ d := by
    rintro rfl
    exact hd h
  have hline := hne '\n' (by decide)
  have hspace := hne ' ' (by decide)
  have htab := hne '\t' (by decide)
  have hhash := hne '#' (by decide)
  simp [Position.step, isBlank, hline, hspace, htab, hhash, h]

theorem run_metricName {n : List Char} (h : isMetricName n) (text : List Char) :
    run ⟨ss, .start⟩ (n ++ '\x7b' :: text) = run ⟨ss, .labels ⟨n, []⟩⟩ text := by
  cases n with
  | nil => cases h
  | cons c cs =>
      simp only [isMetricName, Bool.and_eq_true, decide_eq_true_eq, List.all_eq_true] at h
      rw [List.cons_append, run_cons (step_start h.1), run_collect, run_cons rfl]
      · rfl
      · intro v c' hc'
        simp [Position.step, h.2 c' hc']

theorem step_labels {c : Char} (h : isNameStart c) :
    (Position.labels s).step c = some (.label s [c], none) := by
  have hne (d : Char) (hd : ¬ isNameStart d) : c ≠ d := by
    rintro rfl
    exact hd h
  have hspace := hne ' ' (by decide)
  have htab := hne '\t' (by decide)
  have hbrace := hne '\x7d' (by decide)
  simp [Position.step, isBlank, hspace, htab, hbrace, h]

theorem run_label {l : Label} (h : isLabelName l.name) (text : List Char) :
    run ⟨ss, .labels s⟩ (l.text ++ text) = run ⟨ss, .closed (s.add l)⟩ text := by
  obtain ⟨name, value⟩ := l
  cases name with
  | nil => cases h
  | cons c cs =>
      simp only [isLabelName, Bool.and_eq_true, List.all_eq_true] at h
      have htext : Label.text ⟨c :: cs, value⟩ ++ text =
          c :: (cs ++ '=' :: '"' :: (escape value ++ '"' :: text)) := by
        simp [Label.text]
      rw [htext, run_cons (step_labels h.1), run_collect, run_cons rfl, run_cons rfl, run_escape,
        run_cons rfl]
      · rfl
      · intro v c' hc'
        simp [Position.step, h.2 c' hc']

theorem run_labels {ls : List Label} (h : ∀ l ∈ ls, isLabelName l.name) (text : List Char) :
    run ⟨ss, .labels s⟩ (labelsText ls ++ '\x7d' :: text) =
      run ⟨ss, .rest { s with labels := s.labels ++ ls } []⟩ text := by
  induction ls generalizing s with
  | nil =>
      rw [List.append_nil]
      exact run_cons rfl text
  | cons l ls ih =>
      obtain ⟨hl, hls⟩ := List.forall_mem_cons.mp h
      have hadd : { s with labels := s.labels ++ l :: ls } =
          { s.add l with labels := (s.add l).labels ++ ls } := by
        simp [Series.add]
      rw [hadd]
      cases ls with
      | nil =>
          rw [labelsText, run_label hl, run_cons rfl, List.append_nil]
      | cons l' ls =>
          rw [labelsText, List.append_assoc, run_label hl, List.cons_append, run_cons rfl, ih hls]
          nofun

theorem run_rest {text : List Char} (hline : '\n' ∉ text) {x : Sample} (hx : sample s text = some x)
    (rest : List Char) :
    run ⟨ss, .rest s []⟩ (text ++ '\n' :: rest) = run ⟨ss ++ [x], .start⟩ rest := by
  have hend : (Position.rest s text).step '\n' = some (.start, some x) := by
    simp [Position.step, hx]
  rw [run_collect, List.nil_append, run_emit hend, Option.toList_some]
  intro v c hc
  have hne : c ≠ '\n' := fun h ↦ hline (h ▸ hc)
  simp [Position.step, hne]

theorem run_comment {text : List Char} (hline : '\n' ∉ text) (h : isComment text)
    (rest : List Char) :
    run ⟨ss, .start⟩ ('#' :: (text ++ '\n' :: rest)) = run ⟨ss, .start⟩ rest := by
  have hend : (Position.comment text).step '\n' = some (.start, none) := by
    simp [Position.step, h]
  rw [run_cons rfl, run_collect, List.nil_append, run_cons hend]
  intro v c hc
  have hne : c ≠ '\n' := fun h ↦ hline (h ▸ hc)
  simp [Position.step, hne]

theorem run_line (hs : s.WellFormed) (n : ℕ) (text : List Char) :
    run ⟨ss, .start⟩ (line s n ++ text) =
      run ⟨ss ++ [⟨s, .finite n, none⟩], .start⟩ text := by
  have hline : '\n' ∉ ' ' :: toDigits 10 n := by
    intro hmem
    rcases List.mem_cons.mp hmem with hspace | hdigit
    · exact absurd hspace (by decide)
    · exact absurd (Nat.isDigit_of_mem_toDigits (by decide) (by decide) hdigit) (by decide)
  have htext : line s n ++ text = s.name ++ '\x7b' :: (labelsText s.labels ++
      '\x7d' :: ((' ' :: toDigits 10 n) ++ '\n' :: text)) := by
    simp [line]
  rw [htext, run_metricName hs.name, run_labels hs.labels, List.nil_append]
  exact run_rest hline (sample_toDigits s n) text

theorem run_comments {comments : List (List Char)}
    (h : ∀ text ∈ comments, '\n' ∉ text ∧ isComment text) (rest : List Char) :
    run ⟨ss, .start⟩ (comments.flatMap (fun text ↦ '#' :: text ++ ['\n']) ++ rest) =
      run ⟨ss, .start⟩ rest := by
  induction comments with
  | nil => rfl
  | cons text comments ih =>
      obtain ⟨⟨hline, hcomment⟩, hcomments⟩ := List.forall_mem_cons.mp h
      rw [List.flatMap_cons, List.append_assoc, List.cons_append, List.cons_append,
        List.append_assoc, List.singleton_append, run_comment hline hcomment, ih hcomments]

theorem run_lines {ls : List (Series × ℕ)} (h : ∀ l ∈ ls, l.1.WellFormed) :
    run ⟨ss, .start⟩ (ls.flatMap fun l ↦ line l.1 l.2) =
      some ⟨ss ++ ls.map (fun l ↦ ⟨l.1, .finite l.2, none⟩), .start⟩ := by
  induction ls generalizing ss with
  | nil =>
      rw [List.map_nil, List.append_nil]
      rfl
  | cons l ls ih =>
      obtain ⟨hl, hls⟩ := List.forall_mem_cons.mp h
      rw [List.flatMap_cons, run_line hl, ih hls, List.map_cons, List.append_assoc,
        List.singleton_append]

end Reader

/-- A page of comments and of lines with whole numbers is read back. -/
theorem parse_page {comments : List (List Char)}
    (hcomments : ∀ text ∈ comments, '\n' ∉ text ∧ isComment text) {ls : List (Series × ℕ)}
    (hls : ∀ l ∈ ls, l.1.WellFormed) :
    parse (comments.flatMap (fun text ↦ '#' :: text ++ ['\n']) ++
        ls.flatMap fun l ↦ line l.1 l.2) =
      some (ls.map fun l ↦ ⟨l.1, .finite l.2, none⟩) := by
  rw [parse, Reader.run_comments hcomments, Reader.run_lines hls, List.nil_append]
  rfl

/-! ## Backslashes -/

/-- The backslashes that the value takes when it is escaped. -/
def backslashes (v : List Char) : ℕ := (escape v).count '\\'

theorem backslashes_concat (v : List Char) (c : Char) :
    backslashes (v ++ [c]) = backslashes v + (escapeChar c).count '\\' := by
  simp [backslashes, escape]

def Series.backslashes (s : Series) : ℕ :=
  (s.labels.map fun l ↦ Exposition.backslashes l.value).sum

theorem Series.backslashes_add (s : Series) (l : Label) :
    (s.add l).backslashes = s.backslashes + Exposition.backslashes l.value := by
  simp [backslashes, add]

def Position.backslashes : Position → ℕ
  | .start | .comment _ | .name _ | .named _ => 0
  | .labels s | .label s _ | .labelled s _ | .quote s _ | .closed s | .rest s _ => s.backslashes
  | .value s _ v => s.backslashes + Exposition.backslashes v
  | .escape s _ v => s.backslashes + Exposition.backslashes v + 1

def Reader.backslashes (r : Reader) : ℕ :=
  (r.samples.map fun x ↦ x.series.backslashes).sum + r.position.backslashes

theorem backslashes_escape {c d : Char} (h : unescapeChar c = some d) :
    (escapeChar d).count '\\' = 1 + if c = '\\' then 1 else 0 := by
  unfold unescapeChar at h
  split_ifs at h with hback hquote hline
  all_goals
    obtain rfl := Option.some.inj h
    subst c
    decide

theorem sample_series {s : Series} {text : List Char} {x : Sample} (h : sample s text = some x) :
    x.series = s := by
  unfold sample at h
  split at h
  · obtain ⟨v, -, rfl⟩ := Option.map_eq_some_iff.mp h
    rfl
  · simp only [Option.bind_eq_bind, Option.bind_eq_some_iff] at h
    obtain ⟨v, -, t, -, h⟩ := h
    cases h
    rfl
  · cases h

theorem step_backslashes {p p' : Position} {c : Char} {x : Option Sample}
    (h : p.step c = some (p', x)) :
    (x.toList.map fun x ↦ x.series.backslashes).sum + p'.backslashes ≤
      p.backslashes + if c = '\\' then 1 else 0 := by
  cases p with
  | value s l v =>
      simp only [Position.step] at h
      split_ifs at h with hquote hback hline
      · cases h
        simp [Position.backslashes, Series.backslashes_add]
      · cases h
        simp [Position.backslashes, hback]
      · cases h
        simp [Position.backslashes, backslashes_concat, escapeChar, hquote, hback, hline]
  | escape s l v =>
      simp only [Position.step, Option.map_eq_some_iff] at h
      obtain ⟨d, hd, h⟩ := h
      cases h
      simp [Position.backslashes, backslashes_concat, backslashes_escape hd]
      omega
  | rest s text =>
      simp only [Position.step] at h
      split_ifs at h
      · obtain ⟨x, hx, h⟩ := Option.map_eq_some_iff.mp h
        cases h
        simp [Position.backslashes, sample_series hx]
      · cases h
        simp [Position.backslashes]
  | quote s l =>
      simp only [Position.step] at h
      split_ifs at h <;> cases h <;> simp [Position.backslashes, backslashes, escape]
  | _ =>
      simp only [Position.step] at h
      split_ifs at h <;> cases h <;> simp [Position.backslashes, Series.backslashes]

theorem Reader.run_backslashes {r r' : Reader} {text : List Char} (h : r.run text = some r') :
    r'.backslashes ≤ r.backslashes + text.count '\\' := by
  induction text generalizing r with
  | nil =>
      obtain rfl := Option.some.inj h
      exact Nat.le_add_right _ _
  | cons c text ih =>
      rw [run, List.foldlM_cons] at h
      obtain ⟨r₁, hr₁, hrest⟩ := Option.bind_eq_some_iff.mp h
      obtain ⟨⟨p, x⟩, hp, rfl⟩ := Option.map_eq_some_iff.mp hr₁
      have hstep := step_backslashes hp
      have hrun := ih hrest
      simp only [backslashes, List.map_append, List.sum_append, List.count_cons, beq_iff_eq]
        at hstep hrun ⊢
      omega

/-- The values on a page take no more backslashes than the page has. -/
theorem parse_backslashes {page : List Char} {samples : List Sample}
    (h : parse page = some samples) :
    (samples.map fun x ↦ x.series.backslashes).sum ≤ page.count '\\' := by
  obtain ⟨r, hr, h⟩ := Option.bind_eq_some_iff.mp h
  split at h
  · obtain rfl := Option.some.inj h
    have hrun := Reader.run_backslashes hr
    simp only [Reader.backslashes, Position.backslashes, List.map_nil, List.sum_nil] at hrun
    omega
  · cases h

/-! ## Plain values -/

def needsEscape (c : Char) : Bool := c = '\\' ∨ c = '"' ∨ c = '\n'

/-- Values that are written without escapes. -/
def Plain (v : List Char) : Prop := ∀ c ∈ v, ¬ needsEscape c

instance : DecidablePred Plain := fun v ↦
  decidable_of_iff (v.all fun c ↦ !needsEscape c) (by simp [Plain])

theorem Plain.not_mem {v : List Char} (h : Plain v) {c : Char} (hc : needsEscape c) : c ∉ v :=
  fun hmem ↦ h c hmem hc

theorem Plain.append {v w : List Char} (hv : Plain v) (hw : Plain w) : Plain (v ++ w) :=
  List.forall_mem_append.mpr ⟨hv, hw⟩

theorem escapeChar_of_not_needsEscape {c : Char} (h : ¬ needsEscape c) : escapeChar c = [c] := by
  simp only [needsEscape, decide_eq_true_eq, not_or] at h
  rw [escapeChar, if_neg h.1, if_neg h.2.1, if_neg h.2.2]

theorem Plain.escape {v : List Char} (h : Plain v) : escape v = v := by
  induction v with
  | nil => rfl
  | cons c v ih =>
      obtain ⟨hc, hv⟩ := List.forall_mem_cons.mp h
      rw [Exposition.escape, List.flatMap_cons, ← Exposition.escape, ih hv,
        escapeChar_of_not_needsEscape hc]
      rfl

theorem count_escapeChar (c : Char) : (escapeChar c).count '\\' =
    (if c = '\\' then 1 else 0) + if needsEscape c then 1 else 0 := by
  by_cases hescape : needsEscape c
  · rw [if_pos hescape]
    simp only [needsEscape, decide_eq_true_eq] at hescape
    rcases hescape with rfl | rfl | rfl <;> decide
  · rw [if_neg hescape, escapeChar_of_not_needsEscape hescape, Nat.add_zero, List.count_singleton]
    simp only [beq_iff_eq]

/-- Escaping adds a backslash to every character that needs one. -/
theorem backslashes_eq (v : List Char) :
    backslashes v = v.count '\\' + v.countP needsEscape := by
  induction v with
  | nil => rfl
  | cons c v ih =>
      have hcons : backslashes (c :: v) = (escapeChar c).count '\\' + backslashes v := by
        simp [backslashes, escape]
      rw [hcons, ih, count_escapeChar, List.count_cons, List.countP_cons]
      simp only [beq_iff_eq]
      omega

theorem plain_iff_countP {v : List Char} : Plain v ↔ v.countP needsEscape = 0 :=
  List.countP_eq_zero.symm

end Geiger.Exposition
