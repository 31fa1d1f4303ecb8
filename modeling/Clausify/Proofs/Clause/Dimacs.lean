import Mathlib
import Clausify.Instance.Basic
import Clausify.Proofs.Clause.Valuation
import Clausify.Proofs.Number.Decimal
import Clausify.Proofs.Text.Fields

/-!
Reading a finished instance file. The body of a file is made of comment lines and clause lines
(`Dimacs.Line`); behind a header for `n` variables, lines whose clauses speak about these
variables are read one by one, each adding its comment or its clause to the formula
(`parse_file`). So the clauses that are read are those that were written, in their order
(`clauses_foldl_read`). The reader accepts exactly the documents without long lines
(`read_eq_ok_iff`).
-/

namespace Clausify

/-- The magnitude that is read is the variable, also for the least word. -/
theorem Literal.magnitudeOf_word (l : Literal) : Dimacs.Reading.magnitudeOf l.word = l.var := by
  by_cases h : l.var < halfCount
  · have hneg := toInt_neg_word h
    have hmax : (max l.word (-l.word)).toInt = l.var := by
      show (if l.word ≤ -l.word then -l.word else l.word).toInt = _
      split
      · next hle =>
        rw [Int64.le_iff_toInt_le, hneg] at hle
        rw [hneg, var]
        omega
      · next hle =>
        rw [Int64.le_iff_toInt_le, hneg] at hle
        rw [var]
        omega
    have h0 : (0 : Word) ≤ max l.word (-l.word) := by
      rw [Int64.le_iff_toInt_le, hmax]
      exact Int.natCast_nonneg _
    rw [Dimacs.Reading.magnitudeOf, Int64.toNat_toUInt64_of_le h0, Int64.toNatClampNeg.eq_1, hmax,
      Int.toNat_natCast]
  · -- the least word is its own negation
    rw [var, word_eq_minValue h]
    decide

namespace Dimacs

/-- A line of the body of an instance file. -/
inductive Line where
  | comment (text : String)
  | clause (weight : Option Word) (clause : Clause)

namespace Line

def text : Line → String
  | comment text => Instance.commentLine text
  | clause weight c => ((weight.map fun w => w.text ++ " ").getD "") ++ c.line

/-- The characters of the line before the line break. -/
def chars : Line → List Char
  | comment text => 'c' :: ' ' :: text.toList.map fun c => if c = '\n' then ' ' else c
  | clause weight c =>
    ((weight.map fun w => w.text.toList ++ [' ']).getD []) ++
      ((c.flatMap fun l => l.number.toList ++ [' ']) ++ ['0'])

def clause? : Line → Option Clause
  | comment _ => none
  | clause _ c => some c

/-- Plain documents with `n` variables may have this line. -/
def Readable (n : Nat) : Line → Prop
  | comment _ => True
  | clause weight c => weight = none ∧ ∀ l ∈ c, l.word ≠ 0 ∧ Reading.magnitudeOf l.word ≤ n

/-- What reading the line does to the formula read so far. -/
def read (f : Formula) : Line → Formula
  | comment text =>
    f.addComment (String.ofList (Text.trimChars (Text.trimChars (comment text).chars).tail))
  | clause _ c => { f with clauses := f.clauses.push c }

theorem toList_text (l : Line) : l.text.toList = l.chars ++ ['\n'] := by
  cases l with
  | comment t => simp [text, chars, Instance.commentLine, String.toList_append, String.toList_map]
  | clause weight c =>
    cases weight <;>
      simp [text, chars, Clause.line, String.toList_append, String.toList_join, List.flatMap_map]

theorem newline_not_mem_text (w : Word) : '\n' ∉ w.text.toList := by
  intro h
  rcases Word.of_mem_text h with h | h <;> exact absurd h (by decide)

theorem newline_not_mem_chars (l : Line) : '\n' ∉ l.chars := by
  cases l with
  | comment t =>
    simp only [chars, List.mem_cons, List.mem_map, not_or, not_exists, not_and]
    refine ⟨by decide, by decide, fun c _ => ?_⟩
    split <;> simp_all
  | clause weight c =>
    have hw := newline_not_mem_text
    cases weight <;> simp [chars, hw, Literal.number]

@[simp] theorem variableCount_foldl_read (ls : List Line) (f : Formula) :
    (ls.foldl read f).variableCount = f.variableCount := by
  induction ls generalizing f with
  | nil => rfl
  | cons l rest ih =>
    rw [List.foldl_cons, ih]
    cases l <;> rfl

theorem clauses_foldl_read (ls : List Line) (f : Formula) :
    (ls.foldl read f).clauses.toList = f.clauses.toList ++ ls.filterMap clause? := by
  induction ls generalizing f with
  | nil => simp
  | cons l rest ih =>
    rw [List.foldl_cons, ih]
    cases l with
    | comment t => rfl
    | clause weight c => simp [read, clause?]

end Line

/-! ## Lines of a text -/

theorem linesOf_lines {lines : List (List Char)} (h : ∀ l ∈ lines, '\n' ∉ l) :
    Text.linesOf (lines.flatMap (· ++ ['\n'])) = lines ++ [[]] := by
  induction lines with
  | nil => rfl
  | cons l rest ih =>
    rw [List.forall_mem_cons] at h
    rw [List.flatMap_cons, List.append_assoc, List.singleton_append, Text.linesOf_append h.1,
      ih h.2, List.cons_append]

theorem newline_not_mem_toDigits (n : Nat) : '\n' ∉ Nat.toDigits 10 n := by
  intro hn
  exact absurd (Nat.isDigit_of_mem_toDigits (by decide) (by decide) hn) (by decide)

theorem newline_not_mem_paddedHeader (i : Instance) : '\n' ∉ i.paddedHeader.toList := by
  have hdigits := newline_not_mem_toDigits
  have htop := Line.newline_not_mem_text i.options.top
  unfold Instance.paddedHeader Instance.header
  split <;> simp [String.toList_append, hdigits, htop]

theorem linesOf_document {header : List Char} (h : '\n' ∉ header) (ls : List Line) :
    Text.linesOf (header ++ '\n' :: (String.join (ls.map Line.text)).toList) =
      header :: (ls.map Line.chars ++ [[]]) := by
  have hchars : header ++ '\n' :: (String.join (ls.map Line.text)).toList =
      (header :: ls.map Line.chars).flatMap (· ++ ['\n']) := by
    simp [String.toList_join, List.flatMap_map, Line.toList_text]
  have hlines : ∀ l ∈ header :: ls.map Line.chars, '\n' ∉ l := by
    intro l hl
    rcases List.mem_cons.mp hl with rfl | hl
    · exact h
    · obtain ⟨line, -, rfl⟩ := List.mem_map.mp hl
      exact line.newline_not_mem_chars
  rw [hchars, linesOf_lines hlines, List.cons_append]

theorem linesOf_file (i : Instance) (ls : List Line) :
    Text.linesOf (i.paddedHeader ++ "\n" ++ String.join (ls.map Line.text)).toList =
      i.paddedHeader.toList :: (ls.map Line.chars ++ [[]]) := by
  rw [← linesOf_document (newline_not_mem_paddedHeader i)]
  simp [String.toList_append]

namespace Reading

variable {r : Reading}

/-! ## One line -/

theorem readLine_comment (k : Nat) (r : Reading) (text : String) :
    r.readLine k (Line.comment text).chars =
      .ok { r with formula := (Line.comment text).read r.formula } := by
  obtain ⟨rest, hrest⟩ := Text.trimChars_cons (c := 'c') (by decide)
    (' ' :: text.toList.map fun c => if c = '\n' then ' ' else c)
  simp only [Line.read, Line.chars, readLine, hrest, List.tail_cons]

theorem foldlM_readLiteral (k : Nat) {c : Clause}
    (h : ∀ l ∈ c, l.word ≠ 0 ∧ magnitudeOf l.word ≤ r.formula.variableCount)
    (fields : List (List Char)) :
    (c.map (fun l => l.number.toList) ++ fields).foldlM (readLiteral k) r =
      fields.foldlM (readLiteral k) { r with pending := c.reverse ++ r.pending } := by
  induction c generalizing r with
  | nil => rfl
  | cons l rest ih =>
    rw [List.forall_mem_cons] at h
    have hread : readLiteral k r l.number.toList = .ok { r with pending := l :: r.pending } := by
      unfold readLiteral
      rw [String.ofList_toList, Literal.number, Numeral.parseWord_text]
      simp only [h.1.1, if_false]
      rw [if_neg (by omega)]
    rw [List.map_cons, List.cons_append, List.foldlM_cons, hread]
    show (List.map _ rest ++ fields).foldlM (readLiteral k) { r with pending := l :: r.pending } = _
    rw [ih (r := { r with pending := l :: r.pending }) h.2]
    simp

theorem isBlank_of_mem_text {w : Word} {ch : Char} (h : ch ∈ w.text.toList) :
    Text.isBlank ch = false := by
  rcases Word.of_mem_text h with hd | rfl
  · exact Text.isBlank_of_isDigit hd
  · decide

theorem fieldsOf_clause (c : Clause) :
    Text.fieldsOf ((c.flatMap fun l => l.number.toList ++ [' ']) ++ ['0']) =
      c.map (fun l => l.number.toList) ++ [['0']] := by
  induction c with
  | nil => exact Text.fieldsOf_last (by simp) (by simp [Text.isBlank])
  | cons l rest ih =>
    have hne : l.number.toList ≠ [] := Word.text_ne_nil _
    have hblank : ∀ ch ∈ l.number.toList, Text.isBlank ch = false := fun _ => isBlank_of_mem_text
    rw [List.flatMap_cons, List.append_assoc, List.append_assoc, List.singleton_append,
      Text.fieldsOf_blank hne hblank, ih]
    rfl

theorem chars_clause_cons (weight : Option Word) (c : Clause) :
    ∃ ch rest, (Line.clause weight c).chars = ch :: rest ∧ (ch.isDigit = true ∨ ch = '-') := by
  have hword : ∀ (w : Word) (tail : List Char),
      ∃ ch rest, w.text.toList ++ tail = ch :: rest ∧ (ch.isDigit = true ∨ ch = '-') := by
    intro w tail
    cases hw : w.text.toList with
    | nil => exact absurd hw (Word.text_ne_nil w)
    | cons ch chs =>
      exact ⟨ch, chs ++ tail, rfl, Word.of_mem_text (w := w) (by rw [hw]; simp)⟩
  cases weight with
  | some w => simpa [Line.chars] using hword w _
  | none =>
    cases c with
    | nil => exact ⟨'0', [], rfl, .inl (by decide)⟩
    | cons l rest => simpa [Line.chars, Literal.number] using hword l.word _

theorem trimChars_clause (weight : Option Word) (c : Clause) :
    Text.trimChars (Line.clause weight c).chars = (Line.clause weight c).chars := by
  obtain ⟨ch, rest, hchars, hch⟩ := chars_clause_cons weight c
  have hblank : Text.isBlank ch = false := by
    rcases hch with hd | rfl
    · exact Text.isBlank_of_isDigit hd
    · decide
  have hhead : (Line.clause weight c).chars.head? = some ch := by rw [hchars, List.head?_cons]
  have hlast : (Line.clause weight c).chars.getLast? = some '0' := by
    rw [Line.chars, ← List.append_assoc, List.getLast?_concat]
  have := Text.trimChars_append_blanks hhead hblank hlast (by decide) (List.forall_mem_nil _)
  rwa [List.append_nil] at this

theorem readLine_clause_eq (k : Nat) (c : Clause) (hheader : r.header = true) :
    r.readLine k (Line.clause none c).chars =
      (c.map (fun l => l.number.toList) ++ [['0']]).foldlM (readLiteral k) r := by
  obtain ⟨ch, rest, hchars, hch⟩ := chars_clause_cons none c
  have hfields : Text.fieldsOf (Line.clause none c).chars =
      c.map (fun l => l.number.toList) ++ [['0']] := fieldsOf_clause c
  unfold readLine
  rw [trimChars_clause]
  split
  · next heq => rw [hchars] at heq; simp at heq
  · next heq =>
    obtain rfl : ch = 'c' := by rw [hchars] at heq; exact (List.cons.inj heq).1
    exact absurd hch (by decide)
  · next heq =>
    obtain rfl : ch = 'p' := by rw [hchars] at heq; exact (List.cons.inj heq).1
    exact absurd hch (by decide)
  · rw [hheader, hfields]
    rfl

theorem readLine_clause (k : Nat) {c : Clause} (hheader : r.header = true)
    (hpending : r.pending = [])
    (h : ∀ l ∈ c, l.word ≠ 0 ∧ magnitudeOf l.word ≤ r.formula.variableCount) :
    r.readLine k (Line.clause none c).chars =
      .ok { r with formula := (Line.clause none c).read r.formula } := by
  have hzero : Numeral.parseWord (String.ofList ['0']) = .ok 0 := by decide
  rw [readLine_clause_eq k c hheader, foldlM_readLiteral k h]
  simp [readLiteral, hzero, hpending, hheader, Line.read, bind, Except.bind, pure, Except.pure]

/-- A readable line adds its comment or its clause to the formula. -/
theorem readLine_line (k : Nat) {l : Line} (hheader : r.header = true) (hpending : r.pending = [])
    (h : l.Readable r.formula.variableCount) :
    r.readLine k l.chars = .ok { r with formula := l.read r.formula } := by
  cases l with
  | comment t => exact readLine_comment k r t
  | clause weight c =>
    obtain ⟨rfl, hc⟩ := h
    exact readLine_clause k hheader hpending hc

/-! ## The header line -/

theorem isBlank_of_mem_toDigits {n : Nat} {ch : Char} (h : ch ∈ Nat.toDigits 10 n) :
    Text.isBlank ch = false :=
  Text.isBlank_of_isDigit (Nat.isDigit_of_mem_toDigits (by decide) (by decide) h)

theorem isBlank_of_mem_padding {k : Nat} {b : Char} (h : b ∈ List.replicate k ' ') :
    Text.isBlank b = true := by
  rw [List.eq_of_mem_replicate h]
  decide

theorem trimChars_paddedHeader {i : Instance} {first last : Char}
    (hhead : i.header.toList.head? = some first) (hfirst : Text.isBlank first = false)
    (hend : i.header.toList.getLast? = some last) (hlast : Text.isBlank last = false) :
    Text.trimChars i.paddedHeader.toList = i.header.toList := by
  rw [Instance.paddedHeader, String.toList_append, String.toList_ofList]
  exact Text.trimChars_append_blanks hhead hfirst hend hlast fun _ => isBlank_of_mem_padding

/-- The characters of a plain header for `n` variables and `m` clauses. -/
def headerChars (n m : Nat) : List Char :=
  'p' :: ' ' :: (['c', 'n', 'f'] ++ ' ' :: (Nat.toDigits 10 n ++ ' ' :: Nat.toDigits 10 m))

theorem trimChars_headerChars (n m : Nat) {bs : List Char}
    (hbs : ∀ b ∈ bs, Text.isBlank b = true) :
    Text.trimChars (headerChars n m ++ bs) = headerChars n m := by
  obtain ⟨d, hd⟩ : ∃ d, (Nat.toDigits 10 m).getLast? = some d :=
    Option.isSome_iff_exists.mp (by simp [Nat.toDigits_ne_nil])
  have hlast : (headerChars n m).getLast? = some d := by
    simp [headerChars, List.getLast?_append, List.getLast?_cons, hd]
  exact Text.trimChars_append_blanks rfl (by decide) hlast
    (isBlank_of_mem_toDigits (List.mem_of_getLast? hd)) hbs

theorem fieldsOf_headerChars (n m : Nat) : Text.fieldsOf (headerChars n m) =
    [['p'], ['c', 'n', 'f'], Nat.toDigits 10 n, Nat.toDigits 10 m] := by
  show Text.fieldsOf (['p'] ++ ' ' :: _) = _
  rw [Text.fieldsOf_blank (by simp) (by simp [Text.isBlank]),
    Text.fieldsOf_blank (by simp) (by simp [Text.isBlank]),
    Text.fieldsOf_blank Nat.toDigits_ne_nil fun _ => isBlank_of_mem_toDigits,
    Text.fieldsOf_last Nat.toDigits_ne_nil fun _ => isBlank_of_mem_toDigits]

theorem parseNat_toDigits {n : Nat} (h : n < wordCount) :
    Numeral.parseNat (String.ofList (Nat.toDigits 10 n)) = .ok n := by
  rw [← Nat.toList_repr, String.ofList_toList, Numeral.parseNat_repr h]

theorem readLine_headerChars (k : Nat) (r : Reading) {n : Nat} (hn : n < wordCount) (m : Nat)
    {bs : List Char} (hbs : ∀ b ∈ bs, Text.isBlank b = true) :
    r.readLine k (headerChars n m ++ bs) =
      .ok { r with formula := { r.formula with variableCount := n }, header := true } := by
  have hread : r.readHeader (headerChars n m) =
      .ok { r with formula := { r.formula with variableCount := n }, header := true } := by
    unfold readHeader
    rw [fieldsOf_headerChars]
    simp only [parseNat_toDigits hn]
    rw [if_neg (by decide)]
  unfold readLine
  rw [trimChars_headerChars n m hbs, ← hread]
  rfl

theorem toList_header {i : Instance} (h : i.options.weighted = false) :
    i.header.toList = headerChars i.variableCount i.clauses := by
  simp [Instance.header, h, headerChars, String.toList_append, Nat.toString_eq_repr]

theorem readLine_header (k : Nat) (r : Reading) {i : Instance} (hplain : i.options.weighted = false)
    (hcount : i.variableCount < wordCount) :
    r.readLine k i.paddedHeader.toList =
      .ok { r with
        formula := { r.formula with variableCount := i.variableCount }, header := true } := by
  rw [Instance.paddedHeader, String.toList_append, String.toList_ofList, toList_header hplain]
  exact readLine_headerChars k r hcount _ fun _ => isBlank_of_mem_padding

/-! ## All lines -/

theorem readLines_lines (k : Nat) {ls : List Line} (hheader : r.header = true)
    (hpending : r.pending = []) (h : ∀ l ∈ ls, l.Readable r.formula.variableCount) :
    r.readLines k (ls.map Line.chars ++ [[]]) =
      .ok { r with formula := ls.foldl Line.read r.formula } := by
  induction ls generalizing k r with
  | nil => rfl
  | cons l rest ih =>
    rw [List.forall_mem_cons] at h
    have hcount : (l.read r.formula).variableCount = r.formula.variableCount :=
      Line.variableCount_foldl_read [l] r.formula
    rw [List.map_cons, List.cons_append, readLines, readLine_line k hheader hpending h.1]
    dsimp only
    rw [ih (k + 1) (r := { r with formula := l.read r.formula }) hheader hpending
      (by rw [hcount]; exact h.2)]
    rfl

end Reading

/-- A finished plain file with readable lines is read as the formula of its lines. -/
theorem parse_file {i : Instance} {ls : List Line} (hplain : i.options.weighted = false)
    (hcount : i.variableCount < wordCount) (h : ∀ l ∈ ls, l.Readable i.variableCount) :
    parse (i.paddedHeader ++ "\n" ++ String.join (ls.map Line.text)) =
      .ok (ls.foldl Line.read { variableCount := i.variableCount }) := by
  unfold parse
  rw [linesOf_file, Reading.readLines, Reading.readLine_header 1 {} hplain hcount]
  dsimp only
  rw [Reading.readLines_lines 2 rfl rfl h]
  rfl

/-! ## Long lines -/

theorem Reading.readLines_append (k : Nat) (r : Reading) (first later : List (List Char)) :
    r.readLines k (first ++ later) =
      (r.readLines k first).bind fun r' => r'.readLines (k + first.length) later := by
  induction first generalizing k r with
  | nil => rfl
  | cons line rest ih =>
    rw [List.cons_append, readLines, readLines]
    cases r.readLine k line with
    | error fault => rfl
    | ok next =>
      dsimp only
      rw [ih, List.length_cons, Nat.add_right_comm, Nat.add_assoc]

variable {text : String} {r : Reading} {f : Formula}

theorem read_of_fits (h : ∀ line ∈ Text.linesOf text.toList, Fits line) :
    read text = parse text := by
  have hall : (Text.linesOf text.toList).takeWhile (fun line => Fits line) =
      Text.linesOf text.toList :=
    List.takeWhile_eq_self_iff.mpr fun line hline => decide_eq_true (h line hline)
  unfold read parse
  simp only [hall, if_pos h]

/-- Where every line can be read, the reader ends as the text does, or stops at a long line. -/
theorem read_of_readLines (h : Reading.readLines 1 {} (Text.linesOf text.toList) = .ok r) :
    read text = if ∀ line ∈ Text.linesOf text.toList, Fits line then r.close
      else .error .lineTooLong := by
  split
  · next hfits =>
    rw [read_of_fits hfits, parse, h]
  · next hlong =>
    -- the lines before the long one are read as in the whole text
    rw [← List.takeWhile_append_dropWhile (p := fun line => decide (Fits line))
      (l := Text.linesOf text.toList), Reading.readLines_append] at h
    unfold read
    cases hbefore : Reading.readLines 1 {}
        ((Text.linesOf text.toList).takeWhile fun line => decide (Fits line)) with
    | error fault =>
      rw [hbefore] at h
      cases h
    | ok r₁ => simp only [hbefore, if_neg hlong]

/-- A text that says a formula is read as that formula, or refused for a long line. -/
theorem read_of_parse (h : parse text = .ok f) :
    read text = if ∀ line ∈ Text.linesOf text.toList, Fits line then .ok f
      else .error .lineTooLong := by
  unfold parse at h
  split at h
  · cases h
  · next r hr => rw [read_of_readLines hr, h]

/-- The reader accepts the documents whose lines are all short. -/
theorem read_eq_ok_iff :
    read text = .ok f ↔ parse text = .ok f ∧ ∀ line ∈ Text.linesOf text.toList, Fits line := by
  constructor
  · intro h
    have hfits : ∀ line ∈ Text.linesOf text.toList, Fits line := by
      by_contra hlong
      unfold read at h
      dsimp only at h
      split at h
      · cases h
      · rw [if_neg hlong] at h
        cases h
    exact ⟨read_of_fits hfits ▸ h, hfits⟩
  · rintro ⟨h, hfits⟩
    rw [read_of_fits hfits, h]

end Dimacs

end Clausify
