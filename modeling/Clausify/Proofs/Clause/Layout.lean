import Mathlib
import Clausify.Fault
import Clausify.Proofs.Clause.Declared
import Clausify.Proofs.Text.Spread

/-!
Reading a formula from any layout. The numbers of a formula are the literals of its clauses, each
clause closed by a zero (`numbers`). They may be spread over lines at will, with blank lines and
comment lines between them, behind a header line with the number of variables (`Layout`). Reading
takes in one number after the other (`Reading.take`) and does not see where lines end: the open
clause is kept over line breaks and comments (`readLines_body`). Main statement: every layout of a
formula is read as that formula with the comments of the layout, what is written out is such a
layout, and a layout whose last clause is not closed is refused (`layout_reads_back`). All of this
is up to the length of a line: a layout with a line that is too long is refused for it
(`overlong_layout_refused`).
-/

namespace Clausify.Dimacs

open Text (Gap IsField Spread)

/-! ## Layouts -/

/-- The numbers of some clauses in order, a zero behind each clause. -/
def numbers (cs : List Clause) : List Word := cs.flatMap fun c => c.map Literal.word ++ [0]

/-- Lines that hold numbers and comments in order. A line has some of the numbers, or none if it is
blank, or it is a comment, whose text is kept without the white space around it. -/
inductive Body : List Word → List String → List (List Char) → Prop where
  | done : Body [] [] []
  | numbers {here later : List Word} {comments : List String} {line : List Char}
      {lines : List (List Char)} (hline : Spread (here.map fun w => w.text.toList) line)
      (h : Body later comments lines) : Body (here ++ later) comments (line :: lines)
  | comment {ws : List Word} {comments : List String} {margin text : List Char}
      {lines : List (List Char)} (hmargin : Gap margin) (htext : '\n' ∉ text)
      (h : Body ws comments lines) :
      Body ws (Text.trim (String.ofList text) :: comments) ((margin ++ 'c' :: text) :: lines)

/-- A line that declares `n` variables and ends in some field. -/
def Heading (n : Nat) (line : List Char) : Prop :=
  ∃ size, Spread [['p'], ['c', 'n', 'f'], (toString n).toList, size] line

/-- A text that holds a header for `n` variables, behind it some numbers, and comments anywhere. -/
def Layout (n : Nat) (ws : List Word) (comments : List String) (text : String) : Prop :=
  ∃ above heading below first later,
    Body [] first above ∧ Heading n heading ∧ Body ws later below ∧ comments = first ++ later ∧
      text.toList = ['\n'].intercalate (above ++ heading :: below)

theorem Body.blank {ws : List Word} {comments : List String} {gap : List Char}
    {lines : List (List Char)} (hgap : Gap gap) (h : Body ws comments lines) :
    Body ws comments (gap :: lines) :=
  @Body.numbers [] ws comments gap lines (.blank hgap) h

theorem Body.newline_not_mem {ws : List Word} {comments : List String} {lines : List (List Char)}
    (h : Body ws comments lines) : ∀ line ∈ lines, '\n' ∉ line := by
  induction h with
  | done => simp
  | numbers hline h ih => exact List.forall_mem_cons.mpr ⟨hline.newline_not_mem, ih⟩
  | comment hmargin htext h ih =>
    refine List.forall_mem_cons.mpr ⟨?_, ih⟩
    simp only [List.mem_append, List.mem_cons, not_or]
    exact ⟨fun hmem => (hmargin _ hmem).2 rfl, by decide, htext⟩

namespace Reading

variable {k : Nat} {r : Reading}

/-! ## Numbers -/

/-- Takes in one number: a zero closes the open clause, any other number goes on with it. -/
def take (r : Reading) (w : Word) : Reading :=
  if w = 0 then
    { r with
      formula := { r.formula with clauses := r.formula.clauses.push r.pending.reverse }
      pending := [] }
  else { r with pending := ⟨w⟩ :: r.pending }

/-- Adds comments to what has been read. -/
def remark (r : Reading) (comments : List String) : Reading :=
  { r with
    formula := { r.formula with comments := r.formula.comments ++ comments.toArray } }

@[simp] theorem take_header (r : Reading) (w : Word) : (r.take w).header = r.header := by
  unfold take
  split <;> rfl

@[simp] theorem take_count (r : Reading) (w : Word) :
    (r.take w).formula.variableCount = r.formula.variableCount := by
  unfold take
  split <;> rfl

/-- Comments and numbers do not get in each other's way. -/
theorem take_remark (r : Reading) (comments : List String) (w : Word) :
    (r.remark comments).take w = (r.take w).remark comments := by
  unfold take remark
  split <;> rfl

theorem foldl_take_remark (ws : List Word) (r : Reading) (comments : List String) :
    ws.foldl take (r.remark comments) = (ws.foldl take r).remark comments := by
  induction ws generalizing r with
  | nil => rfl
  | cons w rest ih => rw [List.foldl_cons, take_remark, ih, List.foldl_cons]

@[simp] theorem foldl_take_header (ws : List Word) (r : Reading) :
    (ws.foldl take r).header = r.header := by
  induction ws generalizing r with
  | nil => rfl
  | cons w rest ih => rw [List.foldl_cons, ih, take_header]

@[simp] theorem foldl_take_count (ws : List Word) (r : Reading) :
    (ws.foldl take r).formula.variableCount = r.formula.variableCount := by
  induction ws generalizing r with
  | nil => rfl
  | cons w rest ih => rw [List.foldl_cons, ih, take_count]

theorem remark_nil (r : Reading) : r.remark [] = r := by simp [remark]

theorem remark_remark (r : Reading) (first later : List String) :
    (r.remark first).remark later = r.remark (first ++ later) := by
  simp [remark, Array.append_assoc]

theorem readLiteral_text {w : Word} (h : magnitudeOf w ≤ r.formula.variableCount) :
    readLiteral k r w.text.toList = .ok (r.take w) := by
  unfold readLiteral take
  rw [String.ofList_toList, Numeral.parseWord_text]
  by_cases hw : w = 0
  · simp [hw]
  · simp only [hw, if_false]
    rw [if_neg (by omega)]

theorem readLiterals_texts {ws : List Word}
    (h : ∀ w ∈ ws, magnitudeOf w ≤ r.formula.variableCount) :
    (ws.map fun w => w.text.toList).foldlM (readLiteral k) r = .ok (ws.foldl take r) := by
  induction ws generalizing r with
  | nil => rfl
  | cons w rest ih =>
    rw [List.forall_mem_cons] at h
    rw [List.map_cons, List.foldlM_cons, readLiteral_text h.1]
    exact ih (r := r.take w) (by rw [take_count]; exact h.2)

theorem foldl_take_literals {c : Clause} (hc : ∀ l ∈ c, l.word ≠ 0) (r : Reading) :
    (c.map Literal.word).foldl take r = { r with pending := c.reverse ++ r.pending } := by
  induction c generalizing r with
  | nil => rfl
  | cons l rest ih =>
    rw [List.forall_mem_cons] at hc
    rw [List.map_cons, List.foldl_cons, take, if_neg hc.1, ih hc.2]
    simp

theorem foldl_take_numbers {cs : List Clause} (hcs : ∀ c ∈ cs, ∀ l ∈ c, l.word ≠ 0)
    (hpending : r.pending = []) :
    (numbers cs).foldl take r =
      { r with formula := { r.formula with clauses := r.formula.clauses ++ cs.toArray } } := by
  induction cs generalizing r with
  | nil => simp [numbers]
  | cons c rest ih =>
    rw [List.forall_mem_cons] at hcs
    have hclause : (c.map Literal.word ++ [0]).foldl take r =
        { r with formula := { r.formula with clauses := r.formula.clauses.push c } } := by
      rw [List.foldl_append, foldl_take_literals hcs.1, List.foldl_cons, List.foldl_nil, take,
        if_pos rfl]
      simp [hpending]
    rw [numbers, List.flatMap_cons, List.foldl_append, hclause]
    have hrest := ih (r := { r with
      formula := { r.formula with clauses := r.formula.clauses.push c } }) hcs.2 hpending
    exact hrest.trans (by simp)

/-! ## Lines -/

theorem isField_text (w : Word) : IsField w.text.toList :=
  ⟨Word.text_ne_nil w, fun _ => isBlank_of_mem_text⟩

/-- A line of numbers is read number by number, whatever white space is in it. -/
theorem readLine_numbers {ws : List Word} {line : List Char} (hheader : r.header = true ∨ ws = [])
    (hline : Spread (ws.map fun w => w.text.toList) line)
    (h : ∀ w ∈ ws, magnitudeOf w ≤ r.formula.variableCount) :
    r.readLine k line = .ok (ws.foldl take r) := by
  cases ws with
  | nil =>
    rw [readLine, Text.trimChars_of_spread_nil hline]
    rfl
  | cons w rest =>
    have hheader : r.header = true := hheader.resolve_right (by simp)
    -- the first character is that of a number, so the line is no comment and no header
    obtain ⟨ch, chs, hw⟩ := List.exists_cons_of_ne_nil (Word.text_ne_nil w)
    have hch : ch.isDigit = true ∨ ch = '-' := Word.of_mem_text (w := w) (by rw [hw]; simp)
    have hstart : ∃ behind, Text.trimChars line = ch :: behind := by
      rw [List.map_cons, hw] at hline
      exact Text.trimChars_of_spread hline
    obtain ⟨behind, htrim⟩ := hstart
    have hfields : Text.fieldsOf (ch :: behind) = (w :: rest).map fun w => w.text.toList := by
      rw [← htrim, Text.fieldsOf_trimChars, Text.fieldsOf_of_spread hline]
    rw [readLine, htrim]
    split
    · next heq => simp at heq
    · next heq =>
      obtain rfl : ch = 'c' := (List.cons.inj heq).1
      exact absurd hch (by decide)
    · next heq =>
      obtain rfl : ch = 'p' := (List.cons.inj heq).1
      exact absurd hch (by decide)
    · rw [hheader, hfields]
      exact readLiterals_texts h

theorem readLine_remark {margin text : List Char} (hmargin : Gap margin) :
    r.readLine k (margin ++ 'c' :: text) = .ok (r.remark [Text.trim (String.ofList text)]) := by
  have htrim : Text.trimChars (margin ++ 'c' :: text) = 'c' :: text.rdropWhile Text.isBlank := by
    rw [Text.trimChars_append_left hmargin.isBlank, Text.trimChars_of_head (by decide)]
  rw [readLine, htrim]
  simp only [Text.trimChars_rdropWhile]
  simp [Formula.addComment, remark, Text.trim]

theorem readLine_heading {n : Nat} (hn : n < wordCount) {line : List Char} (h : Heading n line) :
    r.readLine k line =
      .ok { r with formula := { r.formula with variableCount := n }, header := true } := by
  obtain ⟨size, hline⟩ := h
  obtain ⟨behind, htrim⟩ := Text.trimChars_of_spread hline
  have hfields : Text.fieldsOf ('p' :: behind) =
      [['p'], ['c', 'n', 'f'], (toString n).toList, size] := by
    rw [← htrim, Text.fieldsOf_trimChars, Text.fieldsOf_of_spread hline]
  have hcount : Numeral.parseNat (String.ofList (toString n).toList) = .ok n := by
    rw [String.ofList_toList, Nat.toString_eq_repr, Numeral.parseNat_repr hn]
  rw [readLine, htrim]
  show r.readHeader ('p' :: behind) = _
  rw [readHeader, hfields]
  simp only [hcount]
  rw [if_neg (by decide)]

/-! ## All lines -/

/-- Lines are read as the numbers and the comments they hold: the open clause is carried over line
breaks and comments. -/
theorem readLines_body {ws : List Word} {comments : List String} {lines : List (List Char)}
    (hlines : Body ws comments lines) (hheader : r.header = true ∨ ws = [])
    (h : ∀ w ∈ ws, magnitudeOf w ≤ r.formula.variableCount) :
    r.readLines k lines = .ok ((ws.foldl take r).remark comments) := by
  induction hlines generalizing k r with
  | done =>
    rw [readLines, List.foldl_nil, remark_nil]
  | @numbers here later comments line lines hline _ ih =>
    rw [List.forall_mem_append] at h
    have hhere : r.header = true ∨ here = [] :=
      hheader.imp_right fun e => (List.append_eq_nil_iff.mp e).1
    have hlater : r.header = true ∨ later = [] :=
      hheader.imp_right fun e => (List.append_eq_nil_iff.mp e).2
    rw [readLines, readLine_numbers hhere hline h.1]
    dsimp only
    rw [ih (by rwa [foldl_take_header]) (by rw [foldl_take_count]; exact h.2), List.foldl_append]
  | @comment ws comments margin text lines hmargin _ _ ih =>
    rw [readLines, readLine_remark hmargin]
    dsimp only
    rw [ih (by exact hheader) (by exact h), foldl_take_remark, remark_remark, List.singleton_append]

end Reading

theorem linesOf_layout {n : Nat} {ws : List Word} {first later : List String}
    {above below : List (List Char)} {heading : List Char} {text : String}
    (habove : Body [] first above) (hheading : Heading n heading) (hbelow : Body ws later below)
    (htext : text.toList = ['\n'].intercalate (above ++ heading :: below)) :
    Text.linesOf text.toList = above ++ heading :: below := by
  rw [htext]
  apply Text.linesOf_intercalate
  · simp
  · intro line hline
    rcases List.mem_append.mp hline with hline | hline
    · exact habove.newline_not_mem line hline
    · rcases List.mem_cons.mp hline with rfl | hline
      · obtain ⟨size, hspread⟩ := hheading
        exact hspread.newline_not_mem
      · exact hbelow.newline_not_mem line hline

/-- A layout is read as its numbers and its comments. -/
theorem readLines_layout {n : Nat} (hn : n < wordCount) {ws : List Word} {comments : List String}
    {text : String} (hlayout : Layout n ws comments text)
    (h : ∀ w ∈ ws, Reading.magnitudeOf w ≤ n) :
    Reading.readLines 1 {} (Text.linesOf text.toList) =
      .ok ((ws.foldl Reading.take { formula := { variableCount := n }, header := true }).remark
        comments) := by
  obtain ⟨above, heading, below, first, later, habove, hheading, hbelow, rfl, htext⟩ := hlayout
  have hlines := linesOf_layout habove hheading hbelow htext
  rw [hlines, Reading.readLines_append, Reading.readLines_body habove (.inr rfl) (by simp)]
  show Reading.readLines _ _ (heading :: below) = _
  rw [Reading.readLines, Reading.readLine_heading hn hheading]
  dsimp only
  rw [Reading.readLines_body hbelow (.inl rfl) h]
  -- the comments above the header come before those below
  rw [← Reading.remark_remark, ← Reading.foldl_take_remark ws _ first]
  rfl

/-! ## What is written out -/

theorem isField_p : IsField ['p'] := ⟨by simp, by simp [Text.isBlank]⟩

theorem isField_cnf : IsField ['c', 'n', 'f'] := ⟨by simp, by simp [Text.isBlank]⟩

theorem isField_toString (n : Nat) : IsField (toString n).toList := by
  rw [Nat.toString_eq_repr, Nat.toList_repr]
  exact ⟨Nat.toDigits_ne_nil, fun _ => Reading.isBlank_of_mem_toDigits⟩

theorem spread_clause (c : Clause) :
    Spread ((c.map Literal.word ++ [0]).map fun w : Word => w.text.toList)
      (Line.clause none c).chars := by
  have hzero : (0 : Word).text.toList = ['0'] := by decide
  show Spread _ ((c.flatMap fun l => l.number.toList ++ [' ']) ++ ['0'])
  induction c with
  | nil => exact hzero ▸ Spread.last (Reading.isField_text 0) Text.gap_nil
  | cons l rest ih =>
    have hword := (Reading.isField_text l.word).space ih
    simpa [Literal.number] using hword

theorem body_clauses (cs : List Clause) :
    Body (numbers cs) [] ((cs.map (Line.clause none)).map Line.chars ++ [[]]) := by
  induction cs with
  | nil => exact Body.blank Text.gap_nil .done
  | cons c rest ih => exact .numbers (spread_clause c) ih

theorem layout_render (f : Formula) :
    Layout f.variableCount (numbers f.clauses.toList) [] (render f) := by
  have hheading : Heading f.variableCount
      (Reading.headerChars f.variableCount f.clauses.size) := by
    refine ⟨(toString f.clauses.size).toList, ?_⟩
    have hspread := isField_p.space (isField_cnf.space
      ((isField_toString f.variableCount).space
        (.last (isField_toString f.clauses.size) Text.gap_nil)))
    simpa [Reading.headerChars, Nat.toString_eq_repr] using hspread
  refine ⟨[], _, _, [], [], .done, hheading, body_clauses f.clauses.toList, rfl, ?_⟩
  rw [List.nil_append, ← linesOf_render, Text.intercalate_linesOf]

/-! ## Reading back -/

theorem magnitude_le_of_allocated {n : Nat} {c : Clause} (h : c.Allocated n) :
    ∀ w ∈ c.map Literal.word, Reading.magnitudeOf w ≤ n := by
  intro w hw
  obtain ⟨l, hl, rfl⟩ := List.mem_map.mp hw
  rw [Literal.magnitudeOf_word]
  exact (h l hl).2

theorem magnitude_le_of_mem_numbers {n : Nat} {cs : List Clause}
    (h : ∀ c ∈ cs, c.Allocated n) : ∀ w ∈ numbers cs, Reading.magnitudeOf w ≤ n := by
  intro w hw
  obtain ⟨c, hc, hw⟩ := List.mem_flatMap.mp hw
  rcases List.mem_append.mp hw with hw | hw
  · exact magnitude_le_of_allocated (h c hc) w hw
  · rw [List.mem_singleton.mp hw]
    exact Nat.zero_le n

theorem word_ne_zero_of_allocated {n : Nat} {c : Clause} (h : c.Allocated n) :
    ∀ l ∈ c, l.word ≠ 0 := fun l hl => Reading.var_pos_iff.mp (h l hl).1

/-- Every text that lays out the numbers of a formula behind a header is read as the formula, with
the comments of the text; what is written out is such a text. Where the last clause is not closed,
the text is refused. A line that is too long is refused in either case. -/
theorem layout_reads_back {f : Formula} (hword : f.variableCount < wordCount)
    (hf : ∀ c ∈ f.clauses, c.Allocated f.variableCount) :
    (∀ comments text, Layout f.variableCount (numbers f.clauses.toList) comments text →
      read text =
        if ∀ line ∈ Text.linesOf text.toList, Fits line then
          .ok { f with comments := comments.toArray }
        else .error .lineTooLong) ∧
    Layout f.variableCount (numbers f.clauses.toList) [] (render f) ∧
    (∀ (c : Clause) comments text, c ≠ [] → c.Allocated f.variableCount →
      Layout f.variableCount (numbers f.clauses.toList ++ c.map Literal.word) comments text →
      read text =
        if ∀ line ∈ Text.linesOf text.toList, Fits line then .error .unterminatedClause
        else .error .lineTooLong) ∧
    (Fault.dimacs .unterminatedClause).kind = .invalidDimacs := by
  have hf : ∀ c ∈ f.clauses.toList, c.Allocated f.variableCount := by
    intro c hc
    exact hf c (Array.mem_toList_iff.mp hc)
  have hnonzero : ∀ c ∈ f.clauses.toList, ∀ l ∈ c, l.word ≠ 0 := by
    intro c hc
    exact word_ne_zero_of_allocated (hf c hc)
  have hmagnitude := magnitude_le_of_mem_numbers hf
  -- what has been read when all closed clauses are in
  have hclauses : (numbers f.clauses.toList).foldl Reading.take
      { formula := { variableCount := f.variableCount }, header := true } =
      { formula := { f with comments := #[] }, header := true } := by
    rw [Reading.foldl_take_numbers hnonzero rfl]
    simp
  refine ⟨?_, layout_render f, ?_, rfl⟩
  · intro comments text hlayout
    rw [read_of_readLines (readLines_layout hword hlayout hmagnitude), hclauses]
    simp [Reading.remark, Reading.close]
  · intro c comments text hc hallocated hlayout
    have hall : ∀ w ∈ numbers f.clauses.toList ++ c.map Literal.word,
        Reading.magnitudeOf w ≤ f.variableCount :=
      List.forall_mem_append.mpr ⟨hmagnitude, magnitude_le_of_allocated hallocated⟩
    rw [read_of_readLines (readLines_layout hword hlayout hall), List.foldl_append, hclauses,
      Reading.foldl_take_literals (word_ne_zero_of_allocated hallocated)]
    simp [Reading.remark, Reading.close, hc]

/-- A clause over two lines with a comment inside it, and one whose zero stands alone. -/
theorem broken_lines_read_back :
    read "c  by hand \n\np cnf 3 many \t\n1 -2\n c  half way\n\t3 0 -1\n\n0" =
      .ok { variableCount := 3, clauses := #[[⟨1⟩, ⟨-2⟩, ⟨3⟩], [⟨-1⟩]],
            comments := #["by hand", "half way"] } := by
  have hfirst : Text.trim (String.ofList "  by hand ".toList) = "by hand" := by decide
  have hlater : Text.trim (String.ofList "  half way".toList) = "half way" := by decide
  have habove : Body [] ["by hand"] [[] ++ 'c' :: "  by hand ".toList, []] := by
    rw [← hfirst]
    exact .comment Text.gap_nil (by decide) (.blank Text.gap_nil .done)
  have hbelow : Body ([1, -2] ++ ([3, 0, -1] ++ ([0] ++ []))) ["half way"]
      ["1 -2".toList, [' '] ++ 'c' :: "  half way".toList, "\t3 0 -1".toList, [], ['0']] := by
    rw [← hlater]
    have hmargin : Gap [' '] := by simp [Gap, Text.isBlank]
    exact .numbers (by decide) (.comment hmargin (by decide)
      (.numbers (by decide) (.blank Text.gap_nil (.numbers (by decide) .done))))
  have hheading : Heading 3 "p cnf 3 many \t".toList := ⟨"many".toList, by decide⟩
  have hlayout : Layout 3 (numbers [[⟨1⟩, ⟨-2⟩, ⟨3⟩], [⟨-1⟩]]) ["by hand", "half way"]
      "c  by hand \n\np cnf 3 many \t\n1 -2\n c  half way\n\t3 0 -1\n\n0" :=
    ⟨_, _, _, _, _, habove, hheading, hbelow, rfl, by decide⟩
  have hread := (layout_reads_back
    (f := { variableCount := 3, clauses := #[[⟨1⟩, ⟨-2⟩, ⟨3⟩], [⟨-1⟩]] }) (by decide)
    (by decide)).1 _ _ hlayout
  exact hread.trans (if_pos (by decide))

theorem lineSize_blanks (n : Nat) : lineSize (List.replicate n ' ') = n := by
  have hsize : Char.utf8Size ' ' = 1 := by decide
  have hfrom : ∀ size, (List.replicate n ' ').foldl (fun size c => size + c.utf8Size) size =
      size + n := by
    induction n with
    | zero => simp
    | succ n ih =>
      intro size
      rw [List.replicate_succ, List.foldl_cons, ih, hsize]
      omega
  rw [lineSize, hfrom, Nat.zero_add]

/-- A layout with a blank line of as many bytes as the limit is refused, though its numbers are
those of a formula. -/
theorem overlong_layout_refused :
    ∃ text, Layout 1 (numbers [[⟨1⟩]]) [] text ∧ read text = .error .lineTooLong ∧
      (Fault.dimacs .lineTooLong).kind = .other := by
  have hblank : Gap (List.replicate lineLimit ' ') := by
    intro c hc
    rw [List.eq_of_mem_replicate hc]
    decide
  have hlong : ¬ Fits (List.replicate lineLimit ' ') := by
    rw [Fits, lineSize_blanks]
    exact Nat.lt_irrefl lineLimit
  have hheading : Heading 1 "p cnf 1 1".toList := ⟨['1'], by decide⟩
  have hbelow : Body ([1, 0] ++ []) [] [List.replicate lineLimit ' ', "1 0".toList] :=
    .blank hblank (.numbers (by decide) .done)
  obtain ⟨text, htext⟩ : ∃ text : String, text.toList =
      ['\n'].intercalate
        ([] ++ "p cnf 1 1".toList :: [List.replicate lineLimit ' ', "1 0".toList]) :=
    ⟨String.ofList _, String.toList_ofList⟩
  have hlayout : Layout 1 (numbers [[⟨1⟩]]) [] text :=
    ⟨_, _, _, _, _, .done, hheading, hbelow, rfl, htext⟩
  have hlines := linesOf_layout .done hheading hbelow htext
  have hmagnitude : ∀ w ∈ numbers [[⟨1⟩]], Reading.magnitudeOf w ≤ 1 :=
    magnitude_le_of_mem_numbers (by decide)
  refine ⟨text, hlayout, ?_, rfl⟩
  rw [read_of_readLines (readLines_layout (by decide) hlayout hmagnitude), if_neg]
  intro hfits
  apply hlong
  apply hfits
  simp [hlines]

end Clausify.Dimacs
