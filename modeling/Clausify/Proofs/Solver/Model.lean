import Mathlib
import Clausify.Proofs.Number.Denotation
import Clausify.Proofs.Text.Spread
import Clausify.Solver.Registry

/-!
Reading models from any layout. A model is a list of literals with a zero behind it, written as
numerals among white space (`Laid`). A program that prints its model spreads it over lines that
start with `v`, with other lines between them (`Printed`); a program that writes it to a file puts
it below a line with its verdict (`Report`). Both readers take numbers field by field and do not
see where lines end, but one drops every zero and the other stops at the first. Main statement:
both read every layout of a model as that model, also the empty one, whatever follows the zero in a
file; and a file without the zero is refused (`model_layouts_read_back`).
-/

namespace Clausify.Solver

open Text (Gap IsField Spread isBlank fieldsOf linesOf runsFrom)

/-! ## Layouts -/

/-- Numerals of some words in order. Behind a numeral the text ends or white space follows, which
may hold line breaks. -/
inductive Laid : List Word → List Char → Prop where
  | blank {gap : List Char} (h : ∀ c ∈ gap, isBlank c = true) : Laid [] gap
  | number {w : Word} {ws : List Word} {gap numeral cs : List Char}
      (hgap : ∀ c ∈ gap, isBlank c = true) (hnumeral : Numeral.Denotes numeral w.toInt)
      (hend : ∀ c ∈ cs.head?, isBlank c = true) (h : Laid ws cs) :
      Laid (w :: ws) (gap ++ (numeral ++ cs))

/-- Lines of a program that prints numbers: they stand on the lines that start with `v`. -/
inductive Printed : List Word → List (List Char) → Prop where
  | done : Printed [] []
  | model {here later : List Word} {text : List Char} {lines : List (List Char)}
      (hline : '\n' ∉ text) (htext : Laid here text) (h : Printed later lines) :
      Printed (here ++ later) (('v' :: text) :: lines)
  | other {ws : List Word} {line : List Char} {lines : List (List Char)} (hline : '\n' ∉ line)
      (hstart : line.head? ≠ some 'v') (h : Printed ws lines) : Printed ws (line :: lines)

/-- A file whose first line that is not blank holds a verdict and nothing else; `body` starts with
the line break behind it. -/
def Report (verdict : String) (body : List Char) (output : String) : Prop :=
  ∃ above line, (∀ l ∈ above, Spread [] l) ∧ Spread [verdict.toList] line ∧
    (∀ c ∈ body.head?, c = '\n') ∧ output.toList = ['\n'].intercalate (above ++ [line]) ++ body

variable {ws : List Word} {cs : List Char} {fields : List (List Char)}

theorem Printed.newline_not_mem {lines : List (List Char)} (h : Printed ws lines) :
    ∀ line ∈ lines, '\n' ∉ line := by
  induction h with
  | done => exact List.forall_mem_nil _
  | model hline htext h ih =>
    apply List.forall_mem_cons.mpr ⟨_, ih⟩
    simpa using hline
  | other hline hstart h ih => exact List.forall_mem_cons.mpr ⟨hline, ih⟩

/-! ## Fields -/

/-- Numerals of some words, one for each. -/
def Numerals (fields : List (List Char)) (ws : List Word) : Prop :=
  List.Forall₂ (fun field w => Numeral.Denotes field w.toInt) fields ws

theorem isField_of_denotes {numeral : List Char} {n : Int} (h : Numeral.Denotes numeral n) :
    IsField numeral := by
  have hdigits : ∀ {ds : List Char}, Numeral.IsDigits ds → ∀ c ∈ ds, isBlank c = false :=
    fun hds c hc => Text.isBlank_of_isDigit (hds.digits c hc)
  cases h with
  | unsigned hds => exact ⟨hds.ne_nil, hdigits hds⟩
  | plus hds => exact ⟨by simp, List.forall_mem_cons.mpr ⟨by decide, hdigits hds⟩⟩
  | minus hds => exact ⟨by simp, List.forall_mem_cons.mpr ⟨by decide, hdigits hds⟩⟩

theorem Laid.numerals (h : Laid ws cs) : Numerals (fieldsOf cs) ws := by
  induction h with
  | @blank gap hgap =>
    rw [← List.append_nil gap, Text.fieldsOf_append_left hgap]
    exact .nil
  | number hgap hnumeral hend h ih =>
    rw [Text.fieldsOf_append_left hgap, Text.fieldsOf_word (isField_of_denotes hnumeral) hend]
    exact .cons hnumeral ih

theorem Laid.cons_blank {c : Char} (hc : isBlank c = true) (h : Laid ws cs) :
    Laid ws (c :: cs) := by
  cases h with
  | blank hgap => exact .blank (List.forall_mem_cons.mpr ⟨hc, hgap⟩)
  | number hgap hnumeral hend h =>
    exact .number (List.forall_mem_cons.mpr ⟨hc, hgap⟩) hnumeral hend h

/-- A text whose runs of non-blanks are numerals is a layout, the open run put before it. -/
theorem laid_of_runsFrom {run : List Char}
    (h : Numerals (runsFrom (fun c => !isBlank c) run cs) ws) : Laid ws (run.reverse ++ cs) := by
  induction cs generalizing run ws with
  | nil =>
    rw [runsFrom] at h
    by_cases hrun : run = []
    · rw [if_pos (by simp [hrun])] at h
      cases h
      exact .blank (by simp [hrun])
    · rw [if_neg (by simp [hrun])] at h
      cases h with
      | cons hnumeral h =>
        cases h
        exact @Laid.number _ _ [] _ _ (by simp) hnumeral (by simp) (.blank (by simp))
  | cons c cs ih =>
    rw [runsFrom] at h
    cases hc : isBlank c with
    | false =>
      -- the run goes on
      have hlonger : Laid ws ((c :: run).reverse ++ cs) := ih (by simpa [hc] using h)
      simpa using hlonger
    | true =>
      rw [if_neg (by simp [hc])] at h
      by_cases hrun : run = []
      · rw [if_pos (by simp [hrun])] at h
        rw [hrun]
        exact (ih h).cons_blank hc
      · rw [if_neg (by simp [hrun])] at h
        cases h with
        | cons hnumeral h =>
          apply @Laid.number _ _ [] _ _ (by simp) hnumeral _ ((ih h).cons_blank hc)
          rintro b ⟨⟩
          exact hc

theorem laid_iff : Laid ws cs ↔
    (fieldsOf cs).map (fun field => (Numeral.parseWord (String.ofList field)).toOption) =
      ws.map some := by
  have hfield : ∀ (field : List Char) (w : Word),
      (Numeral.parseWord (String.ofList field)).toOption = some w ↔
        Numeral.Denotes field w.toInt := by
    intro field w
    have hread := @Numeral.parseWord_eq_ok_iff (String.ofList field) w
    rw [String.toList_ofList] at hread
    rw [← hread]
    cases Numeral.parseWord (String.ofList field) with
    | error fault => simp [Except.toOption]
    | ok w' => simp [Except.toOption]
  have hnumerals : Numerals (fieldsOf cs) ws ↔
      (fieldsOf cs).map (fun field => (Numeral.parseWord (String.ofList field)).toOption) =
        ws.map some := by
    rw [← List.forall₂_eq_eq_eq, List.forall₂_map_left_iff, List.forall₂_map_right_iff]
    simp only [hfield]
    rfl
  rw [← hnumerals]
  exact ⟨Laid.numerals, fun h => laid_of_runsFrom h⟩

instance (ws : List Word) (cs : List Char) : Decidable (Laid ws cs) :=
  decidable_of_iff _ laid_iff.symm

/-! ## Readers -/

theorem literalsOf_numerals (h : Numerals fields ws) :
    literalsOf (fields.map String.ofList) = .ok ws := by
  induction h with
  | nil => rfl
  | cons hfield h ih =>
    rw [List.map_cons, literalsOf, Numeral.parseWord_eq_ok_iff.mpr (by simpa using hfield), ih]
    rfl

/-- Numbers other than zero are read one by one, and reading goes on behind them. -/
theorem modelFields_append (name : String) (h : Numerals fields ws) (hws : 0 ∉ ws)
    (more : List String) :
    modelFields name (fields.map String.ofList ++ more) =
      (modelFields name more).map (ws ++ ·) := by
  induction h with
  | nil => cases hmore : modelFields name more <;> simp [hmore, Except.map]
  | @cons field w fields ws hfield h ih =>
    rw [List.mem_cons, not_or] at hws
    rw [List.map_cons, List.cons_append, modelFields,
      Numeral.parseWord_eq_ok_iff.mpr (by simpa using hfield)]
    dsimp only
    rw [if_neg (Ne.symm hws.1), ih hws.2]
    cases modelFields name more <;> rfl

theorem modelFields_open (name : String) (h : Numerals fields ws) (hws : 0 ∉ ws) :
    modelFields name (fields.map String.ofList) = .error (.unterminatedModel name) := by
  have happend := modelFields_append name h hws []
  rwa [List.append_nil] at happend

theorem modelFields_closed (name : String) (h : Numerals fields (ws ++ [0])) (hws : 0 ∉ ws)
    (more : List String) : modelFields name (fields.map String.ofList ++ more) = .ok ws := by
  have hfront : Numerals (fields.take ws.length) ws := List.forall₂_take_append _ _ _ h
  have hback : Numerals (fields.drop ws.length) [0] := List.forall₂_drop_append _ _ _ h
  obtain ⟨zero, rest, hzero, hrest, hdrop⟩ := List.forall₂_cons_right_iff.mp hback
  cases hrest
  have hread : Numeral.parseWord (String.ofList zero) = .ok 0 :=
    Numeral.parseWord_eq_ok_iff.mpr (by simpa using hzero)
  have hstop : modelFields name (String.ofList zero :: more) = .ok [] := by
    rw [modelFields, hread]
    rfl
  rw [← List.take_append_drop ws.length fields, hdrop, List.map_append, List.append_assoc,
    modelFields_append name hfront hws]
  show (modelFields name (String.ofList zero :: more)).map (ws ++ ·) = .ok ws
  rw [hstop, Except.map, List.append_nil]

/-! ## Printed models -/

/-- The lines that start with `v` hold the numbers. What picks them is left open. -/
theorem Printed.numerals {lines : List (List Char)} (h : Printed ws lines)
    {pick : List Char → Option (List Char)} (hv : ∀ text, pick ('v' :: text) = some text)
    (hother : ∀ line, line.head? ≠ some 'v' → pick line = none) :
    Numerals ((lines.filterMap pick).flatMap fieldsOf) ws := by
  induction h with
  | done => exact .nil
  | model hline htext h ih =>
    rw [List.filterMap_cons_some (hv _), List.flatMap_cons]
    exact List.rel_append htext.numerals ih
  | other hline hstart h ih =>
    rw [List.filterMap_cons_none (hother _ hstart)]
    exact ih

theorem printedModel_printed {lines : List (List Char)} {output : String} (h : Printed ws lines)
    (hne : ws ≠ []) (houtput : output.toList = ['\n'].intercalate lines) :
    printedModel output = .ok (some (ws.filter (· ≠ 0))) := by
  have hlines : lines ≠ [] := by
    rintro rfl
    cases h
    exact hne rfl
  unfold printedModel
  rw [houtput, Text.linesOf_intercalate hlines h.newline_not_mem]
  dsimp only
  -- all that is needed of the choice of lines is what it does to a leading `v`
  generalize hpick : (fun line : List Char => _) = pick
  have hother : ∀ line : List Char, line.head? ≠ some 'v' → pick line = none := by
    intro line hstart
    rw [← hpick]
    dsimp only
    split
    · exact absurd rfl hstart
    · rfl
  have hv : ∀ text : List Char, pick ('v' :: text) = some text := by
    intro text
    rw [← hpick]
    rfl
  have hnumerals := h.numerals hv hother
  have hsome : (lines.filterMap pick).isEmpty = false := by
    apply List.isEmpty_eq_false_iff.mpr
    intro hempty
    rw [hempty] at hnumerals
    cases hnumerals
    exact hne rfl
  rw [if_neg (by simp [hsome]), literalsOf_numerals hnumerals]

/-! ## Model files -/

theorem flatMap_fieldsOf_filter (lines : List (List Char)) :
    (lines.filter fun line => !(Text.trimChars line).isEmpty).flatMap fieldsOf =
      lines.flatMap fieldsOf := by
  induction lines with
  | nil => rfl
  | cons line lines ih =>
    rw [List.filter_cons, List.flatMap_cons]
    cases hline : (Text.trimChars line).isEmpty with
    | false => simpa [hline] using ih
    | true =>
      have hnone : fieldsOf line = [] := by
        rw [← Text.fieldsOf_trimChars, List.isEmpty_iff.mp hline]
        rfl
      simpa [hline, hnone] using ih

theorem Report.lines {verdict output : String} {body : List Char} (h : Report verdict body output) :
    ∃ status below, Text.trimChars status = verdict.toList ∧
      ((linesOf output.toList).filter fun line => !(Text.trimChars line).isEmpty) =
        status :: below ∧
      below.flatMap fieldsOf = fieldsOf body := by
  obtain ⟨above, line, habove, hline, hbody, houtput⟩ := h
  have htrim := Text.trimChars_of_spread_singleton hline
  have hverdict : verdict.toList ≠ [] := by
    cases hline with
    | word hmargin hword hend h => exact hword.ne_nil
  have hsolid : ∀ l ∈ above ++ [line], '\n' ∉ l := by
    intro l hl
    rcases List.mem_append.mp hl with hl | hl
    · exact (habove l hl).newline_not_mem
    · rw [List.mem_singleton.mp hl]
      exact hline.newline_not_mem
  have hhead := Text.linesOf_intercalate (by simp) hsolid
  have hfilter : ((above ++ [line]).filter fun line => !(Text.trimChars line).isEmpty) =
      [line] := by
    -- the lines above the verdict are blank
    have hblank : (above.filter fun line => !(Text.trimChars line).isEmpty) = [] := by
      apply List.filter_eq_nil_iff.mpr
      intro l hl
      simp [Text.trimChars_of_spread_nil (habove l hl)]
    rw [List.filter_append, hblank, List.nil_append]
    simp [htrim, hverdict]
  rw [houtput]
  cases body with
  | nil =>
    rw [List.append_nil, hhead]
    exact ⟨line, [], htrim, hfilter, rfl⟩
  | cons c body =>
    -- what follows the verdict starts on a new line
    obtain rfl : c = '\n' := hbody c rfl
    rw [Text.linesOf_append_newline, hhead, List.filter_append, hfilter, List.singleton_append]
    refine ⟨line, _, htrim, rfl, ?_⟩
    rw [flatMap_fieldsOf_filter, Text.flatMap_fieldsOf_linesOf,
      Text.fieldsOf_cons_blank (by decide)]

theorem writtenModel_unsat {output : String} {body : List Char} (name : String)
    (h : Report "UNSAT" body output) : writtenModel name output = .ok none := by
  obtain ⟨status, below, hstatus, hlines, -⟩ := h.lines
  rw [writtenModel, hlines]
  dsimp only
  rw [hstatus, String.ofList_toList, if_pos rfl]

theorem writtenModel_sat {output : String} {body : List Char} (name : String)
    (h : Report "SAT" body output) :
    writtenModel name output =
      (modelFields name ((fieldsOf body).map String.ofList)).map some := by
  obtain ⟨status, below, hstatus, hlines, hbelow⟩ := h.lines
  rw [writtenModel, hlines]
  dsimp only
  rw [hstatus, String.ofList_toList, if_neg (by decide), if_neg (by decide), hbelow]

/-- Models are read back from every layout. Literals and a zero that are printed on lines with a `v`
are read as the literals, whatever other lines stand between them; so are those in a file that says
`SAT`, whatever follows the zero. A file that says `SAT` and ends before the zero is refused. The
answer of a file that says `UNSAT` is another one than that of the empty model. -/
theorem model_layouts_read_back {literals : List Word} (hliterals : 0 ∉ literals) (name : String) :
    (∀ lines output, Printed (literals ++ [0]) lines →
      output.toList = ['\n'].intercalate lines → printedModel output = .ok (some literals)) ∧
    (∀ cs rest output, Laid (literals ++ [0]) cs → (∀ c ∈ rest.head?, isBlank c = true) →
      Report "SAT" (cs ++ rest) output → writtenModel name output = .ok (some literals)) ∧
    (∀ cs output, Laid literals cs → Report "SAT" cs output →
      writtenModel name output = .error (.unterminatedModel name)) ∧
    ∀ body output, Report "UNSAT" body output → writtenModel name output = .ok none := by
  refine ⟨?_, ?_, ?_, fun body output h => writtenModel_unsat name h⟩
  · intro lines output hprinted houtput
    have hkept : (literals ++ [0]).filter (· ≠ 0) = literals := by
      rw [List.filter_append, List.filter_eq_self.mpr]
      · simp
      · intro w hw
        exact decide_eq_true fun hzero => hliterals (hzero ▸ hw)
    rw [printedModel_printed hprinted (by simp) houtput, hkept]
  · intro cs rest output hlaid hrest hreport
    rw [writtenModel_sat name hreport, Text.fieldsOf_append cs hrest, List.map_append,
      modelFields_closed name hlaid.numerals hliterals]
    rfl
  · intro cs output hlaid hreport
    rw [writtenModel_sat name hreport, modelFields_open name hlaid.numerals hliterals]
    rfl

/-- A model over several lines and the empty model, printed and in a file; text behind the zero and
numerals that are not the shortest; a file that is cut off, and one without a model. -/
theorem scattered_models_read :
    printedModel "c seen\nv 1\t-2\ns SATISFIABLE\nv  +03\nv0\n" = .ok (some [1, -2, 3]) ∧
    writtenModel "minisat" " \n\tSAT\r\n1\t-2\n\n+03 -0\nend 4" = .ok (some [1, -2, 3]) ∧
    writtenModel "minisat" "SAT\n1 -2\n3" = .error (.unterminatedModel "minisat") ∧
    printedModel "v 0" = .ok (some []) ∧ writtenModel "minisat" "SAT\n0" = .ok (some []) ∧
    writtenModel "minisat" "SAT" = .error (.unterminatedModel "minisat") ∧
    writtenModel "minisat" "UNSAT\n0" = .ok none := by
  obtain ⟨hprinted, hfile, hcut, -⟩ :=
    @model_layouts_read_back [1, -2, 3] (by decide) "minisat"
  obtain ⟨hprinted', hfile', hcut', hunsat⟩ := @model_layouts_read_back [] (by decide) "minisat"
  refine ⟨?_, ?_, ?_, ?_, ?_, ?_, ?_⟩
  · apply hprinted ["c seen".toList, "v 1\t-2".toList, "s SATISFIABLE".toList, "v  +03".toList,
      "v0".toList, []] _ _ (by decide)
    apply Printed.other (by decide) (by decide)
    apply @Printed.model [1, -2] [3, 0] " 1\t-2".toList _ (by decide) (by decide)
    apply Printed.other (by decide) (by decide)
    apply @Printed.model [3] [0] "  +03".toList _ (by decide) (by decide)
    apply @Printed.model [0] [] "0".toList _ (by decide) (by decide)
    exact .other (by decide) (by decide) .done
  · apply hfile "\n1\t-2\n\n+03 -0".toList "\nend 4".toList _ (by decide) (by rintro c ⟨⟩; decide)
    exact ⟨[[' ']], "\tSAT\r".toList, by decide, by decide, by simp, by decide⟩
  · apply hcut "\n1 -2\n3".toList _ (by decide)
    exact ⟨[], "SAT".toList, by decide, by decide, by simp, by decide⟩
  · apply hprinted' ["v 0".toList] _ _ (by decide)
    exact @Printed.model [0] [] " 0".toList _ (by decide) (by decide) .done
  · apply hfile' "\n0".toList [] _ (by decide) (by simp)
    exact ⟨[], "SAT".toList, by decide, by decide, by simp, by decide⟩
  · apply hcut' [] _ (by decide)
    exact ⟨[], "SAT".toList, by decide, by decide, by simp, by decide⟩
  · apply hunsat "\n0".toList
    exact ⟨[], "UNSAT".toList, by decide, by decide, by simp, by decide⟩

end Clausify.Solver
