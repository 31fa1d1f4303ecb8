import Mathlib
import Clausify.Proofs.Clause.Dimacs

/-!
What an accepted document guarantees. A literal is held against the number of variables declared by
the header before it, and headers may follow at any place: each declares anew. So the variables of
the formula are those of the last header, while its literals are only below the largest number that
some header declares (`Reading.Checked`, kept by every line). A document whose last header declares
less than an earlier one can be accepted with a literal that its formula does not have
(`lowered_header_accepted`). Main statement: written out again, the formula is accepted exactly when
all its literals have declared variables and no line is too long, and then it is read as it was
(`accepted_within_declarations`).
-/

namespace Clausify.Dimacs

/-! ## Declarations -/

/-- The number of variables that a line declares, if it is a header. -/
def declared? (line : List Char) : Option Nat :=
  match Text.trimChars line with
  | 'p' :: rest =>
    match Text.fieldsOf ('p' :: rest) with
    | _ :: _ :: count :: _ => (Numeral.parseNat (String.ofList count)).toOption
    | _ => none
  | _ => none

/-- The numbers of variables that the headers of a text declare, in order. -/
def declarations (text : String) : List Nat := (Text.linesOf text.toList).filterMap declared?

namespace Reading

variable {k : Nat} {r r' : Reading} {ns : List Nat}

theorem readHeader_cases {rest : List Char} (h : r.readHeader ('p' :: rest) = .ok r') :
    ∃ first format count fields n,
      Text.fieldsOf ('p' :: rest) = first :: format :: count :: fields ∧
      Numeral.parseNat (String.ofList count) = .ok n ∧
      r' = { r with formula := { r.formula with variableCount := n }, header := true } := by
  unfold readHeader at h
  split at h
  · next first format count last fields hfields =>
    split_ifs at h
    split at h
    · simp at h
    · next n hn => exact ⟨first, format, count, _, n, hfields, hn, (Except.ok.inj h).symm⟩
  · simp at h

theorem readLine_cases {line : List Char} (h : r.readLine k line = .ok r') :
    (declared? line = none ∧
      ∃ comments, r' = { r with formula := { r.formula with comments := comments } }) ∨
    (∃ n, n < wordCount ∧ declared? line = some n ∧
      r' = { r with formula := { r.formula with variableCount := n }, header := true }) ∨
    (declared? line = none ∧
      ∃ fields : List (List Char), fields.foldlM (readLiteral k) r = .ok r') := by
  unfold readLine at h
  unfold declared?
  split at h
  · next htrim =>
    rw [htrim]
    exact .inl ⟨rfl, r.formula.comments, (Except.ok.inj h).symm⟩
  · next rest htrim =>
    rw [htrim]
    exact .inl ⟨rfl, _, (Except.ok.inj h).symm⟩
  · next rest htrim =>
    obtain ⟨first, format, count, fields, n, hfields, hn, hr'⟩ := readHeader_cases h
    refine .inr (.inl ⟨n, Numeral.parseNat_lt hn, ?_, hr'⟩)
    simp only [htrim, hfields, hn]
    rfl
  · next hblank hcomment hheader =>
    -- without a header, literals are refused
    split_ifs at h
    refine .inr (.inr ⟨?_, _, h⟩)
    split
    · next rest htrim => exact absurd htrim (hheader rest)
    · rfl

/-! ## What is kept while lines are read -/

/-- The numbers `ns` were declared so far: the last of them counts, and the literals that were read
are within every bound of all of them. -/
structure Checked (ns : List Nat) (r : Reading) : Prop where
  count : r.formula.variableCount = ns.getLast?.getD 0
  word : r.formula.variableCount < wordCount
  clauses : ∀ m, (∀ n ∈ ns, n ≤ m) → ∀ c ∈ r.formula.clauses, c.Allocated m
  pending : ∀ m, (∀ n ∈ ns, n ≤ m) → Clause.Allocated m r.pending

theorem Checked.count_le (h : r.Checked ns) {m : Nat} (hm : ∀ n ∈ ns, n ≤ m) :
    r.formula.variableCount ≤ m := by
  rw [h.count]
  cases hlast : ns.getLast? with
  | none => exact Nat.zero_le m
  | some n => exact hm n (List.mem_of_getLast? hlast)

theorem var_pos_iff {w : Word} : 0 < (Literal.mk w).var ↔ w ≠ 0 := by
  have hzero : (0 : Word).toInt = 0 := by decide
  rw [Literal.var, Int.natAbs_pos, ne_eq, ne_eq, ← Int64.toInt_inj, hzero]

/-- A literal is within what is declared when it is read, and a closed clause is the open one. -/
theorem Checked.readLiteral (h : r.Checked ns) {field : List Char}
    (hread : readLiteral k r field = .ok r') : r'.Checked ns := by
  unfold Reading.readLiteral at hread
  split at hread
  · simp at hread
  · next w hw =>
    split_ifs at hread with hzero hlarge
    · obtain rfl := (Except.ok.inj hread).symm
      -- a zero closes the clause, whose literals were checked as they came
      refine ⟨h.count, h.word, ?_, ?_⟩
      · intro m hm c hc
        rcases Array.mem_push.mp hc with hc | rfl
        · exact h.clauses m hm c hc
        · intro l hl
          exact h.pending m hm l (List.mem_reverse.mp hl)
      · intro m _ l hl
        simp at hl
    · obtain rfl := (Except.ok.inj hread).symm
      refine ⟨h.count, h.word, h.clauses, ?_⟩
      intro m hm l hl
      rcases List.mem_cons.mp hl with rfl | hl
      -- a literal is checked against the last header so far
      · refine ⟨var_pos_iff.mpr hzero, ?_⟩
        calc (Literal.mk w).var = magnitudeOf w := (Literal.magnitudeOf_word ⟨w⟩).symm
          _ ≤ r.formula.variableCount := Nat.not_lt.mp hlarge
          _ ≤ m := h.count_le hm
      · exact h.pending m hm l hl

theorem Checked.readLiterals (h : r.Checked ns) {fields : List (List Char)}
    (hread : fields.foldlM (Reading.readLiteral k) r = .ok r') : r'.Checked ns := by
  induction fields generalizing r with
  | nil =>
    obtain rfl := (Except.ok.inj hread).symm
    exact h
  | cons field rest ih =>
    rw [List.foldlM_cons] at hread
    cases hone : Reading.readLiteral k r field with
    | error fault =>
      rw [hone] at hread
      cases hread
    | ok r₁ =>
      rw [hone] at hread
      exact ih (h.readLiteral hone) hread

/-- Every line keeps what was checked: a header only adds a number that has to be bounded. -/
theorem Checked.readLine (h : r.Checked ns) {line : List Char}
    (hread : r.readLine k line = .ok r') : r'.Checked (ns ++ (declared? line).toList) := by
  rcases readLine_cases hread with ⟨hnone, comments, rfl⟩ | ⟨n, hn, hsome, rfl⟩ |
    ⟨hnone, fields, hfields⟩
  · rw [hnone, Option.toList_none, List.append_nil]
    exact ⟨h.count, h.word, h.clauses, h.pending⟩
  · rw [hsome, Option.toList_some]
    have hbefore : ∀ m, (∀ n' ∈ ns ++ [n], n' ≤ m) → ∀ n' ∈ ns, n' ≤ m := by
      intro m hm n' hn'
      exact hm n' (List.mem_append_left _ hn')
    exact ⟨by simp, hn, fun m hm => h.clauses m (hbefore m hm),
      fun m hm => h.pending m (hbefore m hm)⟩
  · rw [hnone, Option.toList_none, List.append_nil]
    exact h.readLiterals hfields

theorem Checked.readLines (h : r.Checked ns) {lines : List (List Char)}
    (hread : r.readLines k lines = .ok r') : r'.Checked (ns ++ lines.filterMap declared?) := by
  induction lines generalizing k r ns with
  | nil =>
    obtain rfl := (Except.ok.inj hread).symm
    simpa using h
  | cons line rest ih =>
    rw [Reading.readLines] at hread
    cases hone : r.readLine k line with
    | error fault => simp [hone] at hread
    | ok r₁ =>
      rw [hone] at hread
      have hrest := ih (h.readLine hone) hread
      have hsplit : (line :: rest).filterMap declared? =
          (declared? line).toList ++ rest.filterMap declared? := by
        cases hline : declared? line <;> simp [hline]
      rwa [hsplit, ← List.append_assoc]

end Reading

theorem checked_of_parse {text : String} {f : Formula} (h : parse text = .ok f) :
    ∃ r : Reading, r.formula = f ∧ r.Checked (declarations text) := by
  unfold parse at h
  split at h
  · simp at h
  · next r hr =>
    unfold Reading.close at h
    split_ifs at h
    have hstart : ({} : Reading).Checked [] :=
      ⟨rfl, by decide, fun _ _ c hc => by simp at hc, fun _ _ l hl => by simp at hl⟩
    exact ⟨r, Except.ok.inj h, hstart.readLines hr⟩

/-! ## Writing out and reading again -/

/-- The lines of a formula: its header, its clauses and the empty one behind the last break. -/
theorem linesOf_render (f : Formula) :
    Text.linesOf (render f).toList = Reading.headerChars f.variableCount f.clauses.size ::
      ((f.clauses.toList.map (Line.clause none)).map Line.chars ++ [[]]) := by
  have hheader : '\n' ∉ Reading.headerChars f.variableCount f.clauses.size := by
    simp [Reading.headerChars, newline_not_mem_toDigits]
  rw [← linesOf_document hheader]
  have htexts : (f.clauses.toList.map (Line.clause none)).map Line.text =
      f.clauses.toList.map Clause.line := by
    rw [List.map_map]
    apply List.map_congr_left
    intro c _
    simp [Line.text]
  rw [htexts]
  simp [render, Reading.headerChars, String.toList_append, Nat.toString_eq_repr]

theorem foldl_read_clauses (cs : List Clause) (g : Formula) :
    (cs.map (Line.clause none)).foldl Line.read g =
      { g with clauses := g.clauses ++ cs.toArray } := by
  induction cs generalizing g with
  | nil => simp
  | cons c rest ih =>
    rw [List.map_cons, List.foldl_cons, ih]
    simp [Line.read]

/-- A formula whose literals have declared variables is read as it was, without its comments. -/
theorem parse_render {f : Formula} (hword : f.variableCount < wordCount)
    (h : ∀ c ∈ f.clauses, c.Allocated f.variableCount) :
    parse (render f) = .ok { f with comments := #[] } := by
  have hreadable : ∀ l ∈ f.clauses.toList.map (Line.clause none), l.Readable f.variableCount := by
    intro line hline
    obtain ⟨c, hc, rfl⟩ := List.mem_map.mp hline
    refine ⟨rfl, ?_⟩
    intro l hl
    obtain ⟨hpos, hle⟩ := h c (Array.mem_toList_iff.mp hc) l hl
    exact ⟨Reading.var_pos_iff.mp hpos, Literal.magnitudeOf_word l ▸ hle⟩
  have hheader := Reading.readLine_headerChars 1 {} hword f.clauses.size (List.forall_mem_nil _)
  rw [List.append_nil] at hheader
  unfold parse
  rw [linesOf_render, Reading.readLines, hheader]
  dsimp only
  rw [Reading.readLines_lines 2 rfl rfl hreadable, foldl_read_clauses]
  simp [Reading.close]

namespace Reading

variable {k : Nat} {r r' : Reading}

theorem le_of_foldlM_readLiteral {c : Clause} (hc : ∀ l ∈ c, l.word ≠ 0)
    {fields : List (List Char)}
    (h : (c.map (fun l => l.number.toList) ++ fields).foldlM (readLiteral k) r = .ok r') :
    ∀ l ∈ c, l.var ≤ r.formula.variableCount := by
  induction c generalizing r with
  | nil => simp
  | cons l rest ih =>
    rw [List.forall_mem_cons] at hc ⊢
    have hone : readLiteral k r l.number.toList =
        if magnitudeOf l.word > r.formula.variableCount then
          .error (.undeclaredVariable l.word r.formula.variableCount)
        else .ok { r with pending := l :: r.pending } := by
      unfold readLiteral
      rw [String.ofList_toList, Literal.number, Numeral.parseWord_text]
      simp only [hc.1, if_false]
    rw [List.map_cons, List.cons_append, List.foldlM_cons, hone] at h
    by_cases hlarge : magnitudeOf l.word > r.formula.variableCount
    · rw [if_pos hlarge] at h
      cases h
    · rw [if_neg hlarge] at h
      rw [← Literal.magnitudeOf_word]
      exact ⟨Nat.not_lt.mp hlarge, ih (r := { r with pending := l :: r.pending }) hc.2 h⟩

theorem le_of_readLines {cs : List Clause} (hcs : ∀ c ∈ cs, ∀ l ∈ c, l.word ≠ 0)
    (hheader : r.header = true) (hpending : r.pending = [])
    (h : r.readLines k ((cs.map (Line.clause none)).map Line.chars ++ [[]]) = .ok r') :
    ∀ c ∈ cs, ∀ l ∈ c, l.var ≤ r.formula.variableCount := by
  induction cs generalizing k r with
  | nil => simp
  | cons c rest ih =>
    rw [List.forall_mem_cons] at hcs ⊢
    rw [List.map_cons, List.map_cons, List.cons_append, Reading.readLines] at h
    cases hone : r.readLine k (Line.clause none c).chars with
    | error fault => simp [hone] at h
    | ok r₁ =>
      have hle : ∀ l ∈ c, l.var ≤ r.formula.variableCount := by
        rw [readLine_clause_eq k c hheader] at hone
        exact le_of_foldlM_readLiteral hcs.1 hone
      -- what was accepted is the clause itself, so the next line is read in the same state
      have hread := readLine_clause (r := r) k hheader hpending
        fun l hl => ⟨hcs.1 l hl, Literal.magnitudeOf_word l ▸ hle l hl⟩
      rw [hread] at h
      exact ⟨hle, ih (r := { r with formula := (Line.clause none c).read r.formula }) hcs.2 hheader
        hpending h⟩

end Reading

/-- A formula that is accepted when it is written out has literals of declared variables only. -/
theorem allocated_of_parse_render {f g : Formula} (hword : f.variableCount < wordCount)
    (hpos : ∀ c ∈ f.clauses, ∀ l ∈ c, 0 < l.var) (h : parse (render f) = .ok g) :
    ∀ c ∈ f.clauses, c.Allocated f.variableCount := by
  have hheader := Reading.readLine_headerChars 1 {} hword f.clauses.size (List.forall_mem_nil _)
  rw [List.append_nil] at hheader
  unfold parse at h
  rw [linesOf_render, Reading.readLines, hheader] at h
  dsimp only at h
  split at h
  · simp at h
  · next r hr =>
    have hcs : ∀ c ∈ f.clauses.toList, ∀ l ∈ c, l.word ≠ 0 := by
      intro c hc l hl
      exact Reading.var_pos_iff.mp (hpos c (Array.mem_toList_iff.mp hc) l hl)
    have hle := Reading.le_of_readLines hcs rfl rfl hr
    intro c hc l hl
    exact ⟨hpos c hc l hl, hle c (Array.mem_toList_iff.mpr hc) l hl⟩

/-! ## Accepted documents -/

/-- In an accepted document every literal is non-zero and below the largest number that a header
declares, and the last header gives the variables of the formula. Written out, the formula is
accepted again exactly when its literals have declared variables and its lines are short, and then
read as it was. Where no header declares more than the last, the literals have declared variables,
so the formula is read as it was unless a line has become too long. -/
theorem accepted_within_declarations {text : String} {f : Formula} (h : read text = .ok f) :
    f.variableCount = (declarations text).getLast?.getD 0 ∧
    (∀ m, (∀ n ∈ declarations text, n ≤ m) → ∀ c ∈ f.clauses, c.Allocated m) ∧
    ((∃ g, read (render f) = .ok g) ↔
      (∀ c ∈ f.clauses, c.Allocated f.variableCount) ∧
        ∀ line ∈ Text.linesOf (render f).toList, Fits line) ∧
    ((∃ g, read (render f) = .ok g) → read (render f) = .ok { f with comments := #[] }) ∧
    ((∀ n ∈ declarations text, n ≤ f.variableCount) →
      (∀ c ∈ f.clauses, c.Allocated f.variableCount) ∧
        read (render f) =
          if ∀ line ∈ Text.linesOf (render f).toList, Fits line then
            .ok { f with comments := #[] }
          else .error .lineTooLong) := by
  obtain ⟨r, rfl, hr⟩ := checked_of_parse (read_eq_ok_iff.mp h).1
  have hpos : ∀ c ∈ r.formula.clauses, ∀ l ∈ c, 0 < l.var := by
    intro c hc l hl
    -- some number bounds all declarations
    obtain ⟨m, hm⟩ : ∃ m, ∀ n ∈ declarations text, n ≤ m :=
      ⟨(declarations text).sum, fun n hn => List.single_le_sum (by simp) n hn⟩
    exact (hr.clauses m hm c hc l hl).1
  have haccepted : ∀ g, read (render r.formula) = .ok g →
      (∀ c ∈ r.formula.clauses, c.Allocated r.formula.variableCount) ∧
        ∀ line ∈ Text.linesOf (render r.formula).toList, Fits line := by
    intro g hg
    obtain ⟨hparse, hfits⟩ := read_eq_ok_iff.mp hg
    exact ⟨allocated_of_parse_render hr.word hpos hparse, hfits⟩
  have hread : (∀ c ∈ r.formula.clauses, c.Allocated r.formula.variableCount) →
      (∀ line ∈ Text.linesOf (render r.formula).toList, Fits line) →
      read (render r.formula) = .ok { r.formula with comments := #[] } := by
    intro hall hfits
    exact read_eq_ok_iff.mpr ⟨parse_render hr.word hall, hfits⟩
  refine ⟨hr.count, hr.clauses, ⟨?_, ?_⟩, ?_, ?_⟩
  · rintro ⟨g, hg⟩
    exact haccepted g hg
  · rintro ⟨hall, hfits⟩
    exact ⟨_, hread hall hfits⟩
  · rintro ⟨g, hg⟩
    obtain ⟨hall, hfits⟩ := haccepted g hg
    exact hread hall hfits
  · intro hlast
    have hall := hr.clauses r.formula.variableCount hlast
    exact ⟨hall, read_of_parse (parse_render hr.word hall)⟩

/-- A header that declares more variables may stand between the literals of a clause. -/
theorem raised_header_reads_back :
    ∃ f, read "c two\np cnf 1 1\n-1 0 1\n\np cnf 2 2\n2 0\n" = .ok f ∧
      f.variableCount = 2 ∧ f.clauses = #[[⟨-1⟩], [⟨1⟩, ⟨2⟩]] ∧
      read (render f) = .ok { f with comments := #[] } := by
  have hread : read "c two\np cnf 1 1\n-1 0 1\n\np cnf 2 2\n2 0\n" =
      .ok { variableCount := 2, clauses := #[[⟨-1⟩], [⟨1⟩, ⟨2⟩]], comments := #["two"] } :=
    read_eq_ok_iff.mpr ⟨by cbv, by decide⟩
  have hdeclared : declarations "c two\np cnf 1 1\n-1 0 1\n\np cnf 2 2\n2 0\n" = [1, 2] := by
    cbv
  refine ⟨_, hread, rfl, rfl, ?_⟩
  rw [((accepted_within_declarations hread).2.2.2.2 (by rw [hdeclared]; decide)).2]
  exact if_pos (by decide)

/-- A later header that declares fewer variables is accepted, and the formula then has a literal
beyond its variables: written out it is refused. -/
theorem lowered_header_accepted :
    ∃ f, read "p cnf 2 1\n2 0\np cnf 1 1\n" = .ok f ∧ f.variableCount = 1 ∧
      f.clauses = #[[⟨2⟩]] ∧ (¬ ∀ c ∈ f.clauses, c.Allocated f.variableCount) ∧
      read (render f) = .error (.undeclaredVariable 2 1) := by
  refine ⟨{ variableCount := 1, clauses := #[[⟨2⟩]] }, read_eq_ok_iff.mpr ⟨by cbv, by decide⟩, rfl,
    rfl, by decide, ?_⟩
  rw [read_of_fits (by decide)]
  cbv

end Clausify.Dimacs
