import Mathlib
import Clausify.Proofs.Clause.Wcnf
import Clausify.Proofs.Reduction.Meaning
import Clausify.Proofs.Reduction.Parallel
import Clausify.Proofs.Reduction.Preference

/-!
Weighted reductions. With weights and without, a problem is encoded by the same steps. In the
weighted file the clauses carry the top weight (`weighted_file`), and behind them stands one clause
for each preference, with the weight of the preference. Nothing compares the two weights, so a
preference whose weight reaches the top weight is read as a clause that has to hold.

Main statement: `weights_split_at_top`. The weighted file means the clauses of the plain file and
the preferences exactly when all preferences weigh less than the top weight.
-/

namespace Clausify

open Dimacs (Line)

/-! ## Lines with weights -/

namespace Wcnf

theorem filterMap_weigh (weight : Word) (ls : List Line) :
    (ls.map (Line.weigh (some weight))).filterMap weighted? =
      (ls.filterMap Line.clause?).map fun c => (weight, c) := by
  induction ls with
  | nil => rfl
  | cons l rest ih =>
    cases l with
    | comment text => exact ih
    | clause _ c => exact congrArg ((weight, c) :: ·) ih

theorem readable_weigh {n : Nat} {l : Line} (h : l.Readable n) (weight : Word) :
    Readable n (l.weigh (some weight)) := by
  cases l with
  | comment text => trivial
  | clause _ c => exact ⟨rfl, h.2⟩

theorem length_weighted {n : Nat} {ls : List Line} (h : ∀ l ∈ ls, Readable n l) :
    (ls.filterMap weighted?).length = Instance.clauseCount ls := by
  rw [Instance.clauseCount]
  induction ls with
  | nil => rfl
  | cons l rest ih =>
    rw [List.forall_mem_cons] at h
    cases l with
    | comment text => exact ih h.2
    | clause weight c =>
      obtain ⟨w, rfl⟩ := Option.isSome_iff_exists.mp h.1.1
      exact congrArg (· + 1) (ih h.2)

end Wcnf

namespace Wcnf.Document

variable {n : Nat} {top : Word} {cs : List Clause} {wishes : List (Word × Clause)}

/-- Clauses with the top weight are hard, and so is what weighs as much behind them. -/
theorem hard_append :
    (⟨n, top, cs.map (fun c => (top, c)) ++ wishes⟩ : Document).hard =
      cs ++ (wishes.filter fun wish => top ≤ wish.1).map Prod.snd := by
  simp [hard, List.filter_append, List.filter_map, Function.comp_def]

/-- Clauses with the top weight are not soft. -/
theorem soft_append :
    (⟨n, top, cs.map (fun c => (top, c)) ++ wishes⟩ : Document).soft =
      wishes.filter fun wish => wish.1 < top := by
  simp [soft, List.filter_append, List.filter_map, Function.comp_def]

end Wcnf.Document

def Settings.withWeights (s : Settings) (weighted : Bool) : Settings :=
  { s with weighted := weighted }

theorem Settings.of_validate_weighted {s : Settings}
    (h : (s.withWeights true).validate = .ok ()) :
    0 < s.top ∧ ∀ weighted, (s.withWeights weighted).validate = .ok () := by
  unfold withWeights at h ⊢
  simp only [validate] at h ⊢
  split at h
  · simp at h
  · simp at h
  split at h
  · simp at h
  next hrestricted =>
  split at h
  · simp at h
  next hgroup =>
  split at h
  · simp at h
  next hpart =>
  split at h
  · simp at h
  next htop =>
  have hpositive : 0 < s.top := by simpa using htop
  refine ⟨hpositive, fun weighted => ?_⟩
  rw [if_neg hrestricted, if_neg hgroup, if_neg hpart, if_neg]
  simpa using fun _ => hpositive

theorem Instance.clauseCount_weigh (weight : Option Word) (ls : List Line) :
    clauseCount (ls.map (Line.weigh weight)) = clauseCount ls := by
  have hclause : Line.clause? ∘ Line.weigh weight = Line.clause? := by
    funext l
    cases l <;> rfl
  rw [clauseCount, List.filterMap_map, hclause]
  rfl

namespace Reduction

open Step

/-! ## What the files hold -/

/-- The file holds the weighted document. -/
def StoresWeighted (t : Reduction) (doc : Wcnf.Document) : Prop :=
  ∃ bytes, t.file.disk = some bytes ∧ Wcnf.parse (Text.decode bytes) = some doc

/-- The encoder at the start of a reduction. -/
def start (settings : Settings) (path : String) : Encoder Instance :=
  { writer := Instance.create path (instanceOptions settings) }

section Files

variable {store : Store} {p : Problem} {settings : Settings} {options : InstanceOptions}
  {path : String} {catalog : Catalog} {cs : List Constraint} {d e : Encoder Instance}
  {T : List Step} {ls : List Line}

/-- A reduction whose parts come to their end is finished with the header and the lines. -/
theorem ofProblem_of_parts (hcheck : precheck p settings = .ok (.present catalog))
    (hwrite : store.writeFault path = none)
    (hhard : hardPart p settings catalog (start settings path) = .ok () d)
    (hsoft : softPart p settings d = .ok () e) (hhas : e.writer.Has ls)
    (hvariables : e.writer.variableCount < wordCount) (hclauses : e.writer.clauses < wordCount) :
    (ofProblem store p settings path).result = .ok ⟨{ e.writer with
      disk := some (e.writer.paddedHeader ++ "\n" ++ Instance.textOf ls).toUTF8
      pending := none }, e.mapping, e.shapes⟩ := by
  obtain ⟨file, hfile, -, hsame⟩ :=
    hhas.finalize (Instance.length_header_le hvariables hclauses)
  have hrun : encode p settings catalog (start settings path) =
      .ok () { e with writer := file } := by
    rw [encode_eq, Run.bind_of_ok hhard, Run.bind_of_ok hsoft]
    exact Encoder.onWriter_eq_ok.mpr ⟨file, hfile, rfl⟩
  rw [← hsame]
  exact (ofProblem_of_ok hcheck hwrite hrun).1

theorem softPart_plain (hweighted : settings.weighted = false) (p : Problem)
    (d : Encoder Instance) : ∃ e, softPart p settings d = .ok () e ∧ e.writer = d.writer ∧
      e.mapping = d.mapping := by
  unfold softPart
  rw [if_neg (by simp [hweighted])]
  split <;> exact ⟨_, rfl, rfl, rfl⟩

theorem plain_file (hweighted : settings.weighted = false)
    (hcheck : precheck p settings = .ok (.present catalog)) (hwrite : store.writeFault path = none)
    (hhard : hardPart p settings catalog (start settings path) = .ok () d)
    (h : Progress settings options catalog.declared cs d T) (hplain : options.weighted = false)
    (hlim : d.variableCount < Literal.limit) (hclauses : d.writer.clauses < wordCount) :
    ∃ t f, (ofProblem store p settings path).result = .ok t ∧ t.mapping = d.mapping ∧
      t.Stores f ∧ f.variableCount = d.variableCount ∧
      f.clauses.toList = (linesOf T).filterMap Line.clause? := by
  have hword : d.variableCount < wordCount := Nat.lt_trans hlim (by decide)
  have hknown := (h.meaning (h.written.count ▸ hlim)).faithful.known
  rw [← h.written.count] at hknown
  obtain ⟨e, hsoft, hwriter, hmapping⟩ := softPart_plain hweighted p d
  rw [← hwriter] at hknown hclauses
  have hword' : e.writer.variableCount < wordCount := by rw [hwriter]; exact hword
  have hhas : e.writer.Has (linesOf T) := hwriter ▸ h.written.plain hplain
  have hplain' : e.writer.options.weighted = false := by
    rw [hwriter, h.written.options]
    exact hplain
  refine ⟨_, _, ofProblem_of_parts hcheck hwrite hhard hsoft hhas hword' hclauses, hmapping,
    ⟨_, rfl, Instance.parse_finalized rfl hplain' hword' (readable_linesOf hknown)⟩, ?_, ?_⟩
  · rw [Dimacs.Line.variableCount_foldl_read, hwriter]
    rfl
  · exact Dimacs.Line.clauses_foldl_read ..

theorem readable_preference {m : Mapping} (hm : m.Lists T) (hT : Represented T)
    (q : Preference) : Wcnf.Readable (freshCount T) (q.line m) := by
  refine ⟨rfl, fun l hl => ?_⟩
  obtain ⟨hconstant, hknown⟩ := hT.known _ l (.inl ((hm.direct _ l).mp (Option.mem_toList.mp hl)))
  exact ⟨hknown.word_ne_zero, Literal.magnitudeOf_word l ▸ hknown.var_le hconstant⟩

/-- The lines of a weighted file: those of the steps with the top weight, and the preferences. -/
def weightedLines (top : Word) (T : List Step) (m : Mapping) (qs : List Preference) : List Line :=
  (linesOf T).map (Line.weigh (some top)) ++ qs.map (Preference.line m)

theorem readable_weightedLines {m : Mapping} (hm : m.Lists T) (hT : Represented T)
    (hknown : ∀ c ∈ clausesOf T, c.Known (freshCount T)) (top : Word) (qs : List Preference) :
    ∀ l ∈ weightedLines top T m qs, Wcnf.Readable (freshCount T) l := by
  intro l hl
  rcases List.mem_append.mp hl with hl | hl
  · obtain ⟨plain, hplain, rfl⟩ := List.mem_map.mp hl
    exact Wcnf.readable_weigh (readable_linesOf hknown plain hplain) _
  · obtain ⟨q, -, rfl⟩ := List.mem_map.mp hl
    exact readable_preference hm hT q

theorem filterMap_weightedLines (top : Word) (T : List Step) (m : Mapping)
    (qs : List Preference) :
    (weightedLines top T m qs).filterMap Wcnf.weighted? =
      ((linesOf T).filterMap Line.clause?).map (fun c => (top, c)) ++
        qs.map fun q => (q.weight, q.clause m) := by
  rw [weightedLines, List.filterMap_append, Wcnf.filterMap_weigh, List.filterMap_map]
  exact congrArg _ (congrFun List.filterMap_eq_map' qs)

/-- The weighted file holds the clauses of the steps with the top weight, and behind them the
preferences with their own weights. -/
theorem weighted_file (hweighted : settings.weighted = true)
    (hcheck : precheck p settings = .ok (.present catalog)) (hwrite : store.writeFault path = none)
    (hhard : hardPart p settings catalog (start settings path) = .ok () d)
    (h : Progress settings options catalog.declared cs d T) (hoptions : options.weighted = true)
    (hlimit : options.clauseLimit = 0) (hlim : d.variableCount < Literal.limit)
    (hclauses : d.writer.clauses + p.preferences.length < wordCount) :
    ∃ t, (ofProblem store p settings path).result = .ok t ∧ t.mapping = d.mapping ∧
      t.StoresWeighted ⟨d.variableCount, options.top,
        ((linesOf T).filterMap Line.clause?).map (fun c => (options.top, c)) ++
          p.preferences.map fun q => (q.weight, q.clause d.mapping)⟩ := by
  have hM := h.meaning (h.written.count ▸ hlim)
  have hfile : d.writer.options.weighted = true := by rw [h.written.options]; exact hoptions
  obtain ⟨w, hpreferences, hwrites⟩ := encodePreferences_ok hM.represented h.lists
    (h.willing hlimit) hfile p.preferences
  have hsoft : softPart p settings d = .ok () { d with writer := w } := by
    unfold softPart
    rw [if_pos hweighted]
    exact hpreferences
  have hhas : w.Has (weightedLines options.top T d.mapping p.preferences) := by
    have hweight : options.hardWeight = some options.top := by
      simp [InstanceOptions.hardWeight, hoptions]
    rw [weightedLines, ← hweight]
    exact h.written.has.writes hwrites
  -- the preferences add to the clauses, and to nothing else that the header shows
  have hcount : w.variableCount = d.variableCount := hwrites.variableCount
  have hword : w.variableCount < wordCount := hcount ▸ Nat.lt_trans hlim (by decide)
  have hclauses' : w.clauses < wordCount := by
    rw [hwrites.clauses, Preference.clauseCount_lines]
    exact hclauses
  have hw : w.options = options := by rw [hwrites.same]; exact h.written.options
  have hread := readable_weightedLines h.lists hM.represented hM.faithful.known options.top
    p.preferences
  rw [← h.written.count, ← hwrites.variableCount] at hread
  have hparse := Wcnf.parse_weighted_file (hw ▸ hoptions) hword hclauses'
    (hhas.clauses.trans (Wcnf.length_weighted hread).symm) hread
  rw [filterMap_weightedLines, hcount, hw, ← Text.decode_toUTF8 (_ ++ _)] at hparse
  exact ⟨_, ofProblem_of_parts hcheck hwrite hhard hsoft hhas hword hclauses', rfl, _, rfl, hparse⟩

/-- The clause of a preference is the literal of its value, and empty outside the domain. -/
theorem preference_clause (hS : Stocked p d)
    (h : Progress settings options catalog.declared cs d T)
    (hlim : d.variableCount < Literal.limit) {q : Preference} (hq : q ∈ p.preferences)
    {domain : Domain} (hdomain : catalog.domain? q.var = some domain) :
    (q.value ∈ domain → q.clause d.mapping = [d.mapping.directLiteral q.var q.value]) ∧
      (q.value ∉ domain → q.clause d.mapping = []) := by
  have hM := h.meaning (h.written.count ▸ hlim)
  have hunique : ∀ other, .domain q.var other ∈ T → other = domain := fun other hother =>
    Option.some_inj.mp (((hM.domains _ _).mp hother).symm.trans hdomain)
  rw [Preference.clause, Mapping.directLiteral]
  constructor
  · intro hvalue
    -- a preference needs the literals for single values
    have hwant : (q.var, .directOnly) ∈ p.wants := by
      apply List.mem_append_left
      apply List.mem_append_right
      exact List.mem_map.mpr ⟨q, hq, rfl⟩
    have hneeds := hS.equip hlim h q.var (Catalog.isKnown_of_domain? hdomain)
    have hhas := Representation.has_trans hneeds (p.needsOf_has hwant)
    obtain ⟨other, hother, hentry⟩ :=
      Mapping.exists_direct h.lists hM.represented ((Representation.has_iff.mp hhas).1 rfl)
    obtain rfl := hunique other hother
    obtain ⟨l, hl⟩ := hentry q.value hvalue
    simp [hl]
  · intro hvalue
    -- a literal would have been entered with a domain that has the value
    cases hl : d.mapping.direct[(⟨q.var, q.value⟩ : Key)]? with
    | none => rfl
    | some l =>
      obtain ⟨other, hother, hinside⟩ := hS.inside _ l hl
      obtain rfl := hunique other ((h.lists.domains _ _).mp hother)
      exact absurd hinside hvalue

/-- If a problem can be reduced with weights or without, both encodings get through its variables
and constraints in step, and there are no fewer variables and clauses at the end. -/
theorem parallel_of_ok {weighted : Bool} {t : Reduction} (hlimit : settings.clauseLimit = 0)
    (hcatalog : p.catalog = some catalog)
    (hok : (ofProblem store p (settings.withWeights weighted) path).result = .ok t) :
    ∃ d T, (∀ w, hardPart p (settings.withWeights w) catalog (start (settings.withWeights w) path) =
        .ok () (d w)) ∧
      Parallel settings.withWeights
        (fun w => (start (settings.withWeights w) path).writer.options) p catalog.declared
        p.constraints d T ∧
      ∀ w, (d w).variableCount ≤ t.file.variableCount ∧ (d w).writer.clauses ≤ t.file.clauses := by
  obtain ⟨catalog', e, hcheck, -, hrun, rfl⟩ := exists_encode_of_ok hok
  obtain rfl : catalog' = catalog :=
    Option.some_inj.mp ((precheck_eq_ok hcheck).2.symm.trans hcatalog)
  rw [encode_eq] at hrun
  obtain ⟨u, e₁, hhard, hfinish⟩ := Run.bind_eq_ok.mp hrun
  have hstart : Parallel settings.withWeights
      (fun w => (start (settings.withWeights w) path).writer.options) p [] []
      (fun w => start (settings.withWeights w) path) [] :=
    ⟨fun w => progress_start _ _ _, fun w => stocked_start _ _, fun _ _ => rfl, fun _ _ => rfl⟩
  obtain ⟨d, T, hall, hP⟩ := hardPart_parallel (fun _ => hlimit)
    (fun w w' => ⟨settings.clauseLimit, w', settings.top, rfl⟩) hstart hhard
  obtain rfl : d weighted = e₁ := (EStateM.Result.ok.inj ((hall weighted).symm.trans hhard)).2
  refine ⟨d, T, hall, hP, fun w => ⟨?_, ?_⟩⟩
  · rw [hP.variableCount w weighted]
    exact (keeps_finish (Instance.stable_variableCount _) p _).of_ok hfinish (Nat.le_refl _)
  · -- both files have the clauses of the same steps
    have hcount : ∀ w, (d w).writer.clauses = Instance.clauseCount (linesOf T) := fun w =>
      (hP.progress w).written.has.clauses.trans (Instance.clauseCount_weigh _ _)
    rw [hcount w, ← hcount weighted]
    exact (keeps_finish (Instance.stable_clauses _) p _).of_ok hfinish (Nat.le_refl _)

/-- If a problem can be reduced with weights or without, it can be reduced both ways: the weighted
file holds the clauses of the plain file with the top weight, and then the preferences. -/
theorem exists_reductions {weighted : Bool} {t : Reduction}
    (hvalid : (settings.withWeights true).validate = .ok ())
    (hlimit : settings.clauseLimit = 0) (hcatalog : p.catalog = some catalog)
    (hok : (ofProblem store p (settings.withWeights weighted) path).result = .ok t)
    (hlim : t.file.variableCount < Literal.limit)
    (hclauses : t.file.clauses + p.preferences.length < wordCount) :
    ∃ plain soft f, (ofProblem store p (settings.withWeights false) path).result = .ok plain ∧
      (ofProblem store p (settings.withWeights true) path).result = .ok soft ∧
      soft.mapping = plain.mapping ∧ plain.Stores f ∧
      soft.StoresWeighted ⟨f.variableCount, settings.top,
        f.clauses.toList.map (fun c => (settings.top, c)) ++
          p.preferences.map fun q => (q.weight, q.clause soft.mapping)⟩ ∧
      ∀ q ∈ p.preferences, ∀ domain, catalog.domain? q.var = some domain →
        (q.value ∈ domain → q.clause soft.mapping = [soft.mapping.directLiteral q.var q.value]) ∧
        (q.value ∉ domain → q.clause soft.mapping = []) := by
  obtain ⟨htop, hsettings⟩ := Settings.of_validate_weighted hvalid
  obtain ⟨catalog', e, hcheck, hwrite, -, -⟩ := exists_encode_of_ok hok
  have hchecks : ∀ w, precheck p (settings.withWeights w) = .ok (.present catalog) := by
    intro w
    exact precheck_of_valid (hsettings w) (precheck_eq_ok hcheck).1 hcatalog
  obtain ⟨d, T, hall, hP, htotals⟩ := parallel_of_ok hlimit hcatalog hok
  have hlim' : ∀ w, (d w).variableCount < Literal.limit := fun w =>
    Nat.lt_of_le_of_lt (htotals w).1 hlim
  have hclauses' : ∀ w, (d w).writer.clauses + p.preferences.length < wordCount := fun w =>
    Nat.lt_of_le_of_lt (Nat.add_le_add_right (htotals w).2 _) hclauses
  obtain ⟨plain, f, hplain, hmapping, hstores, hcount, hlist⟩ := plain_file rfl (hchecks false)
    hwrite (hall false) (hP.progress false) rfl (hlim' false)
    (Nat.lt_of_le_of_lt (Nat.le_add_right _ _) (hclauses' false))
  obtain ⟨soft, hsoft, hmapping', hdoc⟩ := weighted_file rfl (hchecks true) hwrite (hall true)
    (hP.progress true) rfl hlimit (hlim' true) (hclauses' true)
  -- only a top weight of zero is replaced
  have hzero : settings.top ≠ 0 := by
    intro heq
    rw [heq] at htop
    exact absurd htop (by decide)
  have htop' : (start (settings.withWeights true) path).writer.options.top = settings.top :=
    if_neg hzero
  refine ⟨plain, soft, f, hplain, hsoft, ?_, hstores, ?_, fun q hq domain hdomain => ?_⟩
  · rw [hmapping, hmapping']
    exact hP.mapping true false
  · rw [hmapping', hlist, hcount, hP.variableCount false true, ← htop']
    exact hdoc
  · rw [hmapping']
    exact preference_clause (hP.stocked true) (hP.progress true) (hlim' true) hq hdomain

end Files

/-! ## A problem with a preference -/

/-- Two values, the second of which is preferred. -/
def wishProblem : Problem where
  reference := .present ⟨[{ name := "x", domain := .ofValues [1, 2] }]⟩
  preferences := [⟨"x", 2, 5⟩]

/-- The steps of the problem can be taken, whatever the notes and the comment say. -/
theorem wish_reaches (top : Word) (j k : JournalEntry) (r : String) :
    (Encoder.run (.note j :: .shape "x" .boolean :: .note k :: .comment r ::
        .domain "x" (.ofValues [1, 2]) :: Encoding.shapeSteps { top := top } 0
          { name := "x", domain := .ofValues [1, 2] } true .boolean)).reaches
      (fun e => e.writer.variableCount = 1 && e.writer.clauses.size = 0)
      ({ writer := {} } : Encoder Formula) = true := by
  cbv

theorem wish_reduces (top : Word) :
    ∃ t, (ofProblem {} wishProblem { top := top } "wish.cnf").result = .ok t ∧
      t.file.variableCount = 1 ∧ t.file.clauses = 0 := by
  obtain ⟨x, hx⟩ : ∃ x : Variable, x = { name := "x", domain := .ofValues [1, 2] } := ⟨_, rfl⟩
  obtain ⟨e, hrun, he⟩ := Run.reaches_iff.mp (wish_reaches top
    ⟨.info, "translation.variables", [("count", .number 1), ("scheme", .text "product")]⟩
    ⟨.debug, "encoding.variable", [("variable", .text x.name), ("domain", .text x.domain.text),
      ("shape", .text "boolean")]⟩ (Encoding.variableComment x .boolean))
  subst hx
  simp only [Bool.and_eq_true, decide_eq_true_eq] at he
  have hfollows : (Instance.create "wish.cnf" (instanceOptions { top := top })).Follows {} :=
    Instance.follows_create rfl
  obtain ⟨i, hok, hi⟩ := Encoder.run_onto hfollows hrun
  have hcount : i.variableCount = 1 := hi.variableCount.trans he.1
  have hclauses : i.clauses = 0 := hi.clauses.trans he.2
  have hwritten := Encoder.run_written
    (progress_start { top := top } "wish.cnf" (instanceOptions { top := top })).written hok
  obtain ⟨e₀, hnote, hsteps⟩ := Encoder.run_cons_eq_ok.mp hok
  have hempty : e₀.shapes = [] ∧ e₀.variableCount = 0 := by
    rw [← (EStateM.Result.ok.inj hnote).2]
    exact ⟨rfl, rfl⟩
  have hvariables : encodeVariables wishProblem { top := top }
      [{ name := "x", domain := .ofValues [1, 2] }] e₀ = .ok () (e.onto i) := by
    refine Run.bind_eq_ok.mpr ⟨(), e.onto i, blame_eq_ok.mpr ?_, rfl⟩
    refine encodeVariable_of_run .boolean (by rw [hempty.1]; rfl) (by cbv) ?_
    rw [hempty.2]
    exact hsteps
  have hhard : hardPart wishProblem { top := top } ⟨[{ name := "x", domain := .ofValues [1, 2] }]⟩
      (start { top := top } "wish.cnf") = .ok () ((e.onto i).note
        ⟨.info, "translation.constraints", [("count", .number 0)]⟩) :=
    Run.bind_eq_ok.mpr ⟨(), e₀, hnote, Run.bind_eq_ok.mpr ⟨(), e.onto i, hvariables, rfl⟩⟩
  -- without weights the top weight is not looked at
  have hsettings : ({ top := top } : Settings).validate = ({} : Settings).validate := rfl
  have hcheck := precheck_of_valid (hsettings.trans (by cbv)) (p := wishProblem) rfl rfl
  have hwrite : ({} : Store).writeFault "wish.cnf" = none := by decide +kernel
  obtain ⟨e', hsoft, hwriter, -⟩ := @softPart_plain { top := top } rfl wishProblem
    ((e.onto i).note ⟨.info, "translation.constraints", [("count", .number 0)]⟩)
  have hfile : e'.writer = i := hwriter
  subst hfile
  exact ⟨_, ofProblem_of_parts hcheck hwrite hhard hsoft hwritten.has (by rw [hcount]; decide)
    (by rw [hclauses]; decide), hcount, hclauses⟩

/-! ## Main statement -/

/-- Under settings that are valid with weights and set no limit, a problem that can be reduced with
weights or without can be reduced both ways, to the same tables and with the same number of
variables. The hard clauses of the weighted file are those of the plain file and then the
preferences whose weight reaches the top weight; the other preferences are its soft clauses, with
their weights. A preference is the literal of its value, or empty outside the domain. So the hard
clauses are those of the plain file and the soft clauses all the preferences exactly when every
preference weighs less than the top weight. -/
theorem weights_split_at_top {store : Store} {p : Problem} {settings : Settings} {path : String}
    {catalog : Catalog} {weighted : Bool} {t : Reduction}
    (hvalid : (settings.withWeights true).validate = .ok ()) (hlimit : settings.clauseLimit = 0)
    (hcatalog : p.catalog = some catalog)
    (hok : (ofProblem store p (settings.withWeights weighted) path).result = .ok t)
    (hlim : t.file.variableCount < Literal.limit)
    (hclauses : t.file.clauses + p.preferences.length < wordCount) :
    ∃ plain soft f doc,
      (ofProblem store p (settings.withWeights false) path).result = .ok plain ∧
      (ofProblem store p (settings.withWeights true) path).result = .ok soft ∧
      soft.mapping = plain.mapping ∧ plain.Stores f ∧ soft.StoresWeighted doc ∧
      doc.variableCount = f.variableCount ∧
      doc.hard = f.clauses.toList ++ (p.preferences.filter fun q => settings.top ≤ q.weight).map
        (Preference.clause soft.mapping) ∧
      doc.soft = (p.preferences.filter fun q => q.weight < settings.top).map
        (fun q => (q.weight, q.clause soft.mapping)) ∧
      (∀ q ∈ p.preferences, ∀ domain, catalog.domain? q.var = some domain →
        (q.value ∈ domain → q.clause soft.mapping = [soft.mapping.directLiteral q.var q.value]) ∧
        (q.value ∉ domain → q.clause soft.mapping = [])) ∧
      ((doc.hard = f.clauses.toList ∧
          doc.soft = p.preferences.map fun q => (q.weight, q.clause soft.mapping)) ↔
        ∀ q ∈ p.preferences, q.weight < settings.top) := by
  obtain ⟨plain, soft, f, hplain, hsoft, hmapping, hstores, hdoc, hclause⟩ :=
    exists_reductions hvalid hlimit hcatalog hok hlim hclauses
  refine ⟨plain, soft, f, _, hplain, hsoft, hmapping, hstores, hdoc, rfl, ?_, ?_, hclause, ?_⟩
  · rw [Wcnf.Document.hard_append, List.filter_map, List.map_map]
    rfl
  · rw [Wcnf.Document.soft_append, List.filter_map]
    rfl
  · rw [Wcnf.Document.hard_append, Wcnf.Document.soft_append, List.append_right_eq_self,
      List.map_eq_nil_iff, List.filter_eq_nil_iff, List.filter_eq_self]
    constructor
    · rintro ⟨hnone, -⟩ q hq
      simpa using hnone _ (List.mem_map.mpr ⟨q, hq, rfl⟩)
    · intro hall
      -- below the top weight no preference is among the hard clauses
      have hsoft : ∀ wish ∈ p.preferences.map fun q => (q.weight, q.clause soft.mapping),
          wish.1 < settings.top := by
        intro wish hwish
        obtain ⟨q, hq, rfl⟩ := List.mem_map.mp hwish
        exact hall q hq
      exact ⟨fun wish hwish => by simpa using hsoft wish hwish,
        fun wish hwish => by simpa using hsoft wish hwish⟩

/-- Below a top weight of six a preference that weighs five is a soft clause. -/
theorem wish_stays_soft : ∃ plain soft f doc,
    (ofProblem {} wishProblem { top := 6 } "wish.cnf").result = .ok plain ∧
    (ofProblem {} wishProblem { top := 6, weighted := true } "wish.cnf").result = .ok soft ∧
    plain.Stores f ∧ soft.StoresWeighted doc ∧ doc.hard = f.clauses.toList ∧
    doc.soft = [(5, [soft.mapping.directLiteral "x" 2])] := by
  obtain ⟨t, hok, hcount, hclauses⟩ := wish_reduces 6
  obtain ⟨plain, soft, f, doc, hplain, hsoft, -, hstores, hdoc, -, -, -, hclause, hiff⟩ :=
    @weights_split_at_top {} wishProblem { top := 6 } "wish.cnf" _ false t (by cbv) rfl rfl hok
      (by rw [hcount]; decide) (by rw [hclauses]; decide)
  obtain ⟨hhard, hall⟩ := hiff.mpr (by decide)
  have hmember := (hclause _ List.mem_cons_self _ rfl).1 (Domain.mem_ofValues.mpr (by decide))
  refine ⟨plain, soft, f, doc, hplain, hsoft, hstores, hdoc, hhard, hall.trans ?_⟩
  exact congrArg (fun c => [((5 : Word), c)]) hmember

/-- Under a top weight of five it is one more hard clause, and there is no soft clause: no value but
the preferred one is left. -/
theorem wish_turns_hard : ∃ plain soft f doc,
    (ofProblem {} wishProblem { top := 5 } "wish.cnf").result = .ok plain ∧
    (ofProblem {} wishProblem { top := 5, weighted := true } "wish.cnf").result = .ok soft ∧
    plain.Stores f ∧ soft.StoresWeighted doc ∧
    doc.hard = f.clauses.toList ++ [[soft.mapping.directLiteral "x" 2]] ∧ doc.soft = [] := by
  obtain ⟨t, hok, hcount, hclauses⟩ := wish_reduces 5
  obtain ⟨plain, soft, f, hplain, hsoft, -, hstores, hdoc, hclause⟩ :=
    @exists_reductions {} wishProblem { top := 5 } "wish.cnf" _ false t (by cbv) rfl rfl hok
      (by rw [hcount]; decide) (by rw [hclauses]; decide)
  have hmember := (hclause _ List.mem_cons_self _ rfl).1 (Domain.mem_ofValues.mpr (by decide))
  refine ⟨plain, soft, f, _, hplain, hsoft, hstores, hdoc, ?_, ?_⟩
  · rw [Wcnf.Document.hard_append]
    exact congrArg (fun c => f.clauses.toList ++ [c]) hmember
  · rw [Wcnf.Document.soft_append]
    rfl

end Reduction

end Clausify
