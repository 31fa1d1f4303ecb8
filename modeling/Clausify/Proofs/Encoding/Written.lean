import Mathlib
import Clausify.Proofs.Encoding.Listing
import Clausify.Proofs.Instance.Lines

/-!
Steps written to an instance file. Every clause and every comment among the steps is a line of the
file, in order (`Encoder.run_written`); a clause is written with the constants worked out of it,
and a true clause not at all. The clauses that are read from the lines of steps are together true
where the clauses of the steps are (`Step.satisfies_linesOf`). In the other direction, a file
without a limit takes all the steps that a formula takes (`Encoder.run_onto`).
-/

namespace Clausify

open Dimacs (Line)

/-- The line with the weight in place of its own, if it holds a clause. -/
def Dimacs.Line.weigh (weight : Option Word) : Line → Line
  | .clause _ c => .clause weight c
  | .comment text => .comment text

/-- The weight of hard clauses: the top weight, or none in a plain file. -/
def InstanceOptions.hardWeight (options : InstanceOptions) : Option Word :=
  if options.weighted then some options.top else none

namespace Step

def lines : Step → List Line
  | .emit (.clause c) =>
    match c.reduce with
    | .ok (some reduced) => [.clause none reduced]
    | _ => []
  | .comment text => [.comment text]
  | _ => []

def linesOf (T : List Step) : List Line := T.flatMap lines

@[simp] theorem linesOf_append (T U : List Step) : linesOf (T ++ U) = linesOf T ++ linesOf U :=
  List.flatMap_append

@[simp] theorem linesOf_singleton (s : Step) : linesOf [s] = s.lines := List.flatMap_singleton ..

theorem mem_clausesOf {T : List Step} {c : Clause} (h : .emit (.clause c) ∈ T) :
    c ∈ clausesOf T := by
  obtain ⟨before, after, rfl⟩ := List.append_of_mem h
  rw [clausesOf_append]
  exact List.mem_append_right _ List.mem_cons_self

theorem mem_linesOf_clause {T : List Step} {weight : Option Word} {r : Clause}
    (h : .clause weight r ∈ linesOf T) :
    weight = none ∧ ∃ c ∈ clausesOf T, c.reduce = .ok (some r) := by
  obtain ⟨s, hs, hl⟩ := List.mem_flatMap.mp h
  unfold lines at hl
  split at hl
  · next c =>
    split at hl
    · next reduced hr =>
      simp only [List.mem_singleton, Line.clause.injEq] at hl
      obtain ⟨rfl, rfl⟩ := hl
      exact ⟨rfl, c, mem_clausesOf hs, hr⟩
    · simp at hl
  · simp at hl
  · simp at hl

theorem map_weigh_linesOf (T : List Step) : (linesOf T).map (Line.weigh none) = linesOf T := by
  refine (List.map_congr_left fun l hl => ?_).trans (List.map_id _)
  cases l with
  | comment text => rfl
  | clause weight r =>
    obtain ⟨rfl, -⟩ := mem_linesOf_clause hl
    rfl

/-- What is read from the lines of steps is true where all clauses of the steps are. -/
theorem satisfies_linesOf {n : Nat} {T : List Step} (hk : ∀ c ∈ clausesOf T, c.Known n)
    (v : Valuation) :
    v.Satisfies ((linesOf T).filterMap Line.clause?) ↔ v.Satisfies (clausesOf T) := by
  induction T with
  | nil => simp [linesOf]
  | cons s rest ih =>
    have hcons : ∀ T : List Step, s :: T = [s] ++ T := fun _ => rfl
    rw [hcons, clausesOf_append, List.forall_mem_append] at hk
    rw [hcons, linesOf_append, List.filterMap_append, clausesOf_append,
      Valuation.satisfies_append, Valuation.satisfies_append, ih hk.2, linesOf_singleton]
    refine and_congr_left fun _ => ?_
    -- a step that is no clause has none on either side
    have hother : s.lines.filterMap Line.clause? = [] → clausesOf [s] = [] →
        (v.Satisfies (s.lines.filterMap Line.clause?) ↔ v.Satisfies (clausesOf [s])) := by
      intro h h'
      rw [h, h']
    cases s with
    | emit emission =>
      cases emission with
      | fresh => exact hother rfl rfl
      | clause c =>
        have hone : clausesOf [.emit (.clause c)] = [c] := rfl
        rw [hone] at hk ⊢
        obtain ⟨o, ho⟩ := (hk.1 c (List.mem_singleton_self c)).reduce_ok
        have hreduce := Clause.holds_reduce (c := c) v
        cases o with
        | none => simp [lines, ho, hreduce.2 ho]
        | some r => simp [lines, ho, Line.clause?, hreduce.1 r ho]
    | _ => exact hother rfl rfl

end Step

/-! ## What is read from the file -/

theorem Step.readable_linesOf {n : Nat} {T : List Step} (hk : ∀ c ∈ clausesOf T, c.Known n) :
    ∀ l ∈ linesOf T, l.Readable n := by
  intro l hl
  cases l with
  | comment text => trivial
  | clause weight r =>
    obtain ⟨rfl, c, hc, hr⟩ := mem_linesOf_clause hl
    refine ⟨rfl, fun m hm => ?_⟩
    obtain ⟨hmc, hconst⟩ := Clause.mem_of_reduce hr m hm
    have hknown := hk c hc m hmc
    refine ⟨hknown.word_ne_zero, ?_⟩
    rw [Literal.magnitudeOf_word]
    exact hknown.var_le hconst

/-! ## Runs -/

/-- The steps are written to an open file, clauses with the weight of hard clauses. -/
structure Instance.Written (options : InstanceOptions) (file : Instance) (T : List Step) :
    Prop where
  has : file.Has ((Step.linesOf T).map (Line.weigh options.hardWeight))
  count : file.variableCount = Step.freshCount T
  context : file.context = []
  options : file.options = options
  isOpen : file.isOpen = true

namespace Instance.Written

variable {options : InstanceOptions} {file file' : Instance} {T : List Step}

theorem plain (h : file.Written options T) (hplain : options.weighted = false) :
    file.Has (Step.linesOf T) := by
  have hweight : options.hardWeight = none := by simp [InstanceOptions.hardWeight, hplain]
  rw [← Step.map_weigh_linesOf, ← hweight]
  exact h.has

theorem writes {s : Step} (h : file.Written options T)
    (hw : file.Writes file' (s.lines.map (Line.weigh options.hardWeight)))
    (hfresh : Step.freshCount [s] = 0) : file'.Written options (T ++ [s]) := by
  have hsame := hw.same
  exact {
    has := by
      rw [Step.linesOf_append, Step.linesOf_singleton, List.map_append]
      exact h.has.writes hw
    count := by
      rw [Step.freshCount_append, hfresh, hsame, Nat.add_zero]
      exact h.count
    context := by
      rw [hsame]
      exact h.context
    options := by
      rw [hsame]
      exact h.options
    isOpen := hw.isOpen.trans h.isOpen }

theorem quiet {s : Step} (h : file.Written options T) (hlines : s.lines = [])
    (hfresh : Step.freshCount [s] = 0) : file.Written options (T ++ [s]) :=
  h.writes (by rw [hlines]; exact .refl _) hfresh

theorem addVariable (h : file.Written options T) :
    file.addVariable.Written options (T ++ [.emit .fresh]) := by
  have hlines : Step.linesOf (T ++ [.emit .fresh]) = Step.linesOf T := by
    rw [Step.linesOf_append, Step.linesOf_singleton]
    exact List.append_nil _
  exact {
    has := by
      rw [hlines]
      exact h.has.addVariable
    count := by
      rw [Step.freshCount_append]
      exact congrArg (· + 1) h.count
    context := h.context
    options := h.options
    isOpen := h.isOpen }

theorem addClause (h : file.Written options T) (c : Clause) :
    (left (Instance.addClause c file)).Written options (T ++ [.emit (.clause c)]) := by
  have hlines : file.clauseLines c =
      (Step.lines (.emit (.clause c))).map (Line.weigh options.hardWeight) := by
    simp only [Instance.clauseLines, Step.lines, h.isOpen, h.context, h.options, List.nil_append]
    split <;> simp_all [Line.weigh, InstanceOptions.hardWeight]
  refine h.writes ?_ rfl
  rw [← hlines]
  exact addClause_writes c file

theorem addComment (h : file.Written options T) (text : String) :
    (left (Instance.addComment text file)).Written options (T ++ [.comment text]) := by
  have hwrites := addComment_writes text file
  rw [if_pos h.isOpen] at hwrites
  exact h.writes hwrites rfl

end Instance.Written

namespace Encoder

variable {options : InstanceOptions} {e e' : Encoder Instance} {T U : List Step} {s : Step}

theorem take_written (h : e.writer.Written options T)
    (ht : take s e = .ok () e') : e'.writer.Written options (T ++ [s]) := by
  cases s with
  | emit emission =>
    cases emission with
    | fresh =>
      obtain rfl := (EStateM.Result.ok.inj ht).2
      exact h.addVariable
    | clause c =>
      obtain ⟨w, hw, rfl⟩ := onWriter_eq_ok.mp ht
      have hleft : Instance.left (Instance.addClause c e.writer) = w := congrArg Instance.left hw
      exact hleft ▸ h.addClause c
  | comment text =>
    obtain ⟨w, hw, rfl⟩ := onWriter_eq_ok.mp ht
    have hleft : Instance.left (Instance.addComment text e.writer) = w := congrArg Instance.left hw
    exact hleft ▸ h.addComment text
  | shape name shape =>
    obtain rfl := (EStateM.Result.ok.inj ht).2
    exact h.quiet rfl rfl
  | note entry =>
    obtain rfl := (EStateM.Result.ok.inj ht).2
    exact h.quiet rfl rfl
  | stop reason => simp [take] at ht
  | _ =>
    obtain ⟨m, -, rfl⟩ := onMapping_eq_ok.mp ht
    exact h.quiet rfl rfl

/-- A run that comes to its end has written all its steps. -/
theorem run_written (h : e.writer.Written options T)
    (hrun : run U e = .ok () e') : e'.writer.Written options (T ++ U) := by
  refine run_induction (P := fun e T => e.writer.Written options T) ?_ h hrun
  intro e e' T s h ht
  exact take_written h ht

end Encoder

/-! ## A file beside a formula -/

/-- The file is open, without context or limit, and counts what the formula counts. -/
structure Instance.Follows (i : Instance) (f : Formula) : Prop where
  isOpen : i.isOpen = true
  context : i.context = []
  unlimited : i.options.clauseLimit = 0
  variableCount : i.variableCount = f.variableCount
  clauses : i.clauses = f.clauses.size

theorem Instance.follows_create {path : String} {options : InstanceOptions}
    (h : options.clauseLimit = 0) : (Instance.create path options).Follows {} :=
  ⟨rfl, rfl, h, rfl, rfl⟩

theorem Instance.Follows.writes {i i' : Instance} {f f' : Formula} {ls : List Line}
    (h : i.Follows f) (hw : i.Writes i' ls) (hvariables : f'.variableCount = f.variableCount)
    (hclauses : f'.clauses.size = f.clauses.size + Instance.clauseCount ls) : i'.Follows f' where
  isOpen := hw.isOpen.trans h.isOpen
  context := by rw [hw.same]; exact h.context
  unlimited := by rw [hw.same]; exact h.unlimited
  variableCount := by rw [hw.same, hvariables]; exact h.variableCount
  clauses := by rw [hw.clauses, h.clauses, hclauses]

theorem Instance.Follows.addClause {i : Instance} {f f' : Formula} {c : Clause} (h : i.Follows f)
    (hc : Formula.writeClause c f = .ok () f') :
    ∃ i', Instance.addClause c i = .ok () i' ∧ i'.Follows f' := by
  have hwrites := Instance.addClause_writes c i
  have hreduced : Clause.reduce (i.context ++ c) = c.reduce := by rw [h.context, List.nil_append]
  unfold Instance.clauseLines at hwrites
  rw [h.isOpen, hreduced] at hwrites
  rcases Formula.writeClause_eq_ok_iff.mp hc with ⟨hreduce, rfl⟩ | ⟨reduced, hreduce, rfl⟩
  · rw [hreduce] at hwrites
    exact ⟨_, Instance.addClause_ok h.isOpen (hreduced.trans hreduce) (.inl h.unlimited),
      h.writes hwrites rfl rfl⟩
  · rw [hreduce] at hwrites
    exact ⟨_, Instance.addClause_ok h.isOpen (hreduced.trans hreduce) (.inl h.unlimited),
      h.writes hwrites rfl (by simp [Instance.clauseCount, Line.clause?])⟩

theorem Instance.Follows.addComment {i : Instance} {f : Formula} (h : i.Follows f)
    (text : String) :
    ∃ i', Instance.addComment text i = .ok () i' ∧ i'.Follows (f.addComment text) := by
  have hwrites := Instance.addComment_writes text i
  obtain ⟨pending, hpending⟩ := Option.isSome_iff_exists.mp h.isOpen
  have hok : Instance.addComment text i = .ok () (Instance.left (Instance.addComment text i)) := by
    simp only [Instance.addComment, Instance.writeText, hpending]
    rfl
  rw [if_pos h.isOpen] at hwrites
  exact ⟨_, hok, h.writes hwrites rfl rfl⟩

namespace Encoder

/-- The encoder with its formula replaced by a file. -/
def onto (e : Encoder Formula) (i : Instance) : Encoder Instance :=
  ⟨i, e.mapping, e.shapes, e.journal⟩

theorem onWriter_onto {e : Encoder Formula} {i i' : Instance} {action : Run Instance Unit}
    (f : Formula) (h : action i = .ok () i') :
    onWriter action (e.onto i) = .ok () (({ e with writer := f } : Encoder Formula).onto i') := by
  simp only [onWriter, onto, h]

theorem onMapping_onto {e e' : Encoder Formula} {change : Mapping.Change} (i : Instance)
    (h : onMapping change e = .ok () e') :
    onMapping change (e.onto i) = .ok () (e'.onto i) ∧ e'.writer = e.writer := by
  obtain ⟨m, hm, rfl⟩ := onMapping_eq_ok.mp h
  exact ⟨by simp only [onMapping, onto, hm], rfl⟩

theorem take_onto {e e' : Encoder Formula} {i : Instance} {s : Step} (h : i.Follows e.writer)
    (ht : take s e = .ok () e') :
    ∃ i', take s (e.onto i) = .ok () (e'.onto i') ∧ i'.Follows e'.writer := by
  -- what concerns the mapping is the same for both, whatever they write to
  have hmapping : ∀ change : Mapping.Change, onMapping change e = .ok () e' →
      ∃ i', onMapping change (e.onto i) = .ok () (e'.onto i') ∧ i'.Follows e'.writer := by
    intro change hchange
    obtain ⟨hok, hwriter⟩ := onMapping_onto i hchange
    exact ⟨i, hok, hwriter ▸ h⟩
  cases s with
  | emit emission =>
    cases emission with
    | fresh =>
      obtain rfl := (EStateM.Result.ok.inj ht).2
      exact ⟨i.addVariable, rfl, h.isOpen, h.context, h.unlimited,
        congrArg (· + 1) h.variableCount, h.clauses⟩
    | clause c =>
      have hclause : onWriter (Formula.writeClause c) e = .ok () e' := ht
      obtain ⟨f, hf, rfl⟩ := onWriter_eq_ok.mp hclause
      obtain ⟨i', hi', hfollows⟩ := h.addClause hf
      exact ⟨i', onWriter_onto f hi', hfollows⟩
  | comment text =>
    have hcomment : onWriter (Formula.writeComment text) e = .ok () e' := ht
    obtain ⟨f, hf, rfl⟩ := onWriter_eq_ok.mp hcomment
    obtain rfl := (EStateM.Result.ok.inj hf).2
    obtain ⟨i', hi', hfollows⟩ := h.addComment text
    exact ⟨i', onWriter_onto _ hi', hfollows⟩
  | shape name shape =>
    obtain rfl := (EStateM.Result.ok.inj ht).2
    exact ⟨i, rfl, h⟩
  | note entry =>
    obtain rfl := (EStateM.Result.ok.inj ht).2
    exact ⟨i, rfl, h⟩
  | domain name domain => exact hmapping _ ht
  | direct key literal => exact hmapping _ ht
  | order key literal => exact hmapping _ ht
  | bound table key literal => exact hmapping _ ht
  | stop reason => simp [take] at ht

/-- Steps that can be taken with a formula can be taken with a file without limit, to the same
tables. -/
theorem run_onto {e e' : Encoder Formula} {i : Instance} {U : List Step} (h : i.Follows e.writer)
    (hrun : run U e = .ok () e') :
    ∃ i', run U (e.onto i) = .ok () (e'.onto i') ∧ i'.Follows e'.writer := by
  induction U generalizing e i with
  | nil =>
    obtain rfl := (EStateM.Result.ok.inj hrun).2
    exact ⟨i, rfl, h⟩
  | cons s rest ih =>
    obtain ⟨next, htake, hrest⟩ := run_cons_eq_ok.mp hrun
    obtain ⟨i₁, htake₁, h₁⟩ := take_onto h htake
    obtain ⟨i', hrest', h'⟩ := ih h₁ hrest
    exact ⟨i', run_cons_eq_ok.mpr ⟨_, htake₁, hrest'⟩, h'⟩

end Encoder

end Clausify
