import Mathlib
import Clausify.Proofs.Encoding.Written

/-!
File and formula under the same calls. A writer is called to allocate a variable, to take a clause
or to take a comment; the calls are in scope when every clause speaks about constants and variables
allocated before it. One call keeps a file and a formula in step (`Call.make_keeps`): the file has
the clauses and the comments of the formula as its lines. By induction so do all calls
(`Call.makeAll_keeps`).

Main statement: a plain file without limit that is finished after calls in scope is read as the
formula that was given the same calls, with the comments as they stand on one line
(`file_reads_as_formula`).
-/

namespace Clausify

open Dimacs (Line)

namespace Dimacs

/-- What remains of a comment in a file: line breaks have become blanks, and there are no blanks
around it. -/
def keptComment (text : String) : String :=
  Text.trim (text.map fun c => if c = '\n' then ' ' else c)

namespace Line

/-- The text of the line, if it is a comment. -/
def comment? : Line → Option String
  | comment text => some text
  | clause _ _ => none

theorem read_comment (f : Formula) (text : String) :
    read f (comment text) = f.addComment (keptComment text) := by
  have hmark : Text.isBlank 'c' = false := by decide
  have hblank : Text.isBlank ' ' = true := by decide
  show f.addComment (String.ofList (Text.trimChars (Text.trimChars ('c' :: ' ' :: _)).tail)) = _
  rw [Text.trimChars_of_head hmark, List.tail_cons, Text.trimChars_rdropWhile,
    Text.trimChars_of_blank hblank, keptComment, Text.trim, String.toList_map]

theorem comments_foldl_read (ls : List Line) (f : Formula) :
    (ls.foldl read f).comments.toList =
      f.comments.toList ++ (ls.filterMap comment?).map keptComment := by
  induction ls generalizing f with
  | nil => simp
  | cons l rest ih =>
    rw [List.foldl_cons, ih]
    cases l with
    | comment t =>
      rw [read_comment]
      simp [Formula.addComment, comment?]
    | clause weight c => rfl

end Line

end Dimacs

inductive Call where
  | allocate
  | clause (c : Clause)
  | comment (text : String)

namespace Call

section

variable {W : Type} [ClauseWriter W]

def make : Call → Run W Unit
  | .allocate => fun w => .ok () (ClauseWriter.addVariable w)
  | .clause c => ClauseWriter.addClause c
  | .comment text => ClauseWriter.addComment text

/-- Makes calls in order, up to the first refusal. -/
def makeAll : List Call → Run W Unit
  | [] => pure ()
  | call :: rest => do
    call.make
    makeAll rest

theorem makeAll_cons {call : Call} {rest : List Call} {w w₁ w₂ : W}
    (h : call.make w = .ok () w₁) (hrest : makeAll rest w₁ = .ok () w₂) :
    makeAll (call :: rest) w = .ok () w₂ := by
  show EStateM.bind call.make (fun _ => makeAll rest) w = _
  rw [EStateM.bind, h]
  exact hrest

end

/-- After `count` variables, the call speaks about constants and these variables only. -/
def InScope (count : Nat) : Call → Prop
  | .clause c => c.Known count
  | _ => True

def countAfter (count : Nat) : Call → Nat
  | .allocate => count + 1
  | _ => count

/-- After `count` variables, every call is in scope where it is made. -/
def Scoped : Nat → List Call → Prop
  | _, [] => True
  | count, call :: rest => call.InScope count ∧ Scoped (call.countAfter count) rest

/-- The call as a step of an encoding. -/
def step : Call → Step
  | .allocate => .emit .fresh
  | .clause c => .emit (.clause c)
  | .comment text => .comment text

end Call

/-! ## In step -/

/-- The formula has the clauses and comments of the steps, and the file has their lines. -/
structure InStep (options : InstanceOptions) (T : List Step) (f : Formula) (i : Instance) :
    Prop where
  follows : i.Follows f
  written : i.Written options T
  known : ∀ c ∈ Step.clausesOf T, c.Known f.variableCount
  clauses : f.clauses.toList = (Step.linesOf T).filterMap Line.clause?
  comments : f.comments.toList = (Step.linesOf T).filterMap Line.comment?

namespace InStep

variable {options : InstanceOptions} {T : List Step} {f : Formula} {i : Instance}

theorem start (path : String) {options : InstanceOptions} (h : options.clauseLimit = 0) :
    InStep (Instance.create path options).options [] {} (Instance.create path options) where
  follows := Instance.follows_create h
  written := ⟨Instance.has_create path options, rfl, rfl, rfl, rfl⟩
  known := by simp [Step.clausesOf, Step.emissions]
  clauses := rfl
  comments := rfl

/-- One more step, which adds its clauses and comments to the formula and its lines to the file. -/
theorem append {f' : Formula} {i' : Instance} {s : Step} (h : InStep options T f i)
    (hfollows : i'.Follows f') (hwritten : i'.Written options (T ++ [s]))
    (hcount : f.variableCount ≤ f'.variableCount)
    (hknown : ∀ c ∈ Step.clausesOf [s], c.Known f'.variableCount)
    (hclauses : f'.clauses.toList = f.clauses.toList ++ s.lines.filterMap Line.clause?)
    (hcomments : f'.comments.toList = f.comments.toList ++ s.lines.filterMap Line.comment?) :
    InStep options (T ++ [s]) f' i' := by
  refine ⟨hfollows, hwritten, ?_, ?_, ?_⟩
  · intro c hc
    rw [Step.clausesOf_append] at hc
    rcases List.mem_append.mp hc with hc | hc
    · exact (h.known c hc).mono hcount
    · exact hknown c hc
  · rw [hclauses, h.clauses, Step.linesOf_append, Step.linesOf_singleton, List.filterMap_append]
  · rw [hcomments, h.comments, Step.linesOf_append, Step.linesOf_singleton, List.filterMap_append]

theorem allocate (h : InStep options T f i) :
    InStep options (T ++ [.emit .fresh]) f.addVariable i.addVariable := by
  have hfollows := h.follows
  refine h.append ?_ h.written.addVariable (Nat.le_succ _) nofun (List.append_nil _).symm
    (List.append_nil _).symm
  exact ⟨hfollows.isOpen, hfollows.context, hfollows.unlimited,
    congrArg (· + 1) hfollows.variableCount, hfollows.clauses⟩

theorem comment (h : InStep options T f i) (text : String) :
    ∃ i', Instance.addComment text i = .ok () i' ∧
      InStep options (T ++ [.comment text]) (f.addComment text) i' := by
  obtain ⟨i', hok, hfollows⟩ := h.follows.addComment text
  have hwritten := h.written.addComment text
  rw [hok] at hwritten
  refine ⟨i', hok, h.append hfollows hwritten (Nat.le_refl _) nofun (List.append_nil _).symm ?_⟩
  exact Array.toList_push

/-- A clause in scope is kept by both with the constants worked out, or dropped by both as true. -/
theorem clause (h : InStep options T f i) {c : Clause} (hc : c.Known f.variableCount) :
    ∃ f' i', Formula.writeClause c f = .ok () f' ∧ Instance.addClause c i = .ok () i' ∧
      f'.variableCount = f.variableCount ∧ InStep options (T ++ [.emit (.clause c)]) f' i' := by
  obtain ⟨reduced, hreduce⟩ := hc.reduce_ok
  have hknown : ∀ d ∈ Step.clausesOf [.emit (.clause c)], d.Known f.variableCount := by
    intro d hd
    rw [List.mem_singleton.mp hd]
    exact hc
  have hwritten := h.written.addClause c
  cases reduced with
  | none =>
    -- a clause that is true is dropped by both
    have hlines : Step.lines (.emit (.clause c)) = [] := by simp only [Step.lines, hreduce]
    have hok : Formula.writeClause c f = .ok () f :=
      Formula.writeClause_eq_ok_iff.mpr (.inl ⟨hreduce, rfl⟩)
    obtain ⟨i', hok', hfollows⟩ := h.follows.addClause hok
    rw [hok'] at hwritten
    refine ⟨f, i', hok, hok', rfl, h.append hfollows hwritten (Nat.le_refl _) hknown ?_ ?_⟩
    · rw [hlines]
      exact (List.append_nil _).symm
    · rw [hlines]
      exact (List.append_nil _).symm
  | some r =>
    have hlines : Step.lines (.emit (.clause c)) = [.clause none r] := by
      simp only [Step.lines, hreduce]
    have hok : Formula.writeClause c f = .ok () { f with clauses := f.clauses.push r } :=
      Formula.writeClause_eq_ok_iff.mpr (.inr ⟨r, hreduce, rfl⟩)
    obtain ⟨i', hok', hfollows⟩ := h.follows.addClause hok
    rw [hok'] at hwritten
    refine ⟨_, i', hok, hok', rfl, h.append hfollows hwritten (Nat.le_refl _) hknown ?_ ?_⟩
    · rw [hlines]
      exact Array.toList_push
    · rw [hlines]
      exact (List.append_nil _).symm

theorem reads (h : InStep options T f i) (hplain : options.weighted = false)
    (hcount : f.variableCount < wordCount) (hclauses : f.clauses.size < wordCount) :
    ∃ i' bytes, Instance.finalize i = .ok () i' ∧ i'.disk = some bytes ∧
      Dimacs.parse (Text.decode bytes) =
        .ok { f with comments := f.comments.map Dimacs.keptComment } := by
  have hcount' : i.variableCount < wordCount := h.follows.variableCount ▸ hcount
  have hroom : i.header.length ≤ Instance.headerWidth :=
    Instance.length_header_le hcount' (h.follows.clauses ▸ hclauses)
  obtain ⟨i', hok, -, hsame⟩ := (h.written.plain hplain).finalize hroom
  have hread : ∀ l ∈ Step.linesOf T, l.Readable i.variableCount := by
    rw [h.follows.variableCount]
    exact Step.readable_linesOf h.known
  refine ⟨i', _, hok, by rw [hsame], ?_⟩
  rw [Instance.parse_finalized rfl (h.written.options ▸ hplain) hcount' hread]
  congr 1
  -- the formula that is read has the number, the clauses and the comments of the one at hand
  generalize hg : (Step.linesOf T).foldl Line.read _ = g
  have hvariables : g.variableCount = f.variableCount := by
    rw [← hg, Line.variableCount_foldl_read, h.follows.variableCount]
  have hclauses' : g.clauses = f.clauses := by
    apply Array.toList_inj.mp
    rw [← hg, Line.clauses_foldl_read, h.clauses, List.nil_append]
  have hcomments : g.comments = f.comments.map Dimacs.keptComment := by
    apply Array.toList_inj.mp
    rw [← hg, Line.comments_foldl_read, Array.toList_map, h.comments, List.nil_append]
  cases g with
  | mk n cs ts =>
    simp only at hvariables hclauses' hcomments
    rw [hvariables, hclauses', hcomments]

end InStep

/-! ## Runs -/

namespace Call

variable {options : InstanceOptions} {T : List Step} {f : Formula} {i : Instance}

theorem make_keeps {call : Call} (h : InStep options T f i)
    (hscope : call.InScope f.variableCount) :
    ∃ f' i', call.make f = .ok () f' ∧ call.make i = .ok () i' ∧
      f'.variableCount = call.countAfter f.variableCount ∧
      InStep options (T ++ [call.step]) f' i' := by
  cases call with
  | allocate => exact ⟨_, _, rfl, rfl, rfl, h.allocate⟩
  | clause c => exact h.clause hscope
  | comment text =>
    obtain ⟨i', hok, h'⟩ := h.comment text
    exact ⟨_, i', rfl, hok, rfl, h'⟩

/-- Calls in scope are taken by both, and keep them in step. -/
theorem makeAll_keeps {calls : List Call} (h : InStep options T f i)
    (hscope : Scoped f.variableCount calls) :
    ∃ f' i', makeAll calls f = .ok () f' ∧ makeAll calls i = .ok () i' ∧
      InStep options (T ++ calls.map step) f' i' := by
  induction calls generalizing T f i with
  | nil => exact ⟨f, i, rfl, rfl, by simpa using h⟩
  | cons call rest ih =>
    obtain ⟨f₁, i₁, hf₁, hi₁, hcount, h₁⟩ := make_keeps h hscope.1
    obtain ⟨f', i', hf', hi', h'⟩ := ih h₁ (hcount ▸ hscope.2)
    exact ⟨f', i', makeAll_cons hf₁ hf', makeAll_cons hi₁ hi', by simpa using h'⟩

end Call

/-- File and formula agree. Calls in scope are taken by a formula and by a plain file without limit,
and the file is finished, the totals being words; it says the variables and clauses of the formula
in their order, and its comments as they stand on one line, and that is what the reader gives where
no line is too long. -/
theorem file_reads_as_formula (path : String) {options : InstanceOptions}
    (hplain : options.weighted = false) (hlimit : options.clauseLimit = 0) {calls : List Call}
    (hscope : Call.Scoped 0 calls) :
    ∃ (f : Formula) (i : Instance), Call.makeAll calls Formula.empty = .ok () f ∧
      Call.makeAll calls (Instance.create path options) = .ok () i ∧
      (f.variableCount < wordCount → f.clauses.size < wordCount →
        ∃ i' bytes, Instance.finalize i = .ok () i' ∧ i'.disk = some bytes ∧
          Dimacs.parse (Text.decode bytes) =
            .ok { f with comments := f.comments.map Dimacs.keptComment } ∧
          ((∀ line ∈ Text.linesOf (Text.decode bytes).toList, Dimacs.Fits line) →
            Dimacs.read (Text.decode bytes) =
              .ok { f with comments := f.comments.map Dimacs.keptComment })) := by
  obtain ⟨f, i, hf, hi, h⟩ := Call.makeAll_keeps (InStep.start path hlimit) hscope
  refine ⟨f, i, hf, hi, ?_⟩
  intro hcount hclauses
  obtain ⟨i', bytes, hok, hdisk, hparse⟩ := h.reads hplain hcount hclauses
  exact ⟨i', bytes, hok, hdisk, hparse, fun hfits => Dimacs.read_eq_ok_iff.mpr ⟨hparse, hfits⟩⟩

/-- Calls with an empty clause, a true clause and a constant among literals, and with comments that
are hard to keep: one looks like a header behind a blank, one is blank. -/
def sampleCalls : List Call :=
  [.comment " p cnf 9 9\np\t", .allocate, .clause [], .clause [Literal.never, ⟨-1⟩], .allocate,
    .clause [⟨2⟩, Literal.always], .comment "\n \n", .clause [⟨-2⟩, ⟨1⟩, ⟨1⟩]]

/-- The sample as it is read: the header-like comment has not become a header. -/
theorem sample_file_reads : ∃ (i i' : Instance) (bytes : ByteArray),
    Call.makeAll sampleCalls (Instance.create "sample.cnf" {}) = .ok () i ∧
      Instance.finalize i = .ok () i' ∧ i'.disk = some bytes ∧
      Dimacs.parse (Text.decode bytes) = .ok
        { variableCount := 2
          clauses := #[[], [⟨-1⟩], [⟨-2⟩, ⟨1⟩, ⟨1⟩]]
          comments := #["p cnf 9 9 p", ""] } := by
  have hscope : Call.Scoped 0 sampleCalls := by
    simp only [sampleCalls, Call.Scoped, Call.InScope, Call.countAfter, Clause.Known]
    decide
  obtain ⟨f, i, hf, hi, hreads⟩ :=
    @file_reads_as_formula "sample.cnf" {} rfl rfl sampleCalls hscope
  have hformula : f = ⟨2, #[[], [⟨-1⟩], [⟨-2⟩, ⟨1⟩, ⟨1⟩]], #[" p cnf 9 9\np\t", "\n \n"]⟩ := by
    have hmade : Call.makeAll sampleCalls Formula.empty = .ok ()
        ⟨2, #[[], [⟨-1⟩], [⟨-2⟩, ⟨1⟩, ⟨1⟩]], #[" p cnf 9 9\np\t", "\n \n"]⟩ := by cbv
    exact (EStateM.Result.ok.inj (hf.symm.trans hmade)).2
  obtain ⟨i', bytes, hok, hdisk, hparse, -⟩ := hreads (by rw [hformula]; decide)
    (by rw [hformula]; decide)
  refine ⟨i, i', bytes, hi, hok, hdisk, hparse.trans ?_⟩
  rw [hformula]
  cbv

end Clausify
