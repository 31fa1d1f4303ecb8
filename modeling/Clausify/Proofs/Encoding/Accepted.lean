import Mathlib
import Clausify.Proofs.Encoding.Written

/-!
Steps that a file accepts, and steps that break off. A run that comes to its end has had all its
lines accepted, whatever context, weight and limit the file has (`Encoder.run_accepts`). A run that
breaks off has taken some of its steps, and the refused one enters nothing
(`Encoder.exists_taken`).
-/

namespace Clausify

open Dimacs (Line)

/-! ## What a file accepts -/

/-- The step with a context in front of its clause. -/
def Step.under (context : List Literal) : Step → Step
  | .emit (.clause c) => .emit (.clause (context ++ c))
  | s => s

namespace Instance

/-- The lines of steps in a file with a context and a weight for hard clauses. -/
def linesFor (i : Instance) (T : List Step) : List Line :=
  (Step.linesOf (T.map (Step.under i.context))).map (Line.weigh i.options.hardWeight)

/-- The file has taken the steps: it has all their lines behind what it had before, no clause among
them was refused or beyond the limit, and their variables are allocated. -/
structure Accepts (i i' : Instance) (T : List Step) : Prop where
  written : i.Writes { i' with variableCount := i.variableCount } (i.linesFor T)
  count : i'.variableCount = i.variableCount + Step.freshCount T
  reduced : ∀ c ∈ Step.clausesOf T, ∃ o, Clause.reduce (i.context ++ c) = .ok o
  within : clauseCount (i.linesFor T) = 0 ∨ i.options.clauseLimit = 0 ∨
    i'.clauses ≤ i.options.clauseLimit

variable {i i' i'' : Instance} {T U : List Step}

theorem linesFor_append (i : Instance) (T U : List Step) :
    i.linesFor (T ++ U) = i.linesFor T ++ i.linesFor U := by
  simp [linesFor]

theorem Accepts.context (h : i.Accepts i' T) : i'.context = i.context := by
  have hsame := congrArg Instance.context h.written.same
  exact hsame

theorem Accepts.options (h : i.Accepts i' T) : i'.options = i.options := by
  have hsame := congrArg Instance.options h.written.same
  exact hsame

theorem Accepts.linesFor (h : i.Accepts i' T) (U : List Step) :
    i'.linesFor U = i.linesFor U := by
  rw [Instance.linesFor, h.context, h.options, Instance.linesFor]

/-- The number of variables has no part in what is written. -/
theorem Writes.recount {ls : List Line} (h : i.Writes i' ls) (n : Nat) :
    Writes { i with variableCount := n } { i' with variableCount := n } ls where
  framed hf := by
    obtain ⟨q, p', hf', hq⟩ := h.framed (hf.of_same rfl rfl rfl)
    exact ⟨q, p', hf'.of_same rfl rfl rfl, hq⟩
  clauses := h.clauses
  isOpen := h.isOpen
  same := congrArg (fun j : Instance => { j with variableCount := n }) h.same

theorem Accepts.refl (i : Instance) : i.Accepts i [] where
  written := .refl i
  count := rfl
  reduced := by simp
  within := .inl rfl

theorem Accepts.trans (h : i.Accepts i' T) (h' : i'.Accepts i'' U) : i.Accepts i'' (T ++ U) where
  written := by
    have hrest := h'.written.recount i.variableCount
    rw [h.linesFor] at hrest
    rw [linesFor_append]
    exact h.written.trans hrest
  count := by rw [h'.count, h.count, Step.freshCount_append, Nat.add_assoc]
  reduced := by
    rw [Step.clausesOf_append, List.forall_mem_append]
    refine ⟨h.reduced, ?_⟩
    rw [← h.context]
    exact h'.reduced
  within := by
    have hfirst := h.within
    have hsecond := h'.within
    have hcount : i''.clauses = i'.clauses + clauseCount (i'.linesFor U) := h'.written.clauses
    rw [h.options, h.linesFor] at hsecond
    rw [h.linesFor] at hcount
    rw [linesFor_append, clauseCount_append]
    omega

theorem Accepts.of_writes {s : Step} (hw : i.Writes i' (i.linesFor [s]))
    (hfresh : Step.freshCount [s] = 0)
    (hreduced : ∀ c ∈ Step.clausesOf [s], ∃ o, Clause.reduce (i.context ++ c) = .ok o)
    (hwithin : clauseCount (i.linesFor [s]) = 0 ∨ i.options.clauseLimit = 0 ∨
      i'.clauses ≤ i.options.clauseLimit) : i.Accepts i' [s] where
  written := by
    rw [← hw.variableCount]
    exact hw
  count := by rw [hw.variableCount, hfresh, Nat.add_zero]
  reduced := hreduced
  within := hwithin

theorem Accepts.quiet {s : Step} (hlines : i.linesFor [s] = []) (hfresh : Step.freshCount [s] = 0)
    (hclauses : Step.clausesOf [s] = []) : i.Accepts i [s] := by
  apply Accepts.of_writes _ hfresh
  · simp [hclauses]
  · exact .inl (by rw [hlines]; rfl)
  · rw [hlines]
    exact .refl i

theorem accepts_comment {text : String} (h : addComment text i = .ok () i') :
    i.Accepts i' [.comment text] := by
  have hopen : i.isOpen = true := by
    cases hpending : i.pending with
    | none => simp [addComment, writeText, hpending] at h
    | some pending => simp [isOpen, hpending]
  have hwrites := addComment_writes text i
  rw [hopen, h] at hwrites
  have hnone : Step.clausesOf [.comment text] = [] := rfl
  exact .of_writes hwrites rfl (by simp [hnone]) (.inl rfl)

theorem isOpen_of_addClause {c : Clause} (h : addClause c i = .ok () i') : i.isOpen = true := by
  cases hclosed : i.isOpen with
  | false => simp [addClause, hclosed] at h
  | true => rfl

/-- A clause beyond the limit would have been refused. -/
theorem within_of_addClause {c reduced : Clause} (h : addClause c i = .ok () i')
    (hreduce : Clause.reduce (i.context ++ c) = .ok (some reduced)) :
    i.options.clauseLimit = 0 ∨ i'.clauses ≤ i.options.clauseLimit := by
  have hopen := isOpen_of_addClause h
  have hcount : i'.clauses = i.clauses + 1 := by
    have hwrites := addClause_writes c i
    rw [h] at hwrites
    have hclauses := hwrites.clauses
    rw [clauseLines, hopen, hreduce] at hclauses
    exact hclauses
  by_contra hbeyond
  rw [not_or] at hbeyond
  have hrefused : ∃ stop j, addClause c i = .error stop j := by
    simp only [addClause, hopen, hreduce, Bool.not_true, Bool.false_eq_true, if_false]
    refine ⟨_, _, (writeLine_eq _ reduced hopen).trans (if_pos ?_)⟩
    simp only [ne_eq, Bool.and_eq_true, decide_eq_true_eq]
    omega
  obtain ⟨stop, j, hstop⟩ := hrefused
  rw [h] at hstop
  cases hstop

/-- A clause is only taken if it can be reduced and is not one too many. -/
theorem accepts_clause {c : Clause} (h : addClause c i = .ok () i') :
    i.Accepts i' [.emit (.clause c)] := by
  have hwrites := addClause_writes c i
  rw [h] at hwrites
  have hone : Step.clausesOf [.emit (.clause c)] = [c] := rfl
  have hopen := isOpen_of_addClause h
  cases hreduce : Clause.reduce (i.context ++ c) with
  | error misuse => simp [addClause, hopen, hreduce] at h
  | ok o =>
    have hlines : i.clauseLines c = i.linesFor [.emit (.clause c)] := by
      simp only [clauseLines, hopen, hreduce, linesFor, Step.under, Step.linesOf, Step.lines,
        List.map_cons, List.map_nil, List.flatMap_cons, List.flatMap_nil, List.append_nil]
      cases o <;> simp [Line.weigh, InstanceOptions.hardWeight]
    rw [hlines] at hwrites
    apply Accepts.of_writes hwrites rfl
    · simp [hone, hreduce]
    · cases o with
      | none =>
        apply Or.inl
        rw [← hlines, clauseLines, hopen, hreduce]
        rfl
      | some reduced => exact .inr (within_of_addClause h hreduce)

end Instance

namespace Encoder

theorem take_accepts {e e' : Encoder Instance} {s : Step} (ht : take s e = .ok () e') :
    e.writer.Accepts e'.writer [s] := by
  cases s with
  | emit emission =>
    cases emission with
    | fresh =>
      obtain rfl := (EStateM.Result.ok.inj ht).2
      exact ⟨.refl _, rfl, by simp, .inl rfl⟩
    | clause c =>
      obtain ⟨w, hw, rfl⟩ := onWriter_eq_ok.mp ht
      exact Instance.accepts_clause hw
  | comment text =>
    obtain ⟨w, hw, rfl⟩ := onWriter_eq_ok.mp ht
    exact Instance.accepts_comment hw
  | shape name shape =>
    obtain rfl := (EStateM.Result.ok.inj ht).2
    exact .quiet rfl rfl rfl
  | note entry =>
    obtain rfl := (EStateM.Result.ok.inj ht).2
    exact .quiet rfl rfl rfl
  | stop reason => simp [take] at ht
  | _ =>
    obtain ⟨m, -, rfl⟩ := onMapping_eq_ok.mp ht
    exact .quiet rfl rfl rfl

theorem run_accepts {e e' : Encoder Instance} {U : List Step} (hrun : run U e = .ok () e') :
    e.writer.Accepts e'.writer U := by
  refine run_induction (T := []) (P := fun e' T => e.writer.Accepts e'.writer T) ?_
    (.refl e.writer) hrun
  intro e₁ e₂ T s h ht
  exact h.trans (take_accepts ht)

end Encoder

/-! ## Runs that break off -/

namespace Mapping

variable {m m' : Mapping} {misuse : Misuse}

theorem setDomain_error {name : String} {domain : Domain}
    (h : setDomain name domain m = .error misuse m') : m' = m := by
  simp only [setDomain] at h
  split_ifs at h
  exact (EStateM.Result.error.inj h).2.symm

theorem setDirect_error {key : Key} {literal : Literal}
    (h : setDirect key literal m = .error misuse m') : m' = m := by
  simp only [setDirect] at h
  split at h
  · exact (EStateM.Result.error.inj h).2.symm
  · split_ifs at h

theorem setOrder_error {key : Key} {literal : Literal}
    (h : setOrder key literal m = .error misuse m') : m' = m := by
  simp only [setOrder] at h
  split at h
  · exact (EStateM.Result.error.inj h).2.symm
  · cases h

theorem setBound_error {table : OrderTable} {key : Key} {literal : Literal}
    (h : setBound table key literal m = .error misuse m') : m' = m := by
  cases table <;> cases h

end Mapping

namespace Encoder

variable {W : Type} [ClauseWriter W] {e e' : Encoder W} {s : Step} {U : List Step} {x : String}

/-- The encoder that is left, whether the run came to its end or not. -/
def left : EStateM.Result Stop (Encoder W) Unit → Encoder W
  | .ok _ e => e
  | .error _ e => e

omit [ClauseWriter W] in
theorem onMapping_error {change : Mapping.Change} {stop : Stop}
    (hchange : ∀ m misuse m', change m = .error misuse m' → m' = m)
    (h : onMapping change e = .error stop e') : e' = e := by
  obtain ⟨writer, mapping, shapes, journal⟩ := e
  simp only [onMapping] at h
  split at h
  · next misuse m hm =>
    rw [← (EStateM.Result.error.inj h).2, hchange _ _ _ hm]
  · cases h

/-- A step that is refused enters nothing. -/
theorem take_error {stop : Stop} (h : take s e = .error stop e') :
    e'.mapping = e.mapping ∧ e'.shapes = e.shapes := by
  -- a refused write may leave something in the writer, but nothing in the tables
  have hwriter : ∀ action : Run W Unit, onWriter action e = .error stop e' →
      e'.mapping = e.mapping ∧ e'.shapes = e.shapes := by
    intro action haction
    obtain ⟨writer, mapping, shapes, journal⟩ := e
    simp only [onWriter] at haction
    split at haction
    · rw [← (EStateM.Result.error.inj haction).2]
      exact ⟨rfl, rfl⟩
    · cases haction
  have hmapping : ∀ change : Mapping.Change, (∀ m misuse m', change m = .error misuse m' → m' = m) →
      onMapping change e = .error stop e' → e'.mapping = e.mapping ∧ e'.shapes = e.shapes := by
    intro change hchange herror
    rw [onMapping_error hchange herror]
    exact ⟨rfl, rfl⟩
  cases s with
  | emit emission =>
    cases emission with
    | fresh => cases h
    | clause c => exact hwriter _ h
  | comment text => exact hwriter _ h
  | shape name shape => cases h
  | note entry => cases h
  | stop reason =>
    rw [← (EStateM.Result.error.inj h).2]
    exact ⟨rfl, rfl⟩
  | domain name domain => exact hmapping _ (fun m misuse m' => Mapping.setDomain_error) h
  | direct key literal => exact hmapping _ (fun m misuse m' => Mapping.setDirect_error) h
  | order key literal => exact hmapping _ (fun m misuse m' => Mapping.setOrder_error) h
  | bound table key literal => exact hmapping _ (fun m misuse m' => Mapping.setBound_error) h

/-- A run takes some of its steps; where it breaks off, the next step enters nothing. -/
theorem exists_taken (U : List Step) (e : Encoder W) :
    ∃ taken rest e₁, U = taken ++ rest ∧ run taken e = .ok () e₁ ∧
      (left (run U e)).mapping = e₁.mapping ∧ (left (run U e)).shapes = e₁.shapes := by
  induction U generalizing e with
  | nil => exact ⟨[], [], e, rfl, rfl, rfl, rfl⟩
  | cons s U ih =>
    cases htake : take s e with
    | error stop e₁ =>
      obtain ⟨hmapping, hshapes⟩ := take_error htake
      refine ⟨[], s :: U, e, rfl, rfl, ?_, ?_⟩
      · simpa only [run, htake, left] using hmapping
      · simpa only [run, htake, left] using hshapes
    | ok u next =>
      obtain ⟨taken, rest, e₁, rfl, hrun, hmapping, hshapes⟩ := ih next
      refine ⟨s :: taken, rest, e₁, rfl, run_cons_eq_ok.mpr ⟨next, htake, hrun⟩, ?_, ?_⟩
      · simpa only [run, htake] using hmapping
      · simpa only [run, htake] using hshapes

theorem left_run_shapes (hU : ∀ shape, Step.shape x shape ∉ U) :
    (left (run U e)).shapes.lookup x = e.shapes.lookup x := by
  obtain ⟨taken, rest, e₁, rfl, hrun, -, hshapes⟩ := exists_taken U e
  rw [hshapes]
  have htaken : ∀ shape, Step.shape x shape ∉ taken :=
    fun shape hmem => hU shape (List.mem_append_left _ hmem)
  refine run_induction (T := []) (P := fun e' T => (∀ shape, Step.shape x shape ∉ T) →
    e'.shapes.lookup x = e.shapes.lookup x) ?_ (fun _ => rfl) hrun htaken
  intro e₂ e₃ T s h ht hT
  rw [take_shapes ht, ← h fun shape hmem => hT shape (List.mem_append_left _ hmem)]
  cases s with
  | shape y shape =>
    have hne : y ≠ x := by
      rintro rfl
      exact hT shape (by simp)
    simp [recordIn, hne]
  | _ => rfl

end Encoder

end Clausify
