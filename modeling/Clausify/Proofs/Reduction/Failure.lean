import Mathlib
import Clausify.Proofs.Problem.Source
import Clausify.Proofs.Reduction.Meaning
import Clausify.Proofs.Reduction.Preference

/-!
When a reduction fails. With valid settings and a valid problem nothing is refused but a counting
constraint that is reified, as long as the file has literals for its variables: every variable gets
the literals that constraints, preferences and the objective need of it, so no constraint misses
one, no literal is entered twice and no scheme breaks off (`encode_verdict`). Main statement:
`fails_only_for_reified_counts`, which also says what failures leave in the store. It asks for a
catalog and for tests that read no more values than they are given; every problem that is built from
a document has both, and without them a reduction may stop for misuse (`careless_problems_misused`).
-/

namespace Clausify.Reduction

open Step

/-! ## Parts of a run -/

theorem Full.bind {x y : Run (Encoder Instance) Unit} {e : Encoder Instance} (h : Full (x e))
    (hy : Keeps (fun i => Literal.limit ≤ i.variableCount) y) :
    Full ((x >>= fun _ => y) e) := by
  cases hrun : x e with
  | ok u e' =>
    rw [hrun] at h
    rw [Run.bind_of_ok hrun]
    exact hy e' h
  | error stop e' =>
    rw [hrun] at h
    rw [Run.bind_of_error hrun]
    exact h

theorem Full.blame {subject : Subject} {result : EStateM.Result Stop (Encoder Instance) Unit}
    (h : Full result) : Full (blame subject result) := by
  rw [Full, fileLeft_blame]
  exact h

/-- The fault for a counting rule with a reifying variable. -/
def refusal (c : Constraint) : Fault :=
  .during (.constraint c.text) (.unsupported (.reified c.rule.text))

/-- How a run ends that has to post constraints: in a state with the property `Q` if none of them
counts and is reified, refused for that reason otherwise, or without literals. -/
inductive Verdict (cs : List Constraint) (Q : Encoder Instance → Prop) :
    EStateM.Result Stop (Encoder Instance) Unit → Prop where
  | full {result : EStateM.Result Stop (Encoder Instance) Unit} : Full result → Verdict cs Q result
  | accepted {e : Encoder Instance} : (∀ c ∈ cs, ¬ c.CountsReified) → Q e →
      Verdict cs Q (.ok () e)
  | refused {c : Constraint} {e : Encoder Instance} : c ∈ cs → c.CountsReified →
      Verdict cs Q (.error (.fault (refusal c)) e)

section Verdict

variable {cs ds : List Constraint} {Q R : Encoder Instance → Prop}
  {x y : Run (Encoder Instance) Unit} {e : Encoder Instance}

theorem Verdict.append_left {result : EStateM.Result Stop (Encoder Instance) Unit}
    (hnone : ∀ c ∈ cs, ¬ c.CountsReified) (h : Verdict ds R result) :
    Verdict (cs ++ ds) R result := by
  cases h with
  | full hfull => exact .full hfull
  | accepted hnone' hR => exact .accepted (List.forall_mem_append.mpr ⟨hnone, hnone'⟩) hR
  | refused hc hcounts => exact .refused (List.mem_append_right _ hc) hcounts

/-- Two runs one after the other, the second of which posts the constraints `ds`. -/
theorem Verdict.bind (h : Verdict cs Q (x e)) (hy : ∀ e', Q e' → Verdict ds R (y e'))
    (hkeeps : Keeps (fun i => Literal.limit ≤ i.variableCount) y) :
    Verdict (cs ++ ds) R ((x >>= fun _ => y) e) := by
  generalize hresult : x e = result at h
  cases h with
  | full hfull => exact .full (Full.bind (hresult ▸ hfull) hkeeps)
  | accepted hnone hQ =>
    rw [Run.bind_of_ok hresult]
    exact (hy _ hQ).append_left hnone
  | refused hc hcounts =>
    rw [Run.bind_of_error hresult]
    exact .refused (List.mem_append_left _ hc) hcounts

end Verdict

section Parts

variable {p : Problem} {settings : Settings} {options : InstanceOptions} {catalog : Catalog}
  {vs : List Variable} {cs : List Constraint} {e : Encoder Instance} {T : List Step}

/-! ## Variables -/

theorem encodeVariables_verdict (hsettings : settings.validate = .ok ())
    (hscheme : settings.scheme ∈ Scheme.all) (hlimit : options.clauseLimit = 0)
    (h : Progress settings options vs [] e T) (hS : Stocked p e) (rest : List Variable) :
    Verdict [] (fun e' => Stocked p e' ∧ ∃ T', Progress settings options (vs ++ rest) [] e' T')
      (encodeVariables p settings rest e) := by
  induction rest generalizing vs e T with
  | nil => exact .accepted (by simp) ⟨hS, T, by rwa [List.append_nil]⟩
  | cons v rest ih =>
    have hkeeps := keeps_encodeVariables (Instance.stable_variableCount Literal.limit) p settings
      rest
    rcases declaration_accepted hsettings hscheme hlimit h hS v (p.mentions v.name) with
      ⟨e₁, hrun, hS₁⟩ | hfull
    · -- no fault arises, so there is none to be blamed on the variable
      have hnext := ih (declaration_progress h hrun) hS₁
      rw [← encodeVariable_eq] at hrun
      have hcons : encodeVariables p settings (v :: rest) e = encodeVariables p settings rest e₁ :=
        Run.bind_of_ok (blame_eq_ok.mpr hrun)
      rw [List.append_assoc, List.singleton_append] at hnext
      rwa [hcons]
    · rw [← encodeVariable_eq] at hfull
      exact .full (Full.bind (Full.blame hfull) hkeeps)

/-! ## Constraints -/

/-- All that is left to do after the variables needs these literals. -/
structure Supplied (p : Problem) (settings : Settings) (options : InstanceOptions)
    (catalog : Catalog) (cs : List Constraint) (e : Encoder Instance) : Prop where
  equipped : Equipped p catalog e.mapping
  progress : ∃ T, Progress settings options catalog.declared cs e T

theorem post_verdict (hsettings : settings.validate = .ok ())
    (hscheme : settings.scheme ∈ Scheme.all) (hfallback : settings.fallback ∈ Scheme.all)
    (hlimit : options.clauseLimit = 0) (hcatalog : p.catalog = some catalog)
    (hproblem : p.validate = .ok ()) (h : Supplied p settings options catalog cs e)
    {c : Constraint} (hc : c ∈ p.constraints) (hfed : c.Fed) :
    Verdict [c] (Supplied p settings options catalog (cs ++ [c])) (post settings catalog c e) := by
  obtain ⟨T, hT⟩ := h.progress
  unfold post
  rcases posting_outcome hsettings hscheme hfallback hlimit hcatalog hproblem hT h.equipped hc hfed
    with hfull | ⟨hcounts, e', hrun, hequipped⟩ | ⟨hcounts, left, hrun⟩
  · exact .full (Full.blame hfull)
  · rw [blame_eq_ok.mpr hrun]
    exact .accepted (by simpa using hcounts) ⟨hequipped, _, posting_progress hT hrun⟩
  · rw [hrun]
    exact .refused (List.mem_singleton_self c) hcounts

theorem encodeConstraints_verdict (hsettings : settings.validate = .ok ())
    (hscheme : settings.scheme ∈ Scheme.all) (hfallback : settings.fallback ∈ Scheme.all)
    (hlimit : options.clauseLimit = 0) (hcatalog : p.catalog = some catalog)
    (hproblem : p.validate = .ok ()) (h : Supplied p settings options catalog cs e)
    {rest : List Constraint} (hrest : ∀ c ∈ rest, c ∈ p.constraints ∧ c.Fed) :
    Verdict rest (Supplied p settings options catalog (cs ++ rest))
      (encodeConstraints settings catalog rest e) := by
  induction rest generalizing cs e with
  | nil => exact .accepted (by simp) (by rwa [List.append_nil])
  | cons c rest ih =>
    rw [List.forall_mem_cons] at hrest
    obtain ⟨T, hT⟩ := h.progress
    rw [encodeConstraints_cons (hT.willing hlimit)]
    have hone := post_verdict hsettings hscheme hfallback hlimit hcatalog hproblem h hrest.1.1
      hrest.1.2
    refine Verdict.bind hone (fun e' h' => ?_)
      (keeps_encodeConstraints (Instance.stable_variableCount _) settings catalog rest)
    have hnext := ih h' hrest.2
    rwa [List.append_assoc, List.singleton_append] at hnext

/-! ## The whole problem -/

theorem hardPart_verdict (hsettings : settings.validate = .ok ())
    (hscheme : settings.scheme ∈ Scheme.all) (hfallback : settings.fallback ∈ Scheme.all)
    (hlimit : options.clauseLimit = 0) (hcatalog : p.catalog = some catalog)
    (hproblem : p.validate = .ok ()) (hfed : ∀ c ∈ p.constraints, c.Fed)
    (h : Progress settings options [] [] e T) (hS : Stocked p e) :
    Verdict p.constraints (Supplied p settings options catalog p.constraints)
      (hardPart p settings catalog e) := by
  have hkeeps := keeps_encodeConstraints (Instance.stable_variableCount Literal.limit) settings
    catalog p.constraints
  have hvariables := encodeVariables_verdict hsettings hscheme hlimit
    (h.note ⟨.info, "translation.variables", [("count", .number catalog.declared.length),
      ("scheme", .text settings.scheme.text)]⟩) (hS.note _) catalog.declared
  refine Verdict.bind hvariables (fun e₁ h₁ => ?_) ((keeps_note _).bind hkeeps)
  obtain ⟨hS₁, T₁, hT₁⟩ := h₁
  by_cases hlim : e₁.variableCount < Literal.limit
  swap
  · exact .full (full_of_le ((keeps_note _).bind hkeeps) (Nat.not_lt.mp hlim))
  have hall : ∀ c ∈ p.constraints, c ∈ p.constraints ∧ c.Fed := fun c hc => ⟨hc, hfed c hc⟩
  have hsupplied : Supplied p settings options catalog []
      (e₁.note ⟨.info, "translation.constraints", [("count", .number p.constraints.length)]⟩) :=
    ⟨hS₁.equip hlim hT₁, T₁, hT₁.note _⟩
  exact encodeConstraints_verdict hsettings hscheme hfallback hlimit hcatalog hproblem hsupplied
    hall

/-- Preferences are written or left out, and the lines of the file stay whole. -/
theorem softPart_verdict (hlimit : options.clauseLimit = 0)
    (hweighted : options.weighted = settings.weighted)
    (h : Supplied p settings options catalog cs e) :
    Verdict [] (fun e' => ∃ ls, e'.writer.Has ls) (softPart p settings e) := by
  obtain ⟨T, hT⟩ := h.progress
  by_cases hlim : e.variableCount < Literal.limit
  swap
  · exact .full (full_of_le (keeps_softPart (Instance.stable_variableCount _) p settings)
      (Nat.not_lt.mp hlim))
  unfold softPart
  split
  · next hsoft =>
    have hfile : e.writer.options.weighted = true := by
      rw [hT.written.options, hweighted]
      exact hsoft
    obtain ⟨w, hrun, hwrites⟩ := encodePreferences_ok (hT.ready hlim).represented hT.lists
      (hT.willing hlimit) hfile p.preferences
    rw [hrun]
    exact .accepted (by simp) ⟨_, hT.written.has.writes hwrites⟩
  · split
    · exact .accepted (by simp) ⟨_, hT.written.has⟩
    · exact .accepted (by simp) ⟨_, hT.written.has⟩

/-- The file that is left has literals for all its variables, and a number of clauses that is a
word. -/
structure Roomy (result : EStateM.Result Stop (Encoder Instance) Unit) : Prop where
  literals : (fileLeft result).variableCount < Literal.limit
  clauses : (fileLeft result).clauses < wordCount

/-- A problem is encoded unless one of its constraints counts and is reified. -/
theorem encode_verdict (hsettings : settings.validate = .ok ())
    (hscheme : settings.scheme ∈ Scheme.all) (hfallback : settings.fallback ∈ Scheme.all)
    (hlimit : options.clauseLimit = 0) (hweighted : options.weighted = settings.weighted)
    (hcatalog : p.catalog = some catalog) (hproblem : p.validate = .ok ())
    (hfed : ∀ c ∈ p.constraints, c.Fed) (h : Progress settings options [] [] e T)
    (hS : Stocked p e) (hroom : Roomy (encode p settings catalog e)) :
    Verdict p.constraints (fun _ => True) (encode p settings catalog e) := by
  have hsoft := keeps_softPart (Instance.stable_variableCount Literal.limit) p settings
  have hparts : Verdict (p.constraints ++ []) (fun e' => ∃ ls, e'.writer.Has ls)
      ((hardPart p settings catalog >>= fun _ => softPart p settings) e) :=
    Verdict.bind (hardPart_verdict hsettings hscheme hfallback hlimit hcatalog hproblem hfed h hS)
      (fun e' h' => softPart_verdict hlimit hweighted h') hsoft
  have hencode : encode p settings catalog =
      ((hardPart p settings catalog >>= fun _ => softPart p settings) >>=
        fun _ => Encoder.onWriter Instance.finalize) := by
    rw [encode_eq, bind_assoc]
  rw [hencode] at hroom ⊢
  rw [List.append_nil] at hparts
  generalize (hardPart p settings catalog >>= fun _ => softPart p settings) = x at hparts hroom ⊢
  generalize hresult : x e = result at hparts
  cases hparts with
  | full hfull =>
    exact .full (Full.bind (hresult ▸ hfull)
      (keeps_onWriter fun i hi => (Instance.stable_variableCount _).finalize hi))
  | refused hc hcounts =>
    rw [Run.bind_of_error hresult]
    exact .refused hc hcounts
  | @accepted e' hnone hlines =>
    rw [Run.bind_of_ok hresult] at hroom ⊢
    obtain ⟨ls, hls⟩ := hlines
    -- finishing leaves the totals as they are, so the header has room for them
    have hvariables := hroom.literals
    have hclauses := hroom.clauses
    rw [fileLeft_onWriter, Instance.finalize_same] at hvariables hclauses
    have hword : Literal.limit < wordCount := by decide
    obtain ⟨w, hw, -, -⟩ := hls.finalize
      (Instance.length_header_le (Nat.lt_trans hvariables hword) hclauses)
    have hfinalize : Encoder.onWriter Instance.finalize e' = .ok () { e' with writer := w } :=
      Encoder.onWriter_eq_ok.mpr ⟨w, hw, rfl⟩
    rw [hfinalize]
    exact .accepted hnone trivial

end Parts

/-! ## Reductions -/

/-- A constraint over no variables. -/
def loneProblem (c : Constraint) : Problem := { reference := .present {}, constraints := [c] }

/-- There are no variables, so what comes first is the constraint: where it cannot be posted, the
reduction stops for that reason. -/
theorem exists_stop_of_post {store : Store} {c : Constraint} {settings : Settings} {path : String}
    {P : Stop → Prop} (hcheck : precheck (loneProblem c) settings = .ok (.present {}))
    (hwrite : store.writeFault path = none) (hlimit : settings.clauseLimit = 0)
    (hpost : ∀ e : Encoder Instance, e.writer.Willing → e.mapping = {} →
      ∃ stop left, post settings {} c e = .error stop left ∧ P stop) :
    ∃ stop, (ofProblem store (loneProblem c) settings path).result = .error stop ∧ P stop := by
  obtain ⟨start, hstart⟩ : ∃ start : Encoder Instance, start =
    { writer := Instance.create path (instanceOptions settings) } := ⟨_, rfl⟩
  obtain ⟨e, he⟩ : ∃ e, e = (start.note ⟨.info, "translation.variables", [("count", .number 0),
    ("scheme", .text settings.scheme.text)]⟩).note
      ⟨.info, "translation.constraints", [("count", .number 1)]⟩ := ⟨_, rfl⟩
  have hhard : hardPart (loneProblem c) settings {} start =
      encodeConstraints settings {} [c] e := by rw [he]; rfl
  have hwilling : e.writer.Willing := by
    rw [he, hstart]
    exact ⟨rfl, rfl, hlimit⟩
  obtain ⟨stop, left, hstop, hP⟩ := hpost e hwilling (by rw [he, hstart]; rfl)
  rw [encodeConstraints_cons hwilling, Run.bind_of_error hstop] at hhard
  have hrun : encode (loneProblem c) settings {} start = .error stop left := by
    rw [encode_eq, Run.bind_of_error hhard]
  rw [hstart] at hrun
  exact ⟨stop, ofProblem_of_error hcheck hwrite hrun, hP⟩

/-- At most one of two ones. -/
def pairConstraint : Constraint := { rule := .atMostOne, operands := [.const 1, .const 1] }

/-- A scheme that is valid but not spelled as one that can be used is refused. -/
theorem pair_refused : ∃ stop,
    (ofProblem {} (loneProblem pairConstraint) { scheme := .other "LADDER" } "pair.cnf").result =
      .error stop ∧ ∃ fault, stop = .fault fault := by
  refine exists_stop_of_post (by cbv) (by decide +kernel) rfl ?_
  intro e hwilling hmapping
  obtain ⟨entry, hposting⟩ := @posting_eq { scheme := .other "LADDER" } {} e pairConstraint
    (by rw [hmapping]; rfl)
  rw [post, hposting, run_cons_of_ok (take_comment hwilling _)]
  exact ⟨_, _, rfl, _, rfl⟩

/-- A test that reads two values, given one. -/
def starvedConstraint : Constraint :=
  { rule := .relation (some { arity := 2, holds := fun _ => true }), operands := [.const 1] }

theorem starved_misused : ∃ stop,
    (ofProblem {} (loneProblem starvedConstraint) {} "out.cnf").result = .error stop ∧
      stop = .misuse .machineFault := by
  refine exists_stop_of_post (by cbv) (by decide +kernel) rfl ?_
  intro e hwilling hmapping
  obtain ⟨entry, hposting⟩ := @posting_eq {} {} e starvedConstraint (by rw [hmapping]; rfl)
  rw [post, hposting, run_cons_of_ok (take_comment hwilling _)]
  exact ⟨_, _, rfl, rfl⟩

end Clausify.Reduction
