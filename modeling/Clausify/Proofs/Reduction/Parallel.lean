import Mathlib
import Clausify.Proofs.Reduction.Acceptance

/-!
Encodings in step. Files without limit take the same clauses, whatever weights they write in front
of them (`Instance.Abreast`). So a problem is encoded with weights and without by the same steps and
to the same tables: as soon as one of the two encodings comes to its end, both do (`Parallel`).
Main statement: `hardPart_parallel`, for the variables and constraints of a problem.
-/

namespace Clausify

open Dimacs (Line)

/-! ## Files without limit -/

/-- Both files take what they are given, and have the same number of variables. -/
structure Instance.Abreast (i j : Instance) : Prop where
  first : i.Willing
  second : j.Willing
  variableCount : i.variableCount = j.variableCount

namespace Instance.Abreast

variable {i j i' j' : Instance} {ls ls' : List Line}

theorem writes (h : Abreast i j) (hi : i.Writes i' ls) (hj : j.Writes j' ls') : Abreast i' j' :=
  ⟨h.first.writes hi, h.second.writes hj, by
    rw [hi.variableCount, hj.variableCount, h.variableCount]⟩

theorem addComment (h : Abreast i j) {text : String}
    (hok : Instance.addComment text j = .ok () j') :
    ∃ i', Instance.addComment text i = .ok () i' ∧ Abreast i' j' := by
  have hj := addComment_writes text j
  rw [hok] at hj
  exact ⟨_, h.first.addComment text, h.writes (addComment_writes text i) hj⟩

/-- Whether a clause is refused depends on the clause alone. -/
theorem addClause (h : Abreast i j) {c : Clause} (hok : Instance.addClause c j = .ok () j') :
    ∃ i', Instance.addClause c i = .ok () i' ∧ Abreast i' j' := by
  have hj := addClause_writes c j
  rw [hok] at hj
  cases hreduce : c.reduce with
  | error misuse =>
    simp [Instance.addClause, h.second.isOpen, h.second.context, hreduce] at hok
  | ok o =>
    have hreduce' : Clause.reduce (i.context ++ c) = .ok o := by rw [h.first.context]; exact hreduce
    exact ⟨_, addClause_ok h.first.isOpen hreduce' (.inl h.first.unlimited),
      h.writes (addClause_writes c i) hj⟩

end Instance.Abreast

namespace Reduction

open Step

/-- Files without limit side by side. Neither is refused anything that the other one takes. -/
def unlimited : Pairing where
  pair := Instance.Abreast
  refused _ := False
  beyond _ := False
  stable := ⟨fun _ h => h, id, id⟩
  during _ h := h
  count h := h.variableCount
  addVariable h := ⟨⟨h.first.isOpen, h.first.context, h.first.unlimited⟩,
    ⟨h.second.isOpen, h.second.context, h.second.unlimited⟩, congrArg (· + 1) h.variableCount⟩
  addComment h hok := h.addComment hok
  addClause h hok := .inl (h.addClause hok)

/-! ## Two encodings -/

section Parallel

variable {s : Bool → Settings} {o : Bool → InstanceOptions} {p : Problem} {catalog : Catalog}
  {vs : List Variable} {cs : List Constraint} {d : Bool → Encoder Instance} {T U : List Step}
  {w : Bool} {e : Encoder Instance}

/-- Two encodings of a problem have come equally far, by the same steps and to the same tables. -/
structure Parallel (s : Bool → Settings) (o : Bool → InstanceOptions) (p : Problem)
    (vs : List Variable) (cs : List Constraint) (d : Bool → Encoder Instance) (T : List Step) :
    Prop where
  progress : ∀ w, Progress (s w) (o w) vs cs (d w) T
  stocked : ∀ w, Stocked p (d w)
  mapping : ∀ w w', (d w).mapping = (d w').mapping
  shapes : ∀ w w', (d w).shapes = (d w').shapes

theorem Parallel.note (h : Parallel s o p vs cs d T) (entry : Bool → JournalEntry) :
    Parallel s o p vs cs (fun w => (d w).note (entry w)) T :=
  ⟨fun w => (h.progress w).note _, fun w => (h.stocked w).note _, h.mapping, h.shapes⟩

theorem Parallel.variableCount (h : Parallel s o p vs cs d T) (w w' : Bool) :
    (d w).variableCount = (d w').variableCount :=
  (h.progress w).written.count.trans (h.progress w').written.count.symm

variable (hfree : ∀ w, (o w).clauseLimit = 0)
include hfree

theorem Parallel.run (h : Parallel s o p vs cs d T) (hrun : Encoder.run U (d w) = .ok () e) :
    ∃ d' : Bool → Encoder Instance, (∀ w', Encoder.run U (d w') = .ok () (d' w')) ∧
      (∀ w w', (d' w).mapping = (d' w').mapping) ∧ ∀ w w', (d' w).shapes = (d' w').shapes := by
  -- each of them follows the one that came to its end, itself included
  have hone : ∀ w', ∃ d', Encoder.run U (d w') = .ok () d' ∧ unlimited.Beside d' e := by
    intro w'
    have hbeside : unlimited.Beside (d w') (d w) :=
      ⟨⟨(h.progress w').willing (hfree w'), (h.progress w).willing (hfree w),
        h.variableCount w' w⟩, h.mapping w' w, h.shapes w' w⟩
    rcases Pairing.follows_run U hbeside hrun with hok | ⟨fault, d', -, hrefused, -⟩
    · exact hok
    · exact hrefused.elim
  choose d' hok hbeside using hone
  exact ⟨d', hok, fun w w' => (hbeside w).mapping.trans (hbeside w').mapping.symm,
    fun w w' => (hbeside w).shapes.trans (hbeside w').shapes.symm⟩

variable (hsame : ∀ w w', (s w).SameClauses (s w'))
include hsame

theorem Parallel.declare (h : Parallel s o p vs [] d T) {v : Variable} {constrained : Bool}
    (hrun : Encoder.run (declaration (s w) v (p.needsOf v.name) constrained (d w)) (d w) =
      .ok () e) :
    ∃ d' T', (∀ w', Encoder.run (declaration (s w') v (p.needsOf v.name) constrained (d w'))
      (d w') = .ok () (d' w')) ∧ Parallel s o p (vs ++ [v]) [] d' T' := by
  -- the steps depend on the shapes and the number of variables, in which the two agree
  have hsteps : ∀ w', declaration (s w) v (p.needsOf v.name) constrained (d w) =
      declaration (s w') v (p.needsOf v.name) constrained (d w') := fun w' =>
    declaration_congr (hsame w' w) (h.shapes w w') (h.variableCount w w') _ _ _
  obtain ⟨d', hok, hmapping, hshapes⟩ := h.run hfree hrun
  have hok' : ∀ w', Encoder.run (declaration (s w') v (p.needsOf v.name) constrained (d w'))
      (d w') = .ok () (d' w') := fun w' => hsteps w' ▸ hok w'
  refine ⟨d', T ++ declaration (s w) v (p.needsOf v.name) constrained (d w), hok',
    fun w' => ?_, fun w' => ?_, hmapping, hshapes⟩
  · have := declaration_progress (h.progress w') (hok' w')
    rwa [← hsteps w'] at this
  · exact (h.stocked w').declare (h.progress w').lists (hok' w')

theorem encodeVariables_parallel (h : Parallel s o p vs [] d T) {rest : List Variable}
    (hrun : encodeVariables p (s w) rest (d w) = .ok () e) :
    ∃ d' T', (∀ w', encodeVariables p (s w') rest (d w') = .ok () (d' w')) ∧
      Parallel s o p (vs ++ rest) [] d' T' := by
  induction rest generalizing vs d T with
  | nil => exact ⟨d, T, fun _ => rfl, by rwa [List.append_nil]⟩
  | cons v rest ih =>
    obtain ⟨u, e₁, hone, hrest⟩ := Run.bind_eq_ok.mp hrun
    rw [blame_eq_ok, encodeVariable_eq] at hone
    obtain ⟨d₁, T₁, hok₁, h₁⟩ := h.declare hfree hsame hone
    obtain rfl : d₁ w = e₁ := (EStateM.Result.ok.inj ((hok₁ w).symm.trans hone)).2
    obtain ⟨d', T', hok', h'⟩ := ih h₁ hrest
    refine ⟨d', T', fun w' => ?_, by rwa [List.append_assoc, List.singleton_append] at h'⟩
    have hblame := hok₁ w'
    rw [← encodeVariable_eq, ← blame_eq_ok] at hblame
    exact (Run.bind_of_ok hblame).trans (hok' w')

theorem Parallel.post (h : Parallel s o p catalog.declared cs d T) {c : Constraint}
    (hrun : Reduction.post (s w) catalog c (d w) = .ok () e) :
    ∃ d' T', (∀ w', Reduction.post (s w') catalog c (d w') = .ok () (d' w')) ∧
      Parallel s o p catalog.declared (cs ++ [c]) d' T' := by
  -- here on the mapping and the number of variables
  have hsteps : ∀ w', posting (s w) catalog c (d w) = posting (s w') catalog c (d w') :=
    fun w' => posting_congr (hsame w' w) (h.mapping w w') (h.variableCount w w') _ _
  obtain ⟨d', hok, hmapping, hshapes⟩ := h.run hfree (blame_eq_ok.mp hrun)
  have hok' : ∀ w', Encoder.run (posting (s w') catalog c (d w')) (d w') = .ok () (d' w') :=
    fun w' => hsteps w' ▸ hok w'
  refine ⟨d', T ++ posting (s w) catalog c (d w), fun w' => blame_eq_ok.mpr (hok' w'),
    fun w' => ?_, fun w' => ?_, hmapping, hshapes⟩
  · have := posting_progress (h.progress w') (hok' w')
    rwa [← hsteps w'] at this
  · exact (h.stocked w').post (hok' w')

theorem encodeConstraints_parallel (h : Parallel s o p catalog.declared cs d T)
    {rest : List Constraint} (hrun : encodeConstraints (s w) catalog rest (d w) = .ok () e) :
    ∃ d' T', (∀ w', encodeConstraints (s w') catalog rest (d w') = .ok () (d' w')) ∧
      Parallel s o p catalog.declared (cs ++ rest) d' T' := by
  induction rest generalizing cs d T with
  | nil => exact ⟨d, T, fun _ => rfl, by rwa [List.append_nil]⟩
  | cons c rest ih =>
    -- the comment is written first, so it is taken as a step of the constraint
    have hcons : ∀ w', encodeConstraints (s w') catalog (c :: rest) (d w') =
        (Reduction.post (s w') catalog c >>= fun _ => encodeConstraints (s w') catalog rest)
          (d w') :=
      fun w' => encodeConstraints_cons ((h.progress w').willing (hfree w')) c rest
    rw [hcons] at hrun
    obtain ⟨u, e₁, hone, hrest⟩ := Run.bind_eq_ok.mp hrun
    obtain ⟨d₁, T₁, hok₁, h₁⟩ := h.post hfree hsame hone
    obtain rfl : d₁ w = e₁ := (EStateM.Result.ok.inj ((hok₁ w).symm.trans hone)).2
    obtain ⟨d', T', hok', h'⟩ := ih h₁ hrest
    refine ⟨d', T', fun w' => ?_, by rwa [List.append_assoc, List.singleton_append] at h'⟩
    rw [hcons, Run.bind_of_ok (hok₁ w')]
    exact hok' w'

/-- If one of the encodings gets through the variables and constraints, so do both, in step. -/
theorem hardPart_parallel (h : Parallel s o p [] [] d T)
    (hrun : hardPart p (s w) catalog (d w) = .ok () e) :
    ∃ d' T', (∀ w', hardPart p (s w') catalog (d w') = .ok () (d' w')) ∧
      Parallel s o p catalog.declared p.constraints d' T' := by
  -- the notes go to the journal, which no step reads
  obtain ⟨entry, hentry⟩ : ∃ entry : Bool → JournalEntry, entry = fun w =>
    ⟨.info, "translation.variables", [("count", .number catalog.declared.length),
      ("scheme", .text (s w).scheme.text)]⟩ := ⟨_, rfl⟩
  obtain ⟨entry', hentry'⟩ : ∃ entry' : Bool → JournalEntry, entry' = fun _ =>
    ⟨.info, "translation.constraints", [("count", .number p.constraints.length)]⟩ := ⟨_, rfl⟩
  have hparts : ∀ w', hardPart p (s w') catalog (d w') =
      (encodeVariables p (s w') catalog.declared >>= fun _ => Reduction.note (entry' w') >>=
        fun _ => encodeConstraints (s w') catalog p.constraints) ((d w').note (entry w')) := by
    intro w'
    rw [hentry, hentry']
    rfl
  rw [hparts] at hrun
  obtain ⟨u, e₁, hvariables, hrest⟩ := Run.bind_eq_ok.mp hrun
  obtain ⟨d₁, T₁, hok₁, h₁⟩ := encodeVariables_parallel hfree hsame (h.note entry) hvariables
  obtain rfl : d₁ w = e₁ := (EStateM.Result.ok.inj ((hok₁ w).symm.trans hvariables)).2
  obtain ⟨d', T', hok', h'⟩ := encodeConstraints_parallel hfree hsame (h₁.note entry') hrest
  refine ⟨d', T', fun w' => ?_, h'⟩
  rw [hparts, Run.bind_of_ok (hok₁ w')]
  exact hok' w'

end Parallel

end Reduction

end Clausify
