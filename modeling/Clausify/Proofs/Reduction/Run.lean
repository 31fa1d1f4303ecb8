import Mathlib
import Clausify.Reduction.Basic
import Clausify.Proofs.Encoding.Constraint
import Clausify.Proofs.Encoding.Written
import Clausify.Proofs.Problem.Valid

/-!
The run of a reduction. All steps taken so far are kept in one list; a variable adds the steps of
its shape and a constraint its clauses (`declaration_progress`, `posting_progress`).
After all of them the clauses of the steps are satisfied by the valuations that read solutions of
the problem, as long as there are literals for all variables, and the finished file holds these
clauses. Main statement: a reduction that succeeds is such a list of steps (`reduced_of_ok`).
-/

namespace Clausify

theorem Run.bind_eq_ok {σ α β : Type} {x : Run σ α} {f : α → Run σ β} {s s'' : σ} {b : β} :
    (x >>= f) s = .ok b s'' ↔ ∃ a s', x s = .ok a s' ∧ f a s' = .ok b s'' := by
  show EStateM.bind x f s = _ ↔ _
  unfold EStateM.bind
  cases x s with
  | ok a s' => simp
  | error stop s' => simp

theorem Run.bind_of_ok {σ α β : Type} {x : Run σ α} {f : α → Run σ β} {s s' : σ} {a : α}
    (h : x s = .ok a s') : (x >>= f) s = f a s' := by
  show EStateM.bind x f s = _
  rw [EStateM.bind, h]

theorem Run.bind_of_error {σ α β : Type} {x : Run σ α} {f : α → Run σ β} {s s' : σ} {stop : Stop}
    (h : x s = .error stop s') : (x >>= f) s = .error stop s' := by
  show EStateM.bind x f s = _
  rw [EStateM.bind, h]

namespace Reduction

open Step

/-- The domains that are entered are those of the declared variables, the first of a name. -/
def Declares (vs : List Variable) (T : List Step) : Prop :=
  ∀ x d, .domain x d ∈ T ↔ (⟨vs⟩ : Catalog).domain? x = some d

theorem Declares.again {vs : List Variable} {T : List Step} (h : Declares vs T) {v : Variable}
    (hv : ∃ d, .domain v.name d ∈ T) : Declares (vs ++ [v]) T := by
  obtain ⟨d₀, hd₀⟩ := hv
  intro x d
  rw [h]
  cases hx : (⟨vs⟩ : Catalog).domain? x with
  | some d' => rw [Catalog.domain?_append_of_some hx]
  | none =>
    have hne : v.name ≠ x := by
      rintro rfl
      rw [h, hx] at hd₀
      simp at hd₀
    rw [Catalog.domain?_append_of_none hx, if_neg hne]

theorem Declares.enter {vs : List Variable} {T H B : List Step} (h : Declares vs T) {v : Variable}
    (hE : Enters v.name v.domain T H B) : Declares (vs ++ [v]) (T ++ (H ++ B)) := by
  intro x d
  rw [hE.domain_mem_iff, h]
  cases hx : (⟨vs⟩ : Catalog).domain? x with
  | some d' =>
    have hne : x ≠ v.name := by
      rintro rfl
      exact hE.free d' ((h _ _).mpr hx)
    rw [Catalog.domain?_append_of_some hx]
    simp [hne]
  | none =>
    rw [Catalog.domain?_append_of_none hx]
    by_cases hxv : v.name = x
    · simp [hxv, eq_comm]
    · simp [hxv, Ne.symm hxv]

theorem blame_eq_ok {σ : Type} {subject : Subject} {result : EStateM.Result Stop σ Unit} {s : σ} :
    blame subject result = .ok () s ↔ result = .ok () s := by
  cases result with
  | ok u s' => rfl
  | error stop s' => cases stop <;> simp [blame]

/-! ## The steps of a variable -/

section Declaration

variable {W : Type} [ClauseWriter W] {settings : Settings} {e e' : Encoder W} {T : List Step}

theorem entered_of_run {v : Variable} {shape : Shape} {constrained : Bool} {count : Nat}
    (hrun : Encoder.run (Encoding.variableSteps settings count v shape constrained) e = .ok () e') :
    ∃ e₁ : Encoder W, Mapping.setDomain v.name v.domain e.mapping = .ok () e₁.mapping ∧
      Encoder.run (Encoding.shapeSteps settings count v constrained shape) e₁ = .ok () e' := by
  obtain ⟨e₁, h₁, hrun⟩ := Encoder.run_cons_eq_ok.mp hrun
  obtain ⟨e₂, h₂, hrun⟩ := Encoder.run_cons_eq_ok.mp hrun
  obtain ⟨e₃, h₃, hrun⟩ := Encoder.run_cons_eq_ok.mp hrun
  obtain ⟨e₄, h₄, hrun⟩ := Encoder.run_cons_eq_ok.mp hrun
  obtain ⟨m, hm, rfl⟩ := Encoder.onMapping_eq_ok.mp h₄
  have hmapping : e₃.mapping = e.mapping := by
    obtain ⟨w, -, rfl⟩ := Encoder.onWriter_eq_ok.mp h₃
    rw [← (EStateM.Result.ok.inj h₂).2, ← (EStateM.Result.ok.inj h₁).2]
    rfl
  rw [hmapping] at hm
  exact ⟨_, hm, hrun⟩

theorem free_of_run {v : Variable} {shape : Shape} {constrained : Bool} {count : Nat}
    (hlists : e.mapping.Lists T)
    (hrun : Encoder.run (Encoding.variableSteps settings count v shape constrained) e = .ok () e') :
    ∀ d, .domain v.name d ∉ T := by
  obtain ⟨e₁, hm, -⟩ := entered_of_run hrun
  intro d hd
  have hfree := (Mapping.setDomain_eq_ok hm).1
  rw [(hlists.domains v.name d).mpr hd] at hfree
  simp at hfree

/-- The steps that encode a variable, none when its shape is on record. -/
def declaration (settings : Settings) (v : Variable) (needs : Representation) (constrained : Bool)
    (e : Encoder W) : List Step :=
  match e.shapes.lookup v.name with
  | some _ => []
  | none => Encoding.variableSteps settings e.variableCount v
      (Shape.choose settings v.domain.size (needs.union v.needs)) constrained

theorem encodeVariable_eq (settings : Settings) (v : Variable) (needs : Representation)
    (constrained : Bool) (e : Encoder W) :
    (Encoding.encodeVariable settings v needs constrained e).2 =
      Encoder.run (declaration settings v needs constrained e) e := by
  unfold Encoding.encodeVariable declaration
  cases e.shapes.lookup v.name <;> rfl

/-- A variable that is encoded for the first time is entered, followed by the block of its
shape, provided that there are literals for all variables. -/
theorem declaration_enters (hlists : e.mapping.Lists T) (hcount : e.variableCount = freshCount T)
    {v : Variable} {needs : Representation} {constrained : Bool}
    (hnew : e.shapes.lookup v.name = none)
    (hrun : Encoder.run (declaration settings v needs constrained e) e = .ok () e')
    (hlim : freshCount (T ++ declaration settings v needs constrained e) < Literal.limit) :
    ∃ H, declaration settings v needs constrained e = H ++ Encoding.shapeSteps settings
        (freshCount T) v constrained (Shape.choose settings v.domain.size (needs.union v.needs)) ∧
      Enters v.name v.domain T H (Encoding.shapeSteps settings (freshCount T) v constrained
        (Shape.choose settings v.domain.size (needs.union v.needs))) ∧
      ∀ x s, e'.shapes.lookup x = some s →
        (∃ old, e.shapes.lookup x = some old) ∨ x = v.name := by
  obtain ⟨shape, hshape⟩ : ∃ shape, shape =
    Shape.choose settings v.domain.size (needs.union v.needs) := ⟨_, rfl⟩
  have hdeclaration : declaration settings v needs constrained e =
      Encoding.variableSteps settings e.variableCount v shape constrained := by
    simp only [declaration, hnew, hshape]
  rw [hdeclaration] at hrun hlim ⊢
  have hfree := free_of_run hlists hrun
  -- the entries of the variable itself, and the steps of its shape
  obtain ⟨H, hH⟩ : ∃ H : List Step, H = [.shape v.name shape,
    .note ⟨.debug, "encoding.variable", [("variable", .text v.name),
      ("domain", .text v.domain.text), ("shape", .text shape.text)]⟩,
    .comment (Encoding.variableComment v shape), .domain v.name v.domain] := ⟨_, rfl⟩
  obtain ⟨B, hB⟩ : ∃ B, B = Encoding.shapeSteps settings (freshCount T) v constrained shape :=
    ⟨_, rfl⟩
  have hsteps : Encoding.variableSteps settings e.variableCount v shape constrained = H ++ B := by
    rw [hH, hB, ← hcount]
    rfl
  rw [hsteps] at hrun hlim ⊢
  have hquiet : Step.emissions H = [] := by rw [hH]; rfl
  have hfresh : freshCount (T ++ (H ++ B)) = freshCount T + freshCount B := by
    rw [freshCount_append, freshCount_append, freshCount, freshCount, freshCount, hquiet]
    simp
  have hblock : Block v.name v.domain.values (freshCount T) B := by
    rw [hfresh] at hlim
    rw [hB, hshape] at hlim ⊢
    refine shapeSteps_block (fun r hr => ?_) hlim
    refine Encoder.run_no_stop hrun r (List.mem_append_right _ ?_)
    rw [hB, hshape]
    exact hr
  rw [← hshape, ← hB]
  have hE : Enters v.name v.domain T H B :=
    ⟨hfree, by simp [hH], by rw [hH]; simp [Silent], hquiet, hblock⟩
  refine ⟨H, rfl, hE, fun x s hs => ?_⟩
  refine ((Encoder.run_shapes hrun).mp ⟨s, hs⟩).imp_right fun hentry => ?_
  obtain ⟨new, hnew⟩ := hentry
  rcases List.mem_append.mp hnew with hnew | hnew
  · rw [hH] at hnew
    simp only [List.mem_cons, Step.shape.injEq, reduceCtorEq, List.not_mem_nil, or_false] at hnew
    exact hnew.1
  · exact (hblock.owned _ hnew).elim

end Declaration

/-- The steps `T` represent the variables `vs` and their clauses say that the constraints `cs`
hold. -/
structure Meaning (settings : Settings) (vs : List Variable) (cs : List Constraint)
    (shapes : Table String Shape) (T : List Step) : Prop where
  domains : Declares vs T
  shapes : ∀ x s, shapes.lookup x = some s → ∃ d, .domain x d ∈ T
  represented : Represented T
  faithful : Faithful (settings.auxNonFunctional = false) T fun a =>
    InDomains T a ∧ ∀ c ∈ cs, c.Holds a

/-- How far an encoding has come: the variables `vs` are encoded and the constraints `cs` posted
by the steps `T`, provided that there are literals for all variables. -/
structure Progress (settings : Settings) (options : InstanceOptions) (vs : List Variable)
    (cs : List Constraint) (e : Encoder Instance) (T : List Step) : Prop where
  written : e.writer.Written options T
  lists : e.mapping.Lists T
  meaning : freshCount T < Literal.limit → Meaning settings vs cs e.shapes T

section

variable {settings : Settings} {options : InstanceOptions} {vs : List Variable}
  {cs : List Constraint} {e e' : Encoder Instance} {T : List Step}

theorem meaning_nil (settings : Settings) : Meaning settings [] [] [] [] := by
  refine ⟨?_, ?_, represented_nil, (faithful_nil _).congr fun a => by simp⟩
  · simp [Declares, Catalog.domain?, Catalog.find?]
  · simp

theorem progress_start (settings : Settings) (path : String) (options : InstanceOptions) :
    Progress settings (Instance.create path options).options [] []
      { writer := Instance.create path options } [] where
  written := ⟨Instance.has_create path options, rfl, rfl, rfl, rfl⟩
  lists := Mapping.lists_empty
  meaning _ := meaning_nil settings

theorem Progress.note (h : Progress settings options vs cs e T) (entry : JournalEntry) :
    Progress settings options vs cs (e.note entry) T :=
  ⟨h.written, h.lists, h.meaning⟩

/-! ## Variables -/

theorem Meaning.again {shapes : Table String Shape} (h : Meaning settings vs [] shapes T)
    {v : Variable} {shape : Shape} (hshape : shapes.lookup v.name = some shape) :
    Meaning settings (vs ++ [v]) [] shapes T :=
  ⟨h.domains.again (h.shapes _ _ hshape), h.shapes, h.represented, h.faithful⟩

theorem exists_domain_enter {shapes shapes' : Table String Shape} {v : Variable}
    {H B : List Step} (h : ∀ x s, shapes.lookup x = some s → ∃ d, .domain x d ∈ T)
    (hE : Enters v.name v.domain T H B)
    (hshapes : ∀ x s, shapes'.lookup x = some s →
      (∃ old, shapes.lookup x = some old) ∨ x = v.name) :
    ∀ x s, shapes'.lookup x = some s → ∃ d, .domain x d ∈ T ++ (H ++ B) := by
  intro x s hs
  rcases hshapes x s hs with ⟨old, hold⟩ | rfl
  · obtain ⟨d, hd⟩ := h x old hold
    exact ⟨d, List.mem_append_left _ hd⟩
  · exact ⟨v.domain, hE.domain_mem_iff.mpr (.inr ⟨rfl, rfl⟩)⟩

theorem Meaning.enter {shapes shapes' : Table String Shape} {v : Variable} {H B : List Step}
    (h : Meaning settings vs [] shapes T) (hE : Enters v.name v.domain T H B)
    (hshapes : ∀ x s, shapes'.lookup x = some s →
      (∃ old, shapes.lookup x = some old) ∨ x = v.name) :
    Meaning settings (vs ++ [v]) [] shapes' (T ++ (H ++ B)) := by
  refine ⟨h.domains.enter hE, exists_domain_enter h.shapes hE hshapes,
    h.represented.append_variable hE, ?_⟩
  have hF : Faithful _ T (InDomains T) := h.faithful.congr fun a => by simp
  exact (hF.append_variable h.represented hE).congr fun a => by simp

/-- A variable is declared by the steps that encode it, whatever they are written to. -/
theorem Meaning.declare {W : Type} [ClauseWriter W] {encoding : Settings} {e e' : Encoder W}
    (h : freshCount T < Literal.limit → Meaning settings vs [] e.shapes T)
    (hlists : e.mapping.Lists T) (hcount : e.variableCount = freshCount T) {v : Variable}
    {needs : Representation} {constrained : Bool}
    (hrun : Encoder.run (declaration encoding v needs constrained e) e = .ok () e')
    (hlim : freshCount (T ++ declaration encoding v needs constrained e) < Literal.limit) :
    Meaning settings (vs ++ [v]) [] e'.shapes
      (T ++ declaration encoding v needs constrained e) := by
  cases hrecord : e.shapes.lookup v.name with
  | some shape =>
    have hnothing : declaration encoding v needs constrained e = [] := by
      simp only [declaration, hrecord]
    rw [hnothing] at hrun hlim ⊢
    obtain rfl := (EStateM.Result.ok.inj hrun).2
    rw [List.append_nil] at hlim ⊢
    exact (h hlim).again hrecord
  | none =>
    obtain ⟨H, hsteps, hE, hshapes⟩ := declaration_enters hlists hcount hrecord hrun hlim
    rw [hsteps] at hlim ⊢
    have hfresh := hE.freshCount_eq
    exact (h (by omega)).enter hE hshapes

theorem declaration_progress (h : Progress settings options vs [] e T) {v : Variable}
    {needs : Representation} {constrained : Bool}
    (hrun : Encoder.run (declaration settings v needs constrained e) e = .ok () e') :
    Progress settings options (vs ++ [v]) [] e'
      (T ++ declaration settings v needs constrained e) :=
  ⟨Encoder.run_written h.written hrun, Encoder.run_lists h.lists hrun,
    Meaning.declare h.meaning h.lists h.written.count hrun⟩

theorem encodeVariables_progress {p : Problem} {rest : List Variable}
    (h : Progress settings options vs [] e T)
    (hrun : encodeVariables p settings rest e = .ok () e') :
    ∃ T', Progress settings options (vs ++ rest) [] e' T' := by
  induction rest generalizing vs e T with
  | nil =>
    obtain rfl := (EStateM.Result.ok.inj hrun).2
    exact ⟨T, by rwa [List.append_nil]⟩
  | cons v rest ih =>
    obtain ⟨u, e₁, hone, hrest⟩ := Run.bind_eq_ok.mp hrun
    rw [blame_eq_ok, encodeVariable_eq] at hone
    obtain ⟨T', h'⟩ := ih (declaration_progress h hone) hrest
    exact ⟨T', by rwa [List.append_assoc, List.singleton_append] at h'⟩

/-! ## Constraints -/

theorem plain_constraintSteps (settings : Settings) (catalog : Catalog) (m : Mapping) (count : Nat)
    (c : Constraint) : ∀ s ∈ Encoding.constraintSteps settings catalog m count c, s.Plain := by
  intro s hs
  unfold Encoding.constraintSteps at hs
  split at hs
  · rw [List.mem_singleton.mp hs]
    trivial
  rcases List.mem_cons.mp hs with rfl | hs
  · trivial
  rcases List.mem_append.mp hs with hs | hs
  · obtain ⟨emission, -, rfl⟩ := List.mem_map.mp hs
    trivial
  · obtain ⟨reason, -, rfl⟩ := Option.map_eq_some_iff.mp (Option.mem_toList.mp hs)
    trivial

def posting (settings : Settings) (catalog : Catalog) (c : Constraint) (e : Encoder Instance) :
    List Step :=
  .comment ("Encoding constraint: " ++ c.text) ::
    Encoding.constraintSteps settings catalog e.mapping e.variableCount c

theorem silent_posting (settings : Settings) (catalog : Catalog) (c : Constraint)
    (e : Encoder Instance) : ∀ s ∈ posting settings catalog c e, s.Silent :=
  List.forall_mem_cons.mpr
    ⟨trivial, fun s hs => (plain_constraintSteps settings catalog _ _ c s hs).silent⟩

/-- A comment changes nothing that a constraint is encoded by. -/
theorem run_posting {catalog : Catalog} {c : Constraint} {e₁ : Encoder Instance}
    (hcomment : Encoder.onWriter (Instance.addComment ("Encoding constraint: " ++ c.text)) e =
      .ok () e₁) :
    Encoder.run (posting settings catalog c e) e =
      Encoding.encodeConstraint settings catalog c e₁ := by
  have htake : Encoder.take (.comment ("Encoding constraint: " ++ c.text)) e = .ok () e₁ := hcomment
  obtain ⟨w, hw, rfl⟩ := Encoder.onWriter_eq_ok.mp hcomment
  have hcount : w.variableCount = e.writer.variableCount := by
    have hwrites := Instance.addComment_writes ("Encoding constraint: " ++ c.text) e.writer
    rw [hw] at hwrites
    exact hwrites.variableCount
  have hsteps : Encoding.constraintSteps settings catalog e.mapping e.variableCount c =
      Encoding.constraintSteps settings catalog e.mapping w.variableCount c := by
    rw [hcount]
    rfl
  simp only [posting, Encoder.run, htake, hsteps]
  rfl

/-- A constraint is posted: the assignments for which it does not hold are taken away. -/
theorem posting_progress {catalog : Catalog}
    (h : Progress settings options catalog.declared cs e T) {c : Constraint}
    (hall : Encoder.run (posting settings catalog c e) e = .ok () e') :
    Progress settings options catalog.declared (cs ++ [c]) e'
      (T ++ posting settings catalog c e) := by
  have hstop := Encoder.run_no_stop hall
  have hsilent := silent_posting settings catalog c e
  -- the steps get names, so that rewriting does not look into them
  obtain ⟨U, hU⟩ : ∃ U, U = posting settings catalog c e := ⟨_, rfl⟩
  obtain ⟨V, hV⟩ : ∃ V, V = Encoding.constraintSteps settings catalog e.mapping (freshCount T) c :=
    ⟨_, rfl⟩
  have hsteps : U = .comment ("Encoding constraint: " ++ c.text) :: V := by
    rw [hU, hV, ← h.written.count]
    rfl
  rw [← hU] at hall hstop hsilent ⊢
  have hemissions : Step.emissions U = Step.emissions V := by
    rw [hsteps]
    rfl
  have hmem : ∀ x d, .domain x d ∈ T ++ U ↔ .domain x d ∈ T :=
    fun x d => mem_append_silent hsilent (s := .domain x d) id
  refine ⟨Encoder.run_written h.written hall, Encoder.run_lists h.lists hall, fun hlim => ?_⟩
  have hM := h.meaning (by rw [freshCount_append] at hlim; omega)
  -- all variables are encoded by now, so every literal can be looked up
  have hready : Encoding.Ready catalog e.mapping T := by
    refine ⟨h.lists, hM.represented, fun x hx => ?_⟩
    obtain ⟨d, hd⟩ := Catalog.exists_domain?_of_isKnown hx
    exact ⟨d, hd, (hM.domains x d).mpr hd⟩
  have hlimV : freshCount (T ++ V) < Literal.limit := by
    rwa [freshCount_append, freshCount.eq_def U, hemissions, ← freshCount, ← freshCount_append]
      at hlim
  obtain ⟨⟨P, hasserts, hfixes, hP⟩, -, -⟩ := Encoding.constraintSteps_tells
    (fun hdet : settings.auxNonFunctional = false => hdet) hready hV
    (fun r hr => hstop r (by rw [hsteps]; exact List.mem_cons_of_mem _ hr)) hlimV
  simp only [← hemissions] at hasserts hfixes
  refine ⟨fun x d => by rw [hmem, hM.domains], fun x s hs => ?_,
    hM.represented.append_silent hsilent, ?_⟩
  · rcases (Encoder.run_shapes hall).mp ⟨s, hs⟩ with ⟨old, hold⟩ | ⟨new, hnew⟩
    · obtain ⟨d, hd⟩ := hM.shapes x old hold
      exact ⟨d, List.mem_append_left _ hd⟩
    · rw [hsteps, hV] at hnew
      rcases List.mem_cons.mp hnew with hnew | hnew
      · simp at hnew
      · exact (plain_constraintSteps settings catalog _ _ c _ hnew).elim
  · have := hM.faithful.append_asserts hM.represented hsilent hasserts hfixes
      fun v a hr ha => hP v a hr ha.1
    refine this.congr fun a => ?_
    simp only [InDomains, hmem, List.forall_mem_append, List.forall_mem_singleton, and_assoc]

theorem encodeConstraints_progress {catalog : Catalog} {rest : List Constraint}
    (h : Progress settings options catalog.declared cs e T)
    (hrun : encodeConstraints settings catalog rest e = .ok () e') :
    ∃ T', Progress settings options catalog.declared (cs ++ rest) e' T' := by
  induction rest generalizing cs e T with
  | nil =>
    obtain rfl := (EStateM.Result.ok.inj hrun).2
    exact ⟨T, by rwa [List.append_nil]⟩
  | cons c rest ih =>
    obtain ⟨u, e₁, hcomment, hrest⟩ := Run.bind_eq_ok.mp hrun
    obtain ⟨u', e₂, hone, hrest⟩ := Run.bind_eq_ok.mp hrest
    rw [blame_eq_ok, ← run_posting hcomment] at hone
    obtain ⟨T', h'⟩ := ih (posting_progress h hone) hrest
    exact ⟨T', by rwa [List.append_assoc, List.singleton_append] at h'⟩

/-! ## The whole problem -/

theorem encode_progress (hweighted : settings.weighted = false) {p : Problem}
    {catalog : Catalog} (h : Progress settings options [] [] e T)
    (hrun : encode p settings catalog e = .ok () e') :
    ∃ e₁ T', Progress settings options catalog.declared p.constraints e₁ T' ∧
      Instance.finalize e₁.writer = .ok () e'.writer ∧ e'.mapping = e₁.mapping ∧
      e'.shapes = e₁.shapes := by
  unfold encode at hrun
  rw [hweighted] at hrun
  obtain ⟨_, e₁, hnote, hrun⟩ := Run.bind_eq_ok.mp hrun
  obtain rfl := (EStateM.Result.ok.inj hnote).2
  obtain ⟨_, e₂, hvariables, hrun⟩ := Run.bind_eq_ok.mp hrun
  obtain ⟨T₂, h₂⟩ := encodeVariables_progress (h.note _) hvariables
  obtain ⟨_, e₃, hnote, hrun⟩ := Run.bind_eq_ok.mp hrun
  obtain rfl := (EStateM.Result.ok.inj hnote).2
  obtain ⟨_, e₄, hconstraints, hrun⟩ := Run.bind_eq_ok.mp hrun
  obtain ⟨T₄, h₄⟩ := encodeConstraints_progress (h₂.note _) hconstraints
  -- preferences that are left out are noted in the journal
  obtain ⟨e₅, h₅, hfinalize⟩ :
      ∃ e₅, Progress settings options catalog.declared p.constraints e₅ T₄ ∧
      Encoder.onWriter Instance.finalize e₅ = .ok () e' := by
    simp only [Bool.false_eq_true, if_false] at hrun
    split at hrun
    · obtain ⟨_, e₅, hnote, hrun⟩ := Run.bind_eq_ok.mp hrun
      obtain rfl := (EStateM.Result.ok.inj hnote).2
      exact ⟨_, h₄.note _, hrun⟩
    · exact ⟨_, h₄, hrun⟩
  obtain ⟨file, hfile, rfl⟩ := Encoder.onWriter_eq_ok.mp hfinalize
  exact ⟨e₅, T₄, h₅, hfile, rfl, rfl⟩

end

/-- A finished reduction: the mapping lists the steps `T`, the file holds their lines behind the
header, and the steps mean the problem. -/
structure Reduced (p : Problem) (settings : Settings) (catalog : Catalog) (t : Reduction)
    (T : List Step) : Prop where
  declared : p.catalog = some catalog
  valid : p.validate = .ok ()
  lists : t.mapping.Lists T
  has : t.file.Has (linesOf T)
  disk : t.file.disk =
    some (t.file.paddedHeader ++ "\n" ++ Instance.textOf (linesOf T)).toUTF8
  closed : t.file.pending = none
  count : t.file.variableCount = freshCount T
  context : t.file.context = []
  plain : t.file.options.weighted = false
  clauseLimit : t.file.options.clauseLimit = settings.clauseLimit
  meaning : freshCount T < Literal.limit →
    Meaning settings catalog.declared p.constraints t.shapes T

theorem precheck_eq_ok_iff {p : Problem} {settings : Settings} {reference : CatalogRef} :
    precheck p settings = .ok reference ↔
      settings.validate = .ok () ∧ p.validate = .ok () ∧ p.reference = reference := by
  unfold precheck
  cases settings.validate with
  | error fault => simp
  | ok u => cases p.validate <;> simp [Except.map]

theorem precheck_eq_ok {p : Problem} {settings : Settings} {catalog : Catalog}
    (h : precheck p settings = .ok (.present catalog)) :
    p.validate = .ok () ∧ p.catalog = some catalog := by
  obtain ⟨-, hvalid, hreference⟩ := precheck_eq_ok_iff.mp h
  exact ⟨hvalid, Problem.catalog_eq_some.mpr hreference⟩

theorem precheck_of_valid {p : Problem} {settings : Settings} {catalog : Catalog}
    (hsettings : settings.validate = .ok ()) (hproblem : p.validate = .ok ())
    (hcatalog : p.catalog = some catalog) : precheck p settings = .ok (.present catalog) :=
  precheck_eq_ok_iff.mpr ⟨hsettings, hproblem, Problem.catalog_eq_some.mp hcatalog⟩

theorem encodeThrough_present (p : Problem) (settings : Settings) (catalog : Catalog) :
    encodeThrough p settings (.present catalog) = encode p settings catalog := rfl

/-- Once the checks have passed and the file is there, all depends on the encoding. -/
theorem ofProblem_of_precheck {store : Store} {p : Problem} {settings : Settings} {path : String}
    {reference : CatalogRef} (hcheck : precheck p settings = .ok reference)
    (hwrite : store.writeFault path = none) :
    ofProblem store p settings path = settle store path (encodeThrough p settings reference
      { writer := Instance.create path (instanceOptions settings) }) := by
  rw [ofProblem, hcheck, Instance.openIn, hwrite]

theorem exists_encode_of_ok {store : Store} {p : Problem} {settings : Settings} {path : String}
    {t : Reduction} (h : (ofProblem store p settings path).result = .ok t) :
    ∃ catalog e, precheck p settings = .ok (.present catalog) ∧ store.writeFault path = none ∧
      encode p settings catalog { writer := Instance.create path (instanceOptions settings) } =
        .ok () e ∧ t = ⟨e.writer, e.mapping, e.shapes⟩ := by
  cases hcheck : precheck p settings with
  | error stop => simp [ofProblem, hcheck] at h
  | ok reference =>
    cases hwrite : store.writeFault path with
    | some fault => simp [ofProblem, hcheck, Instance.openIn, hwrite] at h
    | none =>
      rw [ofProblem_of_precheck hcheck hwrite] at h
      cases reference with
      | missing | dangling => cases h
      | present catalog =>
        rw [encodeThrough_present] at h
        cases hrun : encode p settings catalog
            { writer := Instance.create path (instanceOptions settings) } with
        | ok u e =>
          rw [hrun] at h
          exact ⟨catalog, e, rfl, rfl, hrun, (Except.ok.inj h).symm⟩
        | error stop e =>
          rw [hrun] at h
          cases stop <;> cases h

/-- A reduction that succeeds without weights has written steps that mean the problem. -/
theorem reduced_of_ok {store : Store} {p : Problem} {settings : Settings} {path : String}
    {t : Reduction} (hweighted : settings.weighted = false)
    (h : (ofProblem store p settings path).result = .ok t) :
    ∃ catalog T, Reduced p settings catalog t T := by
  obtain ⟨catalog, e, hcheck, -, hrun, rfl⟩ := exists_encode_of_ok h
  obtain ⟨hvalid, hdeclared⟩ := precheck_eq_ok hcheck
  have hstart := progress_start settings path (instanceOptions settings)
  obtain ⟨e₁, T, hP, hfinalize, hmapping, hshapes⟩ := encode_progress hweighted hstart hrun
  have hroom := Instance.header_le_of_finalize hfinalize
  obtain ⟨i', hok, hhas, hsame⟩ := (hP.written.plain hweighted).finalize hroom
  -- the file on record is the one that finishing leaves
  obtain rfl : i' = e.writer := (EStateM.Result.ok.inj (hok.symm.trans hfinalize)).2
  have hpadded : e.writer.paddedHeader = e₁.writer.paddedHeader := by rw [hsame]; rfl
  have hoptions : e.writer.options =
      (Instance.create path (instanceOptions settings)).options := by
    rw [hsame]
    exact hP.written.options
  exact ⟨catalog, T, {
    declared := hdeclared
    valid := hvalid
    lists := by
      rw [hmapping]
      exact hP.lists
    has := hhas
    disk := by rw [hpadded, hsame]
    closed := by rw [hsame]
    count := by
      rw [hsame]
      exact hP.written.count
    context := by
      rw [hsame]
      exact hP.written.context
    plain := by
      rw [hoptions]
      exact hweighted
    clauseLimit := by
      rw [hoptions]
      rfl
    meaning := by
      rw [hshapes]
      exact hP.meaning }⟩

end Reduction

end Clausify
