import Mathlib
import Clausify.Proofs.Encoding.Separation
import Clausify.Proofs.Reduction.Meaning

/-!
Literals and the variables allocated for them, over whole encodings and for every writer that
counts what it allocates and keeps what it is given (`LawfulWriter`). Variables are encoded by any
requests, names repeated or not (`encodeEach`); each request keeps the tables separate and the
clauses within what is allocated (`Arranged.declare`). Constraints enter nothing into the tables and
keep the clauses within bounds, also where they are refused half way (`encodeConstraints_leaves`).
Main statement: single-value literals are decoded to the pair they were entered for, no literal
serves two pairs and no propositional variable two variables, and whatever stands in a table or a
clause was allocated (`tables_stay_separate`).
-/

namespace Clausify

/-! ## What a run leaves -/

namespace Run

variable {σ α β : Type} {s s' s'' : σ}

/-- The state that a run leaves, whether it comes to its end or not. -/
def Leaves (x : Run σ α) (s s' : σ) : Prop :=
  (∃ a, x s = .ok a s') ∨ ∃ stop, x s = .error stop s'

theorem leaves_pure (h : Leaves (pure () : Run σ Unit) s s') : s' = s := by
  rcases h with ⟨a, h⟩ | ⟨stop, h⟩
  · exact (EStateM.Result.ok.inj h).2.symm
  · cases h

/-- A run in two parts ends with the first part or goes on from what that leaves. -/
theorem leaves_bind {x : Run σ α} {f : α → Run σ β} (h : Leaves (x >>= f) s s'') :
    ∃ s', Leaves x s s' ∧ (s'' = s' ∨ ∃ a, Leaves (f a) s' s'') := by
  cases hx : x s with
  | ok a s' =>
    refine ⟨s', .inl ⟨a, hx⟩, .inr ⟨a, ?_⟩⟩
    rwa [Leaves, bind_of_ok hx] at h
  | error stop s' =>
    refine ⟨s', .inr ⟨stop, hx⟩, .inl ?_⟩
    rw [Leaves, bind_of_error hx] at h
    simpa [eq_comm] using h

end Run

/-! ## Writers -/

/-- A writer that allocates one variable at a time and keeps of each clause what remains without
the constants, whether or not it then goes on. -/
class LawfulWriter (W : Type) [ClauseWriter W] where
  /-- Every clause that is kept has the property. -/
  Retains : (Clause → Prop) → W → Prop
  imp : ∀ {P Q : Clause → Prop} {w : W}, (∀ c, P c → Q c) → Retains P w → Retains Q w
  count_addVariable : ∀ w : W,
    ClauseWriter.variableCount (ClauseWriter.addVariable w) = ClauseWriter.variableCount w + 1
  retains_addVariable : ∀ {P : Clause → Prop} {w : W}, Retains P w →
    Retains P (ClauseWriter.addVariable w)
  count_addClause : ∀ {c : Clause} {w w' : W}, Run.Leaves (ClauseWriter.addClause c) w w' →
    ClauseWriter.variableCount w' = ClauseWriter.variableCount w
  retains_addClause : ∀ {P : Clause → Prop} {c : Clause} {w w' : W},
    (∀ r, c.reduce = .ok (some r) → P r) → Retains P w →
    Run.Leaves (ClauseWriter.addClause c) w w' → Retains P w'
  count_addComment : ∀ {text : String} {w w' : W},
    Run.Leaves (ClauseWriter.addComment text) w w' →
    ClauseWriter.variableCount w' = ClauseWriter.variableCount w
  retains_addComment : ∀ {P : Clause → Prop} {text : String} {w w' : W}, Retains P w →
    Run.Leaves (ClauseWriter.addComment text) w w' → Retains P w'

theorem Formula.leaves_writeClause {c : Clause} {f f' : Formula}
    (h : Run.Leaves (writeClause c) f f') :
    f' = f ∨ ∃ r, c.reduce = .ok (some r) ∧ f' = { f with clauses := f.clauses.push r } := by
  unfold Run.Leaves writeClause addClause at h
  cases hreduce : c.reduce with
  | error misuse => exact .inl (by simpa [hreduce, eq_comm] using h)
  | ok reduced =>
    cases reduced with
    | none => exact .inl (by simpa [hreduce, eq_comm] using h)
    | some r => exact .inr ⟨r, rfl, by simpa [hreduce, eq_comm] using h⟩

/-- A formula keeps clauses in memory. -/
instance : LawfulWriter Formula where
  Retains P f := ∀ c ∈ f.clauses, P c
  imp hPQ h c hc := hPQ c (h c hc)
  count_addVariable _ := rfl
  retains_addVariable h := h
  count_addClause h := by
    rcases Formula.leaves_writeClause h with rfl | ⟨r, -, rfl⟩ <;> rfl
  retains_addClause hc h hleft := by
    rcases Formula.leaves_writeClause hleft with rfl | ⟨r, hr, rfl⟩
    · exact h
    · intro d hd
      rcases Array.mem_push.mp hd with hd | rfl
      · exact h d hd
      · exact hc d hr
  count_addComment h := by
    rcases h with ⟨a, h⟩ | ⟨stop, h⟩
    · rw [← (EStateM.Result.ok.inj h).2]
      rfl
    · cases h
  retains_addComment h hleft := by
    rcases hleft with ⟨a, hleft⟩ | ⟨stop, hleft⟩
    · rw [← (EStateM.Result.ok.inj hleft).2]
      exact h
    · cases hleft

namespace Instance

variable {i i' : Instance} {P : Clause → Prop}

theorem left_of_leaves {α : Type} {x : Run Instance α} (h : Run.Leaves x i i') :
    i' = left (x i) := by
  rcases h with ⟨a, h⟩ | ⟨stop, h⟩ <;> rw [h, left]

/-- All clauses among the lines have the property, and no context is added to those that follow. -/
def Holds (P : Clause → Prop) (i : Instance) : Prop :=
  i.context = [] ∧ ∃ ls, i.Has ls ∧ ∀ weight c, Dimacs.Line.clause weight c ∈ ls → P c

theorem holds_create (P : Clause → Prop) (path : String) (options : InstanceOptions) :
    (create path options).Holds P :=
  ⟨rfl, [], has_create path options, by simp⟩

theorem Holds.writes {ls : List Dimacs.Line} (h : i.Holds P) (hw : i.Writes i' ls)
    (hls : ∀ weight c, Dimacs.Line.clause weight c ∈ ls → P c) : i'.Holds P := by
  obtain ⟨hcontext, ks, hhas, hks⟩ := h
  refine ⟨by rw [hw.same]; exact hcontext, ks ++ ls, hhas.writes hw, fun weight c hc => ?_⟩
  rcases List.mem_append.mp hc with hc | hc
  · exact hks weight c hc
  · exact hls weight c hc

theorem Holds.addClause {c : Clause} (h : i.Holds P) (hc : ∀ r, c.reduce = .ok (some r) → P r) :
    (left (Instance.addClause c i)).Holds P := by
  refine h.writes (addClause_writes c i) fun weight d hd => ?_
  unfold clauseLines at hd
  rw [h.1, List.nil_append] at hd
  split at hd
  · next r _ hr =>
    obtain ⟨-, rfl⟩ := Dimacs.Line.clause.inj (List.mem_singleton.mp hd)
    exact hc d hr
  · simp at hd

theorem Holds.addComment (h : i.Holds P) (text : String) :
    (left (Instance.addComment text i)).Holds P := by
  refine h.writes (addComment_writes text i) fun weight c hc => ?_
  split at hc <;> simp at hc

end Instance

/-- An instance file keeps clauses in its lines. -/
instance : LawfulWriter Instance where
  Retains := Instance.Holds
  imp hPQ h := by
    obtain ⟨hcontext, ls, hhas, hls⟩ := h
    exact ⟨hcontext, ls, hhas, fun weight c hc => hPQ c (hls weight c hc)⟩
  count_addVariable _ := rfl
  retains_addVariable h := by
    obtain ⟨hcontext, ls, hhas, hls⟩ := h
    exact ⟨hcontext, ls, hhas.addVariable, hls⟩
  count_addClause h := by
    rw [Instance.left_of_leaves h]
    exact (Instance.addClause_writes _ _).variableCount
  retains_addClause hc h hleft := by
    rw [Instance.left_of_leaves hleft]
    exact h.addClause hc
  count_addComment h := by
    rw [Instance.left_of_leaves h]
    exact (Instance.addComment_writes _ _).variableCount
  retains_addComment h hleft := by
    rw [Instance.left_of_leaves hleft]
    exact h.addComment _

open LawfulWriter (Retains)

/-! ## Steps -/

namespace Encoder

variable {W : Type} {e e' : Encoder W} {s : Step} {U : List Step}

theorem leaves_onWriter {α : Type} {action : Run W α} (h : Run.Leaves (onWriter action) e e') :
    ∃ w, Run.Leaves action e.writer w ∧ e' = { e with writer := w } := by
  obtain ⟨writer, mapping, shapes, journal⟩ := e
  simp only [Run.Leaves, onWriter] at h ⊢
  cases haction : action writer with
  | ok a w => exact ⟨w, .inl ⟨a, rfl⟩, by simpa [haction, eq_comm] using h⟩
  | error stop w => exact ⟨w, .inr ⟨stop, rfl⟩, by simpa [haction, eq_comm] using h⟩

theorem leaves_onMapping {change : Mapping.Change} (h : Run.Leaves (onMapping change) e e') :
    ∃ m, e' = { e with mapping := m } := by
  obtain ⟨writer, mapping, shapes, journal⟩ := e
  simp only [Run.Leaves, onMapping] at h
  cases hchange : change mapping with
  | ok a m => exact ⟨m, by simpa [hchange, eq_comm] using h⟩
  | error misuse m => exact ⟨m, by simpa [hchange, eq_comm] using h⟩

variable [ClauseWriter W]

theorem leaves_run_cons (h : Run.Leaves (run (s :: U)) e e') :
    ∃ e₁, Run.Leaves (take s) e e₁ ∧ (e' = e₁ ∨ Run.Leaves (run U) e₁ e') := by
  simp only [Run.Leaves, run] at h
  cases htake : take s e with
  | ok u e₁ => exact ⟨e₁, .inl ⟨u, htake⟩, .inr (by simpa [Run.Leaves, htake] using h)⟩
  | error stop e₁ => exact ⟨e₁, .inr ⟨stop, htake⟩, .inl (by simpa [htake, eq_comm] using h)⟩

variable [LawfulWriter W]

/-- A step allocates as many variables as it says, also where it is refused, and a clause that is
kept afterwards was kept before or remains of the step's own. -/
theorem take_writer (ht : Run.Leaves (take s) e e') :
    e'.variableCount = e.variableCount + Step.freshCount [s] ∧
      ∀ P : Clause → Prop, (∀ c ∈ Step.clausesOf [s], ∀ r, c.reduce = .ok (some r) → P r) →
        Retains P e.writer → Retains P e'.writer := by
  -- most steps leave the writer alone
  have hsame : e'.writer = e.writer → Step.freshCount [s] = 0 →
      e'.variableCount = e.variableCount + Step.freshCount [s] ∧
      ∀ P : Clause → Prop, (∀ c ∈ Step.clausesOf [s], ∀ r, c.reduce = .ok (some r) → P r) →
        Retains P e.writer → Retains P e'.writer := by
    intro hwriter hfresh
    rw [variableCount, hwriter, hfresh]
    exact ⟨rfl, fun P _ h => h⟩
  cases s with
  | emit emission =>
    cases emission with
    | fresh =>
      rcases ht with ⟨a, ht⟩ | ⟨stop, ht⟩
      · obtain rfl := (EStateM.Result.ok.inj ht).2
        exact ⟨LawfulWriter.count_addVariable _, fun P _ h => LawfulWriter.retains_addVariable h⟩
      · cases ht
    | clause c =>
      obtain ⟨w, hw, rfl⟩ := leaves_onWriter ht
      exact ⟨LawfulWriter.count_addClause hw, fun P hP h =>
        LawfulWriter.retains_addClause (hP c (List.mem_singleton_self c)) h hw⟩
  | comment text =>
    obtain ⟨w, hw, rfl⟩ := leaves_onWriter ht
    exact ⟨LawfulWriter.count_addComment hw, fun P _ h => LawfulWriter.retains_addComment h hw⟩
  | shape name shape =>
    rcases ht with ⟨a, ht⟩ | ⟨stop, ht⟩
    · exact hsame (by rw [← (EStateM.Result.ok.inj ht).2]) rfl
    · cases ht
  | note entry =>
    rcases ht with ⟨a, ht⟩ | ⟨stop, ht⟩
    · exact hsame (by rw [← (EStateM.Result.ok.inj ht).2]; rfl) rfl
    · cases ht
  | stop reason =>
    rcases ht with ⟨a, ht⟩ | ⟨stop, ht⟩
    · cases ht
    · exact hsame (by rw [← (EStateM.Result.error.inj ht).2]) rfl
  | _ =>
    obtain ⟨m, rfl⟩ := leaves_onMapping ht
    exact hsame rfl rfl

theorem run_count (hrun : run U e = .ok () e') :
    e'.variableCount = e.variableCount + Step.freshCount U := by
  refine run_induction (T := [])
    (P := fun e' T => e'.variableCount = e.variableCount + Step.freshCount T) ?_ rfl hrun
  intro e₁ e₂ T s h ht
  rw [(take_writer (.inl ⟨(), ht⟩)).1, h, Step.freshCount_append, Nat.add_assoc]

/-- A run that comes to its end keeps what was kept before and what remains of its clauses. -/
theorem run_retains {P : Clause → Prop} (h : Retains P e.writer)
    (hU : ∀ c ∈ Step.clausesOf U, ∀ r, c.reduce = .ok (some r) → P r)
    (hrun : run U e = .ok () e') : Retains P e'.writer := by
  refine run_induction (T := []) (P := fun e' T =>
    (∀ c ∈ Step.clausesOf T, ∀ r, c.reduce = .ok (some r) → P r) → Retains P e'.writer)
    ?_ (fun _ => h) hrun hU
  intro e₁ e₂ T s hkept ht hT
  rw [Step.clausesOf_append, List.forall_mem_append] at hT
  exact (take_writer (.inl ⟨(), ht⟩)).2 P hT.2 (hkept hT.1)

/-! ## Steps that enter nothing -/

/-- The tables are the same, and variables were added at most. -/
structure Extends (e e' : Encoder W) : Prop where
  mapping : e'.mapping = e.mapping
  shapes : e'.shapes = e.shapes
  count : e.variableCount ≤ e'.variableCount

omit [LawfulWriter W] in
theorem Extends.refl (e : Encoder W) : e.Extends e := ⟨rfl, rfl, Nat.le_refl _⟩

omit [LawfulWriter W] in
theorem Extends.trans {e'' : Encoder W} (h : e.Extends e') (h' : e'.Extends e'') :
    e.Extends e'' :=
  ⟨h'.mapping.trans h.mapping, h'.shapes.trans h.shapes, Nat.le_trans h.count h'.count⟩

theorem take_extends (hs : s.Plain) (ht : Run.Leaves (take s) e e') : e.Extends e' := by
  -- no step takes variables away
  have hcount : e.variableCount ≤ e'.variableCount := by
    rw [(take_writer ht).1]
    exact Nat.le_add_right _ _
  cases s with
  | emit emission =>
    cases emission with
    | fresh =>
      rcases ht with ⟨a, ht⟩ | ⟨stop, ht⟩
      · obtain rfl := (EStateM.Result.ok.inj ht).2
        exact ⟨rfl, rfl, hcount⟩
      · cases ht
    | clause c =>
      obtain ⟨w, -, rfl⟩ := leaves_onWriter ht
      exact ⟨rfl, rfl, hcount⟩
  | comment text =>
    obtain ⟨w, -, rfl⟩ := leaves_onWriter ht
    exact ⟨rfl, rfl, hcount⟩
  | note entry =>
    rcases ht with ⟨a, ht⟩ | ⟨stop, ht⟩
    · obtain rfl := (EStateM.Result.ok.inj ht).2
      exact ⟨rfl, rfl, hcount⟩
    · cases ht
  | stop reason =>
    rcases ht with ⟨a, ht⟩ | ⟨stop, ht⟩
    · cases ht
    · obtain rfl := (EStateM.Result.error.inj ht).2
      exact .refl e
  | _ => exact hs.elim

/-- The clauses that are kept have allocated variables, provided that there are literals for
all of them. -/
def Within (e : Encoder W) : Prop :=
  e.variableCount < Literal.limit → Retains (Clause.Allocated e.variableCount) e.writer

theorem take_within (h : e.Within) (hs : Step.Scoped e.variableCount [s])
    (ht : Run.Leaves (take s) e e') : e'.Within := by
  intro hlim
  obtain ⟨hcount, hretains⟩ := take_writer ht
  have hle : e.variableCount ≤ e'.variableCount := by omega
  have hbefore : e.variableCount < Literal.limit := by omega
  have hknown : ∀ c ∈ Step.clausesOf [s], c.Known e.variableCount := by
    cases s with
    | emit emission =>
      cases emission with
      | fresh => exact fun c hc => absurd hc (List.not_mem_nil)
      | clause d => exact fun c hc => List.mem_singleton.mp hc ▸ hs.1 hbefore
    | _ => exact fun c hc => absurd hc (List.not_mem_nil)
  refine hretains _ (fun c hc r hr => ?_) (LawfulWriter.imp (fun c hc => hc.mono hle) (h hbefore))
  exact ((hknown c hc).mono hle).allocated hr

theorem run_extends (hplain : ∀ s ∈ U, s.Plain) (hrun : Run.Leaves (run U) e e') :
    e.Extends e' := by
  induction U generalizing e with
  | nil =>
    obtain rfl := Run.leaves_pure hrun
    exact .refl _
  | cons s rest ih =>
    rw [List.forall_mem_cons] at hplain
    obtain ⟨e₁, htake, hrest⟩ := leaves_run_cons hrun
    have hext := take_extends hplain.1 htake
    rcases hrest with rfl | hrest
    · exact hext
    · exact hext.trans (ih hplain.2 hrest)

/-- Steps whose clauses are in scope leave the clauses within what is allocated, wherever they
end. -/
theorem run_within (h : e.Within) (hscoped : Step.Scoped e.variableCount U)
    (hrun : Run.Leaves (run U) e e') : e'.Within := by
  induction U generalizing e with
  | nil =>
    obtain rfl := Run.leaves_pure hrun
    exact h
  | cons s rest ih =>
    have hsplit : Step.Scoped e.variableCount ([s] ++ rest) := hscoped
    rw [Step.scoped_append] at hsplit
    obtain ⟨e₁, htake, hrest⟩ := leaves_run_cons hrun
    have hwithin := take_within h hsplit.1 htake
    rcases hrest with rfl | hrest
    · exact hwithin
    · exact ih hwithin ((take_writer htake).1 ▸ hsplit.2) hrest

end Encoder

namespace Reduction

open Step

variable {W : Type} [ClauseWriter W] {settings : Settings} {e e' : Encoder W}

/-! ## Constraints -/

theorem leaves_blame {σ : Type} {subject : Subject} {x : Run σ Unit} {s s' : σ}
    (h : Run.Leaves (fun s => blame subject (x s)) s s') : Run.Leaves x s s' := by
  simp only [Run.Leaves] at h ⊢
  cases hx : x s with
  | ok a s₁ => simpa [hx, blame] using h
  | error stop s₁ => cases stop <;> simpa [hx, blame] using h

theorem constraintSteps_scoped (hsettings : settings.validate = .ok ()) (catalog : Catalog)
    {m : Mapping} {count : Nat} (hm : count < Literal.limit → m.Known count) (c : Constraint) :
    Step.Scoped count (Encoding.constraintSteps settings catalog m count c) := by
  unfold Encoding.constraintSteps
  split
  · trivial
  · show Emission.Scoped count (Step.emissions (Plan.steps _))
    rw [Plan.emissions_steps]
    exact Encoding.constraintPlan_scoped hsettings catalog hm c

theorem leaves_encodeConstraint {catalog : Catalog} {c : Constraint}
    (h : Run.Leaves (Encoding.encodeConstraint settings catalog c) e e') :
    Run.Leaves (Encoder.run
      (Encoding.constraintSteps settings catalog e.mapping e.variableCount c)) e e' := by
  have hresult : Encoding.encodeConstraint settings catalog c e = Encoder.run
      (Encoding.constraintSteps settings catalog e.mapping e.variableCount c) e := rfl
  rwa [Run.Leaves, hresult] at h

variable [LawfulWriter W]

theorem encodeConstraint_extends {catalog : Catalog} {c : Constraint}
    (hrun : Run.Leaves (Encoding.encodeConstraint settings catalog c) e e') : e.Extends e' :=
  Encoder.run_extends (plain_constraintSteps settings catalog e.mapping e.variableCount c)
    (leaves_encodeConstraint hrun)

theorem encodeConstraint_leaves (hsettings : settings.validate = .ok ()) (catalog : Catalog)
    {c : Constraint} (h : e.Within)
    (hm : e.variableCount < Literal.limit → e.mapping.Known e.variableCount)
    (hrun : Run.Leaves (Encoding.encodeConstraint settings catalog c) e e') :
    e.Extends e' ∧ e'.Within :=
  ⟨encodeConstraint_extends hrun, Encoder.run_within h
    (constraintSteps_scoped hsettings catalog hm c) (leaves_encodeConstraint hrun)⟩

/-- Constraints leave the tables alone and the clauses within what is allocated, wherever they are
refused. -/
theorem encodeConstraints_leaves (hsettings : settings.validate = .ok ()) (catalog : Catalog)
    {cs : List Constraint} (h : e.Within)
    (hm : e.variableCount < Literal.limit → e.mapping.Known e.variableCount)
    (hrun : Run.Leaves (encodeConstraints settings catalog cs) e e') :
    e.Extends e' ∧ e'.Within := by
  induction cs generalizing e with
  | nil =>
    obtain rfl := Run.leaves_pure hrun
    exact ⟨.refl _, h⟩
  | cons c rest ih =>
    -- a constraint leaves the tables alone, so the literals stay known
    have hknown : ∀ {d : Encoder W}, e.Extends d → d.variableCount < Literal.limit →
        d.mapping.Known d.variableCount := by
      intro d hd hlim
      rw [hd.mapping]
      exact (hm (Nat.lt_of_le_of_lt hd.count hlim)).mono hd.count
    obtain ⟨e₁, hcomment, hrest⟩ := Run.leaves_bind hrun
    obtain ⟨step, hplain, hscoped, htake⟩ : ∃ s : Step, s.Plain ∧ Step.Scoped e.variableCount [s] ∧
        Run.Leaves (Encoder.take s) e e₁ :=
      ⟨.comment ("Encoding constraint: " ++ c.text), trivial, trivial, hcomment⟩
    have hext₁ := Encoder.take_extends hplain htake
    have hwithin₁ := Encoder.take_within h hscoped htake
    rcases hrest with rfl | ⟨u, hrest⟩
    · exact ⟨hext₁, hwithin₁⟩
    obtain ⟨e₂, hsteps, hrest⟩ := Run.leaves_bind hrest
    obtain ⟨hext₂, hwithin₂⟩ :=
      encodeConstraint_leaves hsettings catalog hwithin₁ (hknown hext₁) (leaves_blame hsteps)
    have hext := hext₁.trans hext₂
    rcases hrest with rfl | ⟨u', hrest⟩
    · exact ⟨hext, hwithin₂⟩
    obtain ⟨hext₃, hwithin₃⟩ := ih hwithin₂ (hknown hext) hrest
    exact ⟨hext.trans hext₃, hwithin₃⟩

/-! ## Variables -/

/-- A call that encodes a variable: what is needed of it besides its own needs, and whether some
constraint mentions it. -/
structure Request where
  subject : Variable
  needs : Representation := {}
  constrained : Bool := true

/-- Encodes variables one after the other, as asked for. -/
def encodeEach (settings : Settings) : List Request → Run (Encoder W) Unit
  | [] => pure ()
  | r :: rest => do
    fun e => (Encoding.encodeVariable settings r.subject r.needs r.constrained e).2
    encodeEach settings rest

/-- The steps represent the declared variables by literals that are apart. -/
structure Arrangement (vs : List Variable) (shapes : Table String Shape) (T : List Step) :
    Prop where
  domains : Declares vs T
  shapes : ∀ x s, shapes.lookup x = some s → ∃ d, .domain x d ∈ T
  represented : Represented T
  separate : Separate T

/-- The encoder has taken the steps `T` for the variables `vs`, all of which are on record. -/
structure Arranged (vs : List Variable) (e : Encoder W) (T : List Step) : Prop where
  lists : e.mapping.Lists T
  count : e.variableCount = freshCount T
  recorded : ∀ v ∈ vs, ∃ s, e.shapes.lookup v.name = some s
  within : e.Within
  arrangement : freshCount T < Literal.limit → Arrangement vs e.shapes T

/-- The next request keeps the arrangement: a new variable is entered apart from the others, and a
name on record asks for nothing. -/
theorem Arranged.declare {vs : List Variable} {T : List Step} (h : Arranged vs e T) {v : Variable}
    {needs : Representation} {constrained : Bool}
    (hrun : Encoder.run (declaration settings v needs constrained e) e = .ok () e') :
    Arranged (vs ++ [v]) e' (T ++ declaration settings v needs constrained e) := by
  cases hrecord : e.shapes.lookup v.name with
  | some shape =>
    -- a name on record is passed over
    have hnothing : declaration settings v needs constrained e = [] := by
      simp only [declaration, hrecord]
    rw [hnothing] at hrun ⊢
    obtain rfl := (EStateM.Result.ok.inj hrun).2
    rw [List.append_nil]
    refine ⟨h.lists, h.count, ?_, h.within, fun hlim => ?_⟩
    · exact List.forall_mem_append.mpr
        ⟨h.recorded, List.forall_mem_singleton.mpr ⟨shape, hrecord⟩⟩
    · have hA := h.arrangement hlim
      exact ⟨hA.domains.again (hA.shapes _ _ hrecord), hA.shapes, hA.represented, hA.separate⟩
  | none =>
    have hcount : e'.variableCount =
        freshCount (T ++ declaration settings v needs constrained e) := by
      rw [Encoder.run_count hrun, h.count, freshCount_append]
    have hrecorded : ∀ u ∈ vs ++ [v], ∃ s, e'.shapes.lookup u.name = some s := by
      intro u hu
      rw [Encoder.run_shapes hrun]
      rcases List.mem_append.mp hu with hu | hu
      · exact .inl (h.recorded u hu)
      · rw [List.mem_singleton.mp hu]
        exact .inr ⟨_, by simp only [declaration, hrecord]; exact List.mem_cons_self⟩
    refine ⟨Encoder.run_lists h.lists hrun, hcount, hrecorded, fun hlim => ?_, fun hlim => ?_⟩
    · rw [hcount] at hlim ⊢
      obtain ⟨H, hsteps, hE, -⟩ := declaration_enters h.lists h.count hrecord hrun hlim
      have hfresh := hE.freshCount_eq
      rw [← hsteps] at hfresh
      have hbefore : e.variableCount < Literal.limit := by
        rw [h.count]
        omega
      -- the count has only grown, so what was within it still is
      have hold := LawfulWriter.imp (fun c hc => Clause.Allocated.mono hc
        (show e.variableCount ≤ freshCount (T ++ declaration settings v needs constrained e) by
          rw [h.count]; omega)) (h.within hbefore)
      refine Encoder.run_retains hold (fun c hc r hr => Clause.Known.allocated ?_ hr) hrun
      rw [hsteps, clausesOf_append, clausesOf, hE.quiet] at hc
      rw [hfresh]
      exact hE.block.known c (by simpa using hc)
    · obtain ⟨H, hsteps, hE, hshapes⟩ := declaration_enters h.lists h.count hrecord hrun hlim
      have hfresh := hE.freshCount_eq
      rw [hsteps] at hlim ⊢
      have hA := h.arrangement (by omega)
      exact ⟨hA.domains.enter hE, exists_domain_enter hA.shapes hE hshapes,
        hA.represented.append_variable hE,
        hA.separate.append_variable hA.represented hE (inside_shapeSteps _ _ _ _ _)⟩

theorem encodeEach_arranged {vs : List Variable} {T : List Step} {requests : List Request}
    (h : Arranged vs e T) (hrun : encodeEach settings requests e = .ok () e') :
    ∃ T', Arranged (vs ++ requests.map Request.subject) e' T' := by
  induction requests generalizing vs e T with
  | nil =>
    obtain rfl := (EStateM.Result.ok.inj hrun).2
    exact ⟨T, by simpa using h⟩
  | cons r rest ih =>
    obtain ⟨u, e₁, hone, hrest⟩ := Run.bind_eq_ok.mp hrun
    rw [encodeVariable_eq] at hone
    obtain ⟨T', h'⟩ := ih (h.declare hone) hrest
    exact ⟨T', by simpa using h'⟩

/-- An encoder with nothing encoded, whatever its writer has allocated before. -/
theorem arranged_start {w : W} (h : Retains (Clause.Allocated (ClauseWriter.variableCount w)) w)
    (journal : Array JournalEntry) :
    ∃ T, Arranged [] ({ writer := w, journal } : Encoder W) T := by
  have hsilent := silent_spare (ClauseWriter.variableCount w)
  refine ⟨_, Mapping.lists_of_silent hsilent, (freshCount_spare _).symm, by simp, fun _ => h,
    fun _ => ?_⟩
  refine ⟨fun x d => ?_, by simp, represented_nil.append_silent hsilent,
    separate_of_silent hsilent⟩
  refine iff_of_false (fun hmem => hsilent _ hmem) ?_
  simp [Catalog.domain?, Catalog.find?]

/-! ## Whole encodings -/

/-- The requested variables have the domains they were first requested with, their tables are tidy,
and a request for one of their names changes nothing. -/
structure Orderly (settings : Settings) (requests : List Request) (e : Encoder W) : Prop where
  domains : ∀ x d, e.mapping.domains[x]? = some d ↔
    (⟨requests.map Request.subject⟩ : Catalog).domain? x = some d
  tidy : e.mapping.Tidy e.variableCount
  again : ∀ r ∈ requests, ∀ v needs constrained, v.name = r.subject.name →
    ∃ shape, Encoding.encodeVariable settings v needs constrained e = (shape, .ok () e)

/-- Variables on request and then constraints, whether or not all of them are taken, leave the
encoder in order and the clauses within what is allocated. -/
theorem orderly_of_leaves (hsettings : settings.validate = .ok ()) {catalog : Catalog}
    {requests : List Request} {cs : List Constraint} {w : W} {before between : Array JournalEntry}
    {e₁ e₂ : Encoder W} (hw : Retains (Clause.Allocated (ClauseWriter.variableCount w)) w)
    (hrequests : encodeEach settings requests { writer := w, journal := before } = .ok () e₁)
    (hconstraints : Run.Leaves (encodeConstraints settings catalog cs)
      { e₁ with journal := between } e₂)
    (hlim : e₂.variableCount < Literal.limit) :
    Orderly settings requests e₂ ∧ Retains (Clause.Allocated e₂.variableCount) e₂.writer := by
  obtain ⟨T₀, hstart⟩ := arranged_start hw before
  obtain ⟨T, h⟩ := encodeEach_arranged hstart hrequests
  rw [List.nil_append] at h
  have harrangement : e₁.variableCount < Literal.limit →
      Arrangement (requests.map Request.subject) e₁.shapes T := by
    rw [h.count]
    exact h.arrangement
  have hknown : e₁.variableCount < Literal.limit → e₁.mapping.Known e₁.variableCount := by
    intro hlim₁
    rw [h.count]
    exact h.lists.known (harrangement hlim₁).represented
  -- the journal has no part in what a constraint reads or leaves
  obtain ⟨hext, hwithin⟩ : e₁.Extends e₂ ∧ e₂.Within := by
    obtain ⟨hext, hwithin⟩ := encodeConstraints_leaves hsettings catalog
      (e := { e₁ with journal := between }) h.within hknown hconstraints
    exact ⟨⟨hext.mapping, hext.shapes, hext.count⟩, hwithin⟩
  have hA := harrangement (Nat.lt_of_le_of_lt hext.count hlim)
  refine ⟨⟨fun x d => ?_, ?_, fun r hr v needs constrained hname => ?_⟩, hwithin hlim⟩
  · rw [hext.mapping, h.lists.domains]
    exact hA.domains x d
  · rw [hext.mapping]
    refine (h.lists.tidy hA.represented hA.separate).mono ?_
    rw [← h.count]
    exact hext.count
  · obtain ⟨shape, hshape⟩ := h.recorded r.subject (List.mem_map_of_mem hr)
    refine ⟨shape, ?_⟩
    rw [← hname, ← hext.shapes] at hshape
    rw [Encoding.encodeVariable, hshape]

/-- The tables stay in order and every clause within the allocated variables over all requests and
constraints: with a formula in memory, whatever it held before, and with a file, whatever its limit
and weights. Before the variables, and before the constraints, the journal may have grown. -/
theorem tables_stay_separate (hsettings : settings.validate = .ok ()) (catalog : Catalog)
    (requests : List Request) (cs : List Constraint) (before between : Array JournalEntry) :
    (∀ (f : Formula) (e₁ e₂ : Encoder Formula), (∀ c ∈ f.clauses, c.Allocated f.variableCount) →
      encodeEach settings requests { writer := f, journal := before } = .ok () e₁ →
      Run.Leaves (encodeConstraints settings catalog cs) { e₁ with journal := between } e₂ →
      e₂.variableCount < Literal.limit →
      Orderly settings requests e₂ ∧ ∀ c ∈ e₂.writer.clauses, c.Allocated e₂.variableCount) ∧
    (∀ (path : String) (options : InstanceOptions) (e₁ e₂ : Encoder Instance),
      encodeEach settings requests { writer := Instance.create path options, journal := before } =
        .ok () e₁ →
      Run.Leaves (encodeConstraints settings catalog cs) { e₁ with journal := between } e₂ →
      e₂.variableCount < Literal.limit →
      Orderly settings requests e₂ ∧ ∃ ls, e₂.writer.Has ls ∧
        ∀ weight c, Dimacs.Line.clause weight c ∈ ls → c.Allocated e₂.variableCount) := by
  constructor
  · intro f e₁ e₂ hf hrequests hconstraints hlim
    exact orderly_of_leaves hsettings hf hrequests hconstraints hlim
  · intro path options e₁ e₂ hrequests hconstraints hlim
    obtain ⟨horderly, -, hlines⟩ := orderly_of_leaves hsettings
      (Instance.holds_create _ path options) hrequests hconstraints hlim
    exact ⟨horderly, hlines⟩

/-- The requests that a reduction makes for its variables. -/
def requestsOf (p : Problem) (vs : List Variable) : List Request :=
  vs.map fun v => { subject := v, needs := p.needsOf v.name, constrained := p.mentions v.name }

theorem encodeEach_requestsOf {p : Problem} {vs : List Variable} {e e' : Encoder Instance}
    (hrun : encodeVariables p settings vs e = .ok () e') :
    encodeEach settings (requestsOf p vs) e = .ok () e' := by
  induction vs generalizing e with
  | nil => exact hrun
  | cons v rest ih =>
    obtain ⟨u, e₁, hone, hrest⟩ := Run.bind_eq_ok.mp hrun
    exact Run.bind_eq_ok.mpr ⟨u, e₁, blame_eq_ok.mp hone, ih hrest⟩

/-- In the problem with a gap the tables of `x` and `r` are apart. -/
theorem gap_tables_separate : ∃ e₁ e₂ : Encoder Instance,
    encodeEach {} (requestsOf gapProblem gapCatalog.declared) gapStart = .ok () e₁ ∧
    encodeConstraints {} gapCatalog [gapConstraint] (e₁.note gapEntry) = .ok () e₂ ∧
    e₂.variableCount = 3 ∧ Orderly {} (requestsOf gapProblem gapCatalog.declared) e₂ ∧
    ∃ ls, e₂.writer.Has ls ∧
      ∀ weight c, Dimacs.Line.clause weight c ∈ ls → c.Allocated e₂.variableCount := by
  obtain ⟨e₁, e₂, hvariables, hconstraints, hcount, -, -⟩ := gap_encodes
  have hrequests := encodeEach_requestsOf hvariables
  have hcount : e₂.variableCount = 3 := hcount
  have hlim : e₂.variableCount < Literal.limit := by
    rw [hcount]
    decide
  have hsettings : ({} : Settings).validate = .ok () := by cbv
  exact ⟨e₁, e₂, hrequests, hconstraints, hcount, (tables_stay_separate hsettings gapCatalog
    (requestsOf gapProblem gapCatalog.declared) [gapConstraint] _ _).2 "gap.cnf"
    (instanceOptions {}) e₁ e₂ hrequests (.inl ⟨(), hconstraints⟩) hlim⟩

end Reduction

end Clausify
