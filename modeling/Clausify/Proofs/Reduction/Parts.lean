import Mathlib
import Clausify.Proofs.Encoding.Code
import Clausify.Proofs.Reduction.Built

/-!
What the clauses of a single variable and of a single constraint mean, whatever was encoded before
them. Main statements: the clauses of a variable are satisfied by one choice of its own
propositional variables for each value of its domain (`domain_values_coded`), and where the
variables have values, the clauses of a constraint can be satisfied exactly when the constraint
checks on the values that are decoded (`clauses_extend_iff_check`).
-/

namespace Clausify

namespace Reduction

open Step

variable {settings : Settings} {vs : List Variable} {before : List Clause}
  {e e' : Encoder Formula}

/-! ## Variables -/

theorem encodeVariable_again {v : Variable} {shape : Shape}
    (hrecord : e.shapes.lookup v.name = some shape) (settings : Settings)
    (needs : Representation) (constrained : Bool) :
    (Encoding.encodeVariable settings v needs constrained e).2 = .ok () e := by
  rw [Encoding.encodeVariable, hrecord]

/-- A variable that is encoded for the first time is entered, followed by a block that keeps to its
own variables. -/
theorem declaration_isolated {T : List Step} (hsettings : settings.validate = .ok ())
    (hlists : e.mapping.Lists T) (hcount : e.variableCount = freshCount T) {v : Variable}
    {needs : Representation} {constrained : Bool} (hnew : e.shapes.lookup v.name = none)
    (hrun : Encoder.run (declaration settings v needs constrained e) e = .ok () e')
    (hlim : freshCount (T ++ declaration settings v needs constrained e) < Literal.limit) :
    ∃ H B, declaration settings v needs constrained e = H ++ B ∧
      Enters v.name v.domain T H B ∧ Isolated (freshCount T) B := by
  obtain ⟨H, hsteps, hE, -⟩ := declaration_enters hlists hcount hnew hrun hlim
  rw [hsteps, hE.freshCount_eq] at hlim
  refine ⟨H, _, hsteps, hE, hE.block.isolated (inside_shapeSteps _ _ _ _ _) ?_ ?_⟩
  · exact Nat.lt_of_le_of_lt (Nat.le_add_right _ _) hlim
  · exact shapeSteps_own (Settings.sized_of_validate hsettings) hlim

/-- The clauses of a variable represent its domain. They speak about the propositional variables
that are allocated for it only. The valuations of these that satisfy them are in bijection with the
values, and a valuation with the code of a value conveys it through the mapping. Once encoded, the
variable is not encoded again. -/
theorem domain_values_coded (hsettings : settings.validate = .ok ()) (hbuilt : Built vs before e)
    {v : Variable} {needs : Representation} {constrained : Bool}
    (hnew : e.shapes.lookup v.name = none)
    (hrun : (Encoding.encodeVariable settings v needs constrained e).2 = .ok () e')
    (hlim : e'.variableCount < Literal.limit) :
    ∃ cs, e'.writer.clauses.toList = e.writer.clauses.toList ++ cs ∧
      (∀ c ∈ cs, ∀ l ∈ c, l.var ∈ Set.Ioc e.variableCount e'.variableCount) ∧
      (∃ code : Word → Set.Ioc e.variableCount e'.variableCount → Bool,
        Set.BijOn code {w | w ∈ v.domain}
          (Set.image (Valuation.part _ _) {u | u.Satisfies cs}) ∧
        ∀ w ∈ v.domain, ∀ u : Valuation, u.part _ _ = code w → u.Satisfies cs ∧
          e'.mapping.Conveys e.variableCount e'.variableCount u v.name w) ∧
      ∀ settings needs constrained,
        (Encoding.encodeVariable settings v needs constrained e').2 = .ok () e' := by
  obtain ⟨T, hS⟩ := hbuilt.stands
  rw [encodeVariable_eq] at hrun
  obtain ⟨cs, hadds⟩ := Encoder.run_adds hrun
  have hhigh : e'.variableCount = freshCount (T ++ declaration settings v needs constrained e) := by
    rw [Encoder.run_count hrun, hS.count, freshCount_append]
  have hlists := Encoder.run_lists hS.lists hrun
  have hentry : ∃ shape, .shape v.name shape ∈ declaration settings v needs constrained e :=
    ⟨_, by simp only [declaration, hnew]; exact List.mem_cons_self⟩
  obtain ⟨shape, hrecord⟩ := (Encoder.run_shapes hrun).mpr (.inr hentry)
  obtain ⟨H, B, hsteps, hE, hB⟩ :=
    declaration_isolated hsettings hS.lists hS.count hnew hrun (hhigh ▸ hlim)
  rw [hsteps] at hhigh hlists hadds
  rw [hE.freshCount_eq] at hhigh
  have hM := hS.meaning (by omega)
  -- the steps around the block write nothing
  have hblock : e.Adds e' B cs := hadds.congr (by rw [clausesOf, emissions_append, hE.quiet]; rfl)
  obtain ⟨code, hbij, hcode⟩ := hE.exists_code hlists hM.represented hB hS.count hhigh
  simp only [← hblock.meaning] at hbij hcode
  refine ⟨cs, hblock.clauses, fun c hc l hl => ?_, ⟨code, hbij, hcode⟩,
    encodeVariable_again hrecord⟩
  obtain ⟨-, d, hd, hld⟩ := hblock.literals c hc l hl
  rw [Set.mem_Ioc, hS.count, hhigh]
  exact ⟨hB.clauses d hd l hld, (hblock.allocated hE.block.known c hc l hl).2⟩

/-- A variable with a gap in its domain and literals of both kinds. -/
def gapVariable : Variable :=
  { name := "x", domain := .ofValues [1, 3, 4], needs := { direct := true, order := true } }

/-- Its steps can be taken after five other variables, whatever the note and the comment say. -/
theorem gapVariable_reaches (entry : JournalEntry) (text : String) :
    (Encoder.run (.shape "x" .hybrid :: .note entry :: .comment text ::
        .domain "x" gapVariable.domain ::
        Encoding.shapeSteps {} 5 gapVariable true .hybrid)).reaches
      (fun e => e.writer.variableCount = 8 && e.mapping.has "x" .directOnly &&
        e.mapping.has "x" .orderOnly)
      ({ writer := { variableCount := 5 } } : Encoder Formula) = true := by
  cbv

/-- The value three has a code, in which the word two in the gap is neither taken nor a bound. -/
theorem gap_value_coded : ∃ (e' : Encoder Formula) (cs : List Clause) (u : Valuation),
    (Encoding.encodeVariable {} gapVariable {} true { writer := { variableCount := 5 } }).2 =
      .ok () e' ∧ e'.variableCount = 8 ∧ e'.writer.clauses.toList = cs ∧ u.Satisfies cs ∧
    (e'.mapping.directLiteral "x" 3).holds u = true ∧
    (e'.mapping.directLiteral "x" 2).holds u = false ∧
    ∃ l, e'.mapping.orderLiteral "x" 2 = .ok l ∧ l.holds u = false := by
  obtain ⟨e', hrun, he'⟩ := Run.reaches_iff.mp (gapVariable_reaches
    ⟨.debug, "encoding.variable", [("variable", .text gapVariable.name),
      ("domain", .text gapVariable.domain.text), ("shape", .text "hybrid")]⟩
    (Encoding.variableComment gapVariable .hybrid))
  rw [Bool.and_eq_true, Bool.and_eq_true, decide_eq_true_eq] at he'
  obtain ⟨⟨hcount, hdirect⟩, horder⟩ := he'
  have hencode : (Encoding.encodeVariable {} gapVariable {} true
      { writer := { variableCount := 5 } }).2 = .ok () e' := by
    refine encodeVariable_of_run .hybrid rfl ?_ ?_
    · cbv
    · exact hrun
  have hsettings : ({} : Settings).validate = .ok () := by cbv
  have hlim : e'.variableCount < Literal.limit := by
    rw [show e'.variableCount = 8 from hcount]
    decide
  obtain ⟨cs, hclauses, -, ⟨code, hbij, hcode⟩, -⟩ :=
    domain_values_coded hsettings (.start { variableCount := 5 } #[]) rfl hencode hlim
  have hmem : (3 : Word) ∈ gapVariable.domain := Domain.mem_ofValues.mpr (by decide)
  obtain ⟨u, -, hu⟩ := hbij.mapsTo hmem
  obtain ⟨hsat, hconveys⟩ := hcode 3 hmem u hu
  obtain ⟨l, hl, hholds⟩ := hconveys.order horder 2
  refine ⟨e', cs, u, hencode, hcount, by simpa using hclauses, hsat, ?_, ?_, l, hl, ?_⟩
  · exact (hconveys.direct hdirect 3).mpr rfl
  · exact Bool.eq_false_iff.mpr fun h => absurd ((hconveys.direct hdirect 2).mp h) (by decide)
  · exact Bool.eq_false_iff.mpr fun h => absurd (hholds.mp h) (by decide)

/-! ## Constraints -/

theorem lookup_decode {catalog : Catalog} {m : Mapping} {T : List Step} {c : Constraint} {n : Nat}
    {v : Valuation} {a : String → Word} {solution : Solution}
    (hR : Encoding.Ready catalog m T) (hc : Encoding.Checked catalog m c) (hr : Reads T v a)
    (ha : InDomains T a) (hn : freshCount T ≤ n) (hsol : solution.Total n v) :
    ∀ x ∈ c.variableNames, (m.decode solution).lookup x = some (a x) := by
  intro x hx
  obtain ⟨d, hd⟩ : ∃ d, .domain x d ∈ T := by
    rcases Constraint.mem_variableNames.mp hx with hx | hx
    · obtain ⟨d, -, hd⟩ := hR.declared x (hc.known x hx)
      exact ⟨d, hd⟩
    · obtain ⟨d, hd, -⟩ := Mapping.exists_direct hR.lists hR.represented (hc.direct x (.inr hx))
      exact ⟨d, hd⟩
  exact Mapping.lookup_decode hR.lists hR.represented hr ha hn hsol hd

/-- The clauses of a constraint mean that it checks. The variables of the catalog have been encoded,
and possibly others and other constraints with them. A valuation that satisfies the clauses of the
variables can be changed on what the constraint allocates, so that it satisfies the clauses of the
constraint, exactly when the constraint is true of the values that are decoded from it. -/
theorem clauses_extend_iff_check (hbuilt : Built vs before e) {catalog : Catalog} {c : Constraint}
    (hcatalog : ∀ x d, catalog.domain? x = some d → (⟨vs⟩ : Catalog).domain? x = some d)
    (hrun : Encoding.encodeConstraint settings catalog c e = .ok () e')
    (hlim : e'.variableCount < Literal.limit) :
    e'.mapping = e.mapping ∧ ∃ cs, e'.writer.clauses.toList = e.writer.clauses.toList ++ cs ∧
      (∀ d ∈ cs, d.Allocated e'.variableCount) ∧
      ∀ (v : Valuation) (solution : Solution), v.Satisfies before →
        solution.Total e.variableCount v →
        ∃ b, c.check (e.mapping.decode solution) = .ok b ∧
          ((∃ u : Valuation, v.Agree e.variableCount u ∧ u.Satisfies cs) ↔ b = true) := by
  obtain ⟨T, hS⟩ := hbuilt.stands
  have hext := encodeConstraint_extends (.inl ⟨(), hrun⟩)
  rw [Encoding.encodeConstraint] at hrun
  obtain ⟨U, hU⟩ : ∃ U, U = Encoding.constraintSteps settings catalog e.mapping (freshCount T) c :=
    ⟨_, rfl⟩
  rw [hS.count, ← hU] at hrun
  obtain ⟨cs, hadds⟩ := Encoder.run_adds hrun
  have hcount : e'.variableCount = freshCount (T ++ U) := by
    rw [Encoder.run_count hrun, hS.count, freshCount_append]
  rw [hcount] at hlim ⊢
  have hM := hS.meaning (by rw [freshCount_append] at hlim; omega)
  have hready : Encoding.Ready catalog e.mapping T := by
    refine ⟨hS.lists, hM.represented, fun x hx => ?_⟩
    obtain ⟨d, hd⟩ := Catalog.exists_domain?_of_isKnown hx
    exact ⟨d, hd, (hM.domains x d).mpr (hcatalog x d hd)⟩
  obtain ⟨⟨P, hasserts, -, hP⟩, hchecked, hdefined⟩ := Encoding.constraintSteps_tells
    (fun h : False => h.elim) hready hU (Encoder.run_no_stop hrun) hlim
  have hknown : ∀ d ∈ clausesOf U, d.Known (freshCount (T ++ U)) := by
    rw [freshCount_append]
    exact hasserts.known
  refine ⟨hext.mapping, cs, hadds.clauses, hadds.allocated hknown, fun v solution hv hsol => ?_⟩
  obtain ⟨a, ⟨ha, -⟩, hr⟩ := hM.faithful.sound v ((hS.clauses v).mp hv)
  have hlookup := lookup_decode hready hchecked hr ha (Nat.le_of_eq hS.count.symm) hsol
  obtain ⟨b, hb⟩ := hdefined v a hr ha
  refine ⟨b == c.verdict a, by rw [Constraint.check_eq hlookup, hb]; rfl, ?_⟩
  have hholds : P v ↔ (b == c.verdict a) = true := by
    rw [hP v a hr ha, Constraint.Holds, hb]
    simp
  rw [← hholds]
  constructor
  · rintro ⟨u, hagree, hu⟩
    -- the values are read off what the two valuations have in common
    have hru : Reads T u a := by
      refine (hM.represented.reads_congr ?_ fun _ _ _ => rfl).mp hr
      rw [← hS.count]
      exact hagree
    rw [hP v a hr ha, ← hP u a hru ha]
    exact hasserts.sound u ((hadds.meaning u).mp hu)
  · intro hv
    obtain ⟨u, hagree, hu⟩ := hasserts.complete v hv
    rw [← hS.count] at hagree
    exact ⟨u, hagree, (hadds.meaning u).mpr hu⟩

def flagVariable : Variable := { name := "a", domain := .boolean }

/-- The truth value is counted twice, so it has to be false. -/
def doubledConstraint : Constraint :=
  { rule := .atMostOne, operands := [.var "a", .var "a", .const 0] }

/-- The steps of both can be taken with a ladder, whatever the notes and the comment say. -/
theorem doubled_reaches (j k : JournalEntry) (text : String) :
    (Encoder.run (.shape "a" .boolean :: .note j :: .comment text :: .domain "a" .boolean ::
        Encoding.shapeSteps { scheme := .ladder } 0 flagVariable true .boolean)).reaches
      (fun e => e.writer.variableCount = 1 && e.writer.clauses = #[] &&
        Encoding.checkConstraint ⟨[flagVariable]⟩ e.mapping doubledConstraint = .ok () &&
        doubledConstraint.check (e.mapping.decode [1]) = .ok false &&
        doubledConstraint.check (e.mapping.decode [-1]) = .ok true &&
        (Encoder.run (.note k :: (Encoding.constraintPlan { scheme := .ladder } ⟨[flagVariable]⟩
            e.mapping 1 doubledConstraint).steps)).reaches
          (fun e => e.writer.variableCount = 4) e)
      ({ writer := {} } : Encoder Formula) = true := by
  cbv

/-- Its clauses can be satisfied where the truth value is false, and not where it is true. -/
theorem doubled_extends_iff_false : ∃ (e e' : Encoder Formula) (cs : List Clause),
    Built [flagVariable] [] e ∧ e.variableCount = 1 ∧
    Encoding.encodeConstraint { scheme := .ladder } ⟨[flagVariable]⟩ doubledConstraint e =
      .ok () e' ∧ e'.variableCount = 4 ∧
    e'.writer.clauses.toList = e.writer.clauses.toList ++ cs ∧
    (∃ u : Valuation, u 1 = false ∧ u.Satisfies cs) ∧
    ¬ ∃ u : Valuation, u 1 = true ∧ u.Satisfies cs := by
  obtain ⟨e, hrun, he⟩ := Run.reaches_iff.mp (doubled_reaches
    ⟨.debug, "encoding.variable", [("variable", .text flagVariable.name),
      ("domain", .text flagVariable.domain.text), ("shape", .text "boolean")]⟩
    ⟨.debug, "encoding.constraint", [("constraint", .text doubledConstraint.text),
      ("kind", .text doubledConstraint.rule.text), ("reified", .truth false)]⟩
    (Encoding.variableComment flagVariable .boolean))
  simp only [Bool.and_eq_true, decide_eq_true_eq] at he
  obtain ⟨⟨⟨⟨⟨hcount, hnone⟩, hcheck⟩, htrue⟩, hfalse⟩, hpost⟩ := he
  obtain ⟨e', hrun', hcount'⟩ := Run.reaches_iff.mp hpost
  rw [decide_eq_true_eq] at hcount'
  have hcount : e.variableCount = 1 := hcount
  have hcount' : e'.variableCount = 4 := hcount'
  have hdeclare : (Encoding.encodeVariable { scheme := .ladder } flagVariable {} true
      { writer := {} }).2 = .ok () e := by
    refine encodeVariable_of_run .boolean rfl ?_ ?_
    · cbv
    · exact hrun
  have hbuilt : Built [flagVariable] [] e := .declare (.start {} #[]) hdeclare (by simp [hnone])
  have hencode : Encoding.encodeConstraint { scheme := .ladder } ⟨[flagVariable]⟩
      doubledConstraint e = .ok () e' := encodeConstraint_of_run rfl hcount hcheck hrun'
  have hlim : e'.variableCount < Literal.limit := by
    rw [hcount']
    decide
  obtain ⟨-, cs, hclauses, -, hmeans⟩ :=
    clauses_extend_iff_check hbuilt (fun _ _ h => h) hencode hlim
  rw [hcount] at hmeans
  -- the two valuations of the truth value, as solutions
  have hsolution : ∀ b : Bool, (Valuation.solution (fun _ => b) 1).Total 1 fun _ => b :=
    fun b => Valuation.total_solution _ (by decide)
  have hlisted : ∀ b : Bool, Valuation.solution (fun _ => b) 1 = [if b then 1 else -1] := by decide
  have hextends : ∀ b c : Bool,
      doubledConstraint.check (e.mapping.decode [if b then 1 else -1]) = .ok c →
      ((∃ u : Valuation, u 1 = b ∧ u.Satisfies cs) ↔ c = true) := by
    intro b c hc
    obtain ⟨c', hc', hiff⟩ := hmeans (fun _ => b) _ (by simp) (hsolution b)
    rw [hlisted, hc, Except.ok.injEq] at hc'
    rw [hc', ← hiff]
    refine exists_congr fun u => and_congr_left fun _ => ⟨fun hu k hpos hle => ?_, fun hu => ?_⟩
    · rw [show k = 1 by omega, hu]
    · exact (hu 1 (by decide) (by decide)).symm
  refine ⟨e, e', cs, hbuilt, hcount, hencode, hcount', hclauses, ?_, ?_⟩
  · exact (hextends false true hfalse).mpr rfl
  · exact fun h => absurd ((hextends true false htrue).mp h) (by decide)

end Reduction

end Clausify
