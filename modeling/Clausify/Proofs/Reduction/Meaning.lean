import Mathlib
import Clausify.Proofs.Domain.Normal
import Clausify.Proofs.Encoding.Decode
import Clausify.Proofs.Reduction.Run

/-!
A reduction keeps the meaning of the problem. The valuations that satisfy the formula in the file
decode to the solutions of the problem, every solution is decoded from one of them, and without
auxiliary variables that are left open from only one.

Main statements: `formula_means_problem` (sound, complete, equisatisfiable) and
`one_valuation_per_solution`.
-/

namespace Clausify

/-! ## Solutions of a problem -/

/-- Every declared variable has one value, of its own domain, and nothing else has a value. -/
structure Catalog.Covers (catalog : Catalog) (assignment : Assignment) : Prop where
  once : (assignment.map Prod.fst).Nodup
  only : ∀ x ∈ assignment.map Prod.fst, catalog.isKnown x = true
  inside : ∀ x d, catalog.domain? x = some d → ∃ w ∈ d, assignment.lookup x = some w

/-- The assignment gives every variable a value of its domain, and every constraint checks. -/
def Problem.SolvedBy (p : Problem) (assignment : Assignment) : Prop :=
  ∃ catalog, p.catalog = some catalog ∧ catalog.Covers assignment ∧
    ∀ c ∈ p.constraints, c.check assignment = .ok true

theorem Problem.known_of_validate {p : Problem} {catalog : Catalog}
    (hcatalog : p.catalog = some catalog) (h : p.validate = .ok ()) {c : Constraint}
    (hc : c ∈ p.constraints) {x : String} (hx : x ∈ c.variableNames) :
    catalog.isKnown x = true := by
  have hone := List.find?_eq_none.mp ((p.checked_of_validate hcatalog h).1 c hc).2 x hx
  simpa using hone

/-! ## Runs that come to their end -/

/-- Whether the run comes to its end in a state with the property. -/
def Run.reaches {σ α : Type} (x : Run σ α) (P : σ → Bool) (s : σ) : Bool :=
  match x s with
  | .ok _ s' => P s'
  | .error _ _ => false

theorem Run.reaches_iff {σ : Type} {x : Run σ Unit} {P : σ → Bool} {s : σ} :
    x.reaches P s = true ↔ ∃ s', x s = .ok () s' ∧ P s' = true := by
  unfold reaches
  cases x s with
  | ok u s' => simp
  | error stop s' => simp

/-! ## Total solutions -/

/-- The literals of the variables `1` to `n` that hold, in order. -/
def Valuation.solution (v : Valuation) (n : Nat) : Solution :=
  (List.range n).map fun k =>
    (if v (k + 1) then Literal.ofVariable (k + 1) else -Literal.ofVariable (k + 1)).word

theorem Literal.eq_of_holds {l : Literal} {v : Valuation} (h0 : 0 < l.var)
    (hlim : l.var < Literal.limit) (h : l.holds v = true) :
    (if v l.var then Literal.ofVariable l.var else -Literal.ofVariable l.var).word = l.word := by
  have hconst : l.isConstant = false := by
    cases hc : l.isConstant with
    | false => rfl
    | true => exact absurd (Literal.var_of_isConstant hc) (by omega)
  rw [Literal.holds_of_not_constant hconst] at h
  have hword := Literal.toInt_ofVariable hlim
  have hknown := Literal.known_ofVariable h0 (Nat.le_refl _) hlim
  -- the sign of the word tells which of the two literals it is, and `var` its distance from zero
  have hsign : l.isPositive = true ↔ 0 < l.word.toInt := by
    rw [Literal.isPositive, decide_eq_true_eq, Int64.lt_iff_toInt_lt, Int64.toInt_zero]
  have hvar : l.var = l.word.toInt.natAbs := rfl
  cases hpos : l.isPositive with
  | true =>
    rw [hpos, if_pos rfl] at h
    have := hsign.mp hpos
    rw [h, if_pos rfl, ← Int64.toInt_inj, hword]
    omega
  | false =>
    rw [hpos, if_neg (by simp), Bool.not_eq_true'] at h
    have : ¬ 0 < l.word.toInt := by rw [← hsign, hpos]; simp
    rw [h, if_neg (by simp), ← Int64.toInt_inj, Literal.neg_word,
      Literal.toInt_neg_word hknown.var_lt, hword]
    omega

theorem Valuation.total_solution (v : Valuation) {n : Nat} (hn : n < Literal.limit) :
    (v.solution n).Total n v := by
  intro w
  simp only [solution, List.mem_map, List.mem_range]
  constructor
  · rintro ⟨k, hk, rfl⟩
    have hlim : k + 1 < Literal.limit := by omega
    have hknown := Literal.known_ofVariable (Nat.succ_pos k) (Nat.le_refl _) hlim
    have hvar := Literal.var_ofVariable hlim
    have hholds := Literal.holds_ofVariable (Nat.succ_pos k) hlim v
    -- whichever sign is listed, the literal has the variable and holds
    have hlisted : ∀ l : Literal, l.var = k + 1 → l.holds v = true →
        0 < (⟨l.word⟩ : Literal).var ∧ (⟨l.word⟩ : Literal).var ≤ n ∧
          (⟨l.word⟩ : Literal).holds v = true := by
      intro l hl htrue
      exact ⟨hl ▸ Nat.succ_pos k, hl ▸ hk, htrue⟩
    cases hv : v (k + 1) with
    | true => exact hlisted _ hvar (hholds.trans hv)
    | false =>
      refine hlisted (-Literal.ofVariable (k + 1)) ((Literal.var_neg _).trans hvar) ?_
      rw [hknown.holds_neg, hholds, hv]
      rfl
  · rintro ⟨h0, hle, hholds⟩
    refine ⟨(⟨w⟩ : Literal).var - 1, by omega, ?_⟩
    rw [Nat.sub_add_cancel h0]
    exact Literal.eq_of_holds h0 (by omega) hholds

namespace Reduction

open Step

/-! ## The formula in the file -/

/-- The file holds the formula. -/
def Stores (t : Reduction) (f : Formula) : Prop :=
  ∃ bytes, t.file.disk = some bytes ∧ Dimacs.parse (Text.decode bytes) = .ok f

/-- The valuation satisfies the formula, and the total solution it stands for decodes to the
assignment. -/
def Yields (t : Reduction) (f : Formula) (v : Valuation) (assignment : Assignment) : Prop :=
  f.holds v = true ∧ ∃ (solution : Solution) (decoded : Assignment),
    solution.Total t.file.variableCount v ∧ t.decode (some solution) = some decoded ∧
      decoded.Perm assignment

section

variable {p : Problem} {settings : Settings} {catalog : Catalog} {t : Reduction} {T : List Step}
  {f : Formula} {v u : Valuation} {a : String → Word} {solution : Solution}

theorem holds_formula_iff (f : Formula) (v : Valuation) :
    f.holds v = true ↔ v.Satisfies f.clauses.toList := by
  rw [Formula.holds, Array.all_eq_true_iff_forall_mem]
  simp [Valuation.Satisfies]

/-- The text of a finished plain file of steps is that of a formula that is true where the clauses
of the steps are. -/
theorem exists_formula_of_steps {i : Instance} {T : List Step} (hplain : i.options.weighted = false)
    (hlim : i.variableCount < Literal.limit) (hknown : ∀ c ∈ clausesOf T, c.Known i.variableCount) :
    ∃ f, Dimacs.parse (Text.decode
        (i.paddedHeader ++ "\n" ++ Instance.textOf (linesOf T)).toUTF8) = .ok f ∧
      f.variableCount = i.variableCount ∧
      ∀ v : Valuation, f.holds v = true ↔ v.Satisfies (clausesOf T) := by
  have hword : i.variableCount < wordCount := by
    have : Literal.limit < wordCount := by decide
    omega
  refine ⟨_, Instance.parse_finalized rfl hplain hword (readable_linesOf hknown),
    Dimacs.Line.variableCount_foldl_read _ _, fun v => ?_⟩
  rw [holds_formula_iff, Dimacs.Line.clauses_foldl_read]
  exact satisfies_linesOf hknown v

/-- The file holds a formula over all allocated variables that is true where the clauses of the
steps are. -/
theorem Reduced.exists_formula (h : Reduced p settings catalog t T)
    (hlim : t.file.variableCount < Literal.limit) :
    ∃ f, t.Stores f ∧ f.variableCount = t.file.variableCount ∧
      ∀ v : Valuation, f.holds v = true ↔ v.Satisfies (clausesOf T) := by
  have hknown := (h.meaning (h.count ▸ hlim)).faithful.known
  rw [← h.count] at hknown
  obtain ⟨f, hparse, hf⟩ := exists_formula_of_steps h.plain hlim hknown
  exact ⟨f, ⟨_, h.disk, hparse⟩, hf⟩

/-! ## From valuations to solutions and back -/

theorem Reduced.lookup_decode (h : Reduced p settings catalog t T)
    (hM : Meaning settings catalog.declared p.constraints t.shapes T) (hr : Reads T v a)
    (ha : InDomains T a) (hsol : solution.Total t.file.variableCount v) (x : String) :
    (t.mapping.decode solution).lookup x =
      if catalog.isKnown x = true then some (a x) else none := by
  have hn : freshCount T ≤ t.file.variableCount := Nat.le_of_eq h.count.symm
  split
  · next hx =>
    obtain ⟨d, hd⟩ := Catalog.exists_domain?_of_isKnown hx
    exact Mapping.lookup_decode h.lists hM.represented hr ha hn hsol ((hM.domains x d).mpr hd)
  · next hx =>
    refine Mapping.lookup_decode_eq_none h.lists hM.represented fun d hd => ?_
    exact hx (Catalog.isKnown_of_domain? ((hM.domains x d).mp hd))

theorem Reduced.solvedBy_decode (h : Reduced p settings catalog t T)
    (hM : Meaning settings catalog.declared p.constraints t.shapes T) (hr : Reads T v a)
    (ha : InDomains T a) (hcs : ∀ c ∈ p.constraints, c.Holds a)
    (hsol : solution.Total t.file.variableCount v) :
    p.SolvedBy (t.mapping.decode solution) := by
  have hget := h.lookup_decode hM hr ha hsol
  refine ⟨catalog, h.declared, ⟨?_, ?_, ?_⟩, fun c hc => ?_⟩
  · exact Mapping.nodup_keys_decode _ _
  · intro x hx
    obtain ⟨⟨y, w⟩, hmem, rfl⟩ := List.mem_map.mp hx
    have hsome := (Table.lookup_eq_some_iff (Mapping.nodup_keys_decode _ _)).mpr hmem
    rw [hget] at hsome
    by_contra hunknown
    simp [hunknown] at hsome
  · intro x d hd
    have hx := Catalog.isKnown_of_domain? hd
    refine ⟨a x, ha x d ((hM.domains x d).mpr hd), ?_⟩
    rw [hget, if_pos hx]
  · refine (Constraint.check_eq_true_iff fun x hx => ?_).mpr (hcs c hc)
    rw [hget, if_pos (p.known_of_validate h.declared h.valid hc hx)]

/-- The values of a solution of the problem, as a function. -/
def valuesOf (assignment : Assignment) (x : String) : Word := (assignment.lookup x).getD 0

theorem Reduced.exists_reads (h : Reduced p settings catalog t T)
    (hM : Meaning settings catalog.declared p.constraints t.shapes T) {assignment : Assignment}
    (hsolved : p.SolvedBy assignment) :
    InDomains T (valuesOf assignment) ∧
      ∃ v : Valuation, v.Satisfies (clausesOf T) ∧ Reads T v (valuesOf assignment) := by
  obtain ⟨catalog', hcatalog, hcovers, hchecks⟩ := hsolved
  obtain rfl : catalog = catalog' := Option.some_inj.mp (h.declared.symm.trans hcatalog)
  have hvalue : ∀ x d, catalog.domain? x = some d →
      valuesOf assignment x ∈ d ∧ assignment.lookup x = some (valuesOf assignment x) := by
    intro x d hd
    obtain ⟨w, hw, hlookup⟩ := hcovers.inside x d hd
    simp [valuesOf, hlookup, hw]
  have hin : InDomains T (valuesOf assignment) :=
    fun x d hd => (hvalue x d ((hM.domains x d).mp hd)).1
  refine ⟨hin, hM.faithful.complete _ ⟨hin, fun c hc => ?_⟩⟩
  refine (Constraint.check_eq_true_iff fun x hx => ?_).mp (hchecks c hc)
  obtain ⟨d, hd⟩ := Catalog.exists_domain?_of_isKnown
    (p.known_of_validate h.declared h.valid hc hx)
  exact (hvalue x d hd).2

theorem Reduced.decode_perm (h : Reduced p settings catalog t T)
    (hM : Meaning settings catalog.declared p.constraints t.shapes T) {assignment : Assignment}
    (hsolved : p.SolvedBy assignment) (hr : Reads T v (valuesOf assignment))
    (hsol : solution.Total t.file.variableCount v) :
    (t.mapping.decode solution).Perm assignment := by
  have hin := (h.exists_reads hM hsolved).1
  obtain ⟨catalog', hcatalog, hcovers, -⟩ := hsolved
  obtain rfl : catalog = catalog' := Option.some_inj.mp (h.declared.symm.trans hcatalog)
  refine Table.perm_of_lookup (Mapping.nodup_keys_decode _ _) hcovers.once fun x => ?_
  rw [h.lookup_decode hM hr hin hsol]
  split
  · next hx =>
    obtain ⟨d, hd⟩ := Catalog.exists_domain?_of_isKnown hx
    obtain ⟨w, -, hlookup⟩ := hcovers.inside x d hd
    rw [valuesOf, hlookup]
    rfl
  · next hx =>
    cases hget : assignment.lookup x with
    | none => rfl
    | some w =>
      exact absurd (hcovers.only x (List.mem_map.mpr ⟨_, Table.mem_of_lookup hget, rfl⟩)) hx

theorem Reduced.reads_of_perm (h : Reduced p settings catalog t T)
    (hM : Meaning settings catalog.declared p.constraints t.shapes T) {b : String → Word}
    {solution' : Solution} (ha : InDomains T a) (hb : InDomains T b) (hra : Reads T v a)
    (hrb : Reads T u b) (hs : solution.Total t.file.variableCount v)
    (hs' : solution'.Total t.file.variableCount u)
    (hperm : (t.mapping.decode solution).Perm (t.mapping.decode solution')) : Reads T u a := by
  refine (hM.represented.reads_congr (.refl _ _) fun x d hx => ?_).mp hrb
  have hknown := Catalog.isKnown_of_domain? ((hM.domains x d).mp hx)
  have hget := Table.lookup_of_perm hperm (Mapping.nodup_keys_decode _ _) x
  rw [h.lookup_decode hM hra ha hs, h.lookup_decode hM hrb hb hs', if_pos hknown, if_pos hknown]
    at hget
  exact (Option.some_inj.mp hget).symm

end

/-! ## The formula and the problem -/

/-- The formula in the file means the problem. Every valuation that satisfies it decodes to a
solution, every solution is decoded from one, and so it is satisfiable exactly when the problem
can be solved. All variables are below the one that stands for the constants. -/
theorem formula_means_problem {store : Store} {p : Problem} {settings : Settings} {path : String}
    {t : Reduction} (hweighted : settings.weighted = false)
    (hok : (ofProblem store p settings path).result = .ok t)
    (hlim : t.file.variableCount < Literal.limit) :
    ∃ f, t.Stores f ∧ f.variableCount = t.file.variableCount ∧
      (∀ (v : Valuation) (solution : Solution), f.holds v = true →
        solution.Total t.file.variableCount v →
        ∃ assignment, t.decode (some solution) = some assignment ∧ p.SolvedBy assignment) ∧
      (∀ assignment, p.SolvedBy assignment → ∃ v, t.Yields f v assignment) ∧
      ((∃ v : Valuation, f.holds v = true) ↔ ∃ assignment, p.SolvedBy assignment) := by
  obtain ⟨catalog, T, h⟩ := reduced_of_ok hweighted hok
  have hM := h.meaning (h.count ▸ hlim)
  obtain ⟨f, hstores, hcount, hholds⟩ := h.exists_formula hlim
  -- a satisfying valuation reads values of the domains for which all constraints hold
  have hsound : ∀ (v : Valuation) (solution : Solution), f.holds v = true →
      solution.Total t.file.variableCount v → p.SolvedBy (t.mapping.decode solution) := by
    intro v solution hv hsol
    obtain ⟨a, ⟨ha, hcs⟩, hr⟩ := hM.faithful.sound v ((hholds v).mp hv)
    exact h.solvedBy_decode hM hr ha hcs hsol
  refine ⟨f, hstores, hcount, fun v solution hv hsol => ⟨_, rfl, hsound v solution hv hsol⟩,
    fun assignment hsolved => ?_, fun ⟨v, hv⟩ => ?_, fun ⟨assignment, hsolved⟩ => ?_⟩
  · obtain ⟨-, v, hv, hr⟩ := h.exists_reads hM hsolved
    have hsol := v.total_solution hlim
    exact ⟨v, (hholds v).mpr hv, _, _, hsol, rfl, h.decode_perm hM hsolved hr hsol⟩
  · exact ⟨_, hsound v _ hv (v.total_solution hlim)⟩
  · obtain ⟨-, v, hv, -⟩ := h.exists_reads hM hsolved
    exact ⟨v, (hholds v).mpr hv⟩

/-! ## A problem that is reduced -/

/-- A value with a gap below it, and a truth value. -/
def gapCatalog : Catalog :=
  ⟨[{ name := "x", domain := .ofValues [1, 3, 4] }, { name := "r", domain := .boolean }]⟩

/-- The truth value says whether the value is at most three. -/
def gapConstraint : Constraint :=
  { rule := .atMost, operands := [.var "x"], threshold := 3, reify := some "r" }

def gapProblem : Problem := { reference := .present gapCatalog, constraints := [gapConstraint] }

/-- The steps of the problem can be taken, whatever the notes and comments say. -/
theorem gap_reaches (j k l m n : JournalEntry) (r s q : String) :
    (Encoder.run (.note j :: .shape "x" .order :: .note k :: .comment r ::
        .domain "x" (.ofValues [1, 3, 4]) :: Encoding.shapeSteps {} 0
          { name := "x", domain := .ofValues [1, 3, 4] } true .order)).reaches
      (fun e => e.shapes.lookup "r" = none && e.writer.variableCount = 2 &&
        (Encoder.run (.shape "r" .boolean :: .note l :: .comment s :: .domain "r" .boolean ::
            Encoding.shapeSteps {} 2 { name := "r", domain := .boolean } true .boolean)).reaches
          (fun e => e.writer.variableCount = 3 &&
            Encoding.checkConstraint gapCatalog e.mapping gapConstraint = .ok () &&
            (Encoder.run (.note m :: .comment q :: .note n ::
                (Encoding.constraintPlan {} gapCatalog e.mapping 3 gapConstraint).steps)).reaches
              (fun e => e.writer.variableCount = 3 && e.writer.clauses.size = 3 &&
                e.mapping.has "x" .orderOnly) e) e)
      ({ writer := {} } : Encoder Formula) = true := by
  cbv

theorem gap_written (j k l m n : JournalEntry) (r s q : String) :
    ∃ e₁ e₂ e₃ : Encoder Instance,
      Encoder.run (.note j :: .shape "x" .order :: .note k :: .comment r ::
        .domain "x" (.ofValues [1, 3, 4]) :: Encoding.shapeSteps {} 0
          { name := "x", domain := .ofValues [1, 3, 4] } true .order)
        { writer := Instance.create "gap.cnf" (instanceOptions {}) } = .ok () e₁ ∧
      e₁.shapes.lookup "r" = none ∧ e₁.variableCount = 2 ∧
      Encoder.run (.shape "r" .boolean :: .note l :: .comment s :: .domain "r" .boolean ::
        Encoding.shapeSteps {} 2 { name := "r", domain := .boolean } true .boolean) e₁ =
          .ok () e₂ ∧
      e₂.variableCount = 3 ∧
      Encoding.checkConstraint gapCatalog e₂.mapping gapConstraint = .ok () ∧
      Encoder.run (.note m :: .comment q :: .note n ::
        (Encoding.constraintPlan {} gapCatalog e₂.mapping 3 gapConstraint).steps) e₂ =
          .ok () e₃ ∧
      e₃.writer.variableCount = 3 ∧ e₃.writer.clauses = 3 ∧
      e₃.mapping.has "x" .orderOnly = true := by
  obtain ⟨e₁, hrun₁, h₁⟩ := Run.reaches_iff.mp (gap_reaches j k l m n r s q)
  rw [Bool.and_eq_true, Bool.and_eq_true, decide_eq_true_eq, decide_eq_true_eq] at h₁
  obtain ⟨⟨hfree, hcount₁⟩, h₁⟩ := h₁
  obtain ⟨e₂, hrun₂, h₂⟩ := Run.reaches_iff.mp h₁
  rw [Bool.and_eq_true, Bool.and_eq_true, decide_eq_true_eq, decide_eq_true_eq] at h₂
  obtain ⟨⟨hcount₂, hcheck⟩, h₂⟩ := h₂
  obtain ⟨e₃, hrun₃, h₃⟩ := Run.reaches_iff.mp h₂
  rw [Bool.and_eq_true, Bool.and_eq_true, decide_eq_true_eq, decide_eq_true_eq] at h₃
  obtain ⟨⟨hcount₃, hclauses⟩, hhas⟩ := h₃
  -- the run was with a formula; a file follows it step by step
  have hf₀ : (Instance.create "gap.cnf" (instanceOptions {})).Follows {} :=
    Instance.follows_create rfl
  obtain ⟨i₁, hok₁, hf₁⟩ := Encoder.run_onto hf₀ hrun₁
  obtain ⟨i₂, hok₂, hf₂⟩ := Encoder.run_onto hf₁ hrun₂
  obtain ⟨i₃, hok₃, hf₃⟩ := Encoder.run_onto hf₂ hrun₃
  exact ⟨e₁.onto i₁, e₂.onto i₂, e₃.onto i₃, hok₁, hfree, hf₁.variableCount.trans hcount₁, hok₂,
    hf₂.variableCount.trans hcount₂, hcheck, hok₃, hf₃.variableCount.trans hcount₃,
    hf₃.clauses.trans hclauses, hhas⟩

theorem encodeVariable_of_run {W : Type} [ClauseWriter W] {settings : Settings} {v : Variable}
    {needs : Representation} {constrained : Bool} {e e' : Encoder W} (shape : Shape)
    (hfree : e.shapes.lookup v.name = none)
    (hshape : Shape.choose settings v.domain.size (needs.union v.needs) = shape)
    (hrun : Encoder.run (Encoding.variableSteps settings e.variableCount v shape constrained) e =
      .ok () e') :
    (Encoding.encodeVariable settings v needs constrained e).2 = .ok () e' := by
  unfold Encoding.encodeVariable
  rw [hfree]
  dsimp only
  rw [hshape, hrun]

theorem encodeConstraint_of_run {W : Type} [ClauseWriter W] {settings : Settings}
    {catalog : Catalog} {c : Constraint} {e e' : Encoder W} {m : Mapping} {n : Nat}
    (hmapping : e.mapping = m)
    (hcount : e.variableCount = n) (hcheck : Encoding.checkConstraint catalog m c = .ok ())
    (hrun : Encoder.run (.note ⟨.debug, "encoding.constraint", [("constraint", .text c.text),
      ("kind", .text c.rule.text), ("reified", .truth c.reify.isSome)]⟩ ::
        (Encoding.constraintPlan settings catalog m n c).steps) e = .ok () e') :
    Encoding.encodeConstraint settings catalog c e = .ok () e' := by
  unfold Encoding.encodeConstraint Encoding.constraintSteps
  rw [hmapping, hcount, hcheck]
  exact hrun

/-- The encoder in front of the variables of the problem, with the entry that announces them. -/
def gapStart : Encoder Instance :=
  { writer := Instance.create "gap.cnf" (instanceOptions {})
    journal := #[⟨.info, "translation.variables", [("count", .number 2),
      ("scheme", .text "product")]⟩] }

/-- The entry in front of the constraint. -/
def gapEntry : JournalEntry := ⟨.info, "translation.constraints", [("count", .number 1)]⟩

theorem gap_encodes : ∃ e₂ e₃ : Encoder Instance,
    encodeVariables gapProblem {} gapCatalog.declared gapStart = .ok () e₂ ∧
    encodeConstraints {} gapCatalog gapProblem.constraints (e₂.note gapEntry) = .ok () e₃ ∧
    e₃.writer.variableCount = 3 ∧ e₃.writer.clauses = 3 ∧
    e₃.mapping.has "x" .orderOnly = true := by
  -- the variables get names, so that nothing below evaluates their domains
  obtain ⟨x, hx⟩ : ∃ x : Variable, x = { name := "x", domain := .ofValues [1, 3, 4] } := ⟨_, rfl⟩
  obtain ⟨y, hy⟩ : ∃ y : Variable, y = { name := "r", domain := .boolean } := ⟨_, rfl⟩
  obtain ⟨e₁, e₂, e₃, hrun₁, hfree, hcount₁, hrun₂, hcount₂, hcheck, hrun₃, hcount₃, hclauses,
    hhas⟩ := gap_written
      ⟨.info, "translation.variables", [("count", .number 2), ("scheme", .text "product")]⟩
      ⟨.debug, "encoding.variable", [("variable", .text x.name), ("domain", .text x.domain.text),
        ("shape", .text "order")]⟩
      ⟨.debug, "encoding.variable", [("variable", .text y.name), ("domain", .text y.domain.text),
        ("shape", .text "boolean")]⟩
      gapEntry
      ⟨.debug, "encoding.constraint", [("constraint", .text gapConstraint.text),
        ("kind", .text gapConstraint.rule.text), ("reified", .truth true)]⟩
      (Encoding.variableComment x .order) (Encoding.variableComment y .boolean)
      ("Encoding constraint: " ++ gapConstraint.text)
  subst hx hy
  obtain ⟨e₀, hnote₀, hrun₁⟩ := Encoder.run_cons_eq_ok.mp hrun₁
  obtain rfl : gapStart = e₀ := (EStateM.Result.ok.inj hnote₀).2
  obtain ⟨e₄, hnote₄, hrun₃⟩ := Encoder.run_cons_eq_ok.mp hrun₃
  obtain rfl : e₂.note gapEntry = e₄ := (EStateM.Result.ok.inj hnote₄).2
  obtain ⟨e₅, hcomment, hrun₃⟩ := Encoder.run_cons_eq_ok.mp hrun₃
  refine ⟨e₂, e₃, ?_, ?_, hcount₃, hclauses, hhas⟩
  · refine Run.bind_eq_ok.mpr ⟨(), e₁, blame_eq_ok.mpr ?_, ?_⟩
    · exact encodeVariable_of_run .order rfl (by cbv) hrun₁
    refine Run.bind_eq_ok.mpr ⟨(), e₂, blame_eq_ok.mpr ?_, rfl⟩
    refine encodeVariable_of_run .boolean hfree (by cbv) ?_
    rw [hcount₁]
    exact hrun₂
  · refine Run.bind_eq_ok.mpr ⟨(), e₅, hcomment, ?_⟩
    refine Run.bind_eq_ok.mpr ⟨(), e₃, blame_eq_ok.mpr ?_, rfl⟩
    have hwritten : Encoder.onWriter (Instance.addComment ("Encoding constraint: " ++
        gapConstraint.text)) (e₂.note gapEntry) = .ok () e₅ := hcomment
    obtain ⟨w, hw, rfl⟩ := Encoder.onWriter_eq_ok.mp hwritten
    -- a comment allocates nothing
    have hcount : w.variableCount = 3 := by
      have hleft : w = Instance.left (Instance.addComment _ _) := (congrArg Instance.left hw).symm
      rw [hleft, (Instance.addComment_writes _ _).same]
      exact hcount₂
    exact encodeConstraint_of_run rfl hcount hcheck hrun₃

theorem gap_reduces : ∃ t, (ofProblem {} gapProblem {} "gap.cnf").result = .ok t ∧
    t.file.variableCount = 3 ∧ t.file.clauses = 3 ∧ t.mapping.has "x" .orderOnly = true := by
  obtain ⟨e₂, e₃, hvariables, hconstraints, hcount₃, hclauses, hhas⟩ := gap_encodes
  have hstart : Progress {} _ [] [] gapStart [] :=
    (progress_start {} "gap.cnf" (instanceOptions {})).note _
  obtain ⟨T₂, h₂⟩ := encodeVariables_progress hstart hvariables
  rw [List.nil_append] at h₂
  obtain ⟨T₃, h₃⟩ := encodeConstraints_progress (h₂.note gapEntry) hconstraints
  -- three variables and three clauses leave room in the header
  have hroom : e₃.writer.header.length ≤ Instance.headerWidth :=
    Instance.length_header_le (by rw [hcount₃]; decide) (by rw [hclauses]; decide)
  obtain ⟨file, hfinalize, -, hfile⟩ := h₃.written.has.finalize hroom
  have hencode : encode gapProblem {} gapCatalog
      { writer := Instance.create "gap.cnf" (instanceOptions {}) } =
        .ok () { e₃ with writer := file } := by
    refine Run.bind_eq_ok.mpr ⟨(), gapStart, rfl, ?_⟩
    refine Run.bind_eq_ok.mpr ⟨(), e₂, hvariables, ?_⟩
    refine Run.bind_eq_ok.mpr ⟨(), e₂.note gapEntry, rfl, ?_⟩
    refine Run.bind_eq_ok.mpr ⟨(), e₃, hconstraints, ?_⟩
    exact Encoder.onWriter_eq_ok.mpr ⟨file, hfinalize, rfl⟩
  have hcheck : precheck gapProblem {} = .ok (.present gapCatalog) := by cbv
  have hwrite : ({} : Store).writeFault "gap.cnf" = none := by decide +kernel
  refine ⟨⟨file, e₃.mapping, e₃.shapes⟩, ?_, ?_, ?_, hhas⟩
  · rw [ofProblem_of_precheck hcheck hwrite, encodeThrough_present, hencode]
    rfl
  · rw [hfile]
    exact hcount₃
  · rw [hfile]
    exact hclauses

theorem gap_solvedBy : gapProblem.SolvedBy [("r", 0), ("x", 4)] := by
  have hmem : ∀ v ∈ gapCatalog.declared,
      ∃ w ∈ v.domain, List.lookup v.name [("r", (0 : Word)), ("x", 4)] = some w := by
    simp only [gapCatalog, List.forall_mem_cons]
    exact ⟨⟨4, Domain.mem_ofValues.mpr (by simp), rfl⟩,
      ⟨0, (Domain.mem_of_isBoolean Domain.isBoolean_boolean).mpr (.inl rfl), rfl⟩, by simp⟩
  refine ⟨gapCatalog, rfl, ⟨by decide, by decide, fun x d hd => ?_⟩, by decide⟩
  obtain ⟨v, hv, rfl⟩ := Option.map_eq_some_iff.mp hd
  obtain ⟨w, hw, hlookup⟩ := hmem v (List.mem_of_find?_eq_some hv)
  have hname : v.name = x := by simpa using List.find?_some hv
  exact ⟨w, hw, hname ▸ hlookup⟩

/-- The file of a value with a gap and a truth value holds such a formula. -/
theorem gap_formula_means_problem : ∃ t, (ofProblem {} gapProblem {} "gap.cnf").result = .ok t ∧
    t.file.variableCount < Literal.limit ∧
    ∃ f, t.Stores f ∧ (∃ v, t.Yields f v [("r", 0), ("x", 4)]) ∧
      ((∃ v : Valuation, f.holds v = true) ↔ ∃ assignment, gapProblem.SolvedBy assignment) := by
  obtain ⟨t, hok, hcount, -, -⟩ := gap_reduces
  have hlim : t.file.variableCount < Literal.limit := by
    rw [hcount]
    decide
  obtain ⟨f, hstores, -, -, hcomplete, hiff⟩ := formula_means_problem rfl hok hlim
  exact ⟨t, hok, hlim, f, hstores, hcomplete _ gap_solvedBy, hiff⟩

/-! ## One valuation for a solution -/

/-- Where auxiliary variables are to be determined, a solution of the problem is decoded from
exactly one valuation of the variables of the formula. -/
theorem one_valuation_per_solution {store : Store} {p : Problem} {settings : Settings}
    {path : String} {t : Reduction} (hweighted : settings.weighted = false)
    (hdetermined : settings.auxNonFunctional = false)
    (hok : (ofProblem store p settings path).result = .ok t)
    (hlim : t.file.variableCount < Literal.limit) :
    ∃ f, t.Stores f ∧ ∀ assignment, p.SolvedBy assignment →
      ∃ v, t.Yields f v assignment ∧
        ∀ u, t.Yields f u assignment → v.Agree t.file.variableCount u := by
  obtain ⟨catalog, T, h⟩ := reduced_of_ok hweighted hok
  have hM := h.meaning (h.count ▸ hlim)
  obtain ⟨f, hstores, -, hholds⟩ := h.exists_formula hlim
  refine ⟨f, hstores, fun assignment hsolved => ?_⟩
  obtain ⟨ha, v, hv, hra⟩ := h.exists_reads hM hsolved
  have hsol := v.total_solution hlim
  have hperm := h.decode_perm hM hsolved hra hsol
  refine ⟨v, ⟨(hholds v).mpr hv, _, _, hsol, rfl, hperm⟩, ?_⟩
  rintro u ⟨hu, solution, decoded, hsol', hdecoded, hperm'⟩
  obtain rfl := Option.some_inj.mp hdecoded
  obtain ⟨b, ⟨hb, -⟩, hrb⟩ := hM.faithful.sound u ((hholds u).mp hu)
  have hrb' := h.reads_of_perm hM ha hb hra hrb hsol hsol' (hperm.trans hperm'.symm)
  rw [h.count]
  exact hM.faithful.unique hdetermined v u _ hv ((hholds u).mp hu) hra hrb'

/-- The solution in which the value is four is decoded from one valuation of three variables. -/
theorem gap_one_valuation : ∃ t f, (ofProblem {} gapProblem {} "gap.cnf").result = .ok t ∧
    t.file.variableCount < Literal.limit ∧ t.Stores f ∧
    ∃ v, t.Yields f v [("r", 0), ("x", 4)] ∧
      ∀ u, t.Yields f u [("r", 0), ("x", 4)] → v.Agree 3 u := by
  obtain ⟨t, hok, hcount, -, -⟩ := gap_reduces
  have hlim : t.file.variableCount < Literal.limit := by
    rw [hcount]
    decide
  obtain ⟨f, hstores, hone⟩ := one_valuation_per_solution rfl rfl hok hlim
  rw [hcount] at hone
  exact ⟨t, f, hok, hlim, hstores, hone _ gap_solvedBy⟩

end Reduction

end Clausify
