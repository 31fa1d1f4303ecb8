import Mathlib
import Clausify.Problem.Source
import Clausify.Proofs.Domain.Normal
import Clausify.Proofs.Problem.Valid
import Clausify.Proofs.Relation.Library

/-!
Problems built from documents are valid. Building declares the variables one by one, each under a
new name and with the values that are written for it (`foldlM_declare`), and then builds constraints
whose operands and reifying variable are declared (`ConstraintSource.build_cases`). Main statement:
whatever is built passes the check that comes before a reduction, and its catalog, constraints,
preferences and objective are what the source says (`built_problem_valid`).
-/

namespace Clausify

/-! ## Variables -/

namespace VariableSource

/-- The values that are written for a variable: single ones, or those between two bounds. -/
def Lists (s : VariableSource) (w : Word) : Prop :=
  w ∈ s.values ∨ ∃ lower upper, [lower, upper] ∈ s.domain ∧ lower ≤ w ∧ w ≤ upper

theorem interval_eq_ok {name : String} {bounds : List Word} {i : Interval} :
    interval name bounds = .ok i ↔ bounds = [i.lower, i.upper] := by
  unfold interval
  split
  · next lower upper =>
    cases i
    simp
  · next hpair => simpa using hpair i.lower i.upper

variable {s : VariableSource}

theorem mem_buildDomain {d : Domain} (h : s.buildDomain = .ok d) {w : Word} :
    w ∈ d ↔ s.Lists w := by
  unfold buildDomain at h
  split_ifs at h with hboth hvalues
  · -- single values, and no intervals beside them
    obtain rfl := Except.ok.inj h
    have hdomain : s.domain = [] := by
      by_contra hne
      exact hboth (by simpa [hne] using hvalues)
    rw [Domain.mem_ofValues, Lists, hdomain]
    simp
  · obtain ⟨is, his, rfl⟩ := map_eq_ok.mp h
    have hnone : s.values = [] := by simpa using hvalues
    have hdomain : s.domain = is.map fun i => [i.lower, i.upper] := by
      have hpairs := mapM_eq_ok.mp his
      simp only [interval_eq_ok] at hpairs
      rw [← List.forall₂_eq_eq_eq, List.forall₂_map_right_iff]
      exact hpairs
    rw [Domain.mem_ofIntervals, Lists, hnone, hdomain]
    constructor
    · rintro ⟨i, hi, hw⟩
      exact .inr ⟨i.lower, i.upper, List.mem_map.mpr ⟨i, hi, rfl⟩, hw⟩
    · rintro (hw | ⟨lower, upper, hpair, hw⟩)
      · simp at hw
      · obtain ⟨i, hi, heq⟩ := List.mem_map.mp hpair
        simp only [List.cons.injEq, and_true] at heq
        exact ⟨i, hi, heq.1 ▸ hw.1, heq.2 ▸ hw.2⟩

theorem of_build_eq_ok {v : Variable} (h : s.build = .ok v) :
    v.name = s.name ∧ ∀ w, w ∈ v.domain ↔ s.Lists w := by
  obtain ⟨domain, hdomain, h⟩ := bind_eq_ok.mp h
  obtain ⟨category, -, h⟩ := bind_eq_ok.mp h
  obtain ⟨needs, -, h⟩ := bind_eq_ok.mp h
  obtain rfl := Except.ok.inj h
  exact ⟨rfl, fun w => mem_buildDomain hdomain⟩

end VariableSource

/-! ## The catalog -/

namespace Catalog

variable {catalog catalog' : Catalog} {v : Variable}

/-- All names are different and none is empty. -/
structure Proper (catalog : Catalog) : Prop where
  nodup : catalog.names.Nodup
  named : "" ∉ catalog.names

theorem proper_empty : empty.Proper := ⟨List.nodup_nil, List.not_mem_nil⟩

theorem add_eq_ok : catalog.add v = .ok catalog' ↔
    v.name ≠ "" ∧ v.name ∉ catalog.names ∧ catalog' = ⟨catalog.declared ++ [v]⟩ := by
  rw [← isKnown_iff]
  unfold add
  split_ifs with hempty hknown
  · simp [hempty]
  · simp [hknown]
  · simp [hempty, hknown, eq_comm]

theorem Proper.add (h : catalog.Proper) (hadd : catalog.add v = .ok catalog') :
    catalog'.Proper := by
  obtain ⟨hempty, hnew, rfl⟩ := add_eq_ok.mp hadd
  have hnames : (⟨catalog.declared ++ [v]⟩ : Catalog).names = catalog.names ++ [v.name] := by
    simp [names]
  constructor
  · rw [hnames, ← List.concat_eq_append, List.nodup_concat]
    exact ⟨hnew, h.nodup⟩
  · rw [hnames, List.mem_append, not_or]
    exact ⟨h.named, by simpa using Ne.symm hempty⟩

theorem Proper.domain?_of_mem (h : catalog.Proper) (hv : v ∈ catalog.declared) :
    catalog.domain? v.name = some v.domain := by
  obtain ⟨u, hu⟩ : ∃ u, catalog.find? v.name = some u := by
    apply Option.isSome_iff_exists.mp
    exact isKnown_iff.mpr (List.mem_map_of_mem hv)
  have hname : u.name = v.name := by simpa using List.find?_some hu
  have huv : u = v := List.inj_on_of_nodup_map h.nodup (List.mem_of_find?_eq_some hu) hv hname
  rw [domain?, hu, huv]
  rfl

end Catalog

namespace ProblemSource

/-- Declaring variables one by one adds them under new names, with the values that are written. -/
theorem foldlM_declare {sources : List VariableSource} {catalog catalog' : Catalog}
    (h : sources.foldlM declare catalog = .ok catalog') (hproper : catalog.Proper) :
    catalog'.Proper ∧ ∃ vs, List.Forall₂ (fun s v => VariableSource.build s = .ok v) sources vs ∧
      catalog'.declared = catalog.declared ++ vs := by
  induction sources generalizing catalog with
  | nil =>
    obtain rfl := Except.ok.inj h
    exact ⟨hproper, [], .nil, by simp⟩
  | cons s rest ih =>
    rw [List.foldlM_cons] at h
    obtain ⟨next, hnext, hrest⟩ := bind_eq_ok.mp h
    obtain ⟨v, hv, hadd⟩ := bind_eq_ok.mp hnext
    obtain ⟨hproper', vs, hvs, hdeclared⟩ := ih hrest (hproper.add hadd)
    obtain ⟨-, -, rfl⟩ := Catalog.add_eq_ok.mp hadd
    exact ⟨hproper', v :: vs, .cons hv hvs, by simp [hdeclared]⟩

end ProblemSource

/-! ## Constraints -/

namespace ConstraintSource

variable {catalog : Catalog} {s : ConstraintSource}

/-- What a source says about a constraint of the library: its name, how it is encoded and what
reifies it. -/
def dress (s : ConstraintSource) (strategy : Strategy) (c : Constraint) : Constraint :=
  { c with
    name := if s.name = "" then c.name else s.name
    reify := if s.reify = "" then none else some s.reify
    strategy
    topLevel := s.topLevel.getD true && s.reify = "" }

/-- A written constraint is built from declared operands and a reifying variable over truth values,
and only a relation that gives at most one constraint can be reified. -/
theorem build_cases {cs : List Constraint} (h : s.build catalog = .ok cs) :
    ∃ operands strategy us, s.operands.mapM (operand catalog s.relation) = .ok operands ∧
      s.checkReifier catalog = .ok () ∧
      Library.build s.relation operands s.offset s.value = .ok us ∧
      (s.reify ≠ "" → us.length ≤ 1) ∧ cs = us.map (s.dress strategy) := by
  unfold build at h
  obtain ⟨operands, hoperands, h⟩ := bind_eq_ok.mp h
  obtain ⟨hreifier, h⟩ := seq_eq_ok.mp h
  obtain ⟨strategy, -, h⟩ := bind_eq_ok.mp h
  obtain ⟨us, hus, h⟩ := bind_eq_ok.mp h
  dsimp only at h
  by_cases hmany : (decide (us.length > 1) && decide (s.reify ≠ "")) = true
  · rw [if_pos hmany] at h
    cases h
  · rw [if_neg hmany] at h
    obtain rfl := Except.ok.inj h
    refine ⟨operands, strategy, us, hoperands, hreifier, hus, fun hreify => ?_, rfl⟩
    simpa [hreify] using hmany

theorem operand_eq_ok {relation : String} {value : Document.Value} {o : Operand} :
    operand catalog relation value = .ok o ↔
      Operand.ofValue value = .ok o ∧ ∀ x, o = .var x → catalog.isKnown x = true := by
  unfold operand
  rw [bind_eq_ok]
  constructor
  · rintro ⟨o', ho', h⟩
    cases o' with
    | const w =>
      obtain rfl := Except.ok.inj h
      exact ⟨ho', fun x hx => Operand.noConfusion hx⟩
    | var y =>
      dsimp only at h
      split_ifs at h with hknown
      obtain rfl := Except.ok.inj h
      exact ⟨ho', fun x hx => Operand.var.inj hx ▸ hknown⟩
  · rintro ⟨ho, hknown⟩
    refine ⟨o, ho, ?_⟩
    cases o with
    | const w => rfl
    | var y => exact if_pos (hknown y rfl)

theorem of_mapM_operand {relation : String} {values : List Document.Value}
    {operands : List Operand} (h : values.mapM (operand catalog relation) = .ok operands) :
    values.mapM Operand.ofValue = .ok operands ∧
      ∀ x, Operand.var x ∈ operands → catalog.isKnown x = true := by
  have hall := mapM_eq_ok.mp h
  constructor
  · exact mapM_eq_ok.mpr (hall.imp fun value o ho => (operand_eq_ok.mp ho).1)
  · intro x hx
    obtain ⟨value, -, hvalue⟩ := exists_left_of_mem hall hx
    exact (operand_eq_ok.mp hvalue).2 x rfl

theorem of_checkReifier (h : s.checkReifier catalog = .ok ()) (hreify : s.reify ≠ "") :
    ∃ d, catalog.domain? s.reify = some d ∧ ∀ w, w ∈ d ↔ w = 0 ∨ w = 1 := by
  rw [checkReifier, if_neg hreify] at h
  split at h
  · cases h
  · next d hd =>
    split_ifs at h with hboolean
    exact ⟨d, hd, fun w => Domain.mem_of_isBoolean hboolean⟩

theorem reify_dress {strategy : Strategy} {c : Constraint} {x : String} :
    (s.dress strategy c).reify = some x ↔ s.reify ≠ "" ∧ x = s.reify := by
  unfold dress
  by_cases h : s.reify = "" <;> simp [h, eq_comm]

theorem validate_dress {strategy : Strategy} {c : Constraint} (h : c.validate = .ok ()) :
    (s.dress strategy c).validate = .ok () := by
  unfold Constraint.validate at h ⊢
  unfold dress
  dsimp only
  split at h <;> simp_all

end ConstraintSource

/-- A constraint that a reduction can start from: it is valid, its variables are declared, and what
reifies it is a truth value and takes it from the top level. -/
structure Constraint.WellPosed (catalog : Catalog) (c : Constraint) : Prop where
  valid : c.validate = .ok ()
  known : ∀ x ∈ c.variableNames, catalog.isKnown x = true
  reified : ∀ x, c.reify = some x →
    c.topLevel = false ∧ ∃ d, catalog.domain? x = some d ∧ ∀ w, w ∈ d ↔ w = 0 ∨ w = 1

theorem ConstraintSource.wellPosed_of_build {catalog : Catalog} {s : ConstraintSource}
    {cs : List Constraint} (h : s.build catalog = .ok cs) : ∀ c ∈ cs, c.WellPosed catalog := by
  obtain ⟨operands, strategy, us, hoperands, hreifier, hus, -, rfl⟩ := build_cases h
  intro c hc
  obtain ⟨u, hu, rfl⟩ := List.mem_map.mp hc
  obtain ⟨hvalid, hsubset, -⟩ := Library.of_mem_build hus hu
  refine ⟨validate_dress hvalid, ?_, ?_⟩
  · intro x hx
    rcases Constraint.mem_variableNames.mp hx with hx | hx
    · exact (of_mapM_operand hoperands).2 x (hsubset hx)
    · obtain ⟨hreify, rfl⟩ := reify_dress.mp hx
      obtain ⟨d, hd, -⟩ := of_checkReifier hreifier hreify
      exact Catalog.isKnown_of_domain? hd
  · intro x hx
    obtain ⟨hreify, rfl⟩ := reify_dress.mp hx
    exact ⟨by simp [dress, hreify], of_checkReifier hreifier hreify⟩

/-- What is built from a source has tests that read no more values than there are operands. -/
theorem ConstraintSource.fed_of_build {catalog : Catalog} {s : ConstraintSource}
    {cs : List Constraint} (h : s.build catalog = .ok cs) : ∀ c ∈ cs, c.Fed := by
  obtain ⟨operands, strategy, us, -, -, hus, -, rfl⟩ := build_cases h
  intro c hc
  obtain ⟨u, hu, rfl⟩ := List.mem_map.mp hc
  exact Library.fed_of_build hus u hu

/-! ## Whole problems -/

theorem ObjectiveSource.isKnown_of_build {catalog : Catalog} {s : ObjectiveSource} {o : Objective}
    (h : s.build catalog = .ok o) : catalog.isKnown o.var = true := by
  have hfinish : ∀ objective : Objective, (if catalog.isKnown objective.var = true then
      Except.ok objective else .error (ModelFault.unknownObjective objective.var)) = .ok o →
      catalog.isKnown o.var = true := by
    intro objective h
    split_ifs at h with hknown
    obtain rfl := Except.ok.inj h
    exact hknown
  unfold build at h
  dsimp only at h
  split at h
  · cases h
  split at h
  · exact hfinish _ h
  split at h
  · exact hfinish _ h
  · cases h

namespace ProblemSource

variable {s : ProblemSource} {p : Problem}

theorem checkPreference_eq_ok {catalog : Catalog} {q : Preference} :
    checkPreference catalog q = .ok () ↔ catalog.isKnown q.var = true ∧ 0 < q.weight := by
  unfold checkPreference
  cases catalog.isKnown q.var with
  | false => simp
  | true =>
    by_cases hweight : q.weight ≤ 0
    · simp [hweight, Int64.not_lt.mpr hweight]
    · simp [hweight, Int64.not_le.mp hweight]

/-- A problem is built part by part over one catalog. -/
theorem build_cases (h : s.build = .ok p) :
    ∃ catalog css, s.declarations.foldlM declare Catalog.empty = .ok catalog ∧
      p.catalog = some catalog ∧
      List.Forall₂ (fun c cs => ConstraintSource.build catalog c = .ok cs) s.constraints css ∧
      p.constraints = css.flatten ∧ p.preferences = s.preferences ∧
      (∀ q ∈ s.preferences, checkPreference catalog q = .ok ()) ∧
      ∀ o ∈ p.objective, catalog.isKnown o.var = true := by
  unfold build at h
  obtain ⟨catalog, hcatalog, h⟩ := bind_eq_ok.mp h
  obtain ⟨css, hcss, h⟩ := bind_eq_ok.mp h
  obtain ⟨hpreferences, h⟩ := seq_eq_ok.mp h
  obtain ⟨objective, hobjective, h⟩ := bind_eq_ok.mp h
  obtain rfl := Except.ok.inj h
  refine ⟨catalog, css, hcatalog, rfl, mapM_eq_ok.mp hcss, rfl, rfl,
    forM_eq_ok_iff.mp hpreferences, ?_⟩
  intro o ho
  cases hs : s.objective with
  | none =>
    rw [hs] at hobjective
    obtain rfl := Except.ok.inj hobjective
    simp at ho
  | some t =>
    rw [hs] at hobjective
    obtain ⟨o', ho', rfl⟩ := map_eq_ok.mp hobjective
    obtain rfl := Option.some.inj ho
    exact t.isKnown_of_build ho'

/-- What is built from a source refers to a catalog, and its tests are fed. -/
theorem carried_of_build (h : s.build = .ok p) :
    p.catalog.isSome = true ∧ ∀ c ∈ p.constraints, c.Fed := by
  obtain ⟨catalog, css, -, hcatalog, hcss, hconstraints, -⟩ := build_cases h
  refine ⟨by rw [hcatalog]; rfl, ?_⟩
  intro c hc
  rw [hconstraints] at hc
  obtain ⟨cs, hcs, hc⟩ := List.mem_flatten.mp hc
  obtain ⟨source, -, hbuild⟩ := exists_left_of_mem hcss hcs
  exact source.fed_of_build hbuild c hc

/-- What is built from a source is valid. The catalog has the names of the source, all different and
none empty, and each domain the values that are written for it; constraints and objective speak
about declared variables, what reifies a constraint is a truth value, and preferences have
positive weights. -/
theorem built_problem_valid (h : s.build = .ok p) :
    p.validate = .ok () ∧ ∃ catalog, p.catalog = some catalog ∧
      catalog.names = s.declarations.map VariableSource.name ∧ catalog.Proper ∧
      (∀ source ∈ s.declarations,
        ∃ d, catalog.domain? source.name = some d ∧ ∀ w, w ∈ d ↔ source.Lists w) ∧
      (∀ c ∈ p.constraints, c.WellPosed catalog) ∧
      (∀ q ∈ p.preferences, catalog.isKnown q.var = true ∧ 0 < q.weight) ∧
      ∀ o ∈ p.objective, catalog.isKnown o.var = true := by
  obtain ⟨catalog, css, hdeclare, hcatalog, hcss, hconstraints, hpreferences, hchecked,
    hobjective⟩ := build_cases h
  obtain ⟨hproper, vs, hvs, hdeclared⟩ := foldlM_declare hdeclare Catalog.proper_empty
  have hnames : catalog.names = s.declarations.map VariableSource.name := by
    rw [Catalog.names, hdeclared]
    symm
    -- one variable is built for each declaration, in order
    rw [← List.forall₂_eq_eq_eq, List.forall₂_map_left_iff, List.forall₂_map_right_iff]
    exact hvs.imp fun source v hv => (VariableSource.of_build_eq_ok hv).1.symm
  have hdomains : ∀ source ∈ s.declarations,
      ∃ d, catalog.domain? source.name = some d ∧ ∀ w, w ∈ d ↔ source.Lists w := by
    intro source hsource
    obtain ⟨v, hv, hbuild⟩ := exists_right_of_mem hvs hsource
    obtain ⟨hname, hmem⟩ := VariableSource.of_build_eq_ok hbuild
    have hfound := hproper.domain?_of_mem (hdeclared ▸ List.mem_append_right _ hv)
    exact ⟨v.domain, hname ▸ hfound, hmem⟩
  have hposed : ∀ c ∈ p.constraints, c.WellPosed catalog := by
    intro c hc
    rw [hconstraints] at hc
    obtain ⟨cs, hcs, hc⟩ := List.mem_flatten.mp hc
    obtain ⟨source, -, hbuild⟩ := exists_left_of_mem hcss hcs
    exact source.wellPosed_of_build hbuild c hc
  have hwishes : ∀ q ∈ p.preferences, catalog.isKnown q.var = true ∧ 0 < q.weight := by
    intro q hq
    rw [hpreferences] at hq
    exact checkPreference_eq_ok.mp (hchecked q hq)
  refine ⟨?_, catalog, hcatalog, hnames, hproper, hdomains, hposed, hwishes, hobjective⟩
  rw [Problem.validate_eq_ok_iff hcatalog]
  refine ⟨fun c hc => ?_, fun q hq => (hwishes q hq).1, hobjective⟩
  exact ⟨(hposed c hc).valid, Encoding.undeclared?_eq_none.mpr (hposed c hc).known⟩

/-- Adjacent and empty intervals, a reified comparison and a decomposed relation over a constant. -/
def sample : ProblemSource where
  declarations := [{ name := "x", domain := [[3, 4], [1, 2], [9, 5]] },
    { name := "b", values := [1, 0, 1], category := "aux" }]
  constraints := [{ relation := "LE", operands := [.text "x", .text "3"], reify := "b" },
    { relation := "alldiff", operands := [.text "x", .text "b", .integer 7]
      topLevel := some false }]
  preferences := [⟨"x", 4, 2⟩]
  objective := some { maximise := "x" }

theorem exists_of_isOk (h : s.build.isOk = true) : ∃ p, s.build = .ok p := by
  cases hp : s.build with
  | error fault => simp [hp, Except.isOk, Except.toBool] at h
  | ok p => exact ⟨p, rfl⟩

theorem sample_problem_valid : ∃ p catalog d, sample.build = .ok p ∧ p.validate = .ok () ∧
    p.catalog = some catalog ∧ catalog.names = ["x", "b"] ∧ catalog.domain? "x" = some d ∧
    4 ∈ d ∧ 7 ∉ d ∧ ∀ c ∈ p.constraints, c.WellPosed catalog := by
  obtain ⟨p, hp⟩ := exists_of_isOk (s := sample) (by cbv)
  obtain ⟨hvalid, catalog, hcatalog, hnames, -, hdomains, hposed, -⟩ := built_problem_valid hp
  obtain ⟨d, hd, hmem⟩ := hdomains _ List.mem_cons_self
  refine ⟨p, catalog, d, hp, hvalid, hcatalog, hnames, hd, ?_, ?_, hposed⟩
  · exact (hmem 4).mpr (.inr ⟨3, 4, by simp, by decide, by decide⟩)
  · rw [hmem]
    -- the interval from nine down to five lists nothing
    rintro (h | ⟨lower, upper, hpair, hlower, hupper⟩)
    · simp at h
    · simp only [List.mem_cons, List.cons.injEq, and_true, List.not_mem_nil, or_false] at hpair
      obtain ⟨rfl, rfl⟩ | ⟨rfl, rfl⟩ | ⟨rfl, rfl⟩ := hpair
      · exact absurd hupper (by decide)
      · exact absurd hupper (by decide)
      · exact absurd hlower (by decide)

end ProblemSource

end Clausify
