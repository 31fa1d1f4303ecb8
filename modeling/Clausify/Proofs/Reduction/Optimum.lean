import Mathlib
import Clausify.Proofs.Instance.Extend
import Clausify.Proofs.Reduction.Meaning
import Clausify.Reduction.Optimise

/-!
Optimisation finds an optimum. Before each call of the solver the file holds the formula of the
problem and one literal that is true at the values better than the best found so far (`Poised`).
A solution found is therefore better than the one before, of which there can be only as many as
the objective has values; and where there is no solution left, the last one is optimal. Taking the
bounding clause out leaves the reduction as it was.

Main statement: `optimum_found`.
-/

namespace Clausify

/-! ## Solvers -/

/-- The answer is right: all variables in a way that satisfies the formula, or nothing where
nothing satisfies it. -/
def Formula.AnsweredBy (f : Formula) : Answer → Prop
  | none => ∀ v : Valuation, f.holds v = false
  | some solution => ∃ v : Valuation, f.holds v = true ∧ solution.Total f.variableCount v

/-- The solver answers every formula that it reads from the file rightly and leaves the file
alone. Which solution it gives may depend on its state. -/
def Oracle.Sound {σ : Type} (oracle : Oracle σ) : Prop :=
  ∀ (s : σ) (path : String) (bytes : ByteArray) (f : Formula),
    Dimacs.parse (Text.decode bytes) = .ok f → f.variableCount < Literal.limit →
    ∃ s' answer, oracle.solve s path (some bytes) = (s', some bytes, .ok answer) ∧
      f.AnsweredBy answer

open Classical in
/-- Some solution of a formula, if there is one. -/
noncomputable def Formula.someAnswer (f : Formula) : Answer :=
  if h : ∃ v : Valuation, f.holds v = true then some (h.choose.solution f.variableCount) else none

theorem Formula.answeredBy_someAnswer {f : Formula} (hlim : f.variableCount < Literal.limit) :
    f.AnsweredBy f.someAnswer := by
  unfold someAnswer
  split
  · next h => exact ⟨h.choose, h.choose_spec, h.choose.total_solution hlim⟩
  · next h => exact fun v => Bool.not_eq_true _ ▸ fun hv => h ⟨v, hv⟩

/-- A solver that answers the formula in the file and counts its calls. -/
noncomputable def countingOracle : Oracle Nat where
  solve count _ disk := (count + 1, disk, .ok (disk.bind fun bytes =>
    match Dimacs.parse (Text.decode bytes) with
    | .ok f => f.someAnswer
    | .error _ => none))

theorem countingOracle_sound : countingOracle.Sound := by
  intro s path bytes f hparse hlim
  refine ⟨_, _, rfl, ?_⟩
  rw [Option.bind_some, hparse]
  exact Formula.answeredBy_someAnswer hlim

/-! ## Better values -/

namespace Objective

variable {objective : Objective} {u w : Word}

/-- Whether one value is better than another. -/
def improves (objective : Objective) (u w : Word) : Bool :=
  if objective.maximise then w < u else u < w

/-- Whether a value would be better than the best found. -/
def wants (objective : Objective) : Option Assignment → Word → Bool
  | none, _ => true
  | some found, w => objective.improves w (Reduction.valuesOf found objective.var)

theorem improves_self (objective : Objective) (w : Word) : objective.improves w w = false := by
  simp [improves, Int64.lt_irrefl]

theorem improves_trans {z : Word} (h : objective.improves u w = true)
    (h' : objective.improves w z = true) : objective.improves u z = true := by
  cases hmax : objective.maximise with
  | true =>
    simp only [improves, hmax, if_true, decide_eq_true_eq] at h h' ⊢
    exact Int64.lt_trans h' h
  | false =>
    simp only [improves, hmax, Bool.false_eq_true, if_false, decide_eq_true_eq] at h h' ⊢
    exact Int64.lt_trans h h'

theorem wants_lt {best : Option Assignment} {found : Assignment} {values : List Word}
    (hmem : Reduction.valuesOf found objective.var ∈ values)
    (hwant : objective.wants best (Reduction.valuesOf found objective.var) = true) :
    (values.filter (objective.wants (some found))).length <
      (values.filter (objective.wants best)).length := by
  have hsub : ∀ w, objective.wants (some found) w = true → objective.wants best w = true := by
    intro w hw
    cases best with
    | none => rfl
    | some a => exact improves_trans hw hwant
  have hfilter : values.filter (objective.wants (some found)) =
      (values.filter (objective.wants best)).filter (objective.wants (some found)) := by
    rw [List.filter_filter]
    refine List.filter_congr fun w _ => ?_
    cases hw : objective.wants (some found) w with
    | true => rw [hsub w hw, Bool.and_self]
    | false => rw [Bool.false_and]
  rw [hfilter]
  refine List.length_filter_lt_length_iff_exists.mpr
    ⟨_, List.mem_filter.mpr ⟨hmem, hwant⟩, ?_⟩
  simp [wants, improves_self]

end Objective

namespace Optimisation

open Step Reduction

section

variable {σ : Type} {p : Problem} {settings : Settings} {catalog : Catalog} {t : Reduction}
  {T : List Step} {objective : Objective} {o : Optimisation σ} {l : Literal}

/-- The literal is true at the values that are wanted. -/
structure Bounds (T : List Step) (objective : Objective) (best : Option Assignment)
    (l : Literal) : Prop where
  known : l.Known (freshCount T)
  holds : ∀ v a, Reads T v a → InDomains T a →
    (l.holds v = true ↔ objective.wants best (a objective.var) = true)

theorem representation_order (hx : t.mapping.has objective.var .orderOnly = true) :
    (t.mapping.representation objective.var).order = true := by
  simpa [Mapping.has, Representation.has, Representation.orderOnly] using hx

theorem exists_domain_of_order (hm : t.mapping.Lists T) (hT : Represented T)
    (hx : t.mapping.has objective.var .orderOnly = true) :
    ∃ d, .domain objective.var d ∈ T := by
  rcases hm.hasOrder _ (representation_order hx) with ⟨k, l, hk, hentry⟩ | ⟨d, hd, -⟩
  · exact hk ▸ hT.mapped k l (.inr hentry)
  · exact ⟨d, hd⟩

/-- There is always a literal that asks for a better value. -/
theorem better_bounds (hm : t.mapping.Lists T) (hT : Represented T)
    (hx : t.mapping.has objective.var .orderOnly = true) (found : Assignment) :
    ∃ l, better t.mapping objective (valuesOf found objective.var) = .ok l ∧
      Bounds T objective (some found) l := by
  have horder := representation_order hx
  generalize hw : valuesOf found objective.var = w
  have hwants : ∀ u, objective.wants (some found) u = objective.improves u w := by
    intro u
    rw [Objective.wants, hw]
  -- at the end of the range of words nothing is wanted
  have hnever : (∀ u, objective.improves u w = false) →
      Bounds T objective (some found) .never := by
    intro hnone
    refine ⟨Literal.known_never _, fun v a _ _ => ?_⟩
    rw [hwants, hnone, Literal.holds_never]
  cases hmax : objective.maximise with
  | true =>
    simp only [better, hmax, Bool.true_and, Bool.not_true, Bool.false_and, Bool.or_false,
      decide_eq_true_eq, if_true]
    split
    · next hend =>
      refine ⟨_, rfl, hnever fun u => ?_⟩
      have hu := (Interval.toInt_bounds u).2
      have hgreatest : w.toInt = 9223372036854775807 := by rw [hend]; rfl
      simp only [Objective.improves, hmax, if_true, Int64.lt_iff_toInt_lt, decide_eq_false_iff_not]
      omega
    · obtain ⟨l, hl⟩ := Mapping.exists_orderLiteral hm hT horder w
      obtain ⟨hknown, hholds⟩ := Mapping.orderLiteral_ok hm hT hl
      refine ⟨-l, by rw [hl]; rfl, hknown.neg, fun v a hr ha => ?_⟩
      have := hholds v a hr ha
      rw [hknown.holds_neg, hwants, Bool.not_eq_true', ← Bool.not_eq_true, this]
      simp [Objective.improves, hmax, Int64.not_le]
  | false =>
    simp only [better, hmax, Bool.false_and, Bool.not_false, Bool.true_and, Bool.false_or,
      decide_eq_true_eq, Bool.false_eq_true, if_false]
    split
    · next hend =>
      refine ⟨_, rfl, hnever fun u => ?_⟩
      have hu := (Interval.toInt_bounds u).1
      have hleast : w.toInt = -9223372036854775808 := by rw [hend]; rfl
      simp only [Objective.improves, hmax, Bool.false_eq_true, if_false, Int64.lt_iff_toInt_lt,
        decide_eq_false_iff_not]
      omega
    · next hend =>
      obtain ⟨l, hl⟩ := Mapping.exists_orderLiteral hm hT horder (w - 1)
      obtain ⟨hknown, hholds⟩ := Mapping.orderLiteral_ok hm hT hl
      refine ⟨l, hl, hknown, fun v a hr ha => ?_⟩
      rw [hholds v a hr ha, hwants, Int64.le_iff_toInt_le, Encoding.toInt_pred hend]
      simp only [Objective.improves, hmax, Bool.false_eq_true, if_false, Int64.lt_iff_toInt_lt,
        decide_eq_true_eq]
      omega

/-! ## The bounding clause -/

/-- The bytes are those of a formula over the variables of the problem that is true where the
clauses of the steps and the literal are. -/
def Narrowed (t : Reduction) (T : List Step) (l : Literal) (bytes : ByteArray) : Prop :=
  ∃ f, Dimacs.parse (Text.decode bytes) = .ok f ∧ f.variableCount = t.file.variableCount ∧
    ∀ v : Valuation, f.holds v = true ↔ v.Satisfies (clausesOf T) ∧ l.holds v = true

theorem finished_of_reduced (h : Reduced p settings catalog t T)
    (hvariables : t.file.variableCount < wordCount) (hclauses : t.file.clauses < wordCount) :
    t.file.Finished ("\n" ++ Instance.textOf (linesOf T)).toUTF8 := by
  have hroom := Instance.length_header_le hvariables hclauses
  obtain ⟨r, d, q, hf, hbody⟩ := h.has.body
  refine ⟨⟨Instance.size_paddedHeader hroom, ?_, by rw [h.closed]; rfl, ?_⟩, h.closed, hroom⟩
  · rw [h.disk, String.append_assoc, Instance.toUTF8_append]
  · rw [hf.offset, ← hbody, ByteArray.size_append, ByteArray.size_empty, Nat.add_zero,
      Nat.add_assoc]

theorem clauseCount_lines_le (s : Step) : Instance.clauseCount s.lines ≤ 1 := by
  unfold lines
  split
  · split
    · exact Nat.le_refl 1
    · exact Nat.zero_le 1
  · exact Nat.zero_le 1
  · exact Nat.zero_le 1

theorem written_of_reduced (h : Reduced p settings catalog t T) {m : Instance} {r d : ByteArray}
    (hm : m.Framed r d ByteArray.empty) (hd : d = ("\n" ++ Instance.textOf (linesOf T)).toUTF8)
    (hsame : m = { t.file with disk := m.disk, pending := some ByteArray.empty }) :
    m.Written t.file.options T := by
  have hweight : t.file.options.hardWeight = none := by
    simp [InstanceOptions.hardWeight, h.plain]
  exact {
    has := by
      rw [hweight, map_weigh_linesOf]
      refine ⟨⟨r, d, _, hm, by rw [ByteArray.append_empty, hd]⟩, ?_⟩
      rw [hsame]
      exact h.has.clauses
    count := by
      rw [hsame]
      exact h.count
    context := by
      rw [hsame]
      exact h.context
    options := by rw [hsame]
    isOpen := by
      rw [hsame]
      rfl }

theorem extend_written (h : Reduced p settings catalog t T) {d : ByteArray}
    (hfinished : t.file.Finished d) (hd : d = ("\n" ++ Instance.textOf (linesOf T)).toUTF8)
    (hlim : t.file.variableCount < Literal.limit) (hclauses : t.file.clauses < Literal.limit)
    (hroom : settings.clauseLimit = 0 ∨ t.file.clauses < settings.clauseLimit) {c : Clause}
    (hc : c.Known t.file.variableCount) :
    ∃ i file : Instance, i.Written t.file.options (T ++ [.emit (.clause c)]) ∧
      t.file.extend [c] = (t.file.here, .ok () file) ∧
      file.disk = some (i.paddedHeader ++ "\n" ++
        Instance.textOf (linesOf (T ++ [.emit (.clause c)]))).toUTF8 := by
  obtain ⟨m, hextend, hm, hsame⟩ := Instance.extend_eq hfinished.framed [c]
  rw [ByteArray.append_empty] at hm
  have hwritten := written_of_reduced h hm hd hsame
  have hlimit : m.options.clauseLimit = 0 ∨ m.clauses < m.options.clauseLimit := by
    rw [hsame]
    simpa only [h.clauseLimit] using hroom
  obtain ⟨r, hr⟩ := hc.reduce_ok
  have hadd := Instance.addClause_ok hwritten.isOpen (by rw [hwritten.context]; exact hr) hlimit
  have hi := hwritten.addClause c
  generalize Instance.left (Instance.addClause c m) = i at hadd hi
  have hcount : i.variableCount = t.file.variableCount := by
    rw [hi.count, h.count, freshCount_append]
    rfl
  -- one clause adds at most one line
  have hone : i.clauses ≤ t.file.clauses + 1 := by
    rw [(hi.plain h.plain).clauses, h.has.clauses, linesOf_append, Instance.clauseCount_append,
      linesOf_singleton]
    exact Nat.add_le_add_left (clauseCount_lines_le _) _
  have hword : Literal.limit < wordCount := by decide
  obtain ⟨file, hfinalize, -, hfile⟩ := (hi.plain h.plain).finalize
    (Instance.length_header_le (by omega) (by omega))
  refine ⟨i, file, hi, ?_, by rw [hfile]⟩
  rw [hextend]
  refine congrArg _ (Run.bind_eq_ok.mpr ⟨(), i, ?_, hfinalize⟩)
  exact Run.bind_eq_ok.mpr ⟨(), i, hadd, rfl⟩

theorem narrowed_of_written (h : Reduced p settings catalog t T)
    (hlim : t.file.variableCount < Literal.limit) (hl : l.Known t.file.variableCount)
    {i : Instance} (hi : i.Written t.file.options (T ++ [.emit (.clause [l])])) :
    Narrowed t T l (i.paddedHeader ++ "\n" ++
      Instance.textOf (linesOf (T ++ [.emit (.clause [l])]))).toUTF8 := by
  have hcount : i.variableCount = t.file.variableCount := by
    rw [hi.count, h.count, freshCount_append]
    rfl
  have hunit : clausesOf (T ++ [.emit (.clause [l])]) = clausesOf T ++ [[l]] :=
    clausesOf_append ..
  have hknown : ∀ c ∈ clausesOf (T ++ [.emit (.clause [l])]), c.Known i.variableCount := by
    rw [hcount, hunit, List.forall_mem_append]
    refine ⟨?_, by simpa using hl⟩
    rw [h.count] at hlim ⊢
    exact (h.meaning hlim).faithful.known
  obtain ⟨f, hparse, hfcount, hholds⟩ := exists_formula_of_steps
    (by rw [hi.options]; exact h.plain) (hcount ▸ hlim) hknown
  refine ⟨f, hparse, hfcount.trans hcount, fun v => ?_⟩
  rw [hholds, hunit]
  simp

/-- A clause of one literal can be added to a finished reduction and taken out again. -/
theorem extend_narrowed (h : Reduced p settings catalog t T)
    (hlim : t.file.variableCount < Literal.limit) (hclauses : t.file.clauses < Literal.limit)
    (hroom : settings.clauseLimit = 0 ∨ t.file.clauses < settings.clauseLimit)
    (hl : l.Known t.file.variableCount) :
    ∃ file bytes, t.file.extend [[l]] = (t.file.here, .ok () file) ∧
      Instance.retract t.file.here file = .ok () t.file ∧ file.disk = some bytes ∧
      Narrowed t T l bytes := by
  have hword : Literal.limit < wordCount := by decide
  have hfinished := finished_of_reduced h (Nat.lt_trans hlim hword) (Nat.lt_trans hclauses hword)
  obtain ⟨i, file, hi, hextend, hdisk⟩ := extend_written h hfinished rfl hlim hclauses hroom
    (Clause.known_cons.mpr ⟨hl, Clause.known_nil _⟩)
  obtain ⟨hsetup, hle, r, q, p', hf⟩ := Instance.extend_framed hfinished.framed [[l]]
  rw [hextend] at hsetup hle hf
  rw [ByteArray.append_empty] at hf
  exact ⟨file, _, hextend, hfinished.retract_here hsetup hle hf, hdisk,
    narrowed_of_written h hlim hl hi⟩

end

/-! ## The loop -/

/-- A finished reduction with order literals for the objective, and with room for one clause. -/
structure Optimisable (p : Problem) (settings : Settings) (catalog : Catalog) (t : Reduction)
    (T : List Step) (objective : Objective) (d : Domain) : Prop where
  reduced : Reduced p settings catalog t T
  few : t.file.variableCount < Literal.limit
  fewClauses : t.file.clauses < Literal.limit
  room : settings.clauseLimit = 0 ∨ t.file.clauses < settings.clauseLimit
  order : t.mapping.has objective.var .orderOnly = true
  domain : catalog.domain? objective.var = some d

/-- The reduction is the one at the start but for a bounding clause that can be taken out. -/
structure Kept (t reduction : Reduction) (bound : Option Checkpoint) : Prop where
  tables : reduction = { t with file := reduction.file }
  file : match bound with
    | none => reduction.file = t.file
    | some checkpoint => Instance.retract checkpoint reduction.file = .ok () t.file

/-- What holds before the solver is asked: the best found so far is a solution, and the file asks
for a better one. -/
structure Poised {σ : Type} (p : Problem) (t : Reduction) (T : List Step) (objective : Objective)
    (o : Optimisation σ) : Prop where
  kept : Kept t o.reduction o.bound
  solved : ∀ found, o.best = some found → p.SolvedBy found
  asks : ∃ l bytes, Bounds T objective o.best l ∧ o.reduction.file.disk = some bytes ∧
    Narrowed t T l bytes

section

variable {σ : Type} {p : Problem} {settings : Settings} {catalog : Catalog} {t : Reduction}
  {T : List Step} {objective : Objective} {d : Domain} {o : Optimisation σ}

theorem Optimisable.meaning (h : Optimisable p settings catalog t T objective d) :
    Meaning settings catalog.declared p.constraints t.shapes T :=
  h.reduced.meaning (h.reduced.count ▸ h.few)

theorem poised_start (h : Optimisable p settings catalog t T objective d) (s : σ) :
    Poised p t T objective { solver := s, reduction := t } := by
  obtain ⟨f, ⟨bytes, hdisk, hparse⟩, hcount, hholds⟩ := h.reduced.exists_formula h.few
  refine ⟨⟨rfl, rfl⟩, by simp, .always, bytes, ⟨Literal.known_always _, ?_⟩, hdisk, f, hparse,
    hcount, ?_⟩
  · intro v a _ _
    simp [Objective.wants]
  · intro v
    rw [hholds, Literal.holds_always, and_iff_left rfl]

theorem release_eq (h : Kept t o.reduction o.bound) :
    release o = .ok () { o with reduction := t } := by
  obtain ⟨solver, reduction, best, bound, journal⟩ := o
  obtain ⟨htables, hfile⟩ := h
  cases bound with
  | none =>
    change reduction.file = t.file at hfile
    change reduction = { t with file := reduction.file } at htables
    rw [hfile] at htables
    rw [htables]
    rfl
  | some checkpoint =>
    change Instance.retract checkpoint reduction.file = .ok () t.file at hfile
    change reduction = { t with file := reduction.file } at htables
    simp only [release, onFile]
    rw [hfile, htables]

/-- An improvement records the solution, takes the bounding clause out and puts in another. -/
theorem improve_eq {l : Literal} {solution : Solution} (hkept : Kept t o.reduction o.bound)
    (hbetter : better t.mapping objective (valuesOf (t.mapping.decode solution) objective.var) =
      .ok l) (iteration : Nat) :
    ∃ journal, improve objective iteration solution o = tighten l
      { o with reduction := t, best := some (t.mapping.decode solution), journal } := by
  have hmapping : o.reduction.mapping = t.mapping := by rw [hkept.tables]
  rw [valuesOf] at hbetter
  simp only [improve, bind, EStateM.bind, hmapping, hbetter]
  rw [release_eq (by exact hkept)]
  exact ⟨_, rfl⟩

/-- After a solution is found the file asks for a better one. -/
theorem improve_poised (h : Optimisable p settings catalog t T objective d)
    (hkept : Kept t o.reduction o.bound) (iteration : Nat) {solution : Solution}
    (hsolved : p.SolvedBy (t.mapping.decode solution)) :
    ∃ o', improve objective iteration solution o = .ok () o' ∧ o'.solver = o.solver ∧
      o'.best = some (t.mapping.decode solution) ∧ Poised p t T objective o' := by
  obtain ⟨l, hbetter, hbounds⟩ := better_bounds h.reduced.lists h.meaning.represented h.order
    (t.mapping.decode solution)
  obtain ⟨file, bytes, hextend, hretract, hdisk, hnarrowed⟩ := extend_narrowed h.reduced h.few
    h.fewClauses h.room (h.reduced.count ▸ hbounds.known)
  obtain ⟨journal, himprove⟩ := improve_eq hkept hbetter iteration
  simp only [tighten, hextend] at himprove
  refine ⟨_, himprove, rfl, rfl, ⟨rfl, hretract⟩, ?_, l, bytes, hbounds, hdisk, hnarrowed⟩
  intro found hfound
  exact Option.some_inj.mp hfound ▸ hsolved

/-! ## Answers -/

theorem lookup_objective (h : Optimisable p settings catalog t T objective d)
    {assignment : Assignment} (hsolved : p.SolvedBy assignment) :
    valuesOf assignment objective.var ∈ d ∧
      assignment.lookup objective.var = some (valuesOf assignment objective.var) := by
  obtain ⟨catalog', hcatalog, hcovers, -⟩ := hsolved
  obtain rfl : catalog = catalog' :=
    Option.some_inj.mp (h.reduced.declared.symm.trans hcatalog)
  obtain ⟨w, hw, hlookup⟩ := hcovers.inside objective.var d h.domain
  simp [valuesOf, hlookup, hw]

/-- Where the solver finds nothing, no solution of the problem is wanted. -/
theorem no_solution_wanted (h : Optimisable p settings catalog t T objective d)
    {best : Option Assignment} {l : Literal} {f : Formula} (hl : Bounds T objective best l)
    (hf : ∀ v : Valuation, f.holds v = true ↔ v.Satisfies (clausesOf T) ∧ l.holds v = true)
    (hanswer : f.AnsweredBy none) {other : Assignment} (hother : p.SolvedBy other) :
    objective.wants best (valuesOf other objective.var) = false := by
  obtain ⟨hin, v, hv, hr⟩ := h.reduced.exists_reads h.meaning hother
  have hnot : f.holds v = false := hanswer v
  rw [← Bool.not_eq_true, hf] at hnot
  rw [← Bool.not_eq_true, ← hl.holds v _ hr hin]
  exact fun hholds => hnot ⟨hv, hholds⟩

/-- What the solver finds is decoded to a solution of the problem that is wanted. -/
theorem found_wanted (h : Optimisable p settings catalog t T objective d)
    {best : Option Assignment} {l : Literal} {f : Formula} (hl : Bounds T objective best l)
    (hf : ∀ v : Valuation, f.holds v = true ↔ v.Satisfies (clausesOf T) ∧ l.holds v = true)
    (hcount : f.variableCount = t.file.variableCount) {solution : Solution}
    (hanswer : f.AnsweredBy (some solution)) :
    p.SolvedBy (t.mapping.decode solution) ∧
      objective.wants best (valuesOf (t.mapping.decode solution) objective.var) = true := by
  obtain ⟨v, hv, htotal⟩ := hanswer
  rw [hcount] at htotal
  obtain ⟨hsat, hholds⟩ := (hf v).mp hv
  obtain ⟨a, ⟨ha, hcs⟩, hr⟩ := h.meaning.faithful.sound v hsat
  refine ⟨h.reduced.solvedBy_decode h.meaning hr ha hcs htotal, ?_⟩
  have hvalue : valuesOf (t.mapping.decode solution) objective.var = a objective.var := by
    rw [valuesOf, h.reduced.lookup_decode h.meaning hr ha htotal,
      if_pos (Catalog.isKnown_of_domain? h.domain)]
    rfl
  rw [hvalue]
  exact (hl.holds v a hr ha).mp hholds

/-- The loop comes to its end with the reduction as it was, a solution if any was found, and no
solution that is better; every call of the solver but the last finds a better value. -/
theorem loop_settles (h : Optimisable p settings catalog t T objective d) {oracle : Oracle σ}
    (hsound : oracle.Sound) {calls : σ → Nat}
    (hcalls : ∀ s path disk, calls (oracle.solve s path disk).1 ≤ calls s + 1) (fuel : Nat) :
    ∀ (iteration : Nat) (o : Optimisation σ), Poised p t T objective o →
    (d.values.filter (objective.wants o.best)).length < fuel →
    ∃ o', loop oracle objective fuel iteration o = .ok () o' ∧ o'.reduction = t ∧
      calls o'.solver ≤ calls o.solver + (d.values.filter (objective.wants o.best)).length + 1 ∧
      (∀ found, o'.best = some found → p.SolvedBy found) ∧
      ∀ other, p.SolvedBy other →
        objective.wants o'.best (valuesOf other objective.var) = false := by
  induction fuel with
  | zero =>
    intro iteration o _ hfuel
    exact absurd hfuel (Nat.not_lt_zero _)
  | succ fuel ih =>
    intro iteration o ho hfuel
    obtain ⟨l, bytes, hl, hdisk, f, hparse, hcount, hf⟩ := ho.asks
    obtain ⟨s', answer, hsolve, hanswer⟩ := hsound o.solver o.reduction.file.path bytes f hparse
      (hcount ▸ h.few)
    rw [← hdisk] at hsolve
    have hask : ask oracle o = .ok answer { o with solver := s' } := by
      simp only [ask, hsolve]
    have hcall : calls s' ≤ calls o.solver + 1 := by
      have := hcalls o.solver o.reduction.file.path o.reduction.file.disk
      rwa [hsolve] at this
    cases answer with
    | none =>
      -- nothing more is found: the bounding clause is taken out, and the best stands
      refine ⟨{ o with solver := s', reduction := t }, ?_, rfl, ?_, ho.solved, fun other hother =>
        no_solution_wanted h hl hf hanswer hother⟩
      · exact Run.bind_eq_ok.mpr ⟨none, _, hask, release_eq (by exact ho.kept)⟩
      · exact Nat.le_trans hcall (by omega)
    | some solution =>
      obtain ⟨hsolved, hwanted⟩ := found_wanted h hl hf hcount hanswer
      obtain ⟨o₁, himprove, hsolver, hbest, ho₁⟩ := improve_poised (o := { o with solver := s' })
        h (by exact ho.kept) iteration hsolved
      -- fewer values are wanted than before, which pays for the unit of fuel
      have hfewer := Objective.wants_lt
        (Domain.mem_values.mpr (lookup_objective h hsolved).1) hwanted
      rw [← hbest] at hfewer
      obtain ⟨o', hloop, hreduction, hcalls', hrest⟩ := ih (iteration + 1) o₁ ho₁ (by omega)
      refine ⟨o', ?_, hreduction, ?_, hrest⟩
      · refine Run.bind_eq_ok.mpr ⟨some solution, _, hask, ?_⟩
        exact Run.bind_eq_ok.mpr ⟨(), o₁, himprove, hloop⟩
      · change o₁.solver = s' at hsolver
        rw [hsolver] at hcalls'
        omega

end

/-! ## Main statement -/

/-- Optimisation with a sound solver ends after at most one call more than the objective has
values. It finds nothing exactly when the problem has no solution, and else a solution with the
best value that any solution has; the reduction is left as it was. All variables are below the one
that stands for the constants, and the file has room for one clause. -/
theorem optimum_found {σ : Type} {oracle : Oracle σ} {store : Store} {p : Problem}
    {settings : Settings} {path : String} {t : Reduction} (objective : Objective)
    (calls : σ → Nat) (s : σ) (hsound : oracle.Sound)
    (hcalls : ∀ s path disk, calls (oracle.solve s path disk).1 ≤ calls s + 1)
    (hweighted : settings.weighted = false)
    (hok : (Reduction.ofProblem store p settings path).result = .ok t)
    (hlim : t.file.variableCount < Literal.limit) (hclauses : t.file.clauses < Literal.limit)
    (hroom : settings.clauseLimit = 0 ∨ t.file.clauses < settings.clauseLimit)
    (horder : t.mapping.has objective.var .orderOnly = true) :
    ∃ catalog d, p.catalog = some catalog ∧ catalog.domain? objective.var = some d ∧
      ∀ fuel, d.values.length < fuel →
        ∃ o', run oracle fuel objective { solver := s, reduction := t } = .ok o'.best o' ∧
          calls o'.solver ≤ calls s + d.values.length + 1 ∧ o'.reduction = t ∧
          (o'.best = none ↔ ¬ ∃ assignment, p.SolvedBy assignment) ∧
          ∀ found, o'.best = some found → p.SolvedBy found ∧
            ∃ w, found.lookup objective.var = some w ∧
              ∀ other u, p.SolvedBy other → other.lookup objective.var = some u →
                if objective.maximise then u ≤ w else w ≤ u := by
  obtain ⟨catalog, T, h⟩ := reduced_of_ok hweighted hok
  have hM := h.meaning (h.count ▸ hlim)
  obtain ⟨d, hd⟩ := exists_domain_of_order h.lists hM.represented horder
  have hopt : Optimisable p settings catalog t T objective d :=
    ⟨h, hlim, hclauses, hroom, horder, (hM.domains _ d).mp hd⟩
  refine ⟨catalog, d, h.declared, hopt.domain, fun fuel hfuel => ?_⟩
  -- nothing is found yet, so all values are wanted and the fuel is enough for them
  have hall : d.values.filter (objective.wants none) = d.values :=
    List.filter_eq_self.mpr fun _ _ => rfl
  obtain ⟨o', hloop, hreduction, hcount, hsolved, hbest⟩ := loop_settles hopt hsound hcalls fuel 1
    { solver := s, reduction := t } (poised_start hopt s) (by rw [hall]; exact hfuel)
  rw [hall] at hcount
  refine ⟨o', ?_, hcount, hreduction, ?_, fun found hfound => ?_⟩
  · simp [run, h.plain, horder, hloop]
  · constructor
    · rintro hnone ⟨assignment, hassignment⟩
      have := hbest assignment hassignment
      rw [hnone] at this
      simp [Objective.wants] at this
    · intro hnone
      cases hfound : o'.best with
      | none => rfl
      | some found => exact absurd ⟨found, hsolved found hfound⟩ hnone
  · have hfoundSolves := hsolved found hfound
    refine ⟨hfoundSolves, _, (lookup_objective hopt hfoundSolves).2, fun other u hother hu => ?_⟩
    -- a better solution would still be wanted at the end of the loop
    have hnot := hbest other hother
    obtain rfl : valuesOf other objective.var = u :=
      Option.some_inj.mp ((lookup_objective hopt hother).2.symm.trans hu)
    rw [hfound, Objective.wants, Objective.improves] at hnot
    split at hnot
    · next hmax =>
      rw [if_pos hmax]
      exact Int64.not_lt.mp (by simpa using hnot)
    · next hmax =>
      rw [if_neg hmax]
      exact Int64.not_lt.mp (by simpa using hnot)

/-- The largest value of the value with a gap is found with at most four calls. -/
theorem gap_optimum_found :
    ∃ t, (Reduction.ofProblem {} gapProblem {} "gap.cnf").result = .ok t ∧
      ∃ o', run countingOracle 4 { var := "x", maximise := true }
          { solver := 0, reduction := t } = .ok o'.best o' ∧
        o'.solver ≤ 4 ∧ o'.reduction = t ∧
        ∃ found w, o'.best = some found ∧ gapProblem.SolvedBy found ∧
          found.lookup "x" = some w ∧ 4 ≤ w := by
  obtain ⟨t, hok, hcount, hclauses, horder⟩ := gap_reduces
  obtain ⟨catalog, d, hcatalog, hd, hall⟩ := optimum_found { var := "x", maximise := true } id 0
    countingOracle_sound (fun _ _ _ => Nat.le_refl _) rfl hok (by rw [hcount]; decide)
    (by rw [hclauses]; decide) (.inl rfl) horder
  obtain rfl := Option.some_inj.mp hcatalog
  obtain rfl : Domain.ofValues [1, 3, 4] = d := Option.some_inj.mp hd
  have hlength : (Domain.ofValues [1, 3, 4]).values.length = 3 := by cbv
  rw [hlength] at hall
  obtain ⟨o', hrun, hcalls, hreduction, hnone, hbest⟩ := hall 4 (by decide)
  cases hfound : o'.best with
  | none => exact absurd ⟨_, gap_solvedBy⟩ (hnone.mp hfound)
  | some found =>
    obtain ⟨hsolved, w, hw, hleast⟩ := hbest found hfound
    exact ⟨t, hok, o', hrun, hcalls, hreduction, found, w, hfound, hsolved, hw,
      hleast _ 4 gap_solvedBy rfl⟩

end Optimisation

end Clausify
