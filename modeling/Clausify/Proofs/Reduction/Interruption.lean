import Mathlib
import Clausify.Proofs.Reduction.Optimum

/-!
Optimisation that is broken off. The solver may fail at any call, and the file may refuse a
bounding clause; optimisation then ends at once, without taking the bounding clause out. So the
reduction that is left is the one at the start with the clause that asks for a value better than
the best found (`boundedFile`). One call of the solver and one improvement keep it so
(`improve_outcome`), and by induction so does the loop (`loop_leaves`).

Main statement: after a failure at most that one clause is left behind. The file is the one at the
start exactly when no solution had been found or the clause was dropped as true; it can be
restored by going back to where it ended (`failure_leaves_one_bound`). A solver that fails after a
right answer leaves a different file on disk (`gap_keeps_bound`).
-/

namespace Clausify

/-- The solver leaves the file alone. What it answers, and when it fails, may depend on anything. -/
def Oracle.LeavesFile {σ : Type} (oracle : Oracle σ) : Prop :=
  ∀ s path disk, (oracle.solve s path disk).2.1 = disk

/-- The solver that gives prepared answers and failures in order, and then finds nothing. -/
def Oracle.script : Oracle (List (Except Stop Answer)) where
  solve answers _ disk :=
    match answers with
    | [] => ([], disk, .ok none)
    | answer :: rest => (rest, disk, answer)

theorem Oracle.script_leavesFile : Oracle.script.LeavesFile := by
  intro answers path disk
  cases answers <;> rfl

namespace Optimisation

open Step Reduction

/-- The file with the clause that asks for a value better than the best found, whether or not the
file has accepted it. -/
def boundedFile (t : Reduction) (objective : Objective) : Option Assignment → Instance
  | none => t.file
  | some found =>
    match better t.mapping objective (valuesOf found objective.var) with
    | .ok l => Instance.left (t.file.extend [[l]]).2
    | .error _ => t.file

/-- The reduction is the one at the start but for the clause that asks for a better value. -/
def Leaves {σ : Type} (t : Reduction) (objective : Objective) (o : Optimisation σ) : Prop :=
  o.reduction = { t with file := boundedFile t objective o.best }

/-- A finished reduction with order literals for the objective. -/
structure Ranked (p : Problem) (settings : Settings) (catalog : Catalog) (t : Reduction)
    (T : List Step) (objective : Objective) : Prop where
  reduced : Reduced p settings catalog t T
  few : t.file.variableCount < Literal.limit
  fewClauses : t.file.clauses < Literal.limit
  order : t.mapping.has objective.var .orderOnly = true

section

variable {σ : Type} {oracle : Oracle σ} {p : Problem} {settings : Settings} {catalog : Catalog}
  {t : Reduction} {T : List Step} {objective : Objective} {o o' : Optimisation σ}
  {found : Assignment} {l : Literal} {stop : Stop}

theorem Ranked.meaning (h : Ranked p settings catalog t T objective) :
    Meaning settings catalog.declared p.constraints t.shapes T :=
  h.reduced.meaning (h.reduced.count ▸ h.few)

theorem Ranked.better (h : Ranked p settings catalog t T objective) (found : Assignment) :
    ∃ l, Optimisation.better t.mapping objective (valuesOf found objective.var) = .ok l ∧
      Bounds T objective (some found) l :=
  better_bounds h.reduced.lists h.meaning.represented h.order found

theorem boundedFile_of_better
    (h : better t.mapping objective (valuesOf found objective.var) = .ok l) :
    boundedFile t objective (some found) = Instance.left (t.file.extend [[l]]).2 := by
  rw [boundedFile, h]

theorem Ranked.finished (h : Ranked p settings catalog t T objective) :
    t.file.Finished ("\n" ++ Instance.textOf (linesOf T)).toUTF8 := by
  have hword : Literal.limit < wordCount := by decide
  exact finished_of_reduced h.reduced (Nat.lt_trans h.few hword)
    (Nat.lt_trans h.fewClauses hword)

/-! ## One call -/

theorem ask_of_leavesFile (hleaves : oracle.LeavesFile) (o : Optimisation σ) :
    (∃ answer s, ask oracle o = .ok answer { o with solver := s }) ∨
      ∃ stop s, ask oracle o = .error stop { o with solver := s } := by
  have hdisk := hleaves o.solver o.reduction.file.path o.reduction.file.disk
  cases hsolve : oracle.solve o.solver o.reduction.file.path o.reduction.file.disk with
  | mk s rest =>
    obtain ⟨disk, answer⟩ := rest
    rw [hsolve] at hdisk
    obtain rfl : disk = o.reduction.file.disk := hdisk
    cases answer with
    | ok answer => exact .inl ⟨answer, s, by simp only [ask, hsolve]⟩
    | error stop => exact .inr ⟨stop, s, by simp only [ask, hsolve]⟩

/-- After a solution the clause that asks for a better one is put in place of the one before. The
file accepts it, or the improvement ends with the refusal. -/
theorem improve_outcome (h : Ranked p settings catalog t T objective)
    (hkept : Kept t o.reduction o.bound) (iteration : Nat) (solution : Solution) :
    ∃ o', Leaves t objective o' ∧
      (improve objective iteration solution o = .ok () o' ∧ Kept t o'.reduction o'.bound ∨
        ∃ stop, improve objective iteration solution o = .error stop o') := by
  obtain ⟨l, hbetter, -⟩ := h.better (t.mapping.decode solution)
  obtain ⟨journal, himprove⟩ := improve_eq hkept hbetter iteration
  have hfile := boundedFile_of_better hbetter
  have hretract := h.finished.retract_extend [[l]]
  -- the bounding clause is in the file in either case, and can be taken out in either case
  cases hextend : t.file.extend [[l]] with
  | mk checkpoint result =>
    rw [hextend] at hfile hretract
    simp only [tighten, hextend] at himprove
    cases result with
    | ok u file =>
      refine ⟨_, ?_, .inl ⟨himprove, rfl, hretract⟩⟩
      exact congrArg (fun file => ({ t with file } : Reduction)) hfile.symm
    | error stop file =>
      refine ⟨_, ?_, .inr ⟨stop, himprove⟩⟩
      exact congrArg (fun file => ({ t with file } : Reduction)) hfile.symm

/-! ## The loop -/

theorem loop_of_none (h : ask oracle o = .ok none o') (fuel iteration : Nat) :
    loop oracle objective (fuel + 1) iteration o = release o' :=
  Run.bind_of_ok h

theorem loop_of_found {solution : Solution} (h : ask oracle o = .ok (some solution) o')
    (fuel iteration : Nat) :
    loop oracle objective (fuel + 1) iteration o = (do
      improve objective iteration solution
      loop oracle objective fuel (iteration + 1) : Run (Optimisation σ) Unit) o' :=
  Run.bind_of_ok h

theorem loop_of_failure (h : ask oracle o = .error stop o') (fuel iteration : Nat) :
    loop oracle objective (fuel + 1) iteration o = .error stop o' :=
  Run.bind_of_error h

/-- Wherever the loop is broken off, at most the last bounding clause is left behind. -/
theorem loop_leaves (h : Ranked p settings catalog t T objective) (hleaves : oracle.LeavesFile)
    (fuel : Nat) :
    ∀ (iteration : Nat) (o o' : Optimisation σ) (stop : Stop), Leaves t objective o →
    Kept t o.reduction o.bound → loop oracle objective fuel iteration o = .error stop o' →
    Leaves t objective o' := by
  induction fuel with
  | zero =>
    intro iteration o o' stop ho _ hloop
    obtain rfl := (EStateM.Result.error.inj hloop).2
    exact ho
  | succ fuel ih =>
    intro iteration o o' stop ho hkept hloop
    rcases ask_of_leavesFile hleaves o with ⟨answer, s, hask⟩ | ⟨stop', s, hask⟩
    · cases answer with
      | none =>
        -- taking the clause out does not fail
        rw [loop_of_none hask, release_eq (by exact hkept)] at hloop
        simp at hloop
      | some solution =>
        rw [loop_of_found hask] at hloop
        obtain ⟨o₁, ho₁, ⟨himprove, hkept₁⟩ | ⟨stop₁, himprove⟩⟩ :=
          improve_outcome (o := { o with solver := s }) h hkept iteration solution
        · rw [Run.bind_of_ok himprove] at hloop
          exact ih (iteration + 1) o₁ o' stop ho₁ hkept₁ hloop
        · rw [Run.bind_of_error himprove] at hloop
          obtain rfl := (EStateM.Result.error.inj hloop).2
          exact ho₁
    · rw [loop_of_failure hask] at hloop
      obtain rfl := (EStateM.Result.error.inj hloop).2
      exact ho

/-! ## What is left -/

/-- Going back to where the file ended takes the bounding clause out, also one that was refused. -/
theorem retract_boundedFile {d : ByteArray} (hfinished : t.file.Finished d) (objective : Objective)
    (best : Option Assignment) :
    Instance.retract t.file.here (boundedFile t objective best) = .ok () t.file := by
  have hframed : t.file.Framed t.file.paddedHeader.toUTF8 (d ++ ByteArray.empty)
      ByteArray.empty := by
    rw [ByteArray.append_empty]
    exact hfinished.framed
  have hsame : Instance.retract t.file.here t.file = .ok () t.file :=
    hfinished.retract_here ⟨rfl, rfl, rfl, rfl⟩ (Nat.le_refl _) hframed
  cases best with
  | none => exact hsame
  | some found =>
    rw [boundedFile]
    split
    · next l hbetter =>
      have hextend := hfinished.retract_extend [[l]]
      obtain ⟨m, heq, -, -⟩ := Instance.extend_eq hfinished.framed [[l]]
      rwa [show (t.file.extend [[l]]).1 = t.file.here by rw [heq]] at hextend
    · exact hsame

/-- The bounding clause is counted unless it is dropped as true. -/
theorem boundedFile_counts (h : Ranked p settings catalog t T objective)
    (hbetter : better t.mapping objective (valuesOf found objective.var) = .ok l) :
    (boundedFile t objective (some found)).variableCount = t.file.variableCount ∧
      (boundedFile t objective (some found)).clauses =
        t.file.clauses + (if l = .always then 0 else 1) ∧
      (l = .always → boundedFile t objective (some found) = t.file) := by
  obtain ⟨l', hbetter', hbounds⟩ := h.better found
  obtain rfl : l = l' := Except.ok.inj (hbetter.symm.trans hbetter')
  rw [boundedFile_of_better hbetter]
  obtain ⟨hsetup, -, -⟩ := Instance.extend_framed h.finished.framed [[l]]
  exact ⟨hsetup.variableCount, h.finished.extend_unit h.reduced.context hbounds.known.word_ne_zero⟩

/-- The file is the one at the start when nothing was found or the bounding clause was dropped. -/
theorem boundedFile_eq_iff (h : Ranked p settings catalog t T objective)
    (best : Option Assignment) :
    boundedFile t objective best = t.file ↔ ∀ found, best = some found →
      better t.mapping objective (valuesOf found objective.var) = .ok .always := by
  cases best with
  | none => exact ⟨fun _ _ => nofun, fun _ => rfl⟩
  | some found =>
    obtain ⟨l, hbetter, -⟩ := h.better found
    obtain ⟨-, hclauses, hsame⟩ := boundedFile_counts h hbetter
    constructor
    · rintro heq _ ⟨rfl⟩
      rw [heq] at hclauses
      rw [hbetter]
      by_cases halways : l = .always
      · rw [halways]
      · rw [if_neg halways] at hclauses
        omega
    · intro hall
      exact hsame (Except.ok.inj (hbetter.symm.trans (hall found rfl)))

/-- The clause that asks for something better than a solution changes the file on disk: the solution
satisfies the formula that was there, and not the one with the clause. -/
theorem boundedFile_disk_ne (h : Ranked p settings catalog t T objective)
    (hroom : settings.clauseLimit = 0 ∨ t.file.clauses < settings.clauseLimit)
    (hsolved : p.SolvedBy found) :
    (boundedFile t objective (some found)).disk ≠ t.file.disk := by
  obtain ⟨l, hbetter, hbounds⟩ := h.better found
  obtain ⟨hin, v, hv, hr⟩ := h.reduced.exists_reads h.meaning hsolved
  have hnot : l.holds v = false := by
    rw [← Bool.not_eq_true, hbounds.holds v _ hr hin]
    simp [Objective.wants, Objective.improves_self]
  obtain ⟨file, bytes, hextend, -, hdisk, f, hparse, -, hf⟩ := extend_narrowed h.reduced h.few
    h.fewClauses hroom (h.reduced.count ▸ hbounds.known)
  obtain ⟨g, ⟨bytes', hdisk', hparse'⟩, -, hg⟩ := h.reduced.exists_formula h.few
  rw [boundedFile_of_better hbetter, hextend]
  show file.disk ≠ _
  rw [hdisk, hdisk']
  intro heq
  obtain rfl : bytes = bytes' := Option.some_inj.mp heq
  obtain rfl : f = g := Except.ok.inj (hparse.symm.trans hparse')
  have hholds := (hf v).mp ((hg v).mpr hv)
  rw [hnot] at hholds
  exact Bool.false_ne_true hholds.2

theorem exists_found (h : Ranked p settings catalog t T objective) {assignment : Assignment}
    (hsolved : p.SolvedBy assignment) :
    ∃ solution, p.SolvedBy (t.mapping.decode solution) := by
  obtain ⟨-, v, hv, -⟩ := h.reduced.exists_reads h.meaning hsolved
  obtain ⟨a, ⟨ha, hcs⟩, hr⟩ := h.meaning.faithful.sound v hv
  exact ⟨v.solution t.file.variableCount, h.reduced.solvedBy_decode h.meaning hr ha hcs
    (v.total_solution h.few)⟩

/-- A solver that gives a right answer and then fails breaks the loop off at its second call. -/
theorem run_script {d : Domain} (h : Optimisable p settings catalog t T objective d)
    {solution : Solution} (hsolved : p.SolvedBy (t.mapping.decode solution)) (stop : Stop) :
    ∃ o', loop Oracle.script objective 2 1
        { solver := [.ok (some solution), .error stop], reduction := t } = .error stop o' ∧
      o'.best = some (t.mapping.decode solution) := by
  have hask : ask Oracle.script { solver := [.ok (some solution), .error stop], reduction := t } =
      .ok (some solution) { solver := [.error stop], reduction := t } := rfl
  obtain ⟨o₁, himprove, hsolver, hbest, -⟩ := improve_poised
    (o := { solver := ([.error stop] : List (Except Stop Answer)), reduction := t }) h ⟨rfl, rfl⟩ 1
    hsolved
  have hask₁ : ask Oracle.script o₁ = .error stop { o₁ with solver := [] } := by
    simp only [ask, hsolver, Oracle.script]
  refine ⟨{ o₁ with solver := [] }, ?_, hbest⟩
  rw [loop_of_found hask, Run.bind_of_ok himprove, loop_of_failure hask₁]

end

/-! ## Main statement -/

/-- What a failed optimisation leaves, whatever the solver answers and wherever it fails, and
whether or not the file has room for another clause. The tables are those of the start, and the file
is that of the start with at most one clause more, the one that asks for something better than the
best found; going back to where the file ended restores it. So nothing has changed exactly when
nothing was found or that clause was dropped as true. After a solution of the problem, and with room
for the clause, the bytes on disk have changed. -/
theorem failure_leaves_one_bound {σ : Type} {oracle : Oracle σ} {store : Store} {p : Problem}
    {settings : Settings} {path : String} {t : Reduction} (objective : Objective) (fuel : Nat)
    (s : σ) {stop : Stop} {o' : Optimisation σ} (hleaves : oracle.LeavesFile)
    (hweighted : settings.weighted = false)
    (hok : (Reduction.ofProblem store p settings path).result = .ok t)
    (hlim : t.file.variableCount < Literal.limit) (hclauses : t.file.clauses < Literal.limit)
    (hfail : run oracle fuel objective { solver := s, reduction := t } = .error stop o') :
    o'.reduction = { t with file := boundedFile t objective o'.best } ∧
      Instance.retract t.file.here o'.reduction.file = .ok () t.file ∧
      (o'.reduction.file = t.file ↔ ∀ found, o'.best = some found →
        better t.mapping objective (valuesOf found objective.var) = .ok .always) ∧
      (o'.reduction.file ≠ t.file →
        o'.reduction.file.variableCount = t.file.variableCount ∧
          o'.reduction.file.clauses = t.file.clauses + 1) ∧
      (settings.clauseLimit = 0 ∨ t.file.clauses < settings.clauseLimit →
        ∀ found, o'.best = some found → p.SolvedBy found →
          o'.reduction.file.disk ≠ t.file.disk) := by
  obtain ⟨catalog, T, hreduced⟩ := reduced_of_ok hweighted hok
  have hword : Literal.limit < wordCount := by decide
  have hfinished := finished_of_reduced hreduced (Nat.lt_trans hlim hword)
    (Nat.lt_trans hclauses hword)
  cases horder : t.mapping.has objective.var .orderOnly with
  | false =>
    -- refused before the solver is asked
    have hrun : run oracle fuel objective { solver := s, reduction := t } = .error
        (.fault (.unsupported (.objective objective.var))) { solver := s, reduction := t } := by
      simp [run, hreduced.plain, horder]
    obtain rfl := (EStateM.Result.error.inj (hrun.symm.trans hfail)).2
    have hnothing : ∀ found,
        ({ solver := s, reduction := t } : Optimisation σ).best ≠ some found := by simp
    refine ⟨rfl, retract_boundedFile hfinished objective none,
      ⟨fun _ found hbest => ?_, fun _ => rfl⟩, fun hne => absurd rfl hne,
      fun _ found hbest => ?_⟩
    · exact absurd hbest (hnothing found)
    · exact absurd hbest (hnothing found)
  | true =>
    have h : Ranked p settings catalog t T objective := ⟨hreduced, hlim, hclauses, horder⟩
    have hloop : loop oracle objective fuel 1 { solver := s, reduction := t } = .error stop o' := by
      simp only [run, hreduced.plain, horder, Bool.false_eq_true, Bool.not_true, if_false] at hfail
      split at hfail
      · simp at hfail
      · next heq =>
        obtain ⟨rfl, rfl⟩ := EStateM.Result.error.inj hfail
        exact heq
    have hleft : Leaves t objective o' :=
      loop_leaves h hleaves fuel 1 { solver := s, reduction := t } o' stop rfl ⟨rfl, rfl⟩ hloop
    have hfile : o'.reduction.file = boundedFile t objective o'.best := by rw [hleft]
    rw [hfile]
    refine ⟨hleft, retract_boundedFile hfinished objective _, boundedFile_eq_iff h _, ?_, ?_⟩
    · intro hne
      cases hbest : o'.best with
      | none => exact absurd (by rw [hbest]; rfl) hne
      | some found =>
        rw [hbest] at hne
        obtain ⟨l, hbetter, -⟩ := h.better found
        obtain ⟨hvariables, hcount, hsame⟩ := boundedFile_counts h hbetter
        rw [if_neg fun halways => hne (hsame halways)] at hcount
        exact ⟨hvariables, hcount⟩
    · intro hroom found hbest hsolved
      rw [hbest]
      exact boundedFile_disk_ne h hroom hsolved

/-- The largest value of the value with a gap is asked for, and the solver fails at its second
call. -/
theorem gap_breaks_off : ∃ catalog T t solution o',
    (Reduction.ofProblem {} gapProblem {} "gap.cnf").result = .ok t ∧
      Ranked gapProblem {} catalog t T { var := "x", maximise := true } ∧
      gapProblem.SolvedBy (t.mapping.decode solution) ∧
      run Oracle.script 2 { var := "x", maximise := true }
        { solver := [.ok (some solution), .error (.fault (.reported "boom"))], reduction := t } =
          .error (.fault (.reported "boom")) o' ∧
      o'.best = some (t.mapping.decode solution) ∧
      Leaves t { var := "x", maximise := true } o' := by
  obtain ⟨t, hok, hcount, hclauses, horder⟩ := gap_reduces
  obtain ⟨catalog, T, hreduced⟩ := reduced_of_ok rfl hok
  have h : Ranked gapProblem {} catalog t T { var := "x", maximise := true } :=
    ⟨hreduced, by rw [hcount]; decide, by rw [hclauses]; decide, horder⟩
  obtain ⟨solution, hsolved⟩ := exists_found h gap_solvedBy
  obtain ⟨d, hd⟩ := exists_domain_of_order hreduced.lists h.meaning.represented h.order
  have hopt : Optimisable gapProblem {} catalog t T { var := "x", maximise := true } d :=
    ⟨hreduced, h.few, h.fewClauses, .inl rfl, horder, (h.meaning.domains _ d).mp hd⟩
  obtain ⟨o', hloop, hbest⟩ := run_script hopt hsolved (.fault (.reported "boom"))
  refine ⟨catalog, T, t, solution, o', hok, h, hsolved, ?_, hbest, ?_⟩
  · simp [run, hreduced.plain, horder, hloop]
  · exact loop_leaves h Oracle.script_leavesFile 2 1 _ o' _ (by rfl) ⟨rfl, rfl⟩ hloop

/-- After the failure the file on disk is another and has one clause more, but can be restored. -/
theorem gap_can_be_restored : ∃ t solution o',
    (Reduction.ofProblem {} gapProblem {} "gap.cnf").result = .ok t ∧
      run Oracle.script 2 { var := "x", maximise := true }
        { solver := [.ok (some solution), .error (.fault (.reported "boom"))], reduction := t } =
          .error (.fault (.reported "boom")) o' ∧
      o'.reduction.file.disk ≠ t.file.disk ∧
      Instance.retract t.file.here o'.reduction.file = .ok () t.file := by
  obtain ⟨catalog, T, t, solution, o', hok, h, hsolved, hrun, hbest, -⟩ := gap_breaks_off
  obtain ⟨-, hretract, -, -, hdisk⟩ := failure_leaves_one_bound _ _ _ Oracle.script_leavesFile rfl
    hok h.few h.fewClauses hrun
  exact ⟨t, solution, o', hok, hrun, hdisk (.inl rfl) _ hbest hsolved, hretract⟩

/-- A failure does not leave the file as it was: the bounding clause stays in it. -/
theorem gap_keeps_bound : ∃ t solution o',
    (Reduction.ofProblem {} gapProblem {} "gap.cnf").result = .ok t ∧
      run Oracle.script 2 { var := "x", maximise := true }
        { solver := [.ok (some solution), .error (.fault (.reported "boom"))], reduction := t } =
          .error (.fault (.reported "boom")) o' ∧
      o'.reduction.file.disk ≠ t.file.disk ∧
      o'.reduction.file.clauses = t.file.clauses + 1 := by
  obtain ⟨catalog, T, t, solution, o', hok, h, hsolved, hrun, hbest, hleft⟩ := gap_breaks_off
  have hfile : o'.reduction.file =
      boundedFile t { var := "x", maximise := true } (some (t.mapping.decode solution)) := by
    rw [hleft, hbest]
  have hdisk := boundedFile_disk_ne h (.inl rfl) hsolved
  obtain ⟨l, hbetter, -⟩ := h.better (t.mapping.decode solution)
  obtain ⟨-, hcount, hsame⟩ := boundedFile_counts h hbetter
  rw [if_neg fun halways => hdisk (by rw [hsame halways])] at hcount
  exact ⟨t, solution, o', hok, hrun, hfile ▸ hdisk, hfile ▸ hcount⟩

end Optimisation

end Clausify
