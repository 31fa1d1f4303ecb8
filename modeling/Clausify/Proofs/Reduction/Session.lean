import Mathlib
import Clausify.Proofs.Encoding.Accepted
import Clausify.Proofs.Encoding.Answers
import Clausify.Proofs.Reduction.Meaning

/-!
An encoder whose file gives out and comes back. Variables are encoded one after the other, and
between the calls anything may happen to the file: it is closed and opened, it reaches its limit, it
is cut (`Move`, `Session.run`). Whether a call comes to its end or not, the name is on record
afterwards (`recorded_after_call`), and nothing that follows concerns it any more (`run_keeps`).
Main statement: the first call for a name decides what is written and what the mapping answers for
it, and all further calls do nothing and succeed (`first_call_decides`). So a call that succeeds
after one that failed does not mean that the variable is encoded
(`retry_takes_failure_for_success`).
-/

namespace Clausify

/-- What is done next: a variable is encoded, or something happens to what is written to. -/
inductive Move (W : Type) where
  | encode (v : Variable) (needs : Representation) (constrained : Bool)
  | sink (change : W → W)

/-- The variable is the one that is encoded. -/
def Move.Encodes {W : Type} (x : String) : Move W → Prop
  | .encode v _ _ => v.name = x
  | .sink _ => False

namespace Session

open Step (Block)
open Encoding (encodeVariable variableSteps shapeSteps)

variable {W : Type} [ClauseWriter W] {settings : Settings} {e e' e'' : Encoder W} {x : String}
  {moves : List (Move W)}

/-- The encoder after a move, whether or not a call came to its end. -/
def step (settings : Settings) (e : Encoder W) : Move W → Encoder W
  | .encode v needs constrained =>
    Encoder.left (encodeVariable settings v needs constrained e).2
  | .sink change => { e with writer := change e.writer }

def run (settings : Settings) (moves : List (Move W)) (e : Encoder W) : Encoder W :=
  moves.foldl (step settings) e

/-- Nothing happens to a name: its shape is on record as before, and all that is entered concerns
others. -/
structure Keeps (x : String) (e e' : Encoder W) : Prop where
  shape : e'.shapes.lookup x = e.shapes.lookup x
  lists : ∀ {S : List Step}, e.mapping.Lists S →
    ∃ S', e'.mapping.Lists (S ++ S') ∧ ∀ s ∈ S', ¬ s.Concerns x

omit [ClauseWriter W] in
theorem Keeps.of_same (hmapping : e'.mapping = e.mapping) (hshapes : e'.shapes = e.shapes) :
    Keeps x e e' where
  shape := by rw [hshapes]
  lists {S} hS := ⟨[], by rwa [List.append_nil, hmapping], List.forall_mem_nil _⟩

omit [ClauseWriter W] in
theorem Keeps.trans (h : Keeps x e e') (h' : Keeps x e' e'') : Keeps x e e'' where
  shape := h'.shape.trans h.shape
  lists hS := by
    obtain ⟨S₁, hS₁, hother₁⟩ := h.lists hS
    obtain ⟨S₂, hS₂, hother₂⟩ := h'.lists hS₁
    refine ⟨S₁ ++ S₂, by rwa [← List.append_assoc], ?_⟩
    exact List.forall_mem_append.mpr ⟨hother₁, hother₂⟩

theorem keeps_left_run {U : List Step} (hU : ∀ s ∈ U, ¬ s.Concerns x) :
    Keeps x e (Encoder.left (Encoder.run U e)) where
  shape := Encoder.left_run_shapes fun shape hmem => hU _ hmem rfl
  lists hS := by
    obtain ⟨taken, rest, e₁, rfl, hrun, hmapping, -⟩ := Encoder.exists_taken U e
    refine ⟨taken, ?_, fun s hs => hU s (List.mem_append_left _ hs)⟩
    rw [hmapping]
    exact Encoder.run_lists hS hrun

/-- A move keeps every name that it does not encode, and every name on record. -/
theorem step_keeps {move : Move W}
    (h : move.Encodes x → ∃ shape, e.shapes.lookup x = some shape) :
    Keeps x e (step settings e move) := by
  cases move with
  | sink change => exact .of_same rfl rfl
  | encode v needs constrained =>
    simp only [step, encodeVariable]
    cases hv : e.shapes.lookup v.name with
    | some shape => exact .of_same rfl rfl
    | none =>
      apply keeps_left_run
      intro s hs hx
      have hname := Encoding.concerns_variableSteps hs hx
      obtain ⟨shape, hshape⟩ := h hname
      rw [← hname, hv] at hshape
      cases hshape

theorem run_keeps (h : (∀ move ∈ moves, ¬ move.Encodes x) ∨
    ∃ shape, e.shapes.lookup x = some shape) : Keeps x e (run settings moves e) := by
  induction moves generalizing e with
  | nil => exact .of_same rfl rfl
  | cons move rest ih =>
    have hstep : Keeps x e (step settings e move) := by
      apply step_keeps
      intro hx
      exact h.resolve_left fun hnone => hnone move List.mem_cons_self hx
    refine hstep.trans (ih ?_)
    rw [hstep.shape]
    exact h.imp_left fun hnone move' hmem => hnone move' (List.mem_cons_of_mem _ hmem)

/-- After a call the name is on record with the shape that the call gives, whether or not it came
to its end. -/
theorem recorded_after_call (settings : Settings) (v : Variable) (needs : Representation)
    (constrained : Bool) (e : Encoder W) :
    (Encoder.left (encodeVariable settings v needs constrained e).2).shapes.lookup v.name =
      some (encodeVariable settings v needs constrained e).1 := by
  unfold encodeVariable
  cases hv : e.shapes.lookup v.name with
  | some shape => exact hv
  | none =>
    dsimp only
    -- the shape is entered first, and by no later step
    show (Encoder.left (Encoder.run
      (.note _ :: .comment _ :: .domain _ _ :: shapeSteps _ _ _ _ _)
      { e with shapes := Table.set v.name _ e.shapes })).shapes.lookup v.name = _
    rw [Encoder.left_run_shapes]
    · simp
    · intro shape hmem
      simp only [List.mem_cons, reduceCtorEq, false_or] at hmem
      exact Encoding.shape_not_mem_shapeSteps hmem

theorem encodeVariable_recorded {v : Variable} {shape : Shape}
    (h : e.shapes.lookup v.name = some shape) (needs : Representation) (constrained : Bool) :
    encodeVariable settings v needs constrained e = (shape, .ok () e) := by
  rw [encodeVariable, h]

/-- The first call for a name decides. If it comes to its end, the file has accepted all that the
steps of the shape write, these steps represent the variable as long as there are literals for all
variables, and from then on the mapping answers for every value of the domain. Whether or not it
comes to its end, all further calls for the name give its shape, do nothing and succeed. -/
theorem first_call_decides {settings : Settings} {file : Instance} {early : List (Move Instance)}
    {v : Variable} (hfirst : ∀ move ∈ early, ¬ move.Encodes v.name) {needs : Representation}
    {constrained : Bool} {e : Encoder Instance} {shape : Shape}
    {result : EStateM.Result Stop (Encoder Instance) Unit}
    (he : run settings early { writer := file } = e)
    (hcall : encodeVariable settings v needs constrained e = (shape, result)) :
    (∀ e', result = .ok () e' →
      e.writer.Accepts e'.writer (variableSteps settings e.variableCount v shape constrained) ∧
      (e'.variableCount < Literal.limit → Block v.name v.domain.values e.variableCount
        (shapeSteps settings e.variableCount v constrained shape)) ∧
      ∀ later, (run settings later e').mapping.Answers
        (shapeSteps settings e.variableCount v constrained shape) v shape) ∧
    ∀ later (u : Variable) needs' constrained', u.name = v.name →
      encodeVariable settings u needs' constrained' (run settings later (Encoder.left result)) =
        (shape, .ok () (run settings later (Encoder.left result))) := by
  have hrecord := recorded_after_call settings v needs constrained e
  rw [hcall] at hrecord
  refine ⟨?_, ?_⟩
  · rintro e' rfl
    -- no earlier move encodes the name, so it is still free
    have hearly : Keeps v.name { writer := file } e := he ▸ run_keeps (.inl hfirst)
    have hnew : e.shapes.lookup v.name = none := hearly.shape
    obtain ⟨S, hS, hother⟩ := hearly.lists Mapping.lists_empty
    rw [List.nil_append] at hS
    simp only [encodeVariable, hnew, Prod.mk.injEq] at hcall
    obtain ⟨rfl, hrun⟩ := hcall
    have haccepts := Encoder.run_accepts hrun
    refine ⟨haccepts, fun hlim => ?_, fun later => ?_⟩
    · have hfresh : Step.freshCount (shapeSteps settings e.variableCount v constrained
          (Shape.choose settings v.domain.size (needs.union v.needs))) =
          Step.freshCount (variableSteps settings e.variableCount v
            (Shape.choose settings v.domain.size (needs.union v.needs)) constrained) := rfl
      apply shapeSteps_block
      · intro r hr
        exact Encoder.run_no_stop hrun r (by simp [variableSteps, hr])
      · rw [hfresh]
        have hcount : e'.variableCount = e.variableCount + _ := haccepts.count
        rwa [← hcount]
    -- from now on the name is on record, so no later move touches its entries
    · have hlater : Keeps v.name e' (run settings later e') := run_keeps (.inr ⟨_, hrecord⟩)
      obtain ⟨S', hS', hother'⟩ := hlater.lists (Encoder.run_lists hS hrun)
      exact Mapping.answers_of_lists hS' hother hother'
  · intro later u needs' constrained' hname
    apply encodeVariable_recorded
    have hlater : Keeps v.name (Encoder.left result) (run settings later (Encoder.left result)) :=
      run_keeps (.inr ⟨_, hrecord⟩)
    rw [hname, hlater.shape]
    exact hrecord

def finish : Move Instance := .sink fun i => Instance.left (Instance.finalize i)

def resume : Move Instance := .sink fun i => Instance.left (Instance.reopen i)

/-- A variable with three values, of which nothing is needed. -/
def threeValues (x : String) : Variable := { name := x, domain := .ofValues [1, 2, 3] }

theorem choose_threeValues (x : String) : Shape.choose {} (threeValues x).domain.size
    (Representation.union {} (threeValues x).needs) = .order := by cbv

/-- A new file without a limit. -/
def newFile : Instance := Instance.create "x.cnf" {}

/-- The steps of the variable can be taken with a formula, whatever the note and the comment say. -/
theorem threeValues_reaches (shapes : Table String Shape) (journal : Array JournalEntry)
    (entry : JournalEntry) (text : String) :
    (Encoder.run (.shape "x" .order :: .note entry :: .comment text ::
        .domain "x" (threeValues "x").domain ::
        shapeSteps {} 0 (threeValues "x") true .order)).reaches
      (fun e => e.writer.clauses.size = 1 && e.writer.variableCount = 2)
      (⟨{}, {}, shapes, journal⟩ : Encoder Formula) = true := by
  cbv

/-- After a variable that met a closed file, another one is encoded: one clause, two variables and a
literal for every bound, also after the file is closed again. -/
theorem other_name_after_failure : ∃ e e' : Encoder Instance,
    run {} [finish, .encode (threeValues "y") {} true, resume] { writer := newFile } = e ∧
    encodeVariable {} (threeValues "x") {} true e = (.order, .ok () e') ∧
    e'.writer.clauses = 1 ∧ e'.writer.variableCount = 2 ∧
    ∃ l, (run {} [finish] e').mapping.orderLiteral "x" 2 = .ok l ∧
      encodeVariable {} (threeValues "x") {} true (run {} [finish] e') =
        (.order, .ok () (run {} [finish] e')) := by
  obtain ⟨e, he⟩ : ∃ e, run {} [finish, .encode (threeValues "y") {} true, resume]
    { writer := newFile } = e := ⟨_, rfl⟩
  have hfollows : e.writer.Follows {} := by
    rw [← he]
    exact ⟨by decide +kernel, rfl, rfl, rfl, rfl⟩
  have hnew : e.shapes.lookup "x" = none := by
    rw [← he]
    decide +kernel
  have honto : e = Encoder.onto ⟨{}, {}, e.shapes, e.journal⟩ e.writer := by
    rw [← he]
    rfl
  obtain ⟨f, hformula, hsize⟩ := Run.reaches_iff.mp (threeValues_reaches e.shapes e.journal
    ⟨.debug, "encoding.variable", [("variable", .text "x"),
      ("domain", .text (threeValues "x").domain.text), ("shape", .text "order")]⟩
    (Encoding.variableComment (threeValues "x") .order))
  rw [Bool.and_eq_true, decide_eq_true_eq, decide_eq_true_eq] at hsize
  obtain ⟨i, hrun, hcounts⟩ := Encoder.run_onto hfollows hformula
  rw [← honto] at hrun
  have hcall : encodeVariable {} (threeValues "x") {} true e = (.order, .ok () (f.onto i)) := by
    have hcount : e.variableCount = 0 := hfollows.variableCount
    have hname : e.shapes.lookup (threeValues "x").name = none := hnew
    simp only [encodeVariable, hname, choose_threeValues, hcount]
    exact congrArg (Prod.mk _) hrun
  have hfirst : ∀ move ∈ [finish, .encode (threeValues "y") {} true, resume],
      ¬ move.Encodes (threeValues "x").name := by
    simp [finish, resume, Move.Encodes, threeValues]
  obtain ⟨hok, hagain⟩ := first_call_decides hfirst he hcall
  obtain ⟨-, -, hanswers⟩ := hok _ rfl
  obtain ⟨l, hl, -⟩ := (hanswers [finish]).order rfl 2 (Domain.mem_ofValues.mpr (by decide))
  refine ⟨e, _, he, hcall, ?_, ?_, l, hl, hagain [finish] _ _ _ rfl⟩
  · exact hcounts.clauses.trans hsize.1
  · exact hcounts.variableCount.trans hsize.2

/-- The same variable after it met a closed file: the call succeeds, but the open file has neither a
clause nor a variable, and the mapping does not know the name. -/
theorem retry_takes_failure_for_success : ∃ e : Encoder Instance,
    run {} [finish, .encode (threeValues "x") {} true, resume] { writer := newFile } = e ∧
    encodeVariable {} (threeValues "x") {} true e = (.order, .ok () e) ∧
    e.writer.isOpen = true ∧ e.writer.clauses = 0 ∧ e.writer.variableCount = 0 ∧
    1 ∈ (threeValues "x").domain ∧ e.mapping.orderLiteral "x" 1 = .error (.notMapped "x") := by
  obtain ⟨e, he⟩ : ∃ e, run {} [finish, .encode (threeValues "x") {} true, resume]
    { writer := newFile } = e := ⟨_, rfl⟩
  have hrecord : e.shapes.lookup (threeValues "x").name = some .order := by
    have hcall := recorded_after_call {} (threeValues "x") {} true
      (run {} [finish] { writer := newFile })
    rw [← he]
    exact hcall.trans (congrArg some (choose_threeValues "x"))
  have hopen : e.writer.isOpen = true := by
    rw [← he]
    decide +kernel
  have hmapping : e.mapping = {} := by
    rw [← he]
    rfl
  refine ⟨e, he, encodeVariable_recorded hrecord _ _, hopen, by rw [← he]; rfl, by rw [← he]; rfl,
    Domain.mem_ofValues.mpr (by decide), ?_⟩
  rw [hmapping]
  simp [Mapping.orderLiteral]

end Session

end Clausify
