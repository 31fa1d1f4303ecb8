import Clausify.Reduction.Basic

/-!
Optimisation by repeated solving. After each solution a unit clause asks for a better value of the
objective, in place of the one before; when no better value exists the last solution is the best,
and the clause is taken out again, so the file is as it was at first. The solver is any function
of the file; it may keep a state and may touch the file.
-/

namespace Clausify

/-- A solver as the loop sees it. -/
structure Oracle (σ : Type) where
  /-- The next state, the file as it is left, and the answer, from a state, the path and the
  file. -/
  solve : σ → String → Option ByteArray → σ × Option ByteArray × Except Stop Answer

structure Optimisation (σ : Type) where
  solver : σ
  reduction : Reduction
  best : Option Assignment := none
  /-- The checkpoint before the bounding clause that is in the file. -/
  bound : Option Checkpoint := none
  journal : List JournalEntry := []

namespace Optimisation

variable {σ : Type}

def ask (oracle : Oracle σ) : Run (Optimisation σ) Answer := fun o =>
  let file := o.reduction.file
  let (solver, disk, answer) := oracle.solve o.solver file.path file.disk
  let next := { o with
    solver, reduction := { o.reduction with file := { file with disk } } }
  match answer with
  | .ok answer => .ok answer next
  | .error stop => .error stop next

def onFile (action : Run Instance Unit) : Run (Optimisation σ) Unit := fun o =>
  match action o.reduction.file with
  | .ok _ file => .ok () { o with reduction := { o.reduction with file } }
  | .error stop file => .error stop { o with reduction := { o.reduction with file } }

/-- The literal that asks for a better value than the one found; none is better than the last
value of the range. -/
def better (mapping : Mapping) (objective : Objective) (value : Word) : Except Misuse Literal :=
  if (objective.maximise && value = Word.greatest) || (!objective.maximise && value = Word.least)
  then .ok .never
  else if objective.maximise then (mapping.orderLiteral objective.var value).map Literal.negate
  else mapping.orderLiteral objective.var (value - 1)

/-- Takes the bounding clause out of the file, if there is one. -/
def release : Run (Optimisation σ) Unit := fun o =>
  match o.bound with
  | none => .ok () o
  | some checkpoint => onFile (Instance.retract checkpoint) o

/-- Puts a bounding clause into the file. -/
def tighten (literal : Literal) : Run (Optimisation σ) Unit := fun o =>
  match o.reduction.file.extend [[literal]] with
  | (checkpoint, .ok _ file) =>
    .ok () { o with reduction := { o.reduction with file }, bound := some checkpoint }
  | (_, .error stop file) => .error stop { o with reduction := { o.reduction with file } }

/-- Records a solution and asks for a better one. -/
def improve (objective : Objective) (iteration : Nat) (solution : Solution) :
    Run (Optimisation σ) Unit := do
  let literal ← fun o =>
    let assignment := o.reduction.mapping.decode solution
    let value := (assignment.lookup objective.var).getD 0
    let o := { o with
      best := some assignment
      journal := o.journal ++ [⟨.info, "optimisation.improved",
        [("variable", .text objective.var), ("value", .number value.toInt),
          ("iteration", .number iteration)]⟩] }
    match better o.reduction.mapping objective value with
    | .ok literal => .ok literal o
    | .error misuse => .error (.misuse misuse) o
  release
  tighten literal

/-- Solves and improves until the solver finds nothing more, at most `fuel` times. -/
def loop (oracle : Oracle σ) (objective : Objective) :
    Nat → Nat → Run (Optimisation σ) Unit
  | 0, _ => throw (.misuse .endless)
  | fuel + 1, iteration => do
    match ← ask oracle with
    | none => release
    | some solution =>
      improve objective iteration solution
      loop oracle objective fuel (iteration + 1)

/-- Optimises a reduction, asking the solver at most `fuel` times. -/
def run (oracle : Oracle σ) (fuel : Nat) (objective : Objective) (o : Optimisation σ) :
    EStateM.Result Stop (Optimisation σ) (Option Assignment) :=
  if o.reduction.file.options.weighted then
    .error (.fault (.settings .weightedOptimisation)) o
  else if !o.reduction.mapping.has objective.var .orderOnly then
    .error (.fault (.unsupported (.objective objective.var))) o
  else
    match loop oracle objective fuel 1 o with
    | .ok _ o => .ok o.best o
    | .error stop o => .error stop o

end Optimisation

/-- The number of values of a variable, which bounds the number of improvements. -/
def Reduction.valueCount (t : Reduction) (name : String) : Nat :=
  (t.mapping.domains[name]?.map fun d => d.size.toNat).getD 0

end Clausify
