import Clausify.Command.Session
import Clausify.Problem.Source
import Clausify.Settings.Load
import Clausify.Text.Escaped

/-!
The commands. `encode` writes the instance of a model. `solve` writes it too, to a temporary file
unless it is to be kept, solves or optimises it, verifies the assignment against the model and
shows it; its exit code says how that went. Both read settings from a file, the one that is named
or one beside the program, and flags override them.
-/

namespace Clausify.Command

inductive Verdict where
  | satisfiable
  | unverified
  | unsatisfiable
  deriving DecidableEq, Repr

def Verdict.exitCode : Verdict → Nat
  | satisfiable => 10
  | unverified => 15
  | unsatisfiable => 20

/-- The names of settings files beside the program, the first that is there being read. -/
def settingsNames : List String := ["config.yaml", "config.yml", "config.json"]

/-- The path of the settings, if there are any. -/
def settingsPath? (env : Environment) (store : Store) (flags : FlagValues) : Option String :=
  if flags.text "config" ≠ "" then some (flags.text "config")
  else
    (settingsNames.map fun name => env.home ++ "/" ++ name).find? fun path =>
      (store.find? (Location.ofPath path)).isSome

/-- Flags over settings. -/
def overrideSettings (flags : FlagValues) (settings : Settings) : Except Fault Settings := do
  let scheme ←
    match flags.lookup "scheme" with
    | some name => Scheme.parse name
    | none => .ok settings.scheme
  return { settings with
    scheme
    clauseLimit := (flags.count? "cnf-limit").getD settings.clauseLimit
    forceBoth := settings.forceBoth || flags.truth "both"
    outputMapping := settings.outputMapping || flags.truth "mapping" }

def readSettings (env : Environment) (store : Store) (flags : FlagValues) :
    Except Fault Settings := do
  let settings ←
    match settingsPath? env store flags with
    | some path => Settings.load store path
    | none => .ok {}
  let settings ← overrideSettings flags settings
  settings.validate
  return settings

def readPrograms (env : Environment) (store : Store) (flags : FlagValues) :
    Except Fault (Table String String) :=
  match settingsPath? env store flags with
  | some path => (Settings.loadPrograms store path).map (·.getD [])
  | none => .ok []

def readModel (flags : FlagValues) : Action Problem := do
  Action.require (fun fault => Failure.ofStop .model (.ofFault (.model fault)))
    (ProblemSource.load (← Action.store) (flags.text "model"))

def reduceModel (env : Environment) (problem : Problem) (settings : Settings)
    (path : String) : Action Reduction := do
  let outcome := Reduction.ofProblem (← Action.store) problem settings path
  Action.setStore outcome.store
  Action.note env.stamp outcome.journal
  Action.require (Failure.ofStop .reduction) outcome.result

def sizeLines (t : Reduction) : String :=
  "Variables: " ++ toString t.file.variableCount ++ "\nClauses: " ++ toString t.file.clauses ++ "\n"

def encode (env : Environment) (flags : FlagValues) : Action Nat := do
  let settings ← Action.require Failure.ofFault
    (readSettings env (← Action.store) flags)
  let settings := { settings with weighted := settings.weighted || flags.truth "maxsat" }
  Action.require Failure.ofFault settings.validate
  let problem ← readModel flags
  let reduction ← reduceModel env problem settings (flags.text "out")
  Action.print (sizeLines reduction)
  return 0

/-- Looks for an assignment, the best one when there is an objective. -/
def findAssignment (env : Environment) (solver : Solver) (objective : Option Objective)
    (reduction : Reduction) : Action (Option Assignment) := do
  let store ← Action.store
  let oracle := solver.oracle env.launcher store (env.temporary ++ "/" ++ "model.txt")
  match objective with
  | none =>
    let answer ← Action.require (Failure.ofStop .solving)
      (oracle.solve () reduction.file.path reduction.file.disk).2.2
    return reduction.decode answer
  | some objective =>
    let fuel := reduction.valueCount objective.var + 2
    match Optimisation.run oracle fuel objective { solver := (), reduction } with
    | .ok best o =>
      Action.setStore (Reduction.placeFile store o.reduction.file)
      Action.note env.stamp o.journal
      return best
    | .error stop o =>
      Action.setStore (Reduction.placeFile store o.reduction.file)
      Action.note env.stamp o.journal
      throw (Failure.ofStop .solving stop)

/-- An assignment as a JSON object, in the order of the names. -/
def assignmentJson (assignment : Assignment) : String :=
  let sorted := assignment.mergeSort fun a b => decide (a.1 ≤ b.1)
  "\x7b" ++ ",".intercalate (sorted.map fun (name, value) =>
    Text.escaped name ++ ":" ++ value.text) ++ "\x7d"

/-- The part of an assignment that is about decisions. -/
def decisions (problem : Problem) (assignment : Assignment) : Assignment :=
  assignment.filter fun (name, _) =>
    ((problem.catalog.bind fun catalog => catalog.find? name).map fun v =>
      decide (v.category = .decision)).getD true

/-- Prints an assignment, or writes it to a file. -/
def showAssignment (path : String) (assignment : Assignment) : Action Unit := do
  let text := assignmentJson assignment
  if path = "" then Action.print (text ++ "\n")
  else
    Action.setStore (← Action.require (fun fault => .fault (.output fault))
      ((← Action.store).write path text.toUTF8))

/-- Verifies what was found against the model and shows it. -/
def conclude (env : Environment) (flags : FlagValues) (problem : Problem) :
    Option Assignment → Action Verdict
  | none => return .unsatisfiable
  | some assignment => do
    match ← Action.require Failure.misuse (problem.violated? assignment) with
    | some violated =>
      Action.note env.stamp
        [⟨.error, "solve.verification.failed", [("constraint", .text violated.text)]⟩]
      return .unverified
    | none =>
      let shown := if flags.truth "all" then assignment else decisions problem assignment
      showAssignment (flags.text "out") shown
      return .satisfiable

/-- Reduces a model to a file at a path, solves it and reports the size of the instance last. -/
def solveAt (env : Environment) (flags : FlagValues) (settings : Settings) (solver : Solver)
    (problem : Problem) (path : String) : Action Nat := do
  let reduction ← reduceModel env problem settings path
  let objective := if flags.truth "no-optimise" then none else problem.objective
  let found ← findAssignment env solver objective reduction
  let verdict ← Action.afterwards
    (fun s => { s with output := s.output ++ sizeLines reduction })
    (conclude env flags problem found)
  return verdict.exitCode

/-- The directory for the instance that is not kept. -/
def scratchDirectory (env : Environment) : String := env.temporary ++ "/" ++ programName ++ "-0"

/-- Does something with a temporary directory, which is removed afterwards. -/
def withScratch {α : Type} (env : Environment) (action : String → Action α) : Action α := do
  let location := Location.ofPath (scratchDirectory env)
  let store ← Action.require (fun fault => .fault (.temporaryDirectory fault))
    ((← Action.store).makeDirectories location)
  Action.setStore store
  Action.afterwards
    (fun s => { s with log := { s.log with store := s.log.store.eraseTree location } })
    (action (scratchDirectory env))

def defaultSolver : String := "gophersat"

def solve (env : Environment) (flags : FlagValues) : Action Nat := do
  let store ← Action.store
  let settings ← Action.require Failure.ofFault
    (readSettings env store flags)
  if settings.weighted then
    Action.note env.stamp [⟨.warn, "solve.weighted.disabled",
      [("reason", .text "solvers read plain CNF")]⟩]
  let settings := { settings with weighted := false }
  let programs ← Action.require (fun fault => Failure.ofStop .programs (.ofFault fault))
    (readPrograms env store flags)
  let name := (flags.lookup "solver").getD defaultSolver
  let solver ← Action.require Failure.ofFault (Solver.ofName name programs)
  let problem ← readModel flags
  let kept := flags.text "cnf"
  if kept ≠ "" then solveAt env flags settings solver problem kept
  else withScratch env fun directory =>
    solveAt env flags settings solver problem (directory ++ "/instance.cnf")

/-- What the program can do, in a few lines. -/
def guide : String :=
  "Translate finite-domain constraint models into SAT instances\n\n" ++
    "Usage:\n  " ++ programName ++ " [command]\n\nAvailable Commands:\n" ++
    "  encode      Write the CNF (or weighted CNF) instance of a model\n" ++
    "  solve       Encode a model, solve it and print the values of its decision variables " ++
    "as JSON\n"

def runVerb (env : Environment) (verb : Verb) (arguments : List String) : Action Nat := do
  let flags ← Action.require (fun fault => .fault (.flag fault))
    (Flag.readAll verb.flags arguments [])
  if flags.truth "help" || verb = .guide then
    Action.print guide
    return 0
  else
    Action.openLog env.stamp (flags.text "log") (flags.truth "debug")
    let missing := Flag.missing verb.flags flags
    if !missing.isEmpty then throw (.fault (.missingFlags missing))
    match verb with
    | .encode => encode env flags
    | .solve => solve env flags
    | .guide => return 0

def run (env : Environment) (store : Store) (arguments : List String) : Outcome :=
  Action.outcome store do
    match Route.find arguments with
    | .error word => throw (.fault (.unknownCommand word))
    | .ok (verb, rest) => runVerb env verb rest

/-- The paths a run on an argument list may touch: what its flags name and the settings beside the
program. -/
def mentionedPaths (env : Environment) (arguments : List String) : List String :=
  let named := match Route.find arguments with
    | .error _ => []
    | .ok (verb, rest) => ((Flag.readAll verb.flags rest []).toOption.getD []).map (·.2)
  named ++ settingsNames.map fun name => env.home ++ "/" ++ name

end Clausify.Command
