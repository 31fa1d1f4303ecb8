import Clausify.Fault
import Clausify.Solver.Search
import Clausify.Table
import Clausify.Text.Blank
import Clausify.Text.Utf8

/-!
The solvers by name. Two of them search in memory; the others are external programs that are given
the instance file and either print their model or write it to a further file. This module says how
a program is called and how its answer is read: printed models stand on lines that start with `v`,
and a model file says `SAT`, followed by literals up to a zero, or `UNSAT`.
-/

namespace Clausify

structure Program where
  name : String
  path : String
  arguments : List String := []
  /-- Whether the model is written to a file named by a further argument. -/
  modelFile : Bool := false
  deriving DecidableEq, Repr

/-- A solver: the search of this library, or a program. -/
inductive Solver where
  | internal
  | external (program : Program)
  deriving DecidableEq, Repr

namespace Solver

def names : List String :=
  ["gophersat", "gini", "kissat", "cadical", "minisat", "cryptominisat"]

/-- The program of a solver: the configured path, or the name itself. -/
def programPath (paths : Table String String) (name : String) : String :=
  match paths.lookup name with
  | some path => if path = "" then name else path
  | none => name

/-- The solver of a name, with the paths of the programs. -/
def ofName (name : String) (paths : Table String String) : Except Fault Solver :=
  let path := programPath paths name
  match name with
  | "gophersat" | "gini" => .ok .internal
  | "kissat" => .ok (.external { name, path, arguments := ["-q", "--relaxed"] })
  | "cadical" => .ok (.external { name, path, arguments := ["-q"] })
  | "minisat" => .ok (.external { name, path, arguments := ["-verb=0"], modelFile := true })
  | "cryptominisat" => .ok (.external { name, path, arguments := ["--verb", "0"] })
  | _ => .error (.solver (.unknown name names))

/-- The answer of the search on the text of an instance file. -/
def searchFile (file : Except FileFault ByteArray) : Except Fault Answer :=
  match file with
  | .error fault => .error (.solver (.unreadable fault))
  | .ok bytes =>
    match Dimacs.read (Text.decode bytes) with
    | .error fault => .error (.dimacs fault)
    | .ok formula => .ok (Search.solve formula)

end Solver

def literalsOf : List String → Except Misuse Solution
  | [] => .ok []
  | field :: rest =>
    match Numeral.parseWord field with
    | .error fault => .error (.solverLiteral (Numeral.faultText .signed field fault))
    | .ok w => (literalsOf rest).map (w :: ·)

/-- The model on the lines that start with `v`, zeros left out; nothing without such lines. -/
def printedModel (output : String) : Except Misuse (Option Solution) :=
  let lines := (Text.linesOf output.toList).filterMap fun
    | 'v' :: rest => some rest
    | _ => none
  if lines.isEmpty then .ok none
  else
    match literalsOf ((lines.flatMap Text.fieldsOf).map String.ofList) with
    | .error misuse => .error misuse
    | .ok words => .ok (some (words.filter (· ≠ 0)))

/-- The literals up to the first zero. -/
def modelFields (name : String) : List String → Except SolverFault Solution
  | [] => .error (.unterminatedModel name)
  | field :: rest =>
    match Numeral.parseWord field with
    | .error _ => .error (.badLiteral name field)
    | .ok w => if w = 0 then .ok [] else (modelFields name rest).map (w :: ·)

def writtenModel (name : String) (output : String) : Except SolverFault Answer :=
  match (Text.linesOf output.toList).filter fun line => !(Text.trimChars line).isEmpty with
  | [] => .error (.emptyModel name)
  | status :: lines =>
    if String.ofList (Text.trimChars status) = "UNSAT" then .ok none
    else if String.ofList (Text.trimChars status) ≠ "SAT" then
      .error (.statusLine name (String.ofList status))
    else (modelFields name ((lines.flatMap Text.fieldsOf).map String.ofList)).map some

/-- What a program left behind when it ended. -/
structure ProgramReply where
  output : String := ""
  errors : String := ""
  exitCode : Nat := 0
  /-- The model file, if it can be read. -/
  model : Except FileFault ByteArray

inductive ProgramRun where
  | ended (reply : ProgramReply)
  | notStarted (reason : String)

namespace Program

/-- The pattern of the name of the model file. -/
def modelPattern (p : Program) : String := p.name ++ "-model-*.txt"

/-- Why no model file can be made, if none can. -/
def modelFault (p : Program) : Option Fault :=
  if p.modelFile && p.modelPattern.contains '/' then
    some (.solver (.temporaryFile p.modelPattern))
  else none

def callArguments (p : Program) (instancePath modelPath : String) : List String :=
  p.arguments ++ [instancePath] ++ if p.modelFile then [modelPath] else []

/-- The answer of a program: status ten or zero promises a model, twenty says there is none. -/
def answer (p : Program) : ProgramRun → Except Stop Answer
  | .notStarted reason => .error (.fault (.solver (.start p.name reason)))
  | .ended reply =>
    if reply.exitCode = 20 then .ok none
    else if reply.exitCode ≠ 0 && reply.exitCode ≠ 10 then
      .error (.fault (.solver
        (.execution p.name ("exit status " ++ toString reply.exitCode) reply.errors)))
    else if p.modelFile then
      match reply.model with
      | .error fault => .error (.fault (.solver (.noModelFile fault)))
      | .ok bytes =>
        match writtenModel p.name (Text.decode bytes) with
        | .error fault => .error (.fault (.solver fault))
        | .ok answer => .ok answer
    else
      match printedModel reply.output with
      | .error misuse => .error (.misuse misuse)
      | .ok none => .error (.fault (.solver (.noModelLines p.name)))
      | .ok (some solution) => .ok (some solution)

end Program

end Clausify
