import Clausify.Command.Outcome
import Clausify.Command.Route
import Clausify.Journal.Log
import Clausify.Solver.Launch

/-!
The state a command works on and the ways it ends. A command prints, adds to its log and changes
files; it ends with an exit code, with a fault that is reported, or with a broken contract.
-/

namespace Clausify.Command

/-- What surrounds a command. -/
structure Environment where
  launcher : Launcher := .none
  /-- The directory of the program itself. -/
  home : String := "bin"
  /-- The directory for temporary files. -/
  temporary : String := "tmp"
  stamp : Stamp := {}

/-- The step of a command in which a fault arose. -/
inductive Stage where
  | programs
  | model
  | reduction
  | solving
  deriving DecidableEq, Repr

def Stage.text : Stage → String
  | programs => "cannot read solver paths"
  | model => "cannot parse model file"
  | reduction => "an error occurred during translation"
  | solving => "an error occurred while solving"

inductive CommandFault where
  | unknownCommand (word : String)
  | flag (fault : FlagFault)
  | missingFlags (names : List String)
  | log (fault : FileFault)
  | plain (fault : Fault)
  | during (stage : Stage) (fault : Fault)
  | temporaryDirectory (fault : FileFault)
  | output (fault : FileFault)
  deriving DecidableEq, Repr

namespace CommandFault

/-- The commands that were perhaps meant, one on a line. -/
def suggestionLines (names : List String) : String :=
  if names.isEmpty then ""
  else "\n\nDid you mean this?\n" ++ String.join (names.map fun name => "\t" ++ name ++ "\n")

def message : CommandFault → String
  | unknownCommand word =>
    "unknown command " ++ Text.quoted word ++ " for " ++ Text.quoted programName ++
      suggestionLines (Route.suggestions word)
  | flag fault => fault.message
  | missingFlags names =>
    "required flag(s) " ++ ", ".intercalate (names.map fun name => "\"" ++ name ++ "\"") ++
      " not set"
  | log fault => fault.message
  | plain fault => fault.message
  | during stage fault => stage.text ++ ": " ++ fault.message
  | temporaryDirectory fault => "cannot create temporary directory: " ++ fault.message
  | output fault => "an error occurred while writing to the output file: " ++ fault.message

def report (fault : CommandFault) : String :=
  "Error: " ++ fault.message ++ "\n" ++
    match fault with
    | unknownCommand _ => "Run '" ++ programName ++ " --help' for usage.\n"
    | _ => ""

end CommandFault

/-- Why a command ends before its work is done. -/
inductive Failure where
  | fault (fault : CommandFault)
  | misuse (misuse : Misuse)
  deriving DecidableEq, Repr

def Failure.ofStop (stage : Stage) : Stop → Failure
  | .fault f => .fault (.during stage f)
  | .misuse m => .misuse m

def Failure.ofFault (fault : Fault) : Failure :=
  match Stop.ofFault fault with
  | .fault f => .fault (.plain f)
  | .misuse m => .misuse m

/-- The state of a command. -/
structure Session where
  log : LogState
  output : String := ""

abbrev Action := EStateM Failure Session

namespace Action

def store : Action Store := fun s => .ok s.log.store s

def setStore (store : Store) : Action Unit := fun s =>
  .ok () { s with log := { s.log with store } }

def print (text : String) : Action Unit := fun s => .ok () { s with output := s.output ++ text }

def note (stamp : Stamp) (entries : List JournalEntry) : Action Unit := fun s =>
  .ok () { s with log := entries.foldl (LogState.add stamp) s.log }

def require {ε α : Type} (failure : ε → Failure) : Except ε α → Action α
  | .ok value => pure value
  | .error fault => throw (failure fault)

/-- Does something when a step has ended, however it ended. -/
def afterwards {α : Type} (change : Session → Session) (action : Action α) : Action α := fun s =>
  match action s with
  | .ok value s => .ok value (change s)
  | .error failure s => .error failure (change s)

def openLog (stamp : Stamp) (path : String) (debug : Bool) : Action Unit := fun s =>
  match s.log.setup stamp path debug with
  | (log, .ok _) => .ok () { s with log }
  | (log, .error fault) => .error (.fault (.log fault)) { s with log }

/-- What a command leaves behind, from its run on the files of a store. -/
def outcome (store : Store) (action : Action Nat) : Outcome :=
  match action { log := { store } } with
  | .ok exitCode s =>
    { exitCode, output := s.output, errors := s.log.errors, store := s.log.store }
  | .error (.fault fault) s =>
    { exitCode := 1, output := s.output, errors := s.log.errors ++ fault.report
      store := s.log.store }
  | .error (.misuse misuse) s =>
    { exitCode := 2, output := s.output, errors := s.log.errors ++ crashLine misuse.message
      store := s.log.store }

end Action

end Clausify.Command
