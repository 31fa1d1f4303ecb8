import Clausify.Solver.Registry
import Clausify.Reduction.Optimise

/-!
Running a solver on an instance file. A program whose path has a slash is the file there, which
must be executable; any other name is looked up among the programs on the search path. What a
program does once it is started is not known here: a launcher says what it leaves behind.
-/

namespace Clausify

structure Launcher where
  /-- The programs on the search path, by name. -/
  onPath : List String := []
  /-- What a program leaves behind, from its path and its arguments. -/
  reply : String → List String → ProgramReply

/-- The system that has no programs. -/
def Launcher.none : Launcher where
  reply _ _ := { model := .ok ByteArray.empty }

namespace Program

/-- The first bytes of a script, before the path of its interpreter. -/
def scriptMark : List UInt8 := "#!".toUTF8.toList

/-- Why the file at a path cannot be started, if it cannot. -/
def fileFault (store : Store) (path : String) : Option String :=
  match store.resolve path with
  | .error reason => some reason.text
  | .ok location =>
    match store.find? location with
    | none => some FileReason.missing.text
    | some .directory => some FileReason.denied.text
    | some (.file content executable) =>
      if !executable then some FileReason.denied.text
      else if content.toList.take 2 ≠ scriptMark then some "exec format error"
      else none

/-- Why the program at a path cannot be started, if it cannot. -/
def startFault (launcher : Launcher) (store : Store) (path : String) : Option String :=
  if path.contains '/' then
    (fileFault store path).map fun reason => "fork/exec " ++ path ++ ": " ++ reason
  else if launcher.onPath.contains path then none
  else some ("exec: " ++ Text.quoted path ++ ": executable file not found in $PATH")

/-- Starts a program on an instance file; `modelPath` names its model file. -/
def start (p : Program) (launcher : Launcher) (store : Store) (instancePath modelPath : String) :
    ProgramRun :=
  match startFault launcher store p.path with
  | some reason => .notStarted reason
  | none => .ended (launcher.reply p.path (p.callArguments instancePath modelPath))

def solve (p : Program) (launcher : Launcher) (store : Store) (instancePath modelPath : String) :
    Except Stop Answer :=
  match p.modelFault with
  | some fault => .error (.fault fault)
  | none => p.answer (p.start launcher store instancePath modelPath)

/-- The arguments a program is started with, if it is. -/
def startedWith (p : Program) (launcher : Launcher) (store : Store)
    (instancePath modelPath : String) : Option (List String) :=
  if p.modelFault.isNone && (startFault launcher store p.path).isNone then
    some (p.callArguments instancePath modelPath)
  else none

end Program

namespace Solver

def solve (solver : Solver) (launcher : Launcher) (store : Store) (modelPath : String)
    (path : String) (file : Option ByteArray) : Except Stop Answer :=
  match solver with
  | .external program => program.solve launcher store path modelPath
  | .internal =>
    let file := match file with
      | some bytes => .ok bytes
      | none => .error ⟨"open", path, .missing⟩
    match searchFile file with
    | .ok answer => .ok answer
    | .error fault => .error (.fault fault)

/-- A solver as an oracle, which leaves the file as it is. -/
def oracle (solver : Solver) (launcher : Launcher) (store : Store) (modelPath : String) :
    Oracle Unit where
  solve _ path file := ((), file, solver.solve launcher store modelPath path file)

end Solver

end Clausify
