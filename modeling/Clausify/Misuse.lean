import Clausify.Clause.Literal

/-!
Misuse: what happens when a caller breaks the contract of a function. A misuse is no answer to
report and repair but the end of the step that caused it; its message says which contract was
broken.
-/

namespace Clausify

/-- The counters and the length of an instance file at some moment. -/
structure Checkpoint where
  variableCount : Nat
  clauses : Nat
  offset : Nat
  deriving DecidableEq, Repr

namespace Checkpoint

/-- The moment before anything was written, the header region included. -/
def zero : Checkpoint := ⟨0, 0, 0⟩

def text (c : Checkpoint) : String :=
  "\x7bvariables:" ++ toString c.variableCount ++ " clauses:" ++ toString c.clauses ++
    " offset:" ++ toString c.offset ++ "\x7d"

end Checkpoint

/-- A broken contract. -/
inductive Misuse where
  | boundsOfEmptyDomain
  | unassignedVariable (name : String)
  | unknownKind (tag : Int)
  | nullLiteral
  | emptyContext
  | rollbackPast (target current : Checkpoint)
  | alreadyMapped (name : String)
  | notMapped (name : String)
  | directConflict (name : String) (value : Word) (previous next : Literal)
  | orderConflict (name : String) (value : Word) (previous next : Literal)
  | missingOrderLiteral (name : String) (value : Word)
  | groupSize
  | machineFault
  | endless
  | solverLiteral (fault : String)
  | badCount (fault : String)
  | strayKey (type : String)
  | collectionKey (type : String)
  deriving DecidableEq, Repr

namespace Misuse

def keyText (name : String) (value : Word) : String := name ++ "=" ++ value.text

/-- What is said of an operation that the machine cannot do. -/
def machineText : String := "runtime error"

/-- Whether the contract is that of a single operation of the machine. -/
def isMachineFault : Misuse → Bool
  | machineFault => true
  | strayKey _ => true
  | collectionKey _ => true
  | _ => false

def message : Misuse → String
  | boundsOfEmptyDomain => "bounds of an empty domain"
  | unassignedVariable name => "variable " ++ Text.quoted name ++ " is not assigned"
  | unknownKind tag => "unknown constraint kind " ++ toString tag
  | nullLiteral => "null literal in clause"
  | emptyContext => "context literal stack is empty"
  | rollbackPast target current =>
    "rollback past the current state: checkpoint " ++ target.text ++
      ", clauses " ++ toString current.clauses ++
      ", variables " ++ toString current.variableCount ++
      ", offset " ++ toString current.offset
  | alreadyMapped name => "variable " ++ Text.quoted name ++ " is already mapped"
  | notMapped name => "variable " ++ Text.quoted name ++ " is not mapped"
  | directConflict name value previous next =>
    "direct literal of " ++ keyText name value ++ " is already " ++ previous.text ++
      ", cannot map it to " ++ next.text
  | orderConflict name value previous next =>
    "order literal of " ++ keyText name value ++ " is already " ++ previous.text ++
      ", cannot map it to " ++ next.text
  | missingOrderLiteral name value =>
    "variable " ++ Text.quoted name ++ " has no order literal for " ++ value.text
  | groupSize => "Second parameter must be greater than 0"
  | machineFault => machineText
  | endless => "stack overflow"
  | solverLiteral fault => "invalid literal in solver output: " ++ fault
  | badCount fault => fault
  | strayKey type => "interface conversion: interface \x7b\x7d is " ++ type ++ ", not string"
  | collectionKey type => machineText ++ ": hash of unhashable type " ++ type ++ " [recovered]"

end Misuse

end Clausify
