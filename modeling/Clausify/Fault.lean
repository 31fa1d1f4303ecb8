import Clausify.Clause.Dimacs
import Clausify.Problem.Fault

/-!
Every failure the library reports, with its wording and its kind. A failure is reported and the
caller goes on; a broken contract is a `Misuse` and ends the step. `Stop` is either of the two.
-/

namespace Clausify

inductive SettingsFault where
  | restrictedFallback (scheme : String)
  | groupSize (size : Word)
  | partSize (size : Word)
  | topWeight (top : Word)
  | weightedOptimisation
  | document (fault : DocumentFault)
  deriving DecidableEq, Repr

def SettingsFault.detail : SettingsFault → String
  | restrictedFallback scheme =>
    "fallback scheme " ++ Text.quoted scheme ++
      " has the same restrictions as the scheme it replaces"
  | groupSize size => "bimander group size must be positive, got " ++ size.text
  | partSize size => "commander part size must be at least 2, got " ++ size.text
  | topWeight top => "top weight must be positive, got " ++ top.text
  | weightedOptimisation => "optimisation runs on plain CNF instances"
  | document fault => fault.message

inductive UnsupportedFault where
  | representation (constraint name wanted : String)
  | reified (rule : String)
  | noEncoding (rule : String)
  | objective (name : String)
  deriving DecidableEq, Repr

def UnsupportedFault.detail : UnsupportedFault → String
  | representation constraint name wanted =>
    constraint ++ " needs " ++ Text.quoted name ++ " to be encoded with " ++ wanted ++ " literals"
  | reified rule => rule ++ " cannot be reified"
  | noEncoding rule => rule
  | objective name => "objective " ++ Text.quoted name ++ " has no order literals"

/-- Where an undeclared variable is mentioned. -/
inductive Mention where
  | constraint (text : String)
  | preference
  | objective
  deriving DecidableEq, Repr

def Mention.text : Mention → String
  | constraint text => text
  | preference => "preference"
  | objective => "objective"

/-- What was being done to an instance file when the file system refused. -/
inductive FileStage where
  | create
  | truncate (path : String)
  | header (path : String)
  | reopen (path : String)
  deriving DecidableEq, Repr

def FileStage.text : FileStage → String
  | create => "cannot create output file"
  | truncate path => "cannot truncate " ++ path
  | header path => "cannot open " ++ path ++ " to write the header"
  | reopen path => "cannot reopen " ++ path

inductive SolverFault where
  | unknown (name : String) (known : List String)
  | temporaryFile (pattern : String)
  | start (name reason : String)
  | execution (name status output : String)
  | noModelLines (name : String)
  | noModelFile (fault : FileFault)
  | emptyModel (name : String)
  | statusLine (name line : String)
  | badLiteral (name field : String)
  | unterminatedModel (name : String)
  | unreadable (fault : FileFault)
  deriving DecidableEq, Repr

namespace SolverFault

/-- Whether a solver that reported success left no usable model. -/
def isMissingModel : SolverFault → Bool
  | noModelLines _ | emptyModel _ | statusLine _ _ | badLiteral _ _ | unterminatedModel _ => true
  | _ => false

/-- The model that was promised. -/
def missingModel : String := "solver reported satisfiable without a model"

def message : SolverFault → String
  | unknown name known =>
    "unknown solver " ++ Text.quoted name ++ ", allowed values are: " ++ ", ".intercalate known
  | temporaryFile pattern =>
    "failed to create temporary file: createtemp " ++ pattern ++ ": pattern contains path separator"
  | start name reason => "cannot start " ++ name ++ ": " ++ reason
  | execution name status output =>
    "an error occurred during " ++ name ++ " execution: " ++ status ++ " : " ++ output
  | noModelLines name => missingModel ++ ": " ++ name ++ " printed no model lines"
  | noModelFile fault => "failed to read output file: " ++ fault.message
  | emptyModel name => missingModel ++ ": " ++ name ++ ": empty model file"
  | statusLine name line =>
    missingModel ++ ": " ++ name ++ ": unexpected status line " ++ Text.quoted line
  | badLiteral name field =>
    missingModel ++ ": " ++ name ++ ": invalid literal " ++ Text.quoted field
  | unterminatedModel name => missingModel ++ ": " ++ name ++ ": model is not terminated by 0"
  | unreadable fault => fault.message

end SolverFault

/-- What was being encoded when a failure arose. -/
inductive Subject where
  | var (name : String)
  | constraint (text : String)
  | preference (name : String)
  | fallback
  deriving DecidableEq, Repr

def Subject.text : Subject → String
  | var name => "cannot encode variable " ++ Text.quoted name
  | constraint text => "cannot encode constraint " ++ text
  | preference name => "cannot encode preference on " ++ Text.quoted name
  | fallback => "fallback"

inductive Fault where
  | model (fault : ModelFault)
  | document (fault : DocumentFault)
  | unknownScheme (name : String)
  | schemeName (name : String) (known : List String)
  | settings (fault : SettingsFault)
  | noCatalog
  | unknownVariable (name : String) (place : Mention)
  | unsupported (fault : UnsupportedFault)
  | clauseLimit (limit : Nat)
  | notWeighted
  | closed
  | headerOverflow
  | dimacs (fault : Dimacs.Fault)
  | file (stage : FileStage) (fault : FileFault)
  | solver (fault : SolverFault)
  | reported (text : String)
  | during (subject : Subject) (fault : Fault)
  deriving DecidableEq, Repr

namespace Fault

def message : Fault → String
  | model fault => fault.message
  | document fault => fault.message
  | unknownScheme name => "unknown cardinality scheme " ++ Text.quoted name
  | schemeName name known =>
    "unknown cardinality scheme " ++ Text.quoted name ++ ", allowed values are: " ++
      ", ".intercalate known
  | settings fault => "invalid encoding configuration: " ++ fault.detail
  | noCatalog => "unknown variable: no variable catalog"
  | unknownVariable name place => "unknown variable " ++ Text.quoted name ++ " in " ++ place.text
  | unsupported fault => "unsupported constraint: " ++ fault.detail
  | clauseLimit limit => "clause limit exceeded: more than " ++ toString limit ++ " clauses"
  | notWeighted => "soft clauses require weighted mode"
  | closed => "clause sink is not open for writing"
  | headerOverflow => "header does not fit in the reserved region"
  | dimacs fault => fault.message
  | file stage fault => stage.text ++ ": " ++ fault.message
  | solver fault => fault.message
  | reported text => text
  | during subject fault => subject.text ++ ": " ++ fault.message

inductive Kind where
  | invalidModel
  | unknownScheme
  | invalidSettings
  | unknownVariable
  | unsupportedConstraint
  | clauseLimit
  | notWeighted
  | closed
  | headerOverflow
  | invalidDimacs
  | missingModel
  | other
  deriving DecidableEq, Repr

/-- The kind of a failure, whatever was being done when it arose. -/
def kind : Fault → Kind
  | model _ => .invalidModel
  | document _ => .other
  | unknownScheme _ => .unknownScheme
  | schemeName _ _ => .unknownScheme
  | settings _ => .invalidSettings
  | noCatalog => .unknownVariable
  | unknownVariable _ _ => .unknownVariable
  | unsupported _ => .unsupportedConstraint
  | clauseLimit _ => .clauseLimit
  | notWeighted => .notWeighted
  | closed => .closed
  | headerOverflow => .headerOverflow
  | dimacs .lineTooLong => .other
  | dimacs _ => .invalidDimacs
  | file _ _ => .other
  | solver fault => if fault.isMissingModel then .missingModel else .other
  | reported _ => .other
  | during _ fault => fault.kind

end Fault

/-- Why a computation ends early. -/
inductive Stop where
  | fault (fault : Fault)
  | misuse (misuse : Misuse)
  deriving DecidableEq, Repr

/-- The end that a failure leads to: a document may turn out to break a contract. -/
def Stop.ofFault : Fault → Stop
  | .model (.document (.misuse m)) => .misuse m
  | .settings (.document (.misuse m)) => .misuse m
  | .document (.misuse m) => .misuse m
  | f => .fault f

def Stop.message : Stop → String
  | fault f => f.message
  | misuse m => m.message

end Clausify
