import Clausify.Misuse
import Clausify.Store.Basic

/-!
Why a problem is refused. Each cause keeps what its message shows; `ModelFault.message` is the one
place where the wording stands. Documents have faults of their own, which a model passes on.
-/

namespace Clausify

/-- Why a document gives no value. A key that is used where it cannot be is a broken contract. -/
inductive DocumentFault where
  | unreadable (path : String) (fault : FileFault)
  | unparsable (path : String)
  | undecodable (issues : List String)
  | misuse (misuse : Misuse)
  deriving DecidableEq, Repr

/-- What is wrong with a document that does not follow the grammar of its format. -/
def DocumentFault.malformed : String := "malformed document"

/-- The fault in words; the issues of a decoding stand on lines of their own. -/
def DocumentFault.message : DocumentFault → String
  | unreadable path fault => "cannot read " ++ path ++ ": " ++ fault.message
  | unparsable path => "cannot parse " ++ path ++ ": " ++ malformed
  | undecodable issues =>
    "cannot decode document: " ++ toString issues.length ++ " error(s) decoding:\n\n" ++
      "\n".intercalate (issues.map fun issue => "* " ++ issue)
  | misuse m => m.message

/-- Why a model is refused. Constraints and relations are kept as the text that shows them. -/
inductive ModelFault where
  | unknownCategory (name : String)
  | unknownRepresentation (name : String)
  | unknownStrategy (name : String)
  | unnamedVariable
  | duplicateVariable (name : String)
  | missingTest (constraint : String)
  | relationArity (constraint : String) (count : Nat)
  | missingFunction (constraint : String)
  | functionArity (constraint : String) (count : Nat)
  | boundArity (constraint : String) (count : Nat)
  | unknownRule (tag : Int)
  | operandCount (relation : String) (wanted : String) (count : Nat)
  | unknownRelation (name : String) (known : List String)
  | domainAndValues (name : String)
  | malformedInterval (name : String) (bounds : List Word)
  | unknownOperand (relation name : String)
  | unknownReifier (relation name : String)
  | reifierDomain (relation name domain : String)
  | notReifiable (relation : String)
  | unknownPreference (name : String)
  | preferenceWeight (name : String)
  | twofoldObjective
  | emptyObjective
  | unknownObjective (name : String)
  | constantRange (constant : Nat)
  | fractionalConstant (constant : String)
  | badOperand (operand type : String)
  | document (fault : DocumentFault)
  deriving DecidableEq, Repr

namespace ModelFault

def detail : ModelFault → String
  | unknownCategory name => "unknown category " ++ Text.quoted name
  | unknownRepresentation name => "unknown encoding " ++ Text.quoted name
  | unknownStrategy name => "unknown constraint encoding " ++ Text.quoted name
  | unnamedVariable => "variable without a name"
  | duplicateVariable name => "duplicate variable " ++ Text.quoted name
  | missingTest constraint => "relation " ++ constraint ++ " without a test"
  | relationArity constraint count =>
    "relation " ++ constraint ++ " has " ++ toString count ++ " operands"
  | missingFunction constraint => "functional constraint " ++ constraint ++ " without a function"
  | functionArity constraint count =>
    "functional constraint " ++ constraint ++ " has " ++ toString count ++ " operands"
  | boundArity constraint count =>
    "bound " ++ constraint ++ " has " ++ toString count ++ " operands"
  | unknownRule tag => "unknown constraint kind " ++ toString tag
  | operandCount relation wanted count =>
    relation ++ " expects " ++ wanted ++ ", got " ++ toString count
  | unknownRelation name known =>
    "unknown relation " ++ Text.quoted name ++ ", allowed values are: " ++ ", ".intercalate known
  | domainAndValues name => "variable " ++ Text.quoted name ++ " has both a domain and values"
  | malformedInterval name bounds =>
    "interval [" ++ " ".intercalate (bounds.map Word.text) ++ "] of variable " ++
      Text.quoted name ++ " is not a [lower, upper] pair"
  | unknownOperand relation name => relation ++ " refers to unknown variable " ++ Text.quoted name
  | unknownReifier relation name =>
    relation ++ " is reified by unknown variable " ++ Text.quoted name
  | reifierDomain relation name domain =>
    relation ++ " is reified by " ++ Text.quoted name ++ " whose domain " ++ domain ++
      " is not \x7b0,1\x7d"
  | notReifiable relation => relation ++ " cannot be reified"
  | unknownPreference name => "preference on unknown variable " ++ Text.quoted name
  | preferenceWeight name => "preference on " ++ Text.quoted name ++ " must have a positive weight"
  | twofoldObjective => "objective cannot both minimise and maximise"
  | emptyObjective => "objective without a variable"
  | unknownObjective name => "objective on unknown variable " ++ Text.quoted name
  | constantRange constant => "constant " ++ toString constant ++ " out of range"
  | fractionalConstant constant => "constant " ++ constant ++ " is not an integer"
  | badOperand operand type =>
    "operand " ++ operand ++ " of type " ++ type ++ " is neither a variable nor an integer"
  | document fault => fault.message

def message (f : ModelFault) : String := "invalid model: " ++ f.detail

end ModelFault

end Clausify
