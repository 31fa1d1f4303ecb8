import Clausify.Fault
import Clausify.Text.Case

/-!
The settings of a reduction: the at-most-one scheme and its replacement, the clause limit,
weights, and what is written beside the clauses. Settings are checked as a whole before use.
-/

namespace Clausify

/-- The ways to write "at most one of these literals". A name outside the list is kept and
refused when it is used. -/
inductive Scheme where
  | pairwise
  | ladder
  | product
  | bimander
  | commander
  | other (name : String)
  deriving DecidableEq, Repr

namespace Scheme

def text : Scheme → String
  | pairwise => "pairwise"
  | ladder => "ladder"
  | product => "product"
  | bimander => "bimander"
  | commander => "commander"
  | other name => name

def all : List Scheme := [pairwise, ladder, product, bimander, commander]

/-- The scheme of exactly this name. -/
def ofName (name : String) : Scheme := (all.find? fun s => s.text = name).getD (other name)

/-- Reads the name of a scheme in any case. -/
def parse (name : String) : Except Fault Scheme :=
  match all.find? fun s => s.text = Text.lower name with
  | some scheme => .ok scheme
  | none => .error (.schemeName name (all.map text))

/-- Whether a scheme may only be used for top-level constraints over plain truth values. -/
def isRestricted : Scheme → Bool
  | product | commander => true
  | _ => false

end Scheme

/-- How a problem is reduced to clauses. -/
structure Settings where
  /-- The largest number of clauses, or zero for no limit. -/
  clauseLimit : Nat := 0
  scheme : Scheme := .product
  /-- The scheme in place of a restricted one where that may not be used. -/
  fallback : Scheme := .pairwise
  /-- Whether hard clauses carry the top weight and preferences their own. -/
  weighted : Bool := false
  top : Word := 1000000000
  /-- Whether every variable of three or more values gets both kinds of literals. -/
  forceBoth : Bool := false
  /-- Whether auxiliary variables may be left undetermined by the others. -/
  auxNonFunctional : Bool := false
  bimanderGroupSize : Word := 2
  commanderPartSize : Word := 3
  /-- Whether the literal of every variable and value is written as a comment. -/
  outputMapping : Bool := false
  deriving DecidableEq, Repr

namespace Settings

def validate (s : Settings) : Except Fault Unit :=
  match Scheme.parse s.scheme.text, Scheme.parse s.fallback.text with
  | .error fault, _ => .error fault
  | .ok _, .error fault => .error (.during .fallback fault)
  | .ok _, .ok _ =>
    if s.fallback.isRestricted then .error (.settings (.restrictedFallback s.fallback.text))
    else if s.bimanderGroupSize < 1 then .error (.settings (.groupSize s.bimanderGroupSize))
    else if s.commanderPartSize < 2 then .error (.settings (.partSize s.commanderPartSize))
    else if s.weighted && s.top ≤ 0 then .error (.settings (.topWeight s.top))
    else .ok ()

/-- The scheme for a list of literals, which is eligible when it comes from a top-level constraint
over plain truth values. -/
def schemeFor (s : Settings) (eligible : Bool) : Scheme :=
  if s.scheme.isRestricted && !eligible then s.fallback else s.scheme

end Settings

end Clausify
