import Clausify.Encoding.Constraint

/-!
Problems: variables, constraints, preferences and an objective. A problem refers to the catalog of
its variables; the reference may be left out, and it may lead nowhere. Before a problem is reduced
it is checked that everything it mentions is declared, and it is worked out which representations
each variable needs and which variables are mentioned at all.
-/

namespace Clausify

/-- How a problem refers to its catalog. -/
inductive CatalogRef where
  | missing
  | dangling
  | present (catalog : Catalog)
  deriving DecidableEq, Repr

namespace CatalogRef

def catalog? : CatalogRef → Option Catalog
  | present catalog => some catalog
  | _ => none

/-- The first of some names that is not declared. A name cannot be looked up where there is no
catalog. -/
def undeclared? (reference : CatalogRef) (names : List String) : Except Misuse (Option String) :=
  match reference with
  | present catalog => .ok (names.find? fun name => !catalog.isKnown name)
  | _ => if names.isEmpty then .ok none else .error .machineFault

/-- Fails unless all names that are mentioned at a place are declared. -/
def require (reference : CatalogRef) (place : Mention) (names : List String) : Except Stop Unit :=
  match reference.undeclared? names with
  | .error misuse => .error (.misuse misuse)
  | .ok (some name) => .error (.fault (.unknownVariable name place))
  | .ok none => .ok ()

end CatalogRef

/-- Everything a reduction reads. -/
structure Problem where
  reference : CatalogRef
  constraints : List Constraint := []
  preferences : List Preference := []
  objective : Option Objective := none

namespace Problem

def catalog (p : Problem) : Option Catalog := p.reference.catalog?

/-- The first problem with a constraint: it is invalid or mentions an undeclared variable. -/
def validateConstraint (reference : CatalogRef) (c : Constraint) : Except Stop Unit :=
  match c.validate with
  | .error fault => .error (.fault (.model fault))
  | .ok _ => reference.require (.constraint c.text) c.variableNames

/-- Whether constraints are valid and everything mentioned is declared. That the reference leads to
a catalog shows only when a name is looked up. -/
def validate (p : Problem) : Except Stop Unit :=
  if p.reference = .missing then .error (.fault .noCatalog)
  else do
    p.constraints.forM (validateConstraint p.reference)
    p.preferences.forM fun preference => p.reference.require .preference [preference.var]
    p.reference.require .objective (p.objective.map Objective.var).toList

/-- The representations wanted of variables, one entry for each mention. -/
def wants (p : Problem) : List (String × Representation) :=
  p.constraints.flatMap Constraint.needs ++
    p.preferences.map (fun preference => (preference.var, .directOnly)) ++
    (p.objective.map fun objective => (objective.var, .orderOnly)).toList

def needsOf (p : Problem) (name : String) : Representation :=
  p.wants.foldl (fun r want => if want.1 = name then r.union want.2 else r) {}

/-- Whether a constraint, a preference or the objective mentions a variable. -/
def mentions (p : Problem) (name : String) : Bool :=
  p.constraints.any (fun c => c.variableNames.contains name) ||
    p.preferences.any (fun preference => preference.var = name) ||
    p.objective.any (fun objective => objective.var = name)

/-- The first constraint that an assignment violates. -/
def violated? (p : Problem) (assignment : Assignment) : Except Misuse (Option Constraint) :=
  firstOf p.constraints
where
  /-- Checks constraints in order. -/
  firstOf : List Constraint → Except Misuse (Option Constraint)
    | [] => .ok none
    | c :: rest => do
      if ← c.check assignment then firstOf rest else .ok (some c)

end Problem

end Clausify
