import Clausify.Domain.Basic
import Clausify.Problem.Fault
import Clausify.Text.Case

/-!
Variables of a problem and the catalog that lists them. A variable has a name, a domain, a
category and the representations it asks for whatever the constraints need. A catalog keeps
variables in the order of declaration, under different non-empty names.
-/

namespace Clausify

/-- What a variable is for: auxiliary variables are not part of a printed solution. -/
inductive Category where
  | decision
  | auxiliary
  | other (tag : Int)
  deriving DecidableEq, Repr

namespace Category

def text : Category → String
  | decision => "decision"
  | auxiliary => "auxiliary"
  | other tag => "category(" ++ toString tag ++ ")"

def ofTag (tag : Int) : Category :=
  if tag = 0 then decision else if tag = 1 then auxiliary else other tag

/-- Reads a category; no name at all is a decision. -/
def parse (name : String) : Except ModelFault Category :=
  let folded := Text.lower name
  if folded = "" || folded = "decision" then .ok decision
  else if folded = "auxiliary" || folded = "aux" then .ok auxiliary
  else .error (.unknownCategory name)

end Category

/-- A set of ways to speak about a variable: literals for "equals a value" and literals for "is at
most a value". -/
structure Representation where
  direct : Bool := false
  order : Bool := false
  deriving DecidableEq, Repr

namespace Representation

def none : Representation := ⟨false, false⟩

def both : Representation := ⟨true, true⟩

def directOnly : Representation := ⟨true, false⟩

def orderOnly : Representation := ⟨false, true⟩

/-- All ways of either set. -/
def union (r s : Representation) : Representation := ⟨r.direct || s.direct, r.order || s.order⟩

/-- Whether every way of `s` is in `r`. -/
def has (r s : Representation) : Bool := (r.direct || !s.direct) && (r.order || !s.order)

def text : Representation → String
  | ⟨false, false⟩ => "none"
  | ⟨true, false⟩ => "direct"
  | ⟨false, true⟩ => "order"
  | ⟨true, true⟩ => "both"

/-- Reads a representation; no name at all is the empty set. -/
def parse (name : String) : Except ModelFault Representation :=
  let folded := Text.lower name
  if folded = "" then .ok none
  else if folded = "direct" then .ok directOnly
  else if folded = "order" then .ok orderOnly
  else if folded = "both" then .ok both
  else .error (.unknownRepresentation name)

end Representation

structure Variable where
  name : String
  domain : Domain
  category : Category := .decision
  needs : Representation := {}
  deriving DecidableEq, Repr

/-- The declared variables, in the order of declaration. -/
structure Catalog where
  declared : List Variable := []
  deriving DecidableEq, Repr

namespace Catalog

def empty : Catalog := {}

def find? (c : Catalog) (name : String) : Option Variable :=
  c.declared.find? fun v => v.name = name

def isKnown (c : Catalog) (name : String) : Bool := (c.find? name).isSome

def domain? (c : Catalog) (name : String) : Option Domain := (c.find? name).map Variable.domain

def names (c : Catalog) : List String := c.declared.map Variable.name

/-- Declares a variable under a new, non-empty name. -/
def add (c : Catalog) (v : Variable) : Except ModelFault Catalog :=
  if v.name = "" then .error .unnamedVariable
  else if c.isKnown v.name then .error (.duplicateVariable v.name)
  else .ok ⟨c.declared ++ [v]⟩

def ofVariables (vs : List Variable) : Except ModelFault Catalog :=
  vs.foldlM add empty

end Catalog

end Clausify
