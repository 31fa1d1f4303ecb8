import Clausify.Document.Decode
import Clausify.Document.Read
import Clausify.Problem.Basic
import Clausify.Relation.Library

/-!
Problems as documents write them. A source keeps what is written: domains as pairs of bounds or as
values, names of categories, relations and strategies, and operands of any type. Building a
problem from a source checks all of it; the first thing that is wrong is reported.
-/

namespace Clausify

structure VariableSource where
  name : String := ""
  domain : List (List Word) := []
  values : List Word := []
  category : String := ""
  encoding : String := ""

structure ConstraintSource where
  name : String := ""
  relation : String := ""
  operands : List Document.Value := []
  offset : Word := 0
  value : Word := 0
  encoding : String := ""
  reify : String := ""
  topLevel : Option Bool := none

structure ObjectiveSource where
  minimise : String := ""
  maximise : String := ""

structure ProblemSource where
  declarations : List VariableSource := []
  constraints : List ConstraintSource := []
  preferences : List Preference := []
  objective : Option ObjectiveSource := none

/-! ## Decoding -/

namespace ProblemSource

open Document

def variableDecoder : Decoder VariableSource := Decoder.record fun path current entries =>
  let name := Decoder.field entries path "Name" (.text "string") current.name
  let domain := Decoder.field entries path "Domain" (.list (.list (.word "int64") 0) [])
    current.domain
  let values := Decoder.field entries path "Values" (.list (.word "int64") 0) current.values
  let category := Decoder.field entries path "Category" (.text "string") current.category
  let encoding := Decoder.field entries path "Encoding" (.text "string") current.encoding
  { value := ⟨name.value, domain.value, values.value, category.value, encoding.value⟩
    issues := name.issues ++ domain.issues ++ values.issues ++ category.issues ++
      encoding.issues ++
      Decoder.leftover entries path ["Name", "Domain", "Values", "Category", "Encoding"] }

def constraintDecoder : Decoder ConstraintSource := Decoder.record fun path current entries =>
  let name := Decoder.field entries path "Name" (.text "string") current.name
  let relation := Decoder.field entries path "Relation" (.text "string") current.relation
  let operands := Decoder.field entries path "Operands" (.list .any .null) current.operands
  let offset := Decoder.field entries path "Offset" (.word "int64") current.offset
  let value := Decoder.field entries path "Value" (.word "int64") current.value
  let encoding := Decoder.field entries path "Encoding" (.text "string") current.encoding
  let reify := Decoder.field entries path "Reify" (.text "string") current.reify
  let topLevel := Decoder.field entries path "TopLevel" (.optional .truth false)
    current.topLevel
  { value := ⟨name.value, relation.value, operands.value, offset.value, value.value,
      encoding.value, reify.value, topLevel.value⟩
    issues := name.issues ++ relation.issues ++ operands.issues ++ offset.issues ++
      value.issues ++ encoding.issues ++ reify.issues ++ topLevel.issues ++
      Decoder.leftover entries path ["Name", "Relation", "Operands", "Offset", "Value",
        "Encoding", "Reify", "TopLevel"] }

def preferenceDecoder : Decoder Preference := Decoder.record fun path current entries =>
  let var := Decoder.field entries path "Variable" (.text "string") current.var
  let value := Decoder.field entries path "Value" (.word "int64") current.value
  let weight := Decoder.field entries path "Weight" (.word "int64") current.weight
  { value := ⟨var.value, value.value, weight.value⟩
    issues := var.issues ++ value.issues ++ weight.issues ++
      Decoder.leftover entries path ["Variable", "Value", "Weight"] }

def objectiveDecoder : Decoder ObjectiveSource := Decoder.record fun path current entries =>
  let minimise := Decoder.field entries path "Minimise" (.text "string") current.minimise
  let maximise := Decoder.field entries path "Maximise" (.text "string") current.maximise
  { value := ⟨minimise.value, maximise.value⟩
    issues := minimise.issues ++ maximise.issues ++
      Decoder.leftover entries path ["Minimise", "Maximise"] }

def decode (entries : Entries) : Except DocumentFault ProblemSource :=
  let declarations := Decoder.field entries "" "Variables" (.list variableDecoder {}) []
  let constraints := Decoder.field entries "" "Constraints" (.list constraintDecoder {}) []
  let preferences := Decoder.field entries "" "Preferences"
    (.list preferenceDecoder ⟨"", 0, 0⟩) []
  let objective := Decoder.field entries "" "Objective" (.optional objectiveDecoder {}) none
  Decoded.finish
    { value := ⟨declarations.value, constraints.value, preferences.value, objective.value⟩
      issues := declarations.issues ++ constraints.issues ++ preferences.issues ++
        objective.issues ++
        Decoder.leftover entries "" ["Variables", "Constraints", "Preferences", "Objective"] }

end ProblemSource

/-! ## Building -/

def VariableSource.interval (name : String) : List Word → Except ModelFault Interval
  | [lower, upper] => .ok ⟨lower, upper⟩
  | bounds => .error (.malformedInterval name bounds)

def VariableSource.buildDomain (s : VariableSource) : Except ModelFault Domain :=
  if !s.domain.isEmpty && !s.values.isEmpty then .error (.domainAndValues s.name)
  else if !s.values.isEmpty then .ok (.ofValues s.values)
  else (s.domain.mapM (VariableSource.interval s.name)).map .ofIntervals

def VariableSource.build (s : VariableSource) : Except ModelFault Variable := do
  let domain ← s.buildDomain
  let category ← Category.parse s.category
  let needs ← Representation.parse s.encoding
  return { name := s.name, domain, category, needs }

/-- The operand a value stands for; a text that is a numeral is a constant too. -/
def Operand.ofValue : Document.Value → Except ModelFault Operand
  | .text s =>
    match Numeral.parseWord s with
    | .ok w => .ok (.const w)
    | .error _ => .ok (.ofName s)
  | .integer n => .ok (.const (Int64.ofInt n))
  | .natural n =>
    if n ≥ halfCount then .error (.constantRange n) else .ok (.const (Int64.ofNat n))
  | .real x =>
    match x.exactInteger? with
    | some n => .ok (.const (Int64.ofInt n))
    | none => .error (.fractionalConstant x.text)
  | v => .error (.badOperand v.shown v.typeText)

namespace ConstraintSource

/-- An operand that is a constant or a declared variable. -/
def operand (catalog : Catalog) (relation : String) (v : Document.Value) :
    Except ModelFault Operand := do
  let operand ← Operand.ofValue v
  match operand with
  | .var name =>
    if catalog.isKnown name then .ok operand else .error (.unknownOperand relation name)
  | .const _ => .ok operand

/-- Checks that the reifying variable is declared over truth values. -/
def checkReifier (catalog : Catalog) (s : ConstraintSource) : Except ModelFault Unit :=
  if s.reify = "" then .ok ()
  else
    match catalog.domain? s.reify with
    | none => .error (.unknownReifier s.relation s.reify)
    | some domain =>
      if domain.isBoolean then .ok ()
      else .error (.reifierDomain s.relation s.reify domain.text)

def build (catalog : Catalog) (s : ConstraintSource) : Except ModelFault (List Constraint) := do
  let operands ← s.operands.mapM (operand catalog s.relation)
  s.checkReifier catalog
  let strategy ← Strategy.parse s.encoding
  let constraints ← Library.build s.relation operands s.offset s.value
  if constraints.length > 1 && s.reify ≠ "" then throw (.notReifiable s.relation)
  return constraints.map fun c => { c with
    name := if s.name = "" then c.name else s.name
    reify := if s.reify = "" then none else some s.reify
    strategy
    topLevel := s.topLevel.getD true && s.reify = "" }

end ConstraintSource

def ObjectiveSource.build (catalog : Catalog) (s : ObjectiveSource) :
    Except ModelFault Objective := do
  let objective : Objective ←
    if s.minimise ≠ "" && s.maximise ≠ "" then .error .twofoldObjective
    else if s.minimise ≠ "" then .ok ⟨s.minimise, false⟩
    else if s.maximise ≠ "" then .ok ⟨s.maximise, true⟩
    else .error .emptyObjective
  if catalog.isKnown objective.var then .ok objective
  else .error (.unknownObjective objective.var)

namespace ProblemSource

def declare (catalog : Catalog) (s : VariableSource) : Except ModelFault Catalog := do
  catalog.add (← s.build)

def checkPreference (catalog : Catalog) (p : Preference) : Except ModelFault Unit :=
  if !catalog.isKnown p.var then .error (.unknownPreference p.var)
  else if p.weight ≤ 0 then .error (.preferenceWeight p.var)
  else .ok ()

def build (s : ProblemSource) : Except ModelFault Problem := do
  let catalog ← s.declarations.foldlM declare Catalog.empty
  let constraints ← s.constraints.mapM (ConstraintSource.build catalog)
  s.preferences.forM (checkPreference catalog)
  let objective ← s.objective.mapM (ObjectiveSource.build catalog)
  return { reference := .present catalog, constraints := constraints.flatten,
           preferences := s.preferences, objective }

def load (store : Store) (path : String) : Except ModelFault Problem :=
  match (do decode (← Document.read store path) : Except DocumentFault ProblemSource) with
  | .error fault => .error (.document fault)
  | .ok source => source.build

end ProblemSource

end Clausify
