import Clausify.Encoding.Variable

/-!
The clauses of a constraint over encoded variables. A reified constraint is made equivalent to its
variable being `1`; an unreified one is encoded as if that literal always held. Relations are
written by supports, where each value asks for a partner, or by conflicts, one clause for each
combination of values; functions force the result for each pair of arguments; bounds read one
order literal; and the counting rules go through a cardinality scheme.
-/

namespace Clausify

/-- The representations that the encoding of a constraint reads, by variable. -/
def Constraint.needs (c : Constraint) : Table String Representation :=
  let wanted : Representation :=
    match c.rule with
    | .atMost | .atLeast => .orderOnly
    | _ => .directOnly
  let add (table : Table String Representation) (name : String) (r : Representation) :=
    Table.set name (((table.lookup name).getD {}).union r) table
  let operands := (c.operands.filterMap Operand.name?).foldl
    (fun table name => add table name wanted) []
  match c.reify with
  | none => operands
  | some name => add operands name .directOnly

def Representation.literalText (r : Representation) : String :=
  if r = .directOnly then "direct" else if r = .orderOnly then "order" else "direct and order"

namespace Encoding

/-- The first variable of a constraint that is not declared. -/
def undeclared? (catalog : Catalog) (c : Constraint) : Option String :=
  c.variableNames.find? fun name => !catalog.isKnown name

/-- Whether a constraint can be encoded: it is valid, its variables are declared, and they have
the literals it reads. -/
def checkConstraint (catalog : Catalog) (mapping : Mapping) (c : Constraint) :
    Except Fault Unit :=
  match c.validate with
  | .error fault => .error (.model fault)
  | .ok _ =>
    match undeclared? catalog c with
    | some name => .error (.unknownVariable name (.constraint c.text))
    | none =>
      match c.needs.find? fun (name, r) => !mapping.has name r with
      | some (name, r) => .error (.unsupported (.representation c.text name r.literalText))
      | none => .ok ()

def directOf (mapping : Mapping) (value : Word) : Operand → Literal
  | .const c => if c = value then .always else .never
  | .var name => mapping.directLiteral name value

/-- The literal for "the operand is at most the value". -/
def orderOf (mapping : Mapping) (value : Word) : Operand → Except Misuse Literal
  | .const c => .ok (if c ≤ value then .always else .never)
  | .var name => mapping.orderLiteral name value

/-- A value an operand can take, with its literal. -/
abbrev Term := Word × Literal

/-- The values an operand can take. -/
def terms (catalog : Catalog) (mapping : Mapping) (operand : Operand) : List Term :=
  let values :=
    match operand with
    | .const c => [c]
    | .var name => ((catalog.domain? name).map Domain.values).getD []
  values.map fun value => (value, directOf mapping value operand)

/-- One clause for each combination of values: it implies the literal `aux` where the test holds,
and its negation elsewhere. `values` and `literals` belong to the operands before, last first. -/
def conflictsFrom (test : List Word → Bool) (aux : Literal) (values : List Word)
    (literals : List Literal) : List (List Term) → List Clause
  | [] => [(((if test values.reverse then aux else -aux) :: literals).reverse)]
  | terms :: rest =>
    terms.flatMap fun (value, literal) =>
      conflictsFrom test aux (value :: values) (-literal :: literals) rest

/-- One clause for each combination of values. -/
def conflicts (test : List Word → Bool) (aux : Literal) (operands : List (List Term)) :
    List Clause :=
  conflictsFrom test aux [] [] operands

/-- For each value of the first operand, one of its supports in the second when `aux` holds, and
one of the other values when it does not. -/
def supportSide (test : Word → Word → Bool) (aux : Literal) (xs ys : List Term) : List Clause :=
  xs.flatMap fun (i, literal) =>
    [-aux :: -literal :: (ys.filter fun (j, _) => test i j).map Prod.snd,
      aux :: -literal :: (ys.filter fun (j, _) => !test i j).map Prod.snd]

/-- Supports in both directions. -/
def supports (test : Word → Word → Bool) (aux : Literal) (xs ys : List Term) : List Clause :=
  supportSide test aux xs ys ++ supportSide (fun j i => test i j) aux ys xs

/-- For each pair of arguments, the result; a pair without a result is forbidden. -/
def results (function : Word → Word → Option Word) (result : Word → Literal) (xs ys : List Term) :
    List Clause :=
  xs.flatMap fun (i, x) => ys.map fun (j, y) =>
    [-x, -y, ((function i j).map result).getD .never]

def equivalent (aux literal : Literal) : List Clause := [[-aux, literal], [aux, -literal]]

/-- The literal `aux` holds exactly when one of the literals does. -/
def disjunction (aux : Literal) (literals : List Literal) : List Clause :=
  (-aux :: literals) :: literals.map fun literal => [-literal, aux]

/-- Whether a constraint stands under the top-level conjunction and counts plain truth values. -/
def isEligible (catalog : Catalog) (c : Constraint) : Bool :=
  c.topLevel && c.reify.isNone && c.operands.all fun
    | .const _ => false
    | .var name => ((catalog.domain? name).map Domain.isBoolean).getD false

def clausePlan (clauses : List Clause) : Plan := { emissions := Emission.clauses clauses }

/-- The plan of an equivalence with a literal that may be missing. -/
def equivalentPlan (aux : Literal) : Except Misuse Literal → Plan
  | .ok literal => clausePlan (equivalent aux literal)
  | .error misuse => { emissions := [], stop := some (.misuse misuse) }

/-- The clauses of a relation: by supports where two operands vary, or where a third is constant,
and otherwise by conflicts. -/
def relationClauses (catalog : Catalog) (mapping : Mapping) (c : Constraint)
    (test : List Word → Bool) (aux : Literal) : List Clause :=
  let terms := terms catalog mapping
  match c.operands, c.strategy, c.reify with
  | _, .direct, _ => conflicts test aux (c.operands.map terms)
  | [.var x, .var y], _, _ =>
    supports (fun i j => test [i, j]) aux (terms (.var x)) (terms (.var y))
  | [x, y, .const third], _, none =>
    supports (fun i j => test [i, j, third]) aux (terms x) (terms y)
  | _, _, _ => conflicts test aux (c.operands.map terms)

/-- Whether a test is asked for values that the operands do not have: it reads more of them than
there are operands, and every operand can take a value. -/
def isStarved (catalog : Catalog) (mapping : Mapping) (test : Test) (operands : List Operand) :
    Bool :=
  operands.length < test.arity && operands.all fun o => !(terms catalog mapping o).isEmpty

/-- The plan of a relation; a starved test breaks before anything is written. -/
def relationPlan (catalog : Catalog) (mapping : Mapping) (c : Constraint) (test : Test)
    (aux : Literal) : Plan :=
  if isStarved catalog mapping test c.operands then
    { emissions := [], stop := some (.misuse .machineFault) }
  else clausePlan (relationClauses catalog mapping c test.holds aux)

/-- Whether three values are two arguments and their result. -/
def isResult (function : Word → Word → Option Word) : List Word → Bool
  | x :: y :: z :: _ => function x y = some z
  | _ => false

/-- The clauses of a function: by conflicts when reified, by supports for a constant result, and
otherwise by results. -/
def functionClauses (catalog : Catalog) (mapping : Mapping) (c : Constraint)
    (function : Word → Word → Option Word) (aux : Literal) : List Clause :=
  let terms := terms catalog mapping
  match c.operands, c.reify with
  | [x, y, .const third], none =>
    supports (fun i j => isResult function [i, j, third]) aux (terms x) (terms y)
  | [x, y, .var z], none =>
    results function (fun k => mapping.directLiteral z k) (terms x) (terms y)
  | operands, _ => conflicts (isResult function) aux (operands.map terms)

/-- The plan of a constraint that passed its checks, `count` variables being allocated before. -/
def constraintPlan (settings : Settings) (catalog : Catalog) (mapping : Mapping) (count : Nat)
    (c : Constraint) : Plan :=
  let aux := (c.reify.map fun name => mapping.directLiteral name 1).getD .always
  let ones := c.operands.map (directOf mapping 1)
  match c.rule, c.operands with
  | .relation (some test), _ => relationPlan catalog mapping c test aux
  | .functional (some function), _ => clausePlan (functionClauses catalog mapping c function aux)
  | .atMost, operand :: _ => equivalentPlan aux (orderOf mapping c.threshold operand)
  | .atLeast, operand :: _ =>
    if c.threshold = Word.least then clausePlan (equivalent aux .always)
    else equivalentPlan aux ((orderOf mapping (c.threshold - 1) operand).map Literal.negate)
  | .atMostOne, _ | .exactlyOne, _ =>
    if c.reify.isSome then
      { emissions := [], stop := some (.fault (.unsupported (.reified c.rule.text))) }
    else
      let exactlyOne := match c.rule with
        | .exactlyOne => true
        | _ => false
      Cardinality.encode settings (settings.schemeFor (isEligible catalog c)) count exactlyOne ones
  | .disjunction, _ => clausePlan (disjunction aux ones)
  | _, _ => { emissions := [], stop := some (.fault (.unsupported (.noEncoding c.rule.text))) }

def constraintSteps (settings : Settings) (catalog : Catalog) (mapping : Mapping) (count : Nat)
    (c : Constraint) : List Step :=
  match checkConstraint catalog mapping c with
  | .error fault => [.stop (.fault fault)]
  | .ok _ =>
    .note ⟨.debug, "encoding.constraint", [("constraint", .text c.text),
      ("kind", .text c.rule.text), ("reified", .truth c.reify.isSome)]⟩ ::
      (constraintPlan settings catalog mapping count c).steps

def encodeConstraint {W : Type} [ClauseWriter W] (settings : Settings) (catalog : Catalog)
    (c : Constraint) : Run (Encoder W) Unit := fun e =>
  Encoder.run (constraintSteps settings catalog e.mapping e.variableCount c) e

end Encoding

end Clausify
