import Clausify.Clause.Formula
import Clausify.Relation.Constraint
import Clausify.Table
import Std.Data.HashMap

/-!
The mapping between variables of a problem and literals. For each encoded variable it holds the
literals for "equals a value" and "is at most a value", and tables that turn a solution back into
values: single-value literals name their value, and a variable with order literals only takes the
least value whose literal holds.
-/

namespace Clausify

/-- A variable and a value. -/
structure Key where
  var : String
  value : Word
  deriving DecidableEq, Hashable, Repr

def Key.text (k : Key) : String := Misuse.keyText k.var k.value

/-- Which decoding table an order literal belongs to. -/
inductive OrderTable where
  | minimum
  | middle
  | maximum
  deriving DecidableEq, Repr

/-- The literals of the encoded variables. -/
structure Mapping where
  domains : Std.HashMap String Domain := ∅
  representations : Std.HashMap String Representation := ∅
  direct : Std.HashMap Key Literal := ∅
  order : Std.HashMap Key Literal := ∅
  /-- The value that a single-value literal stands for. -/
  decoding : Std.HashMap Literal Key := ∅
  minimum : Std.HashMap Literal Key := ∅
  middle : Std.HashMap Literal Key := ∅
  maximum : Std.HashMap Literal Key := ∅

namespace Mapping

def empty : Mapping := {}

def representation (m : Mapping) (name : String) : Representation :=
  m.representations[name]?.getD {}

def has (m : Mapping) (name : String) (r : Representation) : Bool := (m.representation name).has r

def isMapped (m : Mapping) (name : String) : Bool := m.domains.contains name

def represent (m : Mapping) (name : String) (r : Representation) : Mapping :=
  { m with
    representations := m.representations.insert name ((m.representations[name]?.getD {}).union r) }

/-- A change of the mapping that may be refused, and then changes nothing. -/
abbrev Change := Mapping → EStateM.Result Misuse Mapping Unit

/-- Enters a new variable. Domains without a choice answer from their bounds: an empty domain
every question, a single value every order question. -/
def setDomain (name : String) (domain : Domain) : Change := fun m =>
  if m.isMapped name then .error (.alreadyMapped name) m
  else
    let m := { m with domains := m.domains.insert name domain }
    if domain.size = 0 then
      .ok () { m with representations := m.representations.insert name .both }
    else if domain.size = 1 then
      .ok () { m with representations := m.representations.insert name .orderOnly }
    else .ok () m

/-- Whether a table has another literal under a key. -/
def conflict? (table : Std.HashMap Key Literal) (key : Key) (literal : Literal) : Option Literal :=
  table[key]?.filter (· ≠ literal)

/-- Enters the literal for "equals the value"; it may be entered again but not changed. A constant
decodes to nothing. -/
def setDirect (key : Key) (literal : Literal) : Change := fun m =>
  match conflict? m.direct key literal with
  | some previous => .error (.directConflict key.var key.value previous literal) m
  | none =>
    let m := { m with direct := m.direct.insert key literal }.represent key.var .directOnly
    if literal.isConstant then .ok () m
    else .ok () { m with decoding := m.decoding.insert literal key }

/-- Enters the literal for "is at most the value"; it may be entered again but not changed. -/
def setOrder (key : Key) (literal : Literal) : Change := fun m =>
  match conflict? m.order key literal with
  | some previous => .error (.orderConflict key.var key.value previous literal) m
  | none => .ok () ({ m with order := m.order.insert key literal }.represent key.var .orderOnly)

def setBound (table : OrderTable) (key : Key) (literal : Literal) : Change := fun m =>
  match table with
  | .minimum => .ok () { m with minimum := m.minimum.insert literal key }
  | .middle => .ok () { m with middle := m.middle.insert literal key }
  | .maximum => .ok () { m with maximum := m.maximum.insert literal key }

/-- The literal for "equals the value"; outside the domain it never holds. -/
def directLiteral (m : Mapping) (name : String) (value : Word) : Literal :=
  m.direct[(⟨name, value⟩ : Key)]?.getD .never

/-- The literal for "is at most the value". Below the domain it never holds, from its upper bound
on it always holds, and in a gap it is that of the value below the gap. -/
def orderLiteral (m : Mapping) (name : String) (value : Word) : Except Misuse Literal :=
  match m.order[(⟨name, value⟩ : Key)]? with
  | some literal => .ok literal
  | none =>
    match m.domains[name]? with
    | none => .error (.notMapped name)
    | some domain =>
      match domain.bounds? with
      | none => .ok .never
      | some (lower, upper) =>
        if value < lower then .ok .never
        else if upper ≤ value then .ok .always
        else
          let floor := (domain.floor? value).getD 0
          match m.order[(⟨name, floor⟩ : Key)]? with
          | some literal => .ok literal
          | none => .error (.missingOrderLiteral name floor)

/-- The variable and the value that a single-value literal stands for. -/
def lookup (m : Mapping) (literal : Literal) : Option Key := m.decoding[literal]?

/-- The keys of the literals of a table that hold in a solution. -/
def trueKeys (solution : Solution) (table : Std.HashMap Literal Key) : List Key :=
  solution.filterMap fun word => table[(⟨word⟩ : Literal)]?

/-- Lowers the value of a variable to that of a key. -/
def lowerTo (values : Assignment) (key : Key) : Assignment :=
  match values.lookup key.var with
  | some value => if key.value < value then Table.set key.var key.value values else values
  | none => Table.set key.var key.value values

/-- The values of the encoded variables in a solution. -/
def decode (m : Mapping) (solution : Solution) : Assignment :=
  let values := (trueKeys solution m.decoding).foldl
    (fun values key => Table.set key.var key.value values) []
  [m.minimum, m.middle, m.maximum].foldl
    (fun values table => (trueKeys solution table).foldl lowerTo values) values

end Mapping

end Clausify
