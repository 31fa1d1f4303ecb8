import Clausify.Encoding.Step

/-!
The representation of a variable. Its shape follows from the size of the domain and the
representations that are needed: nothing to choose for no value or one, a single propositional
variable for two, and beyond that order literals, single-value literals or both, tied together
by channelling clauses.
-/

namespace Clausify

/-- The shape for a domain of some size under the needed representations. -/
def Shape.choose (settings : Settings) (size : UInt64) (needs : Representation) : Shape :=
  if size = 0 then .unsatisfiable
  else if size = 1 then .constant
  else if size = 2 then .boolean
  else if settings.forceBoth || needs.has .both then .hybrid
  else if needs.has .directOnly then .direct
  else .order

namespace Encoding

def clause (c : Clause) : Step := .emit (.clause c)

/-- Enters a single-value literal, with a comment when the mapping is to be shown. -/
def direct (settings : Settings) (name : String) (value : Word) (literal : Literal) : List Step :=
  Step.direct ⟨name, value⟩ literal ::
    if settings.outputMapping then
      [.comment (name ++ " = " ++ value.text ++ " is " ++ literal.text)]
    else []

/-- Enters an order literal, with a comment when the mapping is to be shown. -/
def order (settings : Settings) (name : String) (value : Word) (literal : Literal) : List Step :=
  Step.order ⟨name, value⟩ literal ::
    if settings.outputMapping then
      [.comment (name ++ " <= " ++ value.text ++ " is " ++ literal.text)]
    else []

/-- One value: a literal that must hold. -/
def constant (settings : Settings) (count : Nat) (name : String) (value : Word) : List Step :=
  let literal := Literal.ofVariable (count + 1)
  .emit .fresh :: direct settings name value literal ++ [clause [literal]]

/-- Two values: a literal for the upper one and its negation for the lower. A variable that no
constraint mentions is kept in the instance by a clause that is always true. -/
def boolean (settings : Settings) (count : Nat) (name : String) (lower upper : Word)
    (constrained : Bool) : List Step :=
  let literal := Literal.ofVariable (count + 1)
  .emit .fresh :: direct settings name upper literal ++ direct settings name lower (-literal) ++
    order settings name upper .always ++ order settings name lower (-literal) ++
    if constrained then [] else [clause [literal, -literal]]

/-- The values after the first: an order literal and a single-value literal each, tied to the
order literal `previous` of the value before, and for the last value no more than the negation of
`previous`. Also gives the single-value literals. -/
def channelFrom (settings : Settings) (name : String) :
    Nat → Literal → List Word → List Step × List Literal
  | _, _, [] => ([], [])
  | _, previous, [last] => (direct settings name last (-previous), [-previous])
  | count, previous, value :: rest =>
    let bound := Literal.ofVariable (count + 1)
    let single := Literal.ofVariable (count + 2)
    let (steps, singles) := channelFrom settings name (count + 2) bound rest
    (.emit .fresh :: order settings name value bound ++ clause [-previous, bound] ::
      .emit .fresh :: direct settings name value single ++
      clause [previous, -bound, single] :: clause [-single, bound] ::
      clause [-single, -previous] :: steps, single :: singles)

/-- Literals of both kinds; the order literal of the first value is also its single-value
literal. -/
def hybrid (settings : Settings) (count : Nat) (name : String) : List Word → List Step
  | [] => [clause []]
  | first :: rest =>
    let bound := Literal.ofVariable (count + 1)
    let (steps, singles) := channelFrom settings name (count + 1) bound rest
    .emit .fresh :: order settings name first bound ++ direct settings name first bound ++
      steps ++ [clause (bound :: singles)]

/-- Single-value literals, exactly one of which holds. -/
def directOnly (settings : Settings) (count : Nat) (name : String) (values : List Word) :
    List Step :=
  let literals := Emission.literalsFrom count values.length
  (values.zip literals).flatMap (fun (value, literal) =>
      .emit .fresh :: direct settings name value literal) ++
    (Cardinality.encode settings settings.scheme (count + values.length) true literals).steps

/-- The values after the first: an order literal each, implied by the order literal `previous` of
the value before; the last value is taken when `previous` does not hold. -/
def boundsFrom (settings : Settings) (name : String) : Nat → Literal → List Word → List Step
  | _, _, [] => []
  | _, previous, [last] => [.bound .maximum ⟨name, last⟩ (-previous)]
  | count, previous, value :: rest =>
    let bound := Literal.ofVariable (count + 1)
    .emit .fresh :: order settings name value bound ++ clause [-previous, bound] ::
      .bound .middle ⟨name, value⟩ bound :: boundsFrom settings name (count + 1) bound rest

def orderOnly (settings : Settings) (count : Nat) (name : String) : List Word → List Step
  | [] => []
  | first :: rest =>
    let bound := Literal.ofVariable (count + 1)
    .emit .fresh :: order settings name first bound ++
      .bound .minimum ⟨name, first⟩ bound :: boundsFrom settings name (count + 1) bound rest

def shapeSteps (settings : Settings) (count : Nat) (v : Variable) (constrained : Bool) :
    Shape → List Step
  | .unsatisfiable => [clause [.never]]
  | .constant =>
    match v.domain.bounds? with
    | some (value, _) => constant settings count v.name value
    | none => []
  | .boolean =>
    match v.domain.bounds? with
    | some (lower, upper) => boolean settings count v.name lower upper constrained
    | none => []
  | .hybrid => hybrid settings count v.name v.domain.values
  | .direct => directOnly settings count v.name v.domain.values
  | .order => orderOnly settings count v.name v.domain.values

def variableComment (v : Variable) (shape : Shape) : String :=
  "Encoding variable: " ++ v.name ++ " with domain: " ++ v.domain.text ++ " (" ++
    v.category.text ++ ", " ++ shape.text ++ " encoding)"

/-- All steps of a variable, `count` variables being allocated before. The shape is on record
from the first step on. -/
def variableSteps (settings : Settings) (count : Nat) (v : Variable) (shape : Shape)
    (constrained : Bool) : List Step :=
  .shape v.name shape ::
    .note ⟨.debug, "encoding.variable", [("variable", .text v.name),
      ("domain", .text v.domain.text), ("shape", .text shape.text)]⟩ ::
    .comment (variableComment v shape) ::
    .domain v.name v.domain ::
    shapeSteps settings count v constrained shape

/-- Encodes a variable, unless its shape is on record. The shape is given even when the encoding
ends early. -/
def encodeVariable {W : Type} [ClauseWriter W] (settings : Settings) (v : Variable)
    (needs : Representation) (constrained : Bool) (e : Encoder W) :
    Shape × EStateM.Result Stop (Encoder W) Unit :=
  match e.shapes.lookup v.name with
  | some shape => (shape, .ok () e)
  | none =>
    let shape := Shape.choose settings v.domain.size (needs.union v.needs)
    (shape, Encoder.run (variableSteps settings e.variableCount v shape constrained) e)

end Encoding

end Clausify
