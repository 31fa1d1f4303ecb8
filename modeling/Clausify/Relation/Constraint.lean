import Clausify.Misuse
import Clausify.Problem.Variable

/-!
Constraints over operands. A constraint has a rule, which says when it is satisfied by the values
of its operands, and may be reified: then it holds when the reifying variable is `1` exactly if
the rule is satisfied. `Constraint.satisfied` evaluates the rule on values and `Constraint.check`
the whole constraint on an assignment; both are undefined, as a misuse, where values are missing.
-/

namespace Clausify

/-- What a constraint speaks about: a variable or a constant. -/
inductive Operand where
  | var (name : String)
  | const (value : Word)
  deriving DecidableEq, Repr

namespace Operand

/-- The variable of a name; the empty name stands for the constant zero. -/
def ofName (name : String) : Operand := if name = "" then const 0 else var name

def text : Operand → String
  | var name => name
  | const value => value.text

def name? : Operand → Option String
  | var name => some name
  | const _ => none

def isConstant : Operand → Bool
  | var _ => false
  | const _ => true

end Operand

/-- A predicate on the values of operands that reads the first `arity` of them. -/
structure Test where
  arity : Nat := 0
  holds : List Word → Bool

/-- When a constraint is satisfied. A relation or a function may be missing, and a rule may be
one that nothing is known about. -/
inductive Rule where
  /-- A test holds on the values of one to three operands. -/
  | relation (test : Option Test)
  /-- The third operand is the function of the first two. -/
  | functional (function : Option (Word → Word → Option Word))
  /-- The operand is at most the threshold. -/
  | atMost
  /-- The operand is at least the threshold. -/
  | atLeast
  /-- At most one operand is `1`. -/
  | atMostOne
  /-- Exactly one operand is `1`. -/
  | exactlyOne
  /-- Some operand is `1`. -/
  | disjunction
  | unknown (tag : Int)

def Rule.text : Rule → String
  | relation _ => "relation"
  | functional _ => "functional"
  | atMost => "atmost"
  | atLeast => "atleast"
  | atMostOne => "atmostone"
  | exactlyOne => "exactlyone"
  | disjunction => "or"
  | unknown tag => "kind(" ++ toString tag ++ ")"

inductive Strategy where
  | auto
  | direct
  | support
  deriving DecidableEq, Repr

namespace Strategy

def text : Strategy → String
  | auto => "auto"
  | direct => "direct"
  | support => "support"

/-- Reads a strategy; no name at all is `auto`. -/
def parse (name : String) : Except ModelFault Strategy :=
  let folded := Text.lower name
  if folded = "" || folded = "auto" then .ok auto
  else if folded = "direct" then .ok direct
  else if folded = "support" then .ok support
  else .error (.unknownStrategy name)

end Strategy

abbrev Assignment := List (String × Word)

structure Constraint where
  name : String := ""
  rule : Rule
  operands : List Operand
  /-- The bound of `atMost` and `atLeast`. -/
  threshold : Word := 0
  /-- The variable that is `1` exactly when the rule is satisfied. -/
  reify : Option String := none
  strategy : Strategy := .auto
  /-- Whether the constraint stands directly under the top-level conjunction. -/
  topLevel : Bool := false

namespace Constraint

def operandText (operands : List Operand) : String :=
  "(" ++ ", ".intercalate (operands.map Operand.text) ++ ")"

/-- The name of the constraint, or its rule and operands. -/
def text (c : Constraint) : String :=
  if c.name ≠ "" then c.name else c.rule.text ++ operandText c.operands

/-- The variables a constraint mentions, each once, the reifying one last. -/
def variableNames (c : Constraint) : List String :=
  (c.operands.filterMap Operand.name? ++ c.reify.toList).eraseDups

/-- Whether the rule is complete and has the right number of operands. -/
def validate (c : Constraint) : Except ModelFault Unit :=
  let count := c.operands.length
  match c.rule with
  | .relation none => .error (.missingTest c.text)
  | .relation (some _) =>
    if count < 1 || count > 3 then .error (.relationArity c.text count) else .ok ()
  | .functional none => .error (.missingFunction c.text)
  | .functional (some _) =>
    if count ≠ 3 then .error (.functionArity c.text count) else .ok ()
  | .atMost | .atLeast =>
    if count ≠ 1 then .error (.boundArity c.text count) else .ok ()
  | .atMostOne | .exactlyOne | .disjunction => .ok ()
  | .unknown tag => .error (.unknownRule tag)

def ones (values : List Word) : Nat := values.countP (· = 1)

/-- Whether the rule is satisfied by the values of the operands. -/
def satisfied (c : Constraint) (values : List Word) : Except Misuse Bool :=
  match c.rule, values with
  | .relation (some test), values =>
    if values.length < test.arity then .error .machineFault else .ok (test.holds values)
  | .relation none, _ => .error .machineFault
  | .functional (some function), x :: y :: rest =>
    match function x y, rest with
    | none, _ => .ok false
    | some result, z :: _ => .ok (result = z)
    | some _, [] => .error .machineFault
  | .functional _, _ => .error .machineFault
  | .atMost, x :: _ => .ok (x ≤ c.threshold)
  | .atMost, [] => .error .machineFault
  | .atLeast, x :: _ => .ok (c.threshold ≤ x)
  | .atLeast, [] => .error .machineFault
  | .atMostOne, values => .ok (ones values ≤ 1)
  | .exactlyOne, values => .ok (ones values = 1)
  | .disjunction, values => .ok (1 ≤ ones values)
  | .unknown tag, _ => .error (.unknownKind tag)

def valueOf (assignment : Assignment) : Operand → Except Misuse Word
  | .const value => .ok value
  | .var name =>
    match assignment.lookup name with
    | some value => .ok value
    | none => .error (.unassignedVariable name)

def check (c : Constraint) (assignment : Assignment) : Except Misuse Bool := do
  let values ← c.operands.mapM (valueOf assignment)
  let satisfied ← c.satisfied values
  match c.reify with
  | none => .ok satisfied
  | some name =>
    let value ← valueOf assignment (.var name)
    .ok (satisfied == (value = 1))

end Constraint

/-- A wish that a variable takes a value, with a weight. -/
structure Preference where
  var : String
  value : Word
  weight : Word
  deriving DecidableEq, Repr

/-- The wish for the smallest or the largest value of a variable. -/
structure Objective where
  var : String
  maximise : Bool := false
  deriving DecidableEq, Repr

end Clausify
