import Clausify.Relation.Arithmetic
import Clausify.Relation.Constraint

/-!
The library of named relations. A comparison reads `x op y + offset`, or `x op offset` with a
single operand, where the sum wraps; a function reads `z = f(x, y)`; a bound compares the operand
with a value; the cardinalities count operands that are `1`; and `alldiff` is one disequality for
each pair of operands.
-/

namespace Clausify.Library

def comparisons : List (String × (Word → Word → Bool)) := [
  ("eq", fun x y => x = y),
  ("ge", fun x y => y ≤ x),
  ("gt", fun x y => y < x),
  ("le", fun x y => x ≤ y),
  ("lt", fun x y => x < y),
  ("ne", fun x y => x ≠ y)]

def functions : List (String × (Word → Word → Option Word)) := [
  ("absdiff", Arithmetic.absDiff),
  ("div", Arithmetic.floorDiv),
  ("max", fun x y => some (max x y)),
  ("min", fun x y => some (min x y)),
  ("minus", Arithmetic.minus),
  ("mod", Arithmetic.floorMod),
  ("plus", Arithmetic.plus),
  ("times", Arithmetic.times)]

def cardinalities : List (String × Rule) := [
  ("atmostone", .atMostOne),
  ("exactlyone", .exactlyOne),
  ("or", .disjunction)]

def bounds : List (String × Rule) := [
  ("atleast", .atLeast),
  ("atmost", .atMost)]

def names : List String :=
  (comparisons.map Prod.fst ++ functions.map Prod.fst ++ cardinalities.map Prod.fst ++
    bounds.map Prod.fst ++ ["alldiff"]).mergeSort fun a b => decide (a ≤ b)

def unaryTest (compare : Word → Word → Bool) (offset : Word) : Test where
  arity := 1
  holds
    | x :: _ => compare x offset
    | _ => false

def binaryTest (compare : Word → Word → Bool) (offset : Word) : Test where
  arity := 2
  holds
    | x :: y :: _ => compare x (y + offset)
    | _ => false

/-- The relation and its operands, with the offset when there is one. -/
def label (relation : String) (operands : List Operand) (offset : Word) : String :=
  relation ++ Constraint.operandText operands ++ if offset = 0 then "" else offset.signedText

/-- The disequality of two operands. -/
def different (x y : Operand) : Constraint where
  name := label "ne" [x, y] 0
  rule := .relation (some (binaryTest (fun x y => x ≠ y) 0))
  operands := [x, y]

/-- One disequality for each pair of operands, by the position of the first. -/
def allDifferent : List Operand → List Constraint
  | [] => []
  | x :: rest => rest.map (different x) ++ allDifferent rest

def comparison (relation : String) (compare : Word → Word → Bool) (operands : List Operand)
    (offset : Word) : Except ModelFault (List Constraint) :=
  let name := label relation operands offset
  match operands with
  | [_] => .ok [{ name, rule := .relation (some (unaryTest compare offset)), operands }]
  | [_, _] => .ok [{ name, rule := .relation (some (binaryTest compare offset)), operands }]
  | _ => .error (.operandCount relation "one or two operands" operands.length)

/-- The constraints of a named relation, the name in any case. -/
def build (relation : String) (operands : List Operand) (offset value : Word) :
    Except ModelFault (List Constraint) :=
  let relation := Text.lower relation
  let name := label relation operands offset
  match comparisons.lookup relation with
  | some compare => comparison relation compare operands offset
  | none =>
  match functions.lookup relation with
  | some function =>
    if operands.length ≠ 3 then
      .error (.operandCount relation "three operands" operands.length)
    else .ok [{ name, rule := .functional (some function), operands }]
  | none =>
  match bounds.lookup relation with
  | some rule =>
    if operands.length ≠ 1 then .error (.operandCount relation "one operand" operands.length)
    else .ok [{ name := name ++ " " ++ value.text, rule, operands, threshold := value }]
  | none =>
  match cardinalities.lookup relation with
  | some rule => .ok [{ name, rule, operands }]
  | none =>
    if relation = "alldiff" then .ok (allDifferent operands)
    else .error (.unknownRelation relation names)

end Clausify.Library
