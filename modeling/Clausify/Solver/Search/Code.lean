import Clausify.Clause.Formula
import Std.Data.HashMap

/-!
Formulas in the form in which they are searched. The variables that occur are numbered from zero,
so that tables by variable have no gaps. A literal is a code: twice the number of its variable,
and one more when it is negative. In a clause every code stands once, and clauses that hold in any
case are left out.
-/

namespace Clausify.Search

def opposite (code : Nat) : Nat := if code % 2 = 0 then code + 1 else code - 1

def slot (code : Nat) : Nat := code / 2

/-- The numbers of variables, and the variables by number. -/
structure Numbering where
  numbers : Std.HashMap Nat Nat := ∅
  known : Array Nat := #[]

namespace Numbering

/-- The number of a variable, which is new unless it was met before. -/
def number (n : Numbering) (var : Nat) : Nat × Numbering :=
  match n.numbers[var]? with
  | some k => (k, n)
  | none =>
    let k := n.known.size
    (k, { numbers := n.numbers.insert var k, known := n.known.push var })

def code (n : Numbering) (l : Literal) : Nat × Numbering :=
  let (k, n) := n.number l.var
  (if l.isPositive then 2 * k else 2 * k + 1, n)

/-- The codes of the literals of a clause, after those in `done`. -/
def codes (n : Numbering) (done : List Nat) : Clause → List Nat × Numbering
  | [] => (done, n)
  | l :: rest =>
    let (k, n) := n.code l
    codes n (k :: done) rest

end Numbering

/-- Codes in order, each of them once; nothing when two of them are opposite. -/
def distinct (done : List Nat) : List Nat → Option (List Nat)
  | [] => some done
  | [k] => some (k :: done)
  | a :: b :: rest =>
    if a = b then distinct done (b :: rest)
    else if opposite a = b then none
    else distinct (a :: done) (b :: rest)

/-- The clause of some codes, unless it holds in any case. -/
def clauseOf (codes : List Nat) : Option (Array Nat) :=
  (distinct [] (codes.mergeSort fun a b => decide (a ≤ b))).map List.toArray

/-- The numbering of the variables of clauses, and the clauses in codes. -/
def encode (clauses : Array Clause) : Numbering × Array (Array Nat) :=
  clauses.foldl (fun (numbering, encoded) c =>
    let (codes, numbering) := numbering.codes [] c
    match clauseOf codes with
    | some c => (numbering, encoded.push c)
    | none => (numbering, encoded)) ({}, #[])

end Clausify.Search
