import Clausify.Misuse
import Std.Data.HashSet

/-!
Clauses and formulas in memory. A clause is a list of literals read as their disjunction; before
a clause is kept, the constants are worked out of it: `never` is left out, and a clause with
`always` is true and dropped. A formula counts its variables and keeps clauses and comments in
the order they were added.
-/

namespace Clausify

abbrev Clause := List Literal

/-- A list of signed variables that hold together, as solvers report them. -/
abbrev Solution := List Word

/-- What a solver finds: nothing, or literals that hold together. -/
abbrev Answer := Option Solution

namespace Clause

/-- Works the constants out of a clause, from left to right: nothing remains of a clause with
`always`, and a null literal met before is a misuse. -/
def reduce : Clause → Except Misuse (Option Clause)
  | [] => .ok (some [])
  | l :: rest =>
    if l = Literal.always then .ok none
    else if l = Literal.never then reduce rest
    else if l.word = 0 then .error .nullLiteral
    else (reduce rest).map (Option.map (l :: ·))

def holds (valuation : Nat → Bool) (c : Clause) : Bool := c.any (Literal.holds valuation)

/-- The literals of a clause, each followed by a blank, and the closing zero. -/
def line (c : Clause) : String :=
  String.join (c.map fun l => l.number ++ " ") ++ "0\n"

end Clause

/-- A conjunction of clauses over the variables `1` to `variables`. -/
structure Formula where
  variableCount : Nat := 0
  clauses : Array Clause := #[]
  comments : Array String := #[]
  deriving DecidableEq, Repr

namespace Formula

def empty : Formula := {}

def addVariable (f : Formula) : Formula := { f with variableCount := f.variableCount + 1 }

/-- Adds a clause, unless it is true. -/
def addClause (f : Formula) (c : Clause) : Except Misuse Formula :=
  match c.reduce with
  | .error misuse => .error misuse
  | .ok none => .ok f
  | .ok (some reduced) => .ok { f with clauses := f.clauses.push reduced }

def addComment (f : Formula) (comment : String) : Formula :=
  { f with comments := f.comments.push comment }

def holds (valuation : Nat → Bool) (f : Formula) : Bool := f.clauses.all (Clause.holds valuation)

/-- The literals of a solution as a set, unless some literal stands beside its negation. -/
def assigned (seen : Std.HashSet Int64) : Solution → Option (Std.HashSet Int64)
  | [] => some seen
  | w :: rest => if seen.contains (-w) then none else assigned (seen.insert w) rest

/-- Whether a solution is consistent and makes every clause true. -/
def satisfiedBy (f : Formula) (solution : Solution) : Bool :=
  match assigned ∅ solution with
  | none => false
  | some literals => f.clauses.all fun c => c.any fun l => literals.contains l.word

end Formula

end Clausify
