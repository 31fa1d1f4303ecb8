import Clausify.Clause.Formula
import Clausify.Fault

/-!
What clauses are written to. A writer counts variables and takes clauses and comments; writing may
end early, and the writer as it was left is part of the outcome. A formula in memory is a writer
that only refuses null literals.
-/

namespace Clausify

/-- A computation on a state that may end early, keeping the state it has reached. -/
abbrev Run (σ α : Type) := EStateM Stop σ α

/-- What clauses are written to. -/
class ClauseWriter (W : Type) where
  /-- The number of allocated variables. -/
  variableCount : W → Nat
  /-- Allocates the next variable. -/
  addVariable : W → W
  /-- Writes a clause, the truth constants worked out of it. -/
  addClause : Clause → Run W Unit
  /-- Writes a comment. -/
  addComment : String → Run W Unit

namespace Formula

/-- Adds a clause as a step of a run, unless it is true. -/
def writeClause (c : Clause) : Run Formula Unit := fun f =>
  match f.addClause c with
  | .error misuse => .error (.misuse misuse) f
  | .ok extended => .ok () extended

/-- A clause that is taken is kept in its reduced form, or dropped when it is true. -/
theorem writeClause_eq_ok_iff {c : Clause} {f f' : Formula} :
    writeClause c f = .ok () f' ↔
      (c.reduce = .ok none ∧ f' = f) ∨
        ∃ r, c.reduce = .ok (some r) ∧ f' = { f with clauses := f.clauses.push r } := by
  unfold writeClause addClause
  cases c.reduce with
  | error misuse => simp
  | ok reduced => cases reduced <;> simp [eq_comm]

def writeComment (comment : String) : Run Formula Unit := fun f => .ok () (f.addComment comment)

instance : ClauseWriter Formula where
  variableCount := Formula.variableCount
  addVariable := Formula.addVariable
  addClause := writeClause
  addComment := writeComment

end Formula

end Clausify
