import Clausify.Clause.Writer
import Clausify.Fault

/-!
A formula one of whose writes is refused. It shows what a computation leaves behind when writing
fails half-way: a refused write adds nothing, and the writes after it work again.
-/

namespace Clausify

/-- A formula whose write number `failAt` is refused; zero refuses none. -/
structure FailingFormula where
  formula : Formula
  failAt : Nat := 0
  writes : Nat := 0

namespace FailingFormula

/-- The fault of the refused write. -/
def injected : Fault := .reported "injected failure"

/-- Counts a write and passes it on, unless it is the one to refuse. -/
def write (action : Run Formula Unit) : Run FailingFormula Unit
  | ⟨formula, failAt, writes⟩ =>
    if failAt ≠ 0 && writes + 1 = failAt then
      .error (.fault injected) ⟨formula, failAt, writes + 1⟩
    else
      match action formula with
      | .ok _ next => .ok () ⟨next, failAt, writes + 1⟩
      | .error stop left => .error stop ⟨left, failAt, writes + 1⟩

instance : ClauseWriter FailingFormula where
  variableCount w := w.formula.variableCount
  addVariable w := { w with formula := w.formula.addVariable }
  addClause c := write (ClauseWriter.addClause c)
  addComment c := write (ClauseWriter.addComment c)

end FailingFormula

end Clausify
