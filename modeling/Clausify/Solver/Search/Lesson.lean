import Clausify.Solver.Search.Board
import Clausify.Solver.Search.Guide

/-!
What is learnt from a broken clause. Its literals fail, some of them because other clauses forced
their opposites; resolving with these clauses gives further clauses that follow from the formula
and are broken too. This goes back along the trail up to the first clause with only one literal of
the last level, so that it would have forced the opposite of that literal at an earlier level.
-/

namespace Clausify.Search

/-- A clause that follows from the clauses of a board. Its first literal is the only one of the last
level, and its second one of the latest level among the others. -/
structure Lesson where
  clause : Array Nat
  /-- The level of the second literal, or zero if there is none. -/
  level : Nat

/-- A conflict that is being traced back. -/
structure Trace where
  guide : Guide
  /-- Whether the literal of a variable belongs to the clause so far. -/
  marks : Array Bool
  /-- The variables that were marked. -/
  touched : List Nat := []
  /-- The number of literals of the last level. -/
  current : Nat := 0
  /-- The literals of earlier levels. -/
  earlier : List Nat := []

namespace Trace

/-- Adds a literal that fails to the clause. What failed before any decision is left out. -/
def mark (levels : Array Nat) (level : Nat) (t : Trace) (code : Nat) : Trace :=
  let k := slot code
  let stage := levels.getD k 0
  if stage = 0 || t.marks.getD k false then t
  else
    let t := { t with
      guide := t.guide.bump k, marks := t.marks.setIfInBounds k true, touched := k :: t.touched }
    if stage = level then { t with current := t.current + 1 }
    else { t with earlier := code :: t.earlier }

/-- Adds the literals of a clause but for one. -/
def markClause (levels : Array Nat) (level : Nat) (except : Option Nat) (c : Array Nat)
    (t : Trace) : Trace :=
  c.foldl (fun t code => if except = some code then t else t.mark levels level code) t

/-- Goes back along the trail to the only literal of the last level that is left. -/
def back (b : Board) (level : Nat) : List Nat → Trace → Option Nat × Trace
  | [], t => (none, t)
  | code :: rest, t =>
    if t.marks.getD (slot code) false then
      match b.reason code with
      | some c =>
        if t.current ≤ 1 then (some code, t)
        else
          back b level rest
            (markClause b.levels level (some code) c { t with current := t.current - 1 })
      | none => (some code, t)
    else back b level rest t

/-- Whether a literal of an earlier level can be left out: its opposite was forced by a clause whose
other literals belong to the lesson. -/
def isImplied (b : Board) (marks : Array Bool) (code : Nat) : Bool :=
  match b.reason code with
  | none => false
  | some c => c.all fun other =>
    slot other = slot code || b.levels.getD (slot other) 0 = 0 || marks.getD (slot other) false

end Trace

/-- A code of the latest level among `best` and others. -/
def latest (levels : Array Nat) (best : Nat) : List Nat → Nat
  | [] => best
  | code :: rest =>
    let best := if levels.getD (slot best) 0 < levels.getD (slot code) 0 then code else best
    latest levels best rest

/-- The lesson of literals of earlier levels and one of the last level that holds. -/
def lessonOf (levels : Array Nat) (holding : Nat) : List Nat → Lesson
  | [] => ⟨#[opposite holding], 0⟩
  | code :: rest =>
    let second := latest levels code rest
    ⟨(opposite holding :: second :: (code :: rest).filter (· ≠ second)).toArray,
      levels.getD (slot second) 0⟩

end Clausify.Search
