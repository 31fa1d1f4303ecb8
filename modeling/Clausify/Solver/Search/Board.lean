import Clausify.Solver.Search.Code

/-!
Clauses under a partial valuation, and what follows from it. A clause in which all literals but one
fail forces that one. To find such clauses quickly, each clause is watched at its first two
literals: it only has to be looked at when one of these fails, and then it either gets another
literal to be watched at, or forces its other watched literal, or is broken.
-/

namespace Clausify.Search

/-- What is known of a literal. -/
inductive Standing where
  | unknown
  | holds
  | fails
  deriving DecidableEq, Repr, Inhabited

/-- The clauses that are watched at a literal, each with another of its literals. -/
inductive Watches where
  | none
  | watch (index other : Nat) (rest : Watches)
  deriving Inhabited

/-- Puts watches back before others, the last one first. -/
def Watches.restore : Watches → Watches → Watches
  | none, ws => ws
  | watch index other rest, ws => restore rest (watch index other ws)

/-- Clauses under a partial valuation. -/
structure Board where
  clauses : Array (Array Nat)
  /-- The clauses that are watched at a literal. -/
  watches : Array Watches
  /-- What is known of the literals. -/
  standing : Array Standing
  /-- The level at which a variable got its value: the number of decisions before. -/
  levels : Array Nat
  /-- The clause that forced the value of a variable; for a decision there is none. -/
  reasons : Array (Option Nat)

namespace Board

/-- Watches a clause at its first two literals. -/
def watchClause (index : Nat) (c : Array Nat) (watches : Array Watches) : Array Watches :=
  if c.size < 2 then watches
  else
    (watches.modify (c.getD 0 0) (.watch index (c.getD 1 0))).modify (c.getD 1 0)
      (.watch index (c.getD 0 0))

/-- The board of clauses over `count` variables, without values. -/
def ofClauses (count : Nat) (clauses : Array (Array Nat)) : Board :=
  let (_, watches) := clauses.foldl (fun (k, watches) (c : Array Nat) =>
    (k + 1, watchClause k c watches)) (0, Array.replicate (2 * count) .none)
  { clauses, watches
    standing := Array.replicate (2 * count) .unknown
    levels := Array.replicate count 0
    reasons := Array.replicate count none }

@[inline]
def known (standing : Array Standing) (code : Nat) : Standing := standing.getD code .unknown

/-- Makes a literal hold at a level, forced by a clause or decided. -/
def assign (b : Board) (level code : Nat) (reason : Option Nat) : Board :=
  { b with
    standing := (b.standing.setIfInBounds code .holds).setIfInBounds (opposite code) .fails
    levels := b.levels.setIfInBounds (slot code) level
    reasons := b.reasons.setIfInBounds (slot code) reason }

/-- The clause that forced a literal. -/
def reason (b : Board) (code : Nat) : Option (Array Nat) :=
  (b.reasons.getD (slot code) none).map fun index => b.clauses.getD index #[]

/-- Takes back the value of the variable of a literal. -/
def release (b : Board) (code : Nat) : Board :=
  { b with
    standing := (b.standing.setIfInBounds code .unknown).setIfInBounds (opposite code) .unknown }

/-- What becomes of a clause when a literal at which it is watched fails. -/
inductive Finding where
  /-- The other watched literal holds. -/
  | satisfied
  /-- The literal at a place does not fail, and the clause can be watched there. -/
  | movable (place : Nat)
  /-- Only the other watched literal is left. -/
  | forced (code : Nat)
  | broken
  deriving DecidableEq, Repr

/-- The first place from `place` on at which a literal does not fail, among `n` places. -/
def findOpen (standing : Array Standing) (c : Array Nat) (place : Nat) : Nat → Option Nat
  | 0 => none
  | n + 1 =>
    match known standing (c.getD place 0) with
    | .fails => findOpen standing c (place + 1) n
    | _ => some place

/-- Looks at a clause when a literal at which it is watched fails. -/
def inspect (standing : Array Standing) (c : Array Nat) (failing : Nat) : Finding :=
  let other := if c.getD 0 0 = failing then c.getD 1 0 else c.getD 0 0
  match known standing other with
  | .holds => .satisfied
  | .fails =>
    match findOpen standing c 2 (c.size - 2) with
    | some place => .movable place
    | none => .broken
  | .unknown =>
    match findOpen standing c 2 (c.size - 2) with
    | some place => .movable place
    | none => .forced other

/-- Watches a clause at the literal at a place instead of a failing one. -/
def moveWatch (b : Board) (index other failing place : Nat) : Board :=
  let code := (b.clauses.getD index #[]).getD place 0
  { b with
    clauses := b.clauses.modify index fun c =>
      c.swapIfInBounds (if c.getD 0 0 = failing then 0 else 1) place
    watches := b.watches.modify code (.watch index other) }

/-- A propagation: the board, the literals that hold, newest first, those that were forced and not
yet followed up, newest first, and the clause that is broken, if there is one. -/
structure Progress where
  board : Board
  trail : List Nat
  fresh : List Nat := []
  broken : Option Nat := none

/-- Looks at the clauses watched at a failing literal; `kept` holds those before that stay watched
there. -/
def visit (level failing : Nat) (kept : Watches) (p : Progress) : Watches → Progress
  | .none =>
    { p with board := { p.board with watches := p.board.watches.setIfInBounds failing kept } }
  | .watch index other rest =>
    match known p.board.standing other with
    | .holds => visit level failing (.watch index other kept) p rest
    | _ =>
      match inspect p.board.standing (p.board.clauses.getD index #[]) failing with
      | .satisfied => visit level failing (.watch index other kept) p rest
      | .movable place =>
        -- the watch moves to the list of another literal
        let board := p.board.moveWatch index other failing place
        visit level failing kept { p with board } rest
      | .forced code =>
        visit level failing (.watch index code kept)
          { p with
            board := p.board.assign level code (some index)
            trail := code :: p.trail
            fresh := code :: p.fresh } rest
      | .broken =>
        -- the watches that were not visited are put back
        { p with
          board := { p.board with
            watches := p.board.watches.setIfInBounds failing
              (kept.restore (.watch index other rest)) }
          broken := some index }

/-- Follows up literals that hold, the oldest first, and all that are forced. -/
def follow (level : Nat) : Nat → List Nat → Progress → Progress
  | 0, _, p => p
  | fuel + 1, pending, p =>
    match pending with
    | [] =>
      if p.fresh.isEmpty then p
      else follow level fuel p.fresh.reverse { p with fresh := [] }
    | code :: rest =>
      let failing := opposite code
      let watched := p.board.watches.getD failing .none
      let p := visit level failing .none
        { p with board := { p.board with watches := p.board.watches.setIfInBounds failing .none } }
        watched
      if p.broken.isSome then p else follow level fuel rest p

/-- Follows up literals that hold until nothing more is forced or a clause is broken. -/
def propagate (b : Board) (level : Nat) (trail : List Nat) (pending : List Nat) : Progress :=
  follow level (2 * b.levels.size + 2) pending { board := b, trail }

/-- Adds a clause, which is watched at its first two literals. -/
def add (b : Board) (c : Array Nat) : Board :=
  let index := b.clauses.size
  { b with
    clauses := b.clauses.push c
    watches := watchClause index c b.watches }

end Board

end Clausify.Search
