import Clausify.Solver.Search.Lesson

/-!
Search for a solution of a formula. Literals are decided one after the other, and after each
decision everything that is forced is followed up. When a clause is broken, a lesson is learnt from
it: a clause that follows from the formula and forces a literal at an earlier level, where the
search goes on. A clause that is broken before any decision shows that there is no solution. From
time to time the search starts again with what it has learnt, in ever longer rounds and at last
in one without a limit.
-/

namespace Clausify.Search

structure Machine where
  board : Board
  guide : Guide
  /-- A mark for each variable, none of them set between conflicts. -/
  marks : Array Bool
  /-- How many more lessons may be learnt in this round, if there is a limit. -/
  budget : Option Nat := none

inductive Outcome where
  | found (standing : Array Standing)
  | refuted
  | paused (machine : Machine)

namespace Machine

def learn (m : Machine) (level : Nat) (trail : List Nat) (broken : Nat) : Lesson × Machine :=
  let start := Trace.markClause m.board.levels level none (m.board.clauses.getD broken #[])
    { guide := m.guide, marks := m.marks }
  let (holding, t) := Trace.back m.board level trail start
  let lesson := match holding with
    | some code =>
      lessonOf m.board.levels code
        (t.earlier.filter fun code => !Trace.isImplied m.board t.marks code)
    | none => ⟨#[], 0⟩
  (lesson, { m with
    board := m.board.add lesson.clause
    guide := t.guide.age
    marks := t.touched.foldl (fun marks k => marks.setIfInBounds k false) t.marks
    budget := m.budget.map (· - 1) })

/-- Takes back the values of later levels. -/
def retreat (level : Nat) : List Nat → Machine → List Nat × Machine
  | [], m => ([], m)
  | code :: rest, m =>
    if m.board.levels.getD (slot code) 0 ≤ level then (code :: rest, m)
    else retreat level rest { m with
      board := m.board.release code, guide := m.guide.release code }

/-- A literal to decide, if some variable has no value. -/
def choose (m : Machine) : Option Nat × Machine :=
  let standing := m.board.standing
  let (k, guide) := m.guide.next (fun k => Board.known standing (2 * k) = .unknown)
    (m.guide.waiting + 1)
  let code := match k with
    | some k => some (guide.literal k)
    | none => standing.findIdx? (· = .unknown)
  (code, { m with guide })

end Machine

/-! ## Rounds -/

/-- How many ends a search has at most that can still give values to `n` variables, and more. -/
def branches : Nat → Nat
  | 0 => 1
  | n + 1 => 4 * branches n

/-- How much is left to do behind decisions. -/
def remaining (rooms : List Nat) : Nat := rooms.foldr (fun room n => 2 * branches room + n) 0

theorem branches_pos (n : Nat) : 0 < branches n := by
  induction n with
  | zero => decide
  | succ n ih => simp only [branches]; omega

theorem remaining_drop_le (rooms : List Nat) (k : Nat) :
    remaining (rooms.drop k) ≤ remaining rooms := by
  induction rooms generalizing k with
  | nil => simp
  | cons room rooms ih =>
    cases k with
    | zero => simp
    | succ k =>
      have := ih k
      simp only [List.drop_succ_cons, remaining, List.foldr_cons] at this ⊢
      omega

/-- Searches on from literals that hold and were not yet followed up. There is `room` for so many
further values at this level, and for those of `outer` at the levels before, the last one first. -/
def run (outer : List Nat) (room level : Nat) (trail pending : List Nat)
    (m : Machine) : Outcome :=
  let budget := m.budget
  let guide := m.guide
  let marks := m.marks
  let p := m.board.propagate level trail pending
  let m : Machine := { board := p.board, guide, marks, budget }
  match p.broken with
  | some broken =>
    if level = 0 then .refuted
    else
      -- the lesson forces one literal on an earlier level, to which the search goes back
      let (lesson, m) := m.learn level p.trail broken
      let (trail, m) := m.retreat lesson.level p.trail
      if m.budget = some 0 then .paused m
      else
        match h : outer.drop (level - 1 - lesson.level) with
        | (room + 1) :: rooms =>
          -- the first literal of a lesson is the one that it forces
          let code := lesson.clause.getD 0 0
          let index := m.board.clauses.size - 1
          run rooms room lesson.level (code :: trail) [code]
            { m with board := m.board.assign lesson.level code (some index) }
        | _ => .paused m
  | none =>
    match room with
    | 0 => .found m.board.standing
    | room + 1 =>
      match m.choose with
      | (none, m) => .found m.board.standing
      | (some code, m) =>
        run ((room + 1) :: outer) room (level + 1) (code :: p.trail) [code]
          { m with board := m.board.assign (level + 1) code none }
termination_by remaining outer + 4 * branches room
decreasing_by
  · have hle := remaining_drop_le outer (level - 1 - lesson.level)
    have hpos := branches_pos room
    rw [h] at hle
    simp only [remaining, List.foldr_cons, branches] at hle ⊢
    omega
  · have hpos := branches_pos room
    simp only [remaining, List.foldr_cons, branches]
    omega

/-- Gives a value to the literal of a clause that has only one. Gives nothing when the clause is
broken. -/
def settle (clause : Array Nat) (index : Nat) (b : Board) (trail : List Nat) :
    Option (Board × List Nat) :=
  if clause.size > 1 then some (b, trail)
  else
    let code := clause.getD 0 0
    match Board.known b.standing code, clause.isEmpty with
    | .holds, false => some (b, trail)
    | .unknown, false => some (b.assign 0 code (some index), code :: trail)
    | _, _ => none

/-- Gives values to the literals of all clauses that have only one. -/
def settleAll (clauses : List (Array Nat)) (index : Nat) (b : Board) (trail : List Nat) :
    Option (Board × List Nat) :=
  match clauses with
  | [] => some (b, trail)
  | c :: rest =>
    match settle c index b trail with
    | none => none
    | some (b, trail) => settleAll rest (index + 1) b trail

def round (clauses : Array (Array Nat)) (guide : Guide) (budget : Option Nat) : Outcome :=
  let count := guide.ranks.size
  match settleAll clauses.toList 0 (Board.ofClauses count clauses) [] with
  | none => .refuted
  | some (board, trail) =>
    run [] count 0 trail trail.reverse
      { board, guide := guide.refill, marks := Array.replicate count false, budget }

/-- How many lessons are kept in any case. -/
def lessonLimit : Nat := 1000

/-- The clauses for the next round: those of the formula, which are the first `base`, and of the
lessons the short ones and the newer ones. -/
def retain (base : Nat) (limit : Nat) (clauses : Array (Array Nat)) : Array (Array Nat) :=
  if clauses.size ≤ base + limit then clauses
  else
    let lessons := clauses.extract base clauses.size
    let (_, kept) := lessons.foldl (fun (k, kept) (c : Array Nat) =>
      (k + 1, if c.size ≤ 5 || 2 * k ≥ lessons.size then kept.push c else kept))
      (0, clauses.extract 0 base)
    kept

/-- Rounds with growing budgets, the last of them without one. -/
def rounds (base : Nat) : Nat → Nat → Array (Array Nat) → Guide → Option (Array Standing)
  | 0, _, clauses, guide =>
    match round clauses guide none with
    | .found standing => some standing
    | _ => none
  | fuel + 1, budget, clauses, guide =>
    match round clauses guide (some budget) with
    | .found standing => some standing
    | .refuted => none
    | .paused m =>
      let clauses := retain base (lessonLimit + budget) m.board.clauses
      rounds base fuel (budget + budget / 10) clauses m.guide

def roundLimit : Nat := 200

def firstBudget : Nat := 100

/-! ## Solutions -/

/-- The declared variables with their signs; those without a value are negative. -/
def solutionOf (count : Nat) (numbering : Numbering) (standing : Array Standing) : Solution :=
  (List.range count).map fun k =>
    let word := Int64.ofNat (k + 1)
    match numbering.numbers[k + 1]? with
    | some number => if Board.known standing (2 * number) = .holds then word else -word
    | none => -word

def solve (f : Formula) : Option Solution :=
  let (numbering, clauses) := encode f.clauses
  let guide := Guide.ofClauses numbering.known.size clauses
  (rounds clauses.size roundLimit firstBudget clauses guide).map
    (solutionOf f.variableCount numbering)

end Clausify.Search
