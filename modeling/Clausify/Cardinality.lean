import Clausify.Clause.Writer
import Clausify.Settings

/-!
"At most one" and "exactly one" over a list of literals, under a scheme. A scheme writes fresh
variables and clauses. Fresh variables are numbered from the count of variables at the start, so a
scheme is a function from that count and a list of literals to a list of emissions, and knows the
literals of the variables it allocates.
-/

namespace Clausify

/-- One thing written: a fresh variable or a clause. -/
inductive Emission where
  | fresh
  | clause (c : Clause)
  deriving DecidableEq, Repr

namespace Emission

def clauses (cs : List Clause) : List Emission := cs.map clause

def allocate (n : Nat) : List Emission := List.replicate n fresh

def freshCount (es : List Emission) : Nat := es.countP (· = fresh)

def clausesOf (es : List Emission) : List Clause :=
  es.filterMap fun
    | fresh => none
    | clause c => some c

/-- The literals of the next `n` variables after `count`. -/
def literalsFrom (count n : Nat) : List Literal :=
  (List.range n).map fun k => Literal.ofVariable (count + k + 1)

end Emission

/-- Emissions, and why they end early if they do. -/
structure Plan where
  emissions : List Emission
  stop : Option Stop := none
  deriving DecidableEq, Repr

namespace Cardinality

/-! ### Pairwise

No two of the literals hold together. The other schemes use it on short lists. -/

/-- One clause against each pair of positions, by the first of the two. -/
def pairs : List Literal → List Clause
  | [] => []
  | l :: rest => rest.map (fun m => [-l, -m]) ++ pairs rest

/-- The clause that asks for one of the literals, when exactly one is wanted. -/
def someOf (exactlyOne : Bool) (literals : List Literal) : List Clause :=
  if exactlyOne then [literals] else []

def pairwise (exactlyOne : Bool) (literals : List Literal) : List Emission :=
  Emission.clauses (pairs literals ++ someOf exactlyOne literals)

/-! ### Ladder

Rung `i` says that a literal at or before position `i` holds: the first literal is its own rung,
the last needs none, and the rungs between are fresh. -/

def rungs (count : Nat) : List Literal → List Literal
  | [] => []
  | first :: rest => first :: Emission.literalsFrom count (rest.length - 1)

/-- Each rung implies the next. -/
def chain : List Literal → List Clause
  | r :: s :: rest => [-r, s] :: chain (s :: rest)
  | _ => []

/-- Each literal after the first against the rung below it and, but for the last, for its own. -/
def climb : List Literal → List Literal → List Clause
  | l :: literals, below :: own :: rest =>
    [-l, -below] :: [-l, own] :: climb literals (own :: rest)
  | l :: _, [below] => [[-l, -below]]
  | _, _ => []

def ladder (count : Nat) (exactlyOne : Bool) (literals : List Literal) : List Emission :=
  let rungs := rungs count literals
  Emission.allocate (rungs.length - 1) ++
    Emission.clauses (chain rungs ++ climb literals.tail rungs ++ someOf exactlyOne literals)

/-! ### Product

The literals are laid on a grid of `p` rows and `q` columns, where `p` is the least number whose
square is not below their number. A literal implies its row and its column, and rows and columns
are laid out in turn, until six literals or fewer are left for the pairwise scheme. -/

/-- The least number whose square is at least `n`. -/
def ceilSqrt (n : Nat) : Nat := ((List.range (n + 1)).find? fun p => n ≤ p * p).getD n

def columnCount (n p : Nat) : Nat := (n + p - 1) / p

/-- Each literal implies its row and its column; rows are numbered after `count` and columns
after the rows. -/
def placements (count p : Nat) (literals : List Literal) : List Clause :=
  literals.zipIdx.flatMap fun (l, i) =>
    [[-l, Literal.ofVariable (count + i % p + 1)],
      [-l, Literal.ofVariable (count + p + i / p + 1)]]

/-- Lays literals on grids, one level for each unit of fuel. -/
def grid : Nat → Nat → List Literal → List Emission
  | 0, _, literals => Emission.clauses (pairs literals)
  | fuel + 1, count, literals =>
    let n := literals.length
    if n ≤ 6 then Emission.clauses (pairs literals)
    else
      let p := ceilSqrt n
      let q := columnCount n p
      let rows := grid fuel (count + p + q) (Emission.literalsFrom count p)
      let columns := grid fuel (count + p + q + Emission.freshCount rows)
        (Emission.literalsFrom (count + p) q)
      Emission.allocate (p + q) ++ Emission.clauses (placements count p literals) ++
        rows ++ columns

def product (count : Nat) (exactlyOne : Bool) (literals : List Literal) : List Emission :=
  Emission.clauses (someOf exactlyOne literals) ++ grid literals.length count literals

/-! ### Bimander

The literals are cut into groups, each under the pairwise scheme, and every group has a binary code
over as many selector variables as its largest code needs; a literal implies the code of its
group. -/

/-- Cuts a list into pieces of `size`, the last of which may be shorter, at most `fuel` of
them. -/
def chunksFrom {α : Type} (size : Nat) : Nat → List α → List (List α)
  | 0, _ => []
  | fuel + 1, xs =>
    if xs.isEmpty then [] else xs.take size :: chunksFrom size fuel (xs.drop size)

/-- Cuts a list into pieces of `size`, the last of which may be shorter. -/
def chunks {α : Type} (size : Nat) (xs : List α) : List (List α) :=
  chunksFrom size xs.length xs

/-- The number of binary digits of `n`, none for zero. -/
def bitLength (n : Nat) : Nat := if n = 0 then 0 else n.log2 + 1

/-- The literals of a group imply each digit of the code `i`; selectors are numbered after
`count`. -/
def selections (count width : Nat) (i : Nat) (group : List Literal) : List Clause :=
  (List.range width).flatMap fun bit =>
    let selector := Literal.ofVariable (count + bit + 1)
    let digit := if i.testBit bit then selector else -selector
    group.map fun l => [-l, digit]

/-- The bimander scheme with groups of a positive size. -/
def groups (count size : Nat) (literals : List Literal) : List Emission :=
  let groups := chunks size literals
  let width := bitLength (groups.length - 1)
  Emission.clauses (groups.flatMap pairs) ++ Emission.allocate width ++
    Emission.clauses (groups.zipIdx.flatMap fun (group, i) => selections count width i group)

/-- The bimander scheme; groups must have a positive size. -/
def bimander (count : Nat) (size : Word) (exactlyOne : Bool) (literals : List Literal) : Plan :=
  let first := Emission.clauses (someOf exactlyOne literals)
  if size < 1 then { emissions := first, stop := some (.misuse .groupSize) }
  else { emissions := first ++ groups count size.toInt.toNat literals }

/-! ### Commander

The literals are cut into cells; a cell of several literals is put under the pairwise scheme and
represented by a fresh commander that its literals imply, and a cell of one literal represents
itself. The representatives are treated in turn until they fit one cell. Where auxiliary variables
are to be determined, a commander also implies its cell. -/

/-- The clauses of a cell and its commander. -/
def command (closed : Bool) (commander : Literal) (cell : List Literal) : List Clause :=
  cell.map (fun l => [-l, commander]) ++ if closed then [-commander :: cell] else []

/-- The emissions of cells, and the literals that represent them. -/
def commandCells (closed : Bool) : Nat → List (List Literal) → List Emission × List Literal
  | _, [] => ([], [])
  | count, [l] :: rest =>
    let (emissions, representatives) := commandCells closed count rest
    (emissions, l :: representatives)
  | count, cell :: rest =>
    let commander := Literal.ofVariable (count + 1)
    let (emissions, representatives) := commandCells closed (count + 1) rest
    (Emission.clauses (pairs cell) ++ .fresh :: Emission.clauses (command closed commander cell) ++
      emissions, commander :: representatives)

/-- Treats literals and their representatives in turn, one level for each unit of fuel. -/
def hierarchy (size : Nat) (closed exactlyOne : Bool) : Nat → Nat → List Literal → Plan
  | 0, _, _ => { emissions := [], stop := some (.misuse .endless) }
  | fuel + 1, count, literals =>
    if literals.length ≤ size then { emissions := pairwise exactlyOne literals }
    else
      let (emissions, representatives) := commandCells closed count (chunks size literals)
      let above := hierarchy size closed exactlyOne fuel
        (count + Emission.freshCount emissions) representatives
      { emissions := emissions ++ above.emissions, stop := above.stop }

/-- The commander scheme; a part must hold at least two literals unless all literals fit it. -/
def commander (count : Nat) (size : Word) (auxNonFunctional exactlyOne : Bool)
    (literals : List Literal) : Plan :=
  let n := (literals.length : Int)
  if size.toInt ≥ n then { emissions := pairwise exactlyOne literals }
  else if size = 0 then { emissions := [], stop := some (.misuse .machineFault) }
  else if size < 0 then
    { emissions := []
      stop := some (.misuse (if n.tdiv size.toInt + 1 < 0 then .machineFault else .groupSize)) }
  else
    hierarchy size.toInt.toNat (exactlyOne || !auxNonFunctional) exactlyOne
      (literals.length + 1) count literals

/-! ### The scheme by name

No literal at all is settled before the scheme is looked at. The ladder, product and bimander
schemes determine their auxiliary variables only when exactly one literal holds; where that is
asked for, "at most one" becomes "exactly one" with a fresh slack literal. -/

/-- What a scheme writes, `count` variables being allocated before. -/
def schemePlan (settings : Settings) (scheme : Scheme) (count : Nat) (exactlyOne : Bool)
    (literals : List Literal) : Plan :=
  match scheme with
  | .pairwise => { emissions := pairwise exactlyOne literals }
  | .ladder => { emissions := ladder count exactlyOne literals }
  | .product => { emissions := product count exactlyOne literals }
  | .bimander => bimander count settings.bimanderGroupSize exactlyOne literals
  | .commander =>
    commander count settings.commanderPartSize settings.auxNonFunctional exactlyOne literals
  | .other name => { emissions := [], stop := some (.fault (.unknownScheme name)) }

/-- Whether a scheme leaves its auxiliary variables open when no literal holds. -/
def needsSlack : Scheme → Bool
  | .ladder | .product | .bimander => true
  | _ => false

/-- "Exactly one" or "at most one" of the literals, `count` variables being allocated before. -/
def encode (settings : Settings) (scheme : Scheme) (count : Nat) (exactlyOne : Bool)
    (literals : List Literal) : Plan :=
  if literals.isEmpty then { emissions := Emission.clauses (someOf exactlyOne []) }
  else if needsSlack scheme && !exactlyOne && !settings.auxNonFunctional then
    let slack := Literal.ofVariable (count + 1)
    let plan := schemePlan settings scheme (count + 1) true (literals ++ [slack])
    { plan with emissions := .fresh :: plan.emissions }
  else schemePlan settings scheme count exactlyOne literals

end Cardinality

/-! ### Writing

Variables are allocated and clauses added in order, up to the first refusal. -/

variable {W : Type} [ClauseWriter W]

def Emission.write : List Emission → Run W Unit
  | [] => fun w => .ok () w
  | .fresh :: rest => fun w => Emission.write rest (ClauseWriter.addVariable w)
  | .clause c :: rest => fun w =>
    match ClauseWriter.addClause c w with
    | .error stop left => .error stop left
    | .ok _ next => Emission.write rest next

/-- Writes a plan up to its end or the first refusal. -/
def Plan.write (plan : Plan) : Run W Unit := fun w =>
  match Emission.write plan.emissions w, plan.stop with
  | .error stop left, _ => .error stop left
  | .ok _ next, some stop => .error stop next
  | .ok _ next, none => .ok () next

/-- Writes "exactly one" or "at most one" of the literals. -/
def Cardinality.write (settings : Settings) (scheme : Scheme) (exactlyOne : Bool)
    (literals : List Literal) : Run W Unit := fun w =>
  (Cardinality.encode settings scheme (ClauseWriter.variableCount w) exactlyOne literals).write w

end Clausify
