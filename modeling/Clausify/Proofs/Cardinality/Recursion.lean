import Mathlib
import Clausify.Proofs.Cardinality.Scope

/-!
The recursions of the schemes end, and whatever they look up is there. The product and commander
schemes are defined by recursion on fuel, over literals that are computed from their numbers. Here
they stand beside the same recursions without fuel, as relations that hold of what has been laid
out or commanded in finitely many levels (`Laid`, `Commanded`); the rows and columns of a grid, like
the rungs of a ladder, are looked up by their positions in the lists that were built for them, and a
position outside gives nothing (`placementsAt`, `ladderAt`).

A grid has fewer rows and fewer columns than literals, as long as it has more than six of them
(`grid_shrinks`). Cells of two literals or more have fewer representatives than literals, and cells
of one as many: there a level is no step towards the end, so two is the exact bound
(`commanded_iff`). Main statement: `recursions_end_in_range`.
-/

namespace Clausify.Cardinality

open Emission

variable {count : Nat} {ls : List Literal}

/-! ## Rungs -/

/-- Each rung implies the next, both looked up by position. -/
def chainAt (rungs : List Literal) : Option (List Clause) :=
  (List.range (rungs.length - 1)).mapM fun i => do
    let rung ← rungs[i]?
    let next ← rungs[i + 1]?
    return [-rung, next]

/-- Each literal after the first against the rung one position below it and, but for the last, for
the rung at its own position. -/
def climbAt (literals rungs : List Literal) : Option (List Clause) :=
  List.flatten <$> (List.range (literals.length - 1)).mapM fun i => do
    let l ← literals[i + 1]?
    let below ← rungs[i]?
    if i + 1 < literals.length - 1 then
      let own ← rungs[i + 1]?
      return [[-l, -below], [-l, own]]
    else return [[-l, -below]]

/-- The ladder scheme with every literal and every rung looked up by position. -/
def ladderAt (count : Nat) (exactlyOne : Bool) (literals : List Literal) :
    Option (List Emission) := do
  let first ← literals[0]?
  let rungs := first :: literalsFrom count (literals.length - 2)
  let steps ← chainAt rungs
  let climbs ← climbAt literals rungs
  return allocate (literals.length - 2) ++
    clauses (steps ++ climbs ++ someOf exactlyOne literals)

theorem mapM_range_succ {α : Type} (f : Nat → Option α) (n : Nat) :
    (List.range (n + 1)).mapM f = do
      let first ← f 0
      let rest ← (List.range n).mapM fun i => f (i + 1)
      return first :: rest := by
  rw [List.range_succ_eq_map, List.mapM_cons, List.mapM_map]
  rfl

theorem chainAt_cons (r s : Literal) (rest : List Literal) :
    chainAt (r :: s :: rest) = do
      let steps ← chainAt (s :: rest)
      return [-r, s] :: steps := by
  show (List.range (rest.length + 1)).mapM _ = _
  rw [mapM_range_succ]
  rfl

theorem chainAt_eq (rungs : List Literal) : chainAt rungs = some (chain rungs) := by
  induction rungs with
  | nil => rfl
  | cons r rest ih =>
    cases rest with
    | nil => rfl
    | cons s rest =>
      rw [chainAt_cons, ih]
      rfl

theorem climbAt_cons (first l below own : Literal) (rest rungs : List Literal) (h : rest ≠ []) :
    climbAt (first :: l :: rest) (below :: own :: rungs) = do
      let climbs ← climbAt (l :: rest) (own :: rungs)
      return [-l, -below] :: [-l, own] :: climbs := by
  have hpos : 0 < rest.length := List.length_pos_iff.mpr h
  -- from its second position on, the loop is that over one literal and one rung fewer
  simp only [climbAt, List.length_cons, Nat.add_sub_cancel, mapM_range_succ,
    List.getElem?_cons_succ, List.getElem?_cons_zero, Nat.add_lt_add_iff_right]
  simp [hpos, Option.bind_map]

/-- As many rungs as literals but one are enough to climb. -/
theorem climbAt_eq (first below : Literal) (rest rungs : List Literal)
    (h : rungs.length = rest.length - 1) :
    climbAt (first :: rest) (below :: rungs) = some (climb rest (below :: rungs)) := by
  induction rest generalizing first below rungs with
  | nil => rfl
  | cons l rest ih =>
    cases rungs with
    | nil =>
      obtain rfl : rest = [] := List.eq_nil_of_length_eq_zero (by simpa using h.symm)
      rfl
    | cons own rungs =>
      simp only [List.length_cons, Nat.add_sub_cancel] at h
      have hrest : rest ≠ [] := by
        rintro rfl
        simp at h
      rw [climbAt_cons _ _ _ _ _ _ hrest, ih l own rungs (by omega)]
      rfl

/-- A ladder looks up no position that is not there, as long as it has a literal. -/
theorem ladderAt_eq (count : Nat) (e : Bool) (h : ls ≠ []) :
    ladderAt count e ls = some (ladder count e ls) := by
  obtain ⟨first, rest, rfl⟩ := List.exists_cons_of_ne_nil h
  have hlength : (first :: rest).length - 2 = rest.length - 1 := by simp
  have hchain := chainAt_eq (first :: literalsFrom count (rest.length - 1))
  have hclimb := climbAt_eq first first rest (literalsFrom count (rest.length - 1)) (by simp)
  simp only [ladderAt, hlength, List.getElem?_cons_zero, Option.bind_eq_bind, Option.bind_some,
    hchain, hclimb, Option.pure_def]
  simp [ladder, rungs]

/-! ## Grids -/

/-- Rows and columns are fewer than the literals. -/
theorem grid_shrinks {n : Nat} (h : 6 < n) :
    ceilSqrt n < n ∧ columnCount n (ceilSqrt n) < n := by
  obtain ⟨hsquare, hleast⟩ := isLeast_ceilSqrt n
  have hrows : ceilSqrt n ≤ n - 1 := by
    apply hleast
    calc n ≤ 2 * (n - 1) := by omega
      _ ≤ (n - 1) * (n - 1) := Nat.mul_le_mul_right _ (by omega)
  -- one row would hold a single literal, so there are two, and half the literals for a column
  have htwo : 2 ≤ ceilSqrt n := by
    by_contra hsmall
    have : ceilSqrt n * ceilSqrt n ≤ 1 * 1 := Nat.mul_le_mul (by omega) (by omega)
    have : n ≤ ceilSqrt n * ceilSqrt n := hsquare
    omega
  have hcolumns : columnCount n (ceilSqrt n) ≤ n - 1 := by
    apply (isLeast_columnCount n (by omega)).2
    calc n ≤ 2 * (n - 1) := by omega
      _ ≤ ceilSqrt n * (n - 1) := Nat.mul_le_mul_right _ htwo
  omega

/-- The placements of literals, with rows and columns looked up by position. -/
def placementsAt (p : Nat) (rows columns literals : List Literal) : Option (List Clause) :=
  List.flatten <$> literals.zipIdx.mapM fun place => do
    let row ← rows[place.2 % p]?
    let column ← columns[place.2 / p]?
    return [[-place.1, row], [-place.1, column]]

theorem mapM_of_found {α β : Type} {f : α → Option β} {g : α → β} {xs : List α}
    (h : ∀ x ∈ xs, f x = some (g x)) : xs.mapM f = some (xs.map g) := by
  induction xs with
  | nil => rfl
  | cons x xs ih =>
    rw [List.forall_mem_cons] at h
    rw [List.mapM_cons, h.1, ih h.2]
    rfl

theorem placementsAt_eq {p : Nat} (hp : 0 < p) (count : Nat) (ls : List Literal) :
    placementsAt p (literalsFrom count p) (literalsFrom (count + p) (columnCount ls.length p)) ls =
      some (placements count p ls) := by
  have hfound : ∀ place ∈ ls.zipIdx, (do
      let row ← (literalsFrom count p)[place.2 % p]?
      let column ← (literalsFrom (count + p) (columnCount ls.length p))[place.2 / p]?
      return [[-place.1, row], [-place.1, column]]) =
        some [[-place.1, Literal.ofVariable (count + place.2 % p + 1)],
          [-place.1, Literal.ofVariable (count + p + place.2 / p + 1)]] := by
    intro place hplace
    obtain ⟨hi, -⟩ := List.getElem?_eq_some_iff.mp (List.mem_zipIdx_iff_getElem?.mp hplace)
    have hrow := Nat.mod_lt place.2 hp
    have hcolumn := div_lt_columnCount hp hi
    rw [List.getElem?_eq_getElem (by simpa using hrow),
      List.getElem?_eq_getElem (by simpa using hcolumn), literalsFrom_getElem,
      literalsFrom_getElem]
    rfl
  rw [placementsAt, mapM_of_found hfound]
  rfl

/-- What a grid emits, by a recursion without fuel. Six literals or fewer are left to the pairwise
scheme. More are laid on the least square that holds them, with no more columns than they need; each
looks up its row and its column, and then rows and columns are laid out in turn. -/
inductive Laid : Nat → List Literal → List Emission → Prop
  | short {count : Nat} {ls : List Literal} (hshort : ls.length ≤ 6) :
      Laid count ls (clauses (pairs ls))
  | level {count p q : Nat} {ls : List Literal} {placed : List Clause}
      {rows columns : List Emission} (hlong : 6 < ls.length)
      (hp : IsLeast {p | ls.length ≤ p * p} p) (hq : IsLeast {q | ls.length ≤ p * q} q)
      (hfound : placementsAt p (literalsFrom count p) (literalsFrom (count + p) q) ls = some placed)
      (hrows : Laid (count + p + q) (literalsFrom count p) rows)
      (hcolumns : Laid (count + p + q + freshCount rows) (literalsFrom (count + p) q) columns) :
      Laid count ls (allocate (p + q) ++ clauses placed ++ rows ++ columns)

theorem grid_short {fuel : Nat} (h : ls.length ≤ 6) :
    grid fuel count ls = clauses (pairs ls) := by
  cases fuel with
  | zero => rfl
  | succ fuel => simp only [grid, h, if_true]

/-- A grid is laid out in full if there is as much fuel as literals. -/
theorem laid_grid {fuel : Nat} (hfuel : ls.length ≤ fuel) : Laid count ls (grid fuel count ls) := by
  induction fuel generalizing count ls with
  | zero =>
    rw [grid_short (by omega)]
    exact .short (by omega)
  | succ fuel ih =>
    by_cases hshort : ls.length ≤ 6
    · rw [grid_short hshort]
      exact .short hshort
    · have hlong : 6 < ls.length := Nat.not_le.mp hshort
      have hpos : 0 < ceilSqrt ls.length := ceilSqrt_pos (by omega)
      obtain ⟨hrows, hcolumns⟩ := grid_shrinks hlong
      simp only [grid, hshort, if_false]
      -- rows and columns are lists of their own, each shorter by one at least
      refine .level hlong (isLeast_ceilSqrt _) (isLeast_columnCount _ hpos)
        (placementsAt_eq hpos count ls) (ih ?_) (ih ?_)
      · rw [literalsFrom_length]
        omega
      · rw [literalsFrom_length]
        omega

theorem Laid.unique {es fs : List Emission} (h : Laid count ls es) (h' : Laid count ls fs) :
    es = fs := by
  induction h generalizing fs with
  | short hshort =>
    cases h' with
    | short => rfl
    | level hlong => omega
  | level hlong hp hq hfound _ _ ihr ihc =>
    cases h' with
    | short hshort => omega
    | level _ hp' hq' hfound' hrows' hcolumns' =>
      obtain rfl := hp.unique hp'
      obtain rfl := hq.unique hq'
      obtain rfl := Option.some.inj (hfound.symm.trans hfound')
      obtain rfl := ihr hrows'
      obtain rfl := ihc hcolumns'
      rfl

/-- The levels of a grid end before the fuel: as much as there are literals is enough. -/
theorem grid_fuel {fuel fuel' count : Nat} {ls : List Literal} (h : ls.length ≤ fuel)
    (h' : ls.length ≤ fuel') : grid fuel count ls = grid fuel' count ls :=
  (laid_grid h).unique (laid_grid h')

/-! ## Commanders -/

/-- What commanders emit, by a recursion without fuel: literals that fit one part are left to the
pairwise scheme, and the representatives of others are treated in turn. -/
inductive Commanded (size : Nat) (closed e : Bool) : Nat → List Literal → List Emission → Prop
  | fits {count : Nat} {ls : List Literal} (hfits : ls.length ≤ size) :
      Commanded size closed e count ls (pairwise e ls)
  | level {count : Nat} {ls reps : List Literal} {cells above : List Emission}
      (hlong : size < ls.length)
      (hcells : commandCells closed count (chunks size ls) = (cells, reps))
      (habove : Commanded size closed e (count + freshCount cells) reps above) :
      Commanded size closed e count ls (cells ++ above)

section Levels

variable {size : Nat} {closed e : Bool}

theorem length_le_chunksFrom {α : Type} (hsize : 0 < size) {fuel : Nat} {xs : List α}
    (hfuel : xs.length ≤ fuel) : xs.length ≤ size * (chunksFrom size fuel xs).length := by
  induction fuel generalizing xs with
  | zero => omega
  | succ fuel ih =>
    cases xs with
    | nil => simp
    | cons x xs =>
      -- the first cell takes `size` elements, or all of them
      have hdrop : ((x :: xs).drop size).length = xs.length + 1 - size := by simp
      rw [List.length_cons] at hfuel
      have hrest := @ih ((x :: xs).drop size) (by omega)
      rw [hdrop] at hrest
      simp only [chunksFrom, List.isEmpty_cons, Bool.false_eq_true, if_false, List.length_cons,
        Nat.mul_add, Nat.mul_one]
      omega

theorem length_le_representatives (hsize : 0 < size) (closed : Bool) (count : Nat)
    (ls : List Literal) :
    ls.length ≤ size * (commandCells closed count (chunks size ls)).2.length := by
  rw [length_commandCells]
  exact length_le_chunksFrom hsize (Nat.le_refl _)

theorem commanded_of_stop {fuel : Nat} (h : (hierarchy size closed e fuel count ls).stop = none) :
    Commanded size closed e count ls (hierarchy size closed e fuel count ls).emissions := by
  induction fuel generalizing count ls with
  | zero => simp [hierarchy] at h
  | succ fuel ih =>
    by_cases hfits : ls.length ≤ size
    · simp only [hierarchy, hfits, if_true]
      exact .fits hfits
    · rw [hierarchy_step hfits] at h ⊢
      exact .level (Nat.not_le.mp hfits) rfl (ih h)

theorem Commanded.unique {es fs : List Emission} (h : Commanded size closed e count ls es)
    (h' : Commanded size closed e count ls fs) : es = fs := by
  induction h generalizing fs with
  | fits hfits =>
    cases h' with
    | fits => rfl
    | level hlong => omega
  | level hlong hcells _ ih =>
    cases h' with
    | fits hfits => omega
    | level _ hcells' habove' =>
      obtain ⟨rfl, rfl⟩ := Prod.mk.inj (hcells.symm.trans hcells')
      obtain rfl := ih habove'
      rfl

/-- With cells of one literal the representatives are as many as the literals, so that the recursion
never gets below the size it started from. -/
theorem Commanded.length_le_one {es : List Emission} (h : Commanded 1 closed e count ls es) :
    ls.length ≤ 1 := by
  induction h with
  | fits hfits => exact hfits
  | @level count ls reps cells above _ hcells _ ih =>
    have hmany := length_le_representatives Nat.one_pos closed count ls
    rw [hcells, Nat.one_mul] at hmany
    exact Nat.le_trans hmany ih

/-- Commanders come to an end exactly if a cell holds two literals or the literals fit one. -/
theorem commanded_iff (hsize : 0 < size) :
    (∃ es, Commanded size closed e count ls es) ↔ 2 ≤ size ∨ ls.length ≤ size := by
  constructor
  · rintro ⟨es, h⟩
    by_cases htwo : 2 ≤ size
    · exact .inl htwo
    · obtain rfl : size = 1 := by omega
      exact .inr h.length_le_one
  · rintro (htwo | hfits)
    · exact ⟨_, commanded_of_stop (hierarchy_stop htwo closed e (Nat.lt_succ_self ls.length))⟩
    · exact ⟨_, .fits hfits⟩

/-- The fuel of the levels is enough whenever they come to an end. -/
theorem hierarchy_eq_iff (hsize : 0 < size) {fuel : Nat} (hfuel : ls.length < fuel)
    (es : List Emission) :
    hierarchy size closed e fuel count ls = { emissions := es } ↔
      Commanded size closed e count ls es := by
  constructor
  · intro h
    have hstop : (hierarchy size closed e fuel count ls).stop = none := by rw [h]
    have hcommanded := commanded_of_stop hstop
    rwa [h] at hcommanded
  · intro h
    have hstop : (hierarchy size closed e fuel count ls).stop = none := by
      rcases (commanded_iff hsize).mp ⟨es, h⟩ with htwo | hfits
      · exact hierarchy_stop htwo closed e hfuel
      · cases fuel with
        | zero => omega
        | succ fuel => simp only [hierarchy, hfits, if_true]
    have hemissions := (commanded_of_stop hstop).unique h
    rw [← hemissions, ← hstop]

theorem commander_eq_iff {size : Word} (hsize : 1 ≤ size.toInt) (open' : Bool)
    (es : List Emission) :
    commander count size open' e ls = { emissions := es } ↔
      Commanded size.toInt.toNat (e || !open') e count ls es := by
  rw [commander_eq hsize]
  exact hierarchy_eq_iff (by omega) (Nat.lt_succ_self _) es

end Levels

/-! ## Every list -/

/-- The recursions of the schemes end, and every position they look up is there, for every list.

Of more than six literals, the product scheme has `p` rows and `q` columns, `p` the least number
whose square and `q` the least number whose product with `p` is not below that of the literals. Both
are fewer than the literals, each literal has its row and its column, and what the scheme emits is
what the recursion over rows and columns gives without fuel. Parts of two literals or more, if one
does not hold all, have representatives, and fewer than there are literals. So commanders come to an
end, with what the scheme emits, under parts of two literals or more and under a part that holds all
of them, and under no other part. A ladder of at least one literal finds every rung. -/
theorem recursions_end_in_range (count : Nat) (e open' : Bool) (ls : List Literal) :
    (6 < ls.length → ∃ p q, p = ceilSqrt ls.length ∧ q = columnCount ls.length p ∧
      IsLeast {k | ls.length ≤ k * k} p ∧ IsLeast {k | ls.length ≤ p * k} q ∧
      p < ls.length ∧ q < ls.length ∧ ∀ i, i < ls.length → i % p < p ∧ i / p < q) ∧
    (∀ es, product count e ls = clauses (someOf e ls) ++ es ↔ Laid count ls es) ∧
    (∀ size : Word, 2 ≤ size → size.toInt < ls.length → ∀ cells reps,
      commandCells (e || !open') count (chunks size.toInt.toNat ls) = (cells, reps) →
      reps ≠ [] ∧ reps.length < ls.length) ∧
    (∀ size : Word, 1 ≤ size →
      ((∃ es, Commanded size.toInt.toNat (e || !open') e count ls es) ↔
        2 ≤ size ∨ ls.length ≤ size.toInt) ∧
      ∀ es, commander count size open' e ls = { emissions := es } ↔
        Commanded size.toInt.toNat (e || !open') e count ls es) ∧
    (ls ≠ [] → ladderAt count e ls = some (ladder count e ls)) := by
  have hword : (2 : Word).toInt = 2 := by decide
  refine ⟨?_, ?_, ?_, ?_, ladderAt_eq count e⟩
  · intro hlong
    have hpos : 0 < ceilSqrt ls.length := ceilSqrt_pos (by omega)
    obtain ⟨hrows, hcolumns⟩ := grid_shrinks hlong
    refine ⟨_, _, rfl, rfl, isLeast_ceilSqrt _, isLeast_columnCount _ hpos, hrows, hcolumns, ?_⟩
    intro i hi
    exact ⟨Nat.mod_lt i hpos, div_lt_columnCount hpos hi⟩
  · intro es
    -- the grid of the program is a layout, and there is only one
    have hlaid : Laid count ls (grid ls.length count ls) := laid_grid (Nat.le_refl _)
    rw [product, List.append_cancel_left_eq]
    constructor
    · intro h
      rwa [h] at hlaid
    · intro h
      exact hlaid.unique h
  · intro size hsize hlong cells reps hcells
    rw [Int64.le_iff_toInt_le, hword] at hsize
    have htwo : 2 ≤ size.toInt.toNat := by omega
    have hlong' : size.toInt.toNat < ls.length := by omega
    have hmany := length_le_representatives (Nat.zero_lt_of_lt htwo) (e || !open') count ls
    have hfewer := length_representatives_lt htwo (e || !open') count hlong'
    rw [hcells] at hmany hfewer
    refine ⟨?_, hfewer⟩
    -- without representatives there would be no literals
    rintro rfl
    simp only [List.length_nil, Nat.mul_zero] at hmany
    omega
  · intro size hsize
    rw [Int64.le_iff_toInt_le, Int64.toInt_one] at hsize
    constructor
    · rw [commanded_iff (by omega), Int64.le_iff_toInt_le, hword]
      omega
    · exact commander_eq_iff hsize open'

/-- Eleven literals stand on four rows and three columns. Parts of two come to an end over six
representatives, and parts of one never do. -/
theorem eleven_literals_end :
    (∃ p q, p = 4 ∧ q = 3 ∧ IsLeast {k | 11 ≤ k * k} p ∧ IsLeast {k | 11 ≤ p * k} q ∧
      ∀ i, i < 11 → i % p < p ∧ i / p < q) ∧
    (∃ es, Laid 11 (literalsFrom 0 11) es) ∧
    (∃ reps, (commandCells true 11 (chunks 2 (literalsFrom 0 11))).2 = reps ∧ reps ≠ [] ∧
      reps.length < 11) ∧
    (∃ es, Commanded 2 true true 11 (literalsFrom 0 11) es) ∧
    (¬ ∃ es, Commanded 1 true true 11 (literalsFrom 0 11) es) ∧
    ladderAt 11 true (literalsFrom 0 11) = some (ladder 11 true (literalsFrom 0 11)) := by
  obtain ⟨hgrid, hlaid, hfewer, hend, hladder⟩ :=
    recursions_end_in_range 11 true false (literalsFrom 0 11)
  refine ⟨?_, ⟨_, (hlaid _).mp rfl⟩, ⟨_, rfl, hfewer 2 (by decide) (by decide) _ _ rfl⟩, ?_, ?_,
    hladder (by decide)⟩
  · obtain ⟨p, q, hp, hq, hsquare, hcover, -, -, hplaces⟩ := hgrid (by decide)
    obtain rfl : p = 4 := hp.trans (by decide)
    exact ⟨4, q, rfl, hq.trans (by decide), hsquare, hcover, hplaces⟩
  · exact (hend 2 (by decide)).1.mpr (.inl (by decide))
  · intro hone
    rcases (hend 1 (by decide)).1.mp hone with htwo | hfits
    · exact absurd htwo (by decide)
    · exact absurd hfits (by decide)

end Clausify.Cardinality
