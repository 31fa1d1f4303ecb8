import Mathlib
import Clausify.Cardinality
import Clausify.Proofs.Cardinality.Count

/-!
The product scheme counts to one. A position of the list is determined by its row and its column,
so where at most one row and at most one column hold, at most one position does; rows and columns
are lists of literals again, and the argument goes down the grids level by level.

Main statements: `product_asserts`, and `product_fixes`: where exactly one position holds, exactly
one row and one column do, at every level, so no auxiliary variable has a choice.
-/

namespace Clausify.Cardinality

open Emission

/-! ## The sides of a grid -/

theorem isLeast_ceilSqrt (n : Nat) : IsLeast {p | n ≤ p * p} (ceilSqrt n) := by
  obtain ⟨p, hfound⟩ : ∃ p, ((List.range (n + 1)).find? fun p => n ≤ p * p) = some p := by
    apply Option.isSome_iff_exists.mp
    apply List.find?_isSome.mpr
    exact ⟨n, by simp, by simpa using Nat.le_mul_self n⟩
  have hvalue : ceilSqrt n = p := by rw [ceilSqrt, hfound, Option.getD_some]
  obtain ⟨hp, -, hfirst⟩ := List.find?_range_eq_some.mp hfound
  rw [hvalue]
  refine ⟨by simpa using hp, ?_⟩
  intro k hk
  by_contra hlt
  have hearlier := hfirst k (Nat.not_le.mp hlt)
  simp only [Bool.not_eq_true', decide_eq_false_iff_not] at hearlier
  exact hearlier hk

theorem isLeast_columnCount (n : Nat) {p : Nat} (hp : 0 < p) :
    IsLeast {q | n ≤ p * q} (columnCount n p) := by
  constructor
  · exact (ceilDiv_le_iff_le_mul hp).mp (Nat.le_refl (n ⌈/⌉ p))
  · intro q hq
    exact (ceilDiv_le_iff_le_mul hp).mpr hq

theorem ceilSqrt_pos {n : Nat} (h : 0 < n) : 0 < ceilSqrt n := by
  have hsquare : n ≤ ceilSqrt n * ceilSqrt n := (isLeast_ceilSqrt n).1
  apply Nat.pos_of_ne_zero
  intro hzero
  rw [hzero] at hsquare
  omega

theorem div_lt_columnCount {n p i : Nat} (hp : 0 < p) (hi : i < n) : i / p < columnCount n p := by
  have hcover : n ≤ p * columnCount n p := (isLeast_columnCount n hp).1
  exact Nat.div_lt_of_lt_mul (Nat.lt_of_lt_of_le hi hcover)

/-! ## Rows and columns -/

theorem satisfies_placements {count n p : Nat} {ls : List Literal} (hk : ∀ l ∈ ls, l.Known n)
    (hp : 0 < p) (hlim : count + p + columnCount ls.length p < Literal.limit) (v : Valuation) :
    v.Satisfies (placements count p ls) ↔
      ∀ i, (h : i < ls.length) → ls[i].holds v = true →
        v (count + i % p + 1) = true ∧ v (count + p + i / p + 1) = true := by
  -- rows and columns are literals of fresh variables
  have hrow : ∀ i, v (count + i % p + 1) =
      (Literal.ofVariable (count + i % p + 1)).holds v := by
    intro i
    have := Nat.mod_lt i hp
    rw [Literal.holds_ofVariable (by omega) (by omega)]
  have hcol : ∀ i, i < ls.length → v (count + p + i / p + 1) =
      (Literal.ofVariable (count + p + i / p + 1)).holds v := by
    intro i hi
    have := div_lt_columnCount hp hi
    rw [Literal.holds_ofVariable (Nat.succ_pos _) (by omega)]
  constructor
  · intro h i hi hl
    have hmem : ∀ c ∈ [[-ls[i], Literal.ofVariable (count + i % p + 1)],
        [-ls[i], Literal.ofVariable (count + p + i / p + 1)]], c ∈ placements count p ls := by
      intro c hc
      refine List.mem_flatMap.mpr ⟨(ls[i], i), ?_, hc⟩
      exact List.mem_zipIdx_iff_getElem?.mpr (List.getElem?_eq_getElem hi)
    have h1 := h _ (hmem [-ls[i], Literal.ofVariable (count + i % p + 1)] (by simp))
    have h2 := h _ (hmem [-ls[i], Literal.ofVariable (count + p + i / p + 1)] (by simp))
    have hneg := (hk _ (List.getElem_mem hi)).holds_neg v
    simp only [Clause.holds_cons, hneg, hl, Clause.holds_nil, Bool.not_true, Bool.false_or,
      Bool.or_false] at h1 h2
    exact ⟨(hrow i).trans h1, (hcol i hi).trans h2⟩
  · intro h c hc
    obtain ⟨⟨l, i⟩, hli, hc⟩ := List.mem_flatMap.mp hc
    obtain ⟨hi, hl⟩ := List.getElem?_eq_some_iff.mp (List.mem_zipIdx_iff_getElem?.mp hli)
    simp only at hi hl hc
    subst hl
    have hneg := (hk _ (List.getElem_mem hi)).holds_neg v
    -- a literal that fails satisfies both of its clauses by itself
    cases hlv : ls[i].holds v with
    | false =>
      rcases List.mem_pair.mp hc with rfl | rfl <;> simp [hneg, hlv]
    | true =>
      obtain ⟨h1, h2⟩ := h i hi hlv
      rw [hrow] at h1
      rw [hcol i hi] at h2
      rcases List.mem_pair.mp hc with rfl | rfl <;> simp [h1, h2]

theorem over_placements {P : Literal → Prop} (hneg : ∀ l, P l → P (-l)) {count p : Nat}
    {ls : List Literal} (h : ∀ l ∈ ls, P l) (hp : 0 < p)
    (hfresh : ∀ k, count < k → k ≤ count + p + columnCount ls.length p →
      P (Literal.ofVariable k)) : ∀ c ∈ placements count p ls, ∀ l ∈ c, P l := by
  intro c hc
  obtain ⟨⟨l, i⟩, hli, hc⟩ := List.mem_flatMap.mp hc
  obtain ⟨hi, hl⟩ := List.getElem?_eq_some_iff.mp (List.mem_zipIdx_iff_getElem?.mp hli)
  simp only at hi hl hc
  subst hl
  have hliteral := hneg _ (h _ (List.getElem_mem hi))
  have hr := Nat.mod_lt i hp
  have hq := div_lt_columnCount hp hi
  have hrow := hfresh (count + i % p + 1) (by omega) (by omega)
  have hcolumn := hfresh (count + p + i / p + 1)
    (Nat.lt_succ_of_le (Nat.le_trans (Nat.le_add_right count p) (Nat.le_add_right _ _))) (by omega)
  rcases List.mem_pair.mp hc with rfl | rfl
  · simp [hliteral, hrow]
  · simp [hliteral, hcolumn]

theorem known_placements {count p : Nat} {ls : List Literal} (hk : ∀ l ∈ ls, l.Known count)
    (hp : 0 < p) (hlim : count + p + columnCount ls.length p < Literal.limit) :
    ∀ c ∈ placements count p ls, c.Known (count + p + columnCount ls.length p) :=
  over_placements (P := Literal.Known (count + p + columnCount ls.length p)) (fun _ => .neg)
    (fun l hl => (hk l hl).mono (by omega)) hp
    fun _ hpos hle => Literal.known_ofVariable (by omega) hle (by omega)

theorem index_ext {i j p : Nat} (hr : i % p = j % p) (hq : i / p = j / p) : i = j := by
  rw [← Nat.mod_add_div i p, ← Nat.mod_add_div j p, hr, hq]

/-- The truth values of rows and columns that the positions that hold ask for. -/
def gridBits (v : Valuation) (p : Nat) (ls : List Literal) (k : Nat) : Bool :=
  if k < p then (List.range ls.length).any fun i => (ls[i]?.any (Literal.holds v)) && i % p = k
  else (List.range ls.length).any fun i => (ls[i]?.any (Literal.holds v)) && i / p = k - p

theorem gridBits_row {v : Valuation} {p k : Nat} {ls : List Literal} (h : k < p) :
    gridBits v p ls k = true ↔
      ∃ i, ∃ hi : i < ls.length, ls[i].holds v = true ∧ i % p = k := by
  simp only [gridBits, h, if_true, List.any_eq_true, List.mem_range, Bool.and_eq_true,
    decide_eq_true_eq]
  constructor
  · rintro ⟨i, hi, hv, he⟩
    exact ⟨i, hi, by simpa [List.getElem?_eq_getElem hi] using hv, he⟩
  · rintro ⟨i, hi, hv, he⟩
    exact ⟨i, hi, by simpa [List.getElem?_eq_getElem hi] using hv, he⟩

theorem gridBits_column {v : Valuation} {p k : Nat} {ls : List Literal} :
    gridBits v p ls (p + k) = true ↔
      ∃ i, ∃ hi : i < ls.length, ls[i].holds v = true ∧ i / p = k := by
  have hn : ¬ p + k < p := by omega
  simp only [gridBits, hn, if_false, List.any_eq_true, List.mem_range, Bool.and_eq_true,
    decide_eq_true_eq, Nat.add_sub_cancel_left]
  constructor
  · rintro ⟨i, hi, hv, he⟩
    exact ⟨i, hi, by simpa [List.getElem?_eq_getElem hi] using hv, he⟩
  · rintro ⟨i, hi, hv, he⟩
    exact ⟨i, hi, by simpa [List.getElem?_eq_getElem hi] using hv, he⟩

/-! ## Grids -/

/-- What holds of the pairwise clauses, and of a grid whenever it holds of its rows and columns,
holds of every grid. -/
theorem grid_induction {motive : Nat → List Literal → List Emission → Prop}
    (short : ∀ count ls, motive count ls (clauses (pairs ls)))
    (long : ∀ count ls p q rows columns, 0 < p → q = columnCount ls.length p →
      motive (count + p + q) (literalsFrom count p) rows →
      motive (count + p + q + freshCount rows) (literalsFrom (count + p) q) columns →
      motive count ls
        (allocate (p + q) ++ clauses (placements count p ls) ++ rows ++ columns)) :
    ∀ fuel count ls, motive count ls (grid fuel count ls)
  | 0, count, ls => short count ls
  | fuel + 1, count, ls => by
    simp only [grid]
    split
    · exact short count ls
    · exact long count ls _ _ _ _ (ceilSqrt_pos (by omega)) rfl
        (grid_induction short long fuel _ _) (grid_induction short long fuel _ _)

theorem known_rows_columns {count p q : Nat} (hlim : count + p + q < Literal.limit) :
    (∀ l ∈ literalsFrom count p, l.Known (count + p + q)) ∧
      ∀ l ∈ literalsFrom (count + p) q, l.Known (count + p + q) := by
  refine ⟨fun l hl => ?_, known_literalsFrom hlim⟩
  exact (known_literalsFrom (by omega) l hl).mono (by omega)

section Level

variable {count p q : Nat} {ls : List Literal} {rows columns : List Emission}

/-- Where at most one literal holds, rows and columns can be set so that each literal implies its
own, and at most one row and one column hold. -/
theorem exists_placed (hp : 0 < p) (hq : q = columnCount ls.length p)
    (hk : ∀ l ∈ ls, l.Known count) (hlim : count + p + q < Literal.limit) {v : Valuation}
    (hv : trues v ls ≤ 1) :
    ∃ u : Valuation, v.Agree count u ∧ u.Satisfies (placements count p ls) ∧
      trues u (literalsFrom count p) ≤ 1 ∧ trues u (literalsFrom (count + p) q) ≤ 1 := by
  rw [trues_le_one_iff] at hv
  -- rows and columns are set as the position that holds asks for
  obtain ⟨u, ha, hu⟩ := v.exists_extend count (gridBits v p ls)
  refine ⟨u, ha, ?_, ?_, ?_⟩
  · apply (satisfies_placements hk hp (hq ▸ hlim) u).mpr
    intro i hi hli
    rw [← (hk _ (List.getElem_mem hi)).holds_congr ha] at hli
    rw [Nat.add_assoc count p, hu, hu]
    exact ⟨(gridBits_row (Nat.mod_lt i hp)).mpr ⟨i, hi, hli, rfl⟩,
      gridBits_column.mpr ⟨i, hi, hli, rfl⟩⟩
  · apply (trues_literalsFrom_le_one_iff (by omega)).mpr
    intro r s hr hs hur hus
    rw [hu] at hur hus
    obtain ⟨i, hi, hli, rfl⟩ := (gridBits_row hr).mp hur
    obtain ⟨j, hj, hlj, rfl⟩ := (gridBits_row hs).mp hus
    rw [hv i j hi hj hli hlj]
  · apply (trues_literalsFrom_le_one_iff hlim).mpr
    intro r s _ _ hur hus
    rw [Nat.add_assoc count p, hu] at hur hus
    obtain ⟨i, hi, hli, rfl⟩ := gridBits_column.mp hur
    obtain ⟨j, hj, hlj, rfl⟩ := gridBits_column.mp hus
    rw [hv i j hi hj hli hlj]

theorem clausesOf_level :
    clausesOf (allocate (p + q) ++ clauses (placements count p ls) ++ rows ++ columns) =
      placements count p ls ++ clausesOf rows ++ clausesOf columns := by
  simp

theorem freshCount_level :
    freshCount (allocate (p + q) ++ clauses (placements count p ls) ++ rows ++ columns) =
      p + q + freshCount rows + freshCount columns := by
  simp [Nat.add_assoc]

/-- One level: where rows and columns say that at most one of them holds, the grid says so of the
literals on it. -/
theorem level_asserts (hp : 0 < p) (hq : q = columnCount ls.length p)
    (hk : ∀ l ∈ ls, l.Known count) (hlim : count + p + q < Literal.limit)
    (hrows : Asserts (count + p + q) rows (fun v => trues v (literalsFrom count p) ≤ 1))
    (hcols : Asserts (count + p + q + freshCount rows) columns
      (fun v => trues v (literalsFrom (count + p) q) ≤ 1)) :
    Asserts count (allocate (p + q) ++ clauses (placements count p ls) ++ rows ++ columns)
      (fun v => trues v ls ≤ 1) := by
  have hplace : ∀ c ∈ placements count p ls, c.Known (count + p + q) := by
    rw [hq] at hlim ⊢
    exact known_placements hk hp hlim
  exact {
    known := by
      intro c hc
      rw [clausesOf_level, List.mem_append, List.mem_append] at hc
      rw [freshCount_level]
      rcases hc with (hc | hc) | hc
      · exact (hplace c hc).mono (by omega)
      · exact (hrows.known c hc).mono (by omega)
      · exact (hcols.known c hc).mono (by omega)
    sound := by
      intro v hv
      rw [clausesOf_level, Valuation.satisfies_append, Valuation.satisfies_append,
        satisfies_placements hk hp (hq ▸ hlim)] at hv
      obtain ⟨⟨hpl, hr⟩, hc⟩ := hv
      have hr := (trues_literalsFrom_le_one_iff (by omega)).mp (hrows.sound v hr)
      have hc := (trues_literalsFrom_le_one_iff hlim).mp (hcols.sound v hc)
      apply trues_le_one_iff.mpr
      -- two positions that hold share their row and their column
      intro i j hi hj hli hlj
      obtain ⟨hri, hci⟩ := hpl i hi hli
      obtain ⟨hrj, hcj⟩ := hpl j hj hlj
      have hrow := hr _ _ (Nat.mod_lt i hp) (Nat.mod_lt j hp) hri hrj
      have hcol := hc _ _ (hq ▸ div_lt_columnCount hp hi) (hq ▸ div_lt_columnCount hp hj) hci hcj
      exact index_ext hrow hcol
    complete := by
      intro v hv
      obtain ⟨u, ha, hpl, hu1, hu2⟩ := exists_placed hp hq hk hlim hv
      obtain ⟨u1, ha1, hs1⟩ := hrows.complete u hu1
      rw [trues_congr (known_rows_columns hlim).2 ha1] at hu2
      obtain ⟨u2, ha2, hs2⟩ := hcols.complete u1 hu2
      have ha12 : u.Agree (count + p + q) u2 := ha1.trans (ha2.mono (by omega))
      refine ⟨u2, ha.trans (ha12.mono (by omega)), ?_⟩
      rw [clausesOf_level, Valuation.satisfies_append, Valuation.satisfies_append]
      exact ⟨⟨hpl.congr hplace ha12, hs1.congr hrows.known ha2⟩, hs2⟩ }

theorem literalsFrom_settled {v : Valuation} {count n k : Nat} (hlim : count + n < Literal.limit)
    (hone : trues v (literalsFrom count n) ≤ 1) (hk : k < n) (hv : v (count + k + 1) = true) :
    trues v (literalsFrom count n) = 1 ∧ ∀ r, r < n → v (count + r + 1) = decide (r = k) := by
  constructor
  · have hge : 1 ≤ trues v (literalsFrom count n) := by
      refine trues_pos_iff.mpr ⟨_, mem_literalsFrom.mpr ⟨k, hk, rfl⟩, ?_⟩
      rw [Literal.holds_ofVariable (by omega) (by omega), hv]
    omega
  · intro r hr
    rw [trues_literalsFrom_le_one_iff hlim] at hone
    by_cases hrk : r = k
    · rw [hrk, hv, decide_eq_true rfl]
    · rw [decide_eq_false hrk, Bool.eq_false_iff]
      exact fun hvr => hrk (hone r k hr hk hvr hv)

/-- One level: where exactly one literal holds, its row and its column are the only ones that do,
and what rows and columns fix the grid fixes. -/
theorem level_fixes (hp : 0 < p) (hq : q = columnCount ls.length p)
    (hk : ∀ l ∈ ls, l.Known count) (hlim : count + p + q < Literal.limit)
    (hrows : Asserts (count + p + q) rows (fun v => trues v (literalsFrom count p) ≤ 1))
    (hcols : Asserts (count + p + q + freshCount rows) columns
      (fun v => trues v (literalsFrom (count + p) q) ≤ 1))
    (hfr : Fixes (count + p + q) rows (fun v => trues v (literalsFrom count p) = 1))
    (hfc : Fixes (count + p + q + freshCount rows) columns
      (fun v => trues v (literalsFrom (count + p) q) = 1)) :
    Fixes count (allocate (p + q) ++ clauses (placements count p ls) ++ rows ++ columns)
      (fun v => trues v ls = 1) := by
  intro v u hone hv hu ha
  simp only [clausesOf_level, Valuation.satisfies_append,
    satisfies_placements hk hp (hq ▸ hlim)] at hv hu
  obtain ⟨⟨hpv, hrv⟩, hcv⟩ := hv
  obtain ⟨⟨hpu, hru⟩, hcu⟩ := hu
  -- the one literal that holds settles a row and a column, in both valuations
  obtain ⟨l, hl, hlv⟩ := trues_pos_iff.mp (Nat.le_of_eq hone.symm)
  obtain ⟨i, hi, rfl⟩ := List.getElem_of_mem hl
  have hlu : ls[i].holds u = true := by
    rw [← (hk _ (List.getElem_mem hi)).holds_congr ha, hlv]
  have hip := Nat.mod_lt i hp
  have hiq : i / p < q := hq ▸ div_lt_columnCount hp hi
  obtain ⟨hr1, hrv'⟩ := literalsFrom_settled (by omega) (hrows.sound v hrv) hip (hpv i hi hlv).1
  obtain ⟨-, hru'⟩ := literalsFrom_settled (by omega) (hrows.sound u hru) hip (hpu i hi hlu).1
  obtain ⟨hc1, hcv'⟩ := literalsFrom_settled hlim (hcols.sound v hcv) hiq (hpv i hi hlv).2
  obtain ⟨-, hcu'⟩ := literalsFrom_settled hlim (hcols.sound u hcu) hiq (hpu i hi hlu).2
  have har : v.Agree (count + p) u := ha.add fun r hr => by rw [hrv' r hr, hru' r hr]
  have ha1 : v.Agree (count + p + q) u := har.add fun r hr => by rw [hcv' r hr, hcu' r hr]
  -- so the levels below agree too, first that of the rows and then that of the columns
  have ha2 := hfr v u hr1 hrv hru ha1
  have ha3 := hfc v u hc1 hcv hcu ha2
  refine ha3.mono ?_
  rw [freshCount_level]
  omega

end Level

/-- A grid says that at most one of its literals holds, and fixes its variables where one does. -/
theorem grid_asserts_fixes (fuel count : Nat) (ls : List Literal) (hk : ∀ l ∈ ls, l.Known count)
    (hlim : count + freshCount (grid fuel count ls) < Literal.limit) :
    Asserts count (grid fuel count ls) (fun v => trues v ls ≤ 1) ∧
      Fixes count (grid fuel count ls) (fun v => trues v ls = 1) := by
  revert hk hlim
  refine grid_induction (motive := fun count ls es => (∀ l ∈ ls, l.Known count) →
    count + freshCount es < Literal.limit → Asserts count es (fun v => trues v ls ≤ 1) ∧
      Fixes count es (fun v => trues v ls = 1)) ?_ ?_ fuel count ls
  · intro count ls hk _
    exact ⟨asserts_clauses (known_pairs hk) (satisfies_pairs hk), fixes_clauses _ _ _⟩
  · intro count ls p q rows columns hp hq ihr ihc hk hlim
    rw [freshCount_level] at hlim
    obtain ⟨hkr, hkc⟩ := known_rows_columns (show count + p + q < Literal.limit by omega)
    obtain ⟨hsr, hfr⟩ := ihr hkr (by omega)
    obtain ⟨hsc, hfc⟩ := ihc (fun l hl => (hkc l hl).mono (by omega)) (by omega)
    exact ⟨level_asserts hp hq hk (by omega) hsr hsc,
      level_fixes hp hq hk (by omega) hsr hsc hfr hfc⟩

/-! ## The scheme -/

theorem product_fresh (count : Nat) (e : Bool) (ls : List Literal) :
    freshCount (product count e ls) = freshCount (grid ls.length count ls) := by simp [product]

theorem product_asserts {count : Nat} {ls : List Literal} (hk : ∀ l ∈ ls, l.Known count) (e : Bool)
    (hlim : count + freshCount (product count e ls) < Literal.limit) :
    Asserts count (product count e ls) (Meets e ls) := by
  rw [product_fresh] at hlim
  exact someOf_asserts hk (grid_asserts_fixes ls.length count ls hk hlim).1 e

/-- Where exactly one literal holds, the rows and columns of every level are determined. -/
theorem product_fixes {count : Nat} {ls : List Literal} (hk : ∀ l ∈ ls, l.Known count) (e : Bool)
    (hlim : count + freshCount (product count e ls) < Literal.limit) :
    Fixes count (product count e ls) (fun v => trues v ls = 1) := by
  rw [product_fresh] at hlim
  exact someOf_fixes (grid_asserts_fixes ls.length count ls hk hlim).2 e ls

end Clausify.Cardinality
