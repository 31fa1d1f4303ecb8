import Mathlib
import Clausify.Cardinality
import Clausify.Proofs.Clause.Valuation

/-!
What a cardinality scheme has to say, counted by position: `trues v ls` is the number of positions
of a list of literals that hold in a valuation. Emissions after `count` variables say a property
when they force it, and when every valuation with the property can be changed on the fresh
variables alone so that the clauses hold (`Emission.Asserts`). They fix their fresh variables when
no second choice of them is left (`Emission.Fixes`).

Main statement: the pairwise clauses hold exactly where at most one position does
(`satisfies_pairs`); the other schemes are measured against the same count.
-/

namespace Clausify

namespace Emission

@[simp] theorem clausesOf_nil : clausesOf [] = [] := rfl

@[simp] theorem clausesOf_fresh (es : List Emission) : clausesOf (fresh :: es) = clausesOf es := rfl

@[simp] theorem clausesOf_clause (c : Clause) (es : List Emission) :
    clausesOf (clause c :: es) = c :: clausesOf es := rfl

@[simp] theorem clausesOf_append (es fs : List Emission) :
    clausesOf (es ++ fs) = clausesOf es ++ clausesOf fs := by simp [clausesOf]

@[simp] theorem clausesOf_clauses (cs : List Clause) : clausesOf (clauses cs) = cs := by
  induction cs with
  | nil => rfl
  | cons c rest ih =>
    show c :: clausesOf (clauses rest) = c :: rest
    rw [ih]

@[simp] theorem clausesOf_allocate (n : Nat) : clausesOf (allocate n) = [] := by
  simp [clausesOf, allocate]

@[simp] theorem freshCount_nil : freshCount [] = 0 := rfl

@[simp] theorem freshCount_fresh (es : List Emission) :
    freshCount (fresh :: es) = freshCount es + 1 := by simp [freshCount]

@[simp] theorem freshCount_append (es fs : List Emission) :
    freshCount (es ++ fs) = freshCount es + freshCount fs := by simp [freshCount]

@[simp] theorem freshCount_clauses (cs : List Clause) : freshCount (clauses cs) = 0 := by
  simp [freshCount, clauses]

@[simp] theorem freshCount_allocate (n : Nat) : freshCount (allocate n) = n := by
  simp [freshCount, allocate, List.countP_replicate]

/-! ### The literals of fresh variables -/

@[simp] theorem literalsFrom_length (count n : Nat) : (literalsFrom count n).length = n := by
  simp [literalsFrom]

@[simp] theorem literalsFrom_getElem (count n i : Nat) (h : i < (literalsFrom count n).length) :
    (literalsFrom count n)[i] = Literal.ofVariable (count + i + 1) := by simp [literalsFrom]

theorem mem_literalsFrom {count n : Nat} {l : Literal} :
    l ∈ literalsFrom count n ↔ ∃ k, k < n ∧ l = Literal.ofVariable (count + k + 1) := by
  simp only [literalsFrom, List.mem_map, List.mem_range]
  constructor
  · rintro ⟨k, hk, rfl⟩
    exact ⟨k, hk, rfl⟩
  · rintro ⟨k, hk, rfl⟩
    exact ⟨k, hk, rfl⟩

theorem known_literalsFrom {count n : Nat} (h : count + n < Literal.limit) :
    ∀ l ∈ literalsFrom count n, l.Known (count + n) := by
  intro l hl
  obtain ⟨k, hk, rfl⟩ := mem_literalsFrom.mp hl
  exact Literal.known_ofVariable (by omega) (by omega) (by omega)

/-! ### Saying and fixing -/

/-- After `count` variables, the emissions say the property: their clauses force it, and where it
holds the fresh variables can be chosen so that the clauses hold. -/
structure Asserts (count : Nat) (es : List Emission) (P : Valuation → Prop) : Prop where
  known : ∀ c ∈ clausesOf es, c.Known (count + freshCount es)
  sound : ∀ v : Valuation, v.Satisfies (clausesOf es) → P v
  complete : ∀ v, P v → ∃ u : Valuation, v.Agree count u ∧ u.Satisfies (clausesOf es)

/-- After `count` variables, the clauses leave no second choice for the fresh variables of a
valuation with the property. -/
def Fixes (count : Nat) (es : List Emission) (P : Valuation → Prop) : Prop :=
  ∀ v u : Valuation, P v → v.Satisfies (clausesOf es) → u.Satisfies (clausesOf es) →
    v.Agree count u → v.Agree (count + freshCount es) u

theorem asserts_clauses {count : Nat} {cs : List Clause} {P : Valuation → Prop}
    (hk : ∀ c ∈ cs, c.Known count) (h : ∀ v : Valuation, v.Satisfies cs ↔ P v) :
    Asserts count (clauses cs) P where
  known := by simpa using hk
  sound v hv := (h v).mp (by simpa using hv)
  complete v hv := ⟨v, .refl _ _, by simpa using (h v).mpr hv⟩

theorem fixes_clauses (count : Nat) (cs : List Clause) (P : Valuation → Prop) :
    Fixes count (clauses cs) P := by
  intro v u _ _ _ h
  simpa using h

end Emission

namespace Cardinality

/-- The number of positions that hold. -/
def trues (v : Valuation) (ls : List Literal) : Nat := ls.countP (Literal.holds v)

/-- What is asked of the number of positions that hold: that it is one, or at most one. -/
def Meets (exactlyOne : Bool) (ls : List Literal) (v : Valuation) : Prop :=
  trues v ls ≤ 1 ∧ (exactlyOne = true → 1 ≤ trues v ls)

@[simp] theorem trues_nil (v : Valuation) : trues v [] = 0 := rfl

@[simp] theorem trues_cons (v : Valuation) (l : Literal) (ls : List Literal) :
    trues v (l :: ls) = trues v ls + (l.holds v).toNat := by
  cases h : l.holds v <;> simp [trues, h]

@[simp] theorem trues_append (v : Valuation) (ls ms : List Literal) :
    trues v (ls ++ ms) = trues v ls + trues v ms := by simp [trues]

theorem trues_pos_iff {v : Valuation} {ls : List Literal} :
    1 ≤ trues v ls ↔ ∃ l ∈ ls, l.holds v = true := by
  simp [trues, Nat.one_le_iff_ne_zero, List.countP_eq_zero]

theorem trues_eq_zero_iff {v : Valuation} {ls : List Literal} :
    trues v ls = 0 ↔ ∀ l ∈ ls, l.holds v = false := by
  simp [trues, List.countP_eq_zero]

theorem trues_congr {n : Nat} {v u : Valuation} {ls : List Literal}
    (hk : ∀ l ∈ ls, l.Known n) (h : v.Agree n u) : trues v ls = trues u ls := by
  apply List.countP_congr
  intro l hl
  rw [(hk l hl).holds_congr h]

/-- A sum is at most one when each term is and no two positions have a positive one. -/
theorem sum_map_le_one_iff {α : Type} {f : α → Nat} {xs : List α} :
    (xs.map f).sum ≤ 1 ↔ (∀ x ∈ xs, f x ≤ 1) ∧
      ∀ i j, (hi : i < xs.length) → (hj : j < xs.length) →
        1 ≤ f xs[i] → 1 ≤ f xs[j] → i = j := by
  induction xs with
  | nil => simp
  | cons x xs ih =>
    have hpos : ∀ i, (hi : i < xs.length) → 1 ≤ f xs[i] → 1 ≤ (xs.map f).sum := by
      intro i hi h
      exact Nat.le_trans h (List.le_sum_of_mem (List.mem_map_of_mem (List.getElem_mem hi)))
    rw [List.map_cons, List.sum_cons, List.forall_mem_cons]
    constructor
    · intro h
      obtain ⟨heach, hapart⟩ := ih.mp (by omega)
      refine ⟨⟨by omega, heach⟩, ?_⟩
      intro i j hi hj hfi hfj
      match i, j, hi, hj with
      | 0, 0, _, _ => rfl
      | 0, j + 1, _, hj =>
        have := hpos j (Nat.lt_of_succ_lt_succ hj) hfj
        rw [List.getElem_cons_zero] at hfi
        omega
      | i + 1, 0, hi, _ =>
        have := hpos i (Nat.lt_of_succ_lt_succ hi) hfi
        rw [List.getElem_cons_zero] at hfj
        omega
      | i + 1, j + 1, hi, hj =>
        rw [hapart i j (Nat.lt_of_succ_lt_succ hi) (Nat.lt_of_succ_lt_succ hj) hfi hfj]
    · rintro ⟨⟨hx, heach⟩, hapart⟩
      have hrest : (xs.map f).sum ≤ 1 := by
        refine ih.mpr ⟨heach, ?_⟩
        intro i j hi hj hfi hfj
        exact Nat.succ.inj (hapart (i + 1) (j + 1) (by simpa) (by simpa) hfi hfj)
      by_cases hzero : f x = 0
      · omega
      · -- with a positive first term no other term is positive
        have hnone : (xs.map f).sum = 0 := by
          apply List.sum_eq_zero
          intro n hn
          obtain ⟨y, hy, rfl⟩ := List.mem_map.mp hn
          obtain ⟨j, hj, rfl⟩ := List.getElem_of_mem hy
          by_contra hne
          have := hapart 0 (j + 1) (by simp) (by simpa) (by simp; omega) (by simp; omega)
          omega
        omega

theorem trues_eq_sum (v : Valuation) (ls : List Literal) :
    trues v ls = (ls.map fun l => (l.holds v).toNat).sum := by
  induction ls with
  | nil => rfl
  | cons l rest ih => rw [trues_cons, ih, List.map_cons, List.sum_cons, Nat.add_comm]

theorem trues_le_one_iff {v : Valuation} {ls : List Literal} :
    trues v ls ≤ 1 ↔ ∀ i j, (hi : i < ls.length) → (hj : j < ls.length) →
      ls[i].holds v = true → ls[j].holds v = true → i = j := by
  have hone : ∀ b : Bool, 1 ≤ b.toNat ↔ b = true := by decide
  rw [trues_eq_sum, sum_map_le_one_iff, and_iff_right fun l _ => Bool.toNat_le _]
  simp only [hone]

theorem trues_literalsFrom_le_one_iff {v : Valuation} {count n : Nat}
    (h : count + n < Literal.limit) :
    trues v (Emission.literalsFrom count n) ≤ 1 ↔
      ∀ i j, i < n → j < n → v (count + i + 1) = true → v (count + j + 1) = true → i = j := by
  rw [trues_le_one_iff]
  simp only [Emission.literalsFrom_length, Emission.literalsFrom_getElem]
  constructor
  · intro hv i j hi hj hvi hvj
    apply hv i j hi hj
    · rw [Literal.holds_ofVariable (by omega) (by omega), hvi]
    · rw [Literal.holds_ofVariable (by omega) (by omega), hvj]
  · intro hv i j hi hj hvi hvj
    rw [Literal.holds_ofVariable (by omega) (by omega)] at hvi hvj
    exact hv i j hi hj hvi hvj

/-! ### The pairwise scheme -/

theorem over_pairs {P : Literal → Prop} (hneg : ∀ l, P l → P (-l)) {ls : List Literal}
    (h : ∀ l ∈ ls, P l) : ∀ c ∈ pairs ls, ∀ l ∈ c, P l := by
  induction ls with
  | nil => simp [pairs]
  | cons l rest ih =>
    rw [List.forall_mem_cons] at h
    intro c hc
    rcases List.mem_append.mp hc with hc | hc
    · obtain ⟨m, hm, rfl⟩ := List.mem_map.mp hc
      simp [hneg l h.1, hneg m (h.2 m hm)]
    · exact ih h.2 c hc

theorem known_pairs {n : Nat} {ls : List Literal} (hk : ∀ l ∈ ls, l.Known n) :
    ∀ c ∈ pairs ls, c.Known n :=
  over_pairs (P := Literal.Known n) (fun _ => .neg) hk

theorem satisfies_pairs {n : Nat} {ls : List Literal} (hk : ∀ l ∈ ls, l.Known n)
    (v : Valuation) : v.Satisfies (pairs ls) ↔ trues v ls ≤ 1 := by
  induction ls with
  | nil => simp [pairs]
  | cons l rest ih =>
    rw [List.forall_mem_cons] at hk
    -- where the first literal holds, its clauses exclude all others
    have hfirst : v.Satisfies (rest.map fun m => [-l, -m]) ↔
        (l.holds v = true → trues v rest = 0) := by
      rw [trues_eq_zero_iff]
      constructor
      · intro h hl m hm
        have := h _ (List.mem_map_of_mem hm)
        simpa [hk.1.holds_neg, (hk.2 m hm).holds_neg, hl] using this
      · intro h c hc
        obtain ⟨m, hm, rfl⟩ := List.mem_map.mp hc
        cases hl : l.holds v with
        | false => simp [hk.1.holds_neg, hl]
        | true => simp [(hk.2 m hm).holds_neg, h hl m hm]
    rw [pairs, Valuation.satisfies_append, hfirst, ih hk.2, trues_cons]
    cases hl : l.holds v with
    | false => simp
    | true =>
      simp only [forall_const, Bool.toNat_true]
      omega

theorem over_someOf {P : Literal → Prop} {e : Bool} {ls : List Literal} (h : ∀ l ∈ ls, P l) :
    ∀ c ∈ someOf e ls, ∀ l ∈ c, P l := by
  intro c hc
  cases e with
  | false => simp [someOf] at hc
  | true =>
    simp only [someOf, if_true, List.mem_singleton] at hc
    rw [hc]
    exact h

theorem known_someOf {n : Nat} {e : Bool} {ls : List Literal} (hk : ∀ l ∈ ls, l.Known n) :
    ∀ c ∈ someOf e ls, c.Known n :=
  over_someOf hk

theorem satisfies_someOf {e : Bool} {ls : List Literal} (v : Valuation) :
    v.Satisfies (someOf e ls) ↔ (e = true → 1 ≤ trues v ls) := by
  cases e with
  | false => simp [someOf]
  | true => simp [someOf, Clause.holds_iff, trues_pos_iff]

/-- Clauses that say "at most one" meet the demand once "some" is written before them. -/
theorem someOf_asserts {count : Nat} {es : List Emission} {ls : List Literal}
    (hk : ∀ l ∈ ls, l.Known count) (h : Emission.Asserts count es fun v => trues v ls ≤ 1)
    (e : Bool) :
    Emission.Asserts count (Emission.clauses (someOf e ls) ++ es) (Meets e ls) where
  known := by
    intro c hc
    simp only [Emission.clausesOf_append, Emission.clausesOf_clauses, Emission.freshCount_append,
      Emission.freshCount_clauses, List.mem_append, Nat.zero_add] at hc ⊢
    rcases hc with hc | hc
    · exact (known_someOf hk c hc).mono (Nat.le_add_right _ _)
    · exact h.known c hc
  sound := by
    intro v hv
    simp only [Emission.clausesOf_append, Emission.clausesOf_clauses,
      Valuation.satisfies_append] at hv
    exact ⟨h.sound v hv.2, (satisfies_someOf v).mp hv.1⟩
  complete := by
    rintro v ⟨hle, hge⟩
    obtain ⟨u, ha, hu⟩ := h.complete v hle
    rw [trues_congr hk ha] at hge
    refine ⟨u, ha, ?_⟩
    simp only [Emission.clausesOf_append, Emission.clausesOf_clauses, Valuation.satisfies_append]
    exact ⟨(satisfies_someOf u).mpr hge, hu⟩

theorem someOf_fixes {count : Nat} {es : List Emission} {P : Valuation → Prop}
    (h : Emission.Fixes count es P) (e : Bool) (ls : List Literal) :
    Emission.Fixes count (Emission.clauses (someOf e ls) ++ es) P := by
  intro v u hP hv hu ha
  simp only [Emission.clausesOf_append, Emission.clausesOf_clauses,
    Valuation.satisfies_append] at hv hu
  simpa using h v u hP hv.2 hu.2 ha

theorem pairwise_asserts {count : Nat} {ls : List Literal} (hk : ∀ l ∈ ls, l.Known count)
    (e : Bool) :
    Emission.Asserts count (pairwise e ls) (Meets e ls) := by
  apply Emission.asserts_clauses
  · intro c hc
    rcases List.mem_append.mp hc with hc | hc
    · exact known_pairs hk c hc
    · exact known_someOf hk c hc
  · intro v
    rw [Valuation.satisfies_append, satisfies_pairs hk, satisfies_someOf]
    rfl

theorem pairwise_fixes (count : Nat) (ls : List Literal) (e : Bool) (P : Valuation → Prop) :
    Emission.Fixes count (pairwise e ls) P :=
  Emission.fixes_clauses _ _ _

end Cardinality

end Clausify
