import Mathlib
import Clausify.Encoding.Constraint
import Clausify.Proofs.Cardinality.Count

/-!
What the clauses of a constraint say. The terms of an operand speak of a value when the literals of
its values hold exactly at that value (`Speaks`). Under valuations where all terms speak, each
family of clauses is satisfied exactly when the literal `aux` has the truth of the rule at the
values spoken of: conflicts and supports for relations, results for functions, an equivalence for
bounds, and a disjunction.
-/

namespace Clausify.Encoding

/-- The terms have the value, and no literal but that of the value holds. -/
def Speaks (v : Valuation) (terms : List Term) (w : Word) : Prop :=
  (∀ t ∈ terms, (t.2.holds v = true ↔ t.1 = w)) ∧ ∃ t ∈ terms, t.1 = w

section Meaning

variable {n : Nat} {aux : Literal} {v : Valuation}

theorem holds_signed (ha : aux.Known n) (b : Bool) :
    (if b then aux else -aux).holds v = true ↔ aux.holds v = b := by
  cases b <;> simp [ha.holds_neg]

/-! ## Conflicts -/

theorem known_conflictsFrom {test : List Word → Bool} (ha : aux.Known n)
    {operands : List (List Term)} (hk : ∀ ts ∈ operands, ∀ t ∈ ts, t.2.Known n)
    {values : List Word} {literals : List Literal} (hl : ∀ l ∈ literals, l.Known n) :
    ∀ c ∈ conflictsFrom test aux values literals operands, c.Known n := by
  induction operands generalizing values literals with
  | nil =>
    simp only [conflictsFrom, List.forall_mem_singleton]
    intro l hmem
    rw [List.mem_reverse] at hmem
    rcases List.mem_cons.mp hmem with rfl | hmem
    · split
      · exact ha
      · exact ha.neg
    · exact hl l hmem
  | cons ts rest ih =>
    rw [List.forall_mem_cons] at hk
    intro c hc
    obtain ⟨t, ht, hc⟩ := List.mem_flatMap.mp hc
    exact ih hk.2 (List.forall_mem_cons.mpr ⟨(hk.1 t ht).neg, hl⟩) c hc

/-- With some operands fixed, the clauses say that one of their negations or the right sign of
`aux` holds. -/
theorem satisfies_conflictsFrom {test : List Word → Bool} (ha : aux.Known n)
    {operands : List (List Term)} {ws : List Word} (hk : ∀ ts ∈ operands, ∀ t ∈ ts, t.2.Known n)
    (hs : List.Forall₂ (Speaks v) operands ws) {values : List Word} {literals : List Literal} :
    v.Satisfies (conflictsFrom test aux values literals operands) ↔
      Clause.holds v literals = true ∨ aux.holds v = test (values.reverse ++ ws) := by
  induction hs generalizing values literals with
  | nil =>
    rw [conflictsFrom, Valuation.satisfies_cons, and_iff_left (Valuation.satisfies_nil v),
      Clause.holds, List.any_reverse, List.any_cons, Bool.or_eq_true, holds_signed ha,
      List.append_nil, or_comm]
    rfl
  | @cons ts w rest ws hspeaks _ ih =>
    rw [List.forall_mem_cons] at hk
    obtain ⟨hiff, t, ht, rfl⟩ := hspeaks
    rw [conflictsFrom, Valuation.satisfies_flatMap]
    constructor
    · -- the clauses of the value that is taken
      intro h
      have htrue := (hiff t ht).mpr rfl
      have := (ih hk.2).mp (h t ht)
      simpa [(hk.1 t ht).holds_neg, htrue] using this
    · intro h u hu
      refine (ih hk.2).mpr ?_
      by_cases heq : u.1 = t.1
      · rw [heq]
        simpa [or_assoc] using Or.imp_left Or.inr h
      · have hfalse : u.2.holds v = false := by
          rw [← Bool.not_eq_true, hiff u hu]
          exact heq
        simp [(hk.1 u hu).holds_neg, hfalse]

/-- The clauses of all combinations give `aux` the truth of the test. -/
theorem satisfies_conflicts {test : List Word → Bool} (ha : aux.Known n)
    {operands : List (List Term)} {ws : List Word} (hk : ∀ ts ∈ operands, ∀ t ∈ ts, t.2.Known n)
    (hs : List.Forall₂ (Speaks v) operands ws) :
    v.Satisfies (conflicts test aux operands) ↔ aux.holds v = test ws := by
  rw [conflicts, satisfies_conflictsFrom ha hk hs]
  simp

/-! ## Supports -/

theorem known_supportSide {test : Word → Word → Bool} (ha : aux.Known n) {xs ys : List Term}
    (hx : ∀ t ∈ xs, t.2.Known n) (hy : ∀ t ∈ ys, t.2.Known n) :
    ∀ c ∈ supportSide test aux xs ys, c.Known n := by
  intro c hc
  obtain ⟨t, ht, hc⟩ := List.mem_flatMap.mp hc
  have hfilter : ∀ p : Term → Bool, Clause.Known n ((ys.filter p).map Prod.snd) := by
    intro p l hl
    obtain ⟨u, hu, rfl⟩ := List.mem_map.mp hl
    exact hy u (List.mem_filter.mp hu).1
  rcases List.mem_pair.mp hc with rfl | rfl
  · exact Clause.known_cons.mpr ⟨ha.neg, Clause.known_cons.mpr ⟨(hx t ht).neg, hfilter _⟩⟩
  · exact Clause.known_cons.mpr ⟨ha, Clause.known_cons.mpr ⟨(hx t ht).neg, hfilter _⟩⟩

/-- Among terms that speak of a value, one with a property holds when the value has it. -/
theorem holds_filter_iff {ys : List Term} {j : Word} (hy : Speaks v ys j) (p : Word → Bool) :
    Clause.holds v ((ys.filter fun t => p t.1).map Prod.snd) = p j := by
  obtain ⟨hiff, t, ht, rfl⟩ := hy
  rw [Bool.eq_iff_iff, Clause.holds_iff]
  constructor
  · rintro ⟨l, hl, hlv⟩
    obtain ⟨u, hu, rfl⟩ := List.mem_map.mp hl
    rw [List.mem_filter] at hu
    rw [← (hiff u hu.1).mp hlv]
    exact hu.2
  · intro hp
    exact ⟨t.2, List.mem_map_of_mem (List.mem_filter.mpr ⟨ht, hp⟩), (hiff t ht).mpr rfl⟩

theorem satisfies_supportSide {test : Word → Word → Bool} (ha : aux.Known n) {xs ys : List Term}
    {i j : Word} (hk : ∀ t ∈ xs, t.2.Known n) (hx : Speaks v xs i) (hy : Speaks v ys j) :
    v.Satisfies (supportSide test aux xs ys) ↔ aux.holds v = test i j := by
  obtain ⟨hiff, t, ht, rfl⟩ := hx
  have hval : ∀ u ∈ xs, v.Satisfies
      [-aux :: -u.2 :: (ys.filter fun t => test u.1 t.1).map Prod.snd,
        aux :: -u.2 :: (ys.filter fun t => !test u.1 t.1).map Prod.snd] ↔
      (u.2.holds v = true → aux.holds v = test u.1 j) := by
    intro u hu
    simp only [Valuation.satisfies_cons, Valuation.satisfies_nil, Clause.holds_cons,
      holds_filter_iff hy (test u.1), holds_filter_iff hy (fun w => !test u.1 w), ha.holds_neg,
      (hk u hu).holds_neg]
    cases aux.holds v <;> cases u.2.holds v <;> cases test u.1 j <;> simp
  rw [supportSide, Valuation.satisfies_flatMap]
  constructor
  · intro h
    exact (hval t ht).mp (h t ht) ((hiff t ht).mpr rfl)
  · intro h u hu
    refine (hval u hu).mpr fun htrue => ?_
    rw [(hiff u hu).mp htrue, h]

theorem known_supports {test : Word → Word → Bool} (ha : aux.Known n) {xs ys : List Term}
    (hx : ∀ t ∈ xs, t.2.Known n) (hy : ∀ t ∈ ys, t.2.Known n) :
    ∀ c ∈ supports test aux xs ys, c.Known n :=
  List.forall_mem_append.mpr ⟨known_supportSide ha hx hy, known_supportSide ha hy hx⟩

theorem satisfies_supports {test : Word → Word → Bool} (ha : aux.Known n) {xs ys : List Term}
    {i j : Word} (hkx : ∀ t ∈ xs, t.2.Known n) (hky : ∀ t ∈ ys, t.2.Known n) (hx : Speaks v xs i)
    (hy : Speaks v ys j) :
    v.Satisfies (supports test aux xs ys) ↔ aux.holds v = test i j := by
  rw [supports, Valuation.satisfies_append, satisfies_supportSide ha hkx hx hy,
    satisfies_supportSide ha hky hy hx, and_self]

/-! ## Results, equivalences and disjunctions -/

theorem known_results {function : Word → Word → Option Word} {result : Word → Literal}
    {xs ys : List Term} (hx : ∀ t ∈ xs, t.2.Known n) (hy : ∀ t ∈ ys, t.2.Known n)
    (hr : ∀ w, (result w).Known n) : ∀ c ∈ results function result xs ys, c.Known n := by
  intro c hc
  obtain ⟨t, ht, hc⟩ := List.mem_flatMap.mp hc
  obtain ⟨u, hu, rfl⟩ := List.mem_map.mp hc
  have hlast : (((function t.1 u.1).map result).getD .never).Known n := by
    cases function t.1 u.1 with
    | none => exact Literal.known_never n
    | some w => exact hr w
  simp [(hx t ht).neg, (hy u hu).neg, hlast]

theorem satisfies_results {function : Word → Word → Option Word} {result : Word → Literal}
    {xs ys : List Term} {i j : Word} (hkx : ∀ t ∈ xs, t.2.Known n) (hky : ∀ t ∈ ys, t.2.Known n)
    (hx : Speaks v xs i) (hy : Speaks v ys j) :
    v.Satisfies (results function result xs ys) ↔
      (((function i j).map result).getD .never).holds v = true := by
  obtain ⟨hxiff, t, ht, rfl⟩ := hx
  obtain ⟨hyiff, u, hu, rfl⟩ := hy
  rw [results, Valuation.satisfies_flatMap]
  constructor
  · intro h
    have := h t ht _ (List.mem_map_of_mem hu)
    simpa [(hkx t ht).holds_neg, (hky u hu).holds_neg, (hxiff t ht).mpr rfl, (hyiff u hu).mpr rfl]
      using this
  · intro h t' ht' c hc
    obtain ⟨u', hu', rfl⟩ := List.mem_map.mp hc
    cases htv : t'.2.holds v with
    | false => simp [(hkx t' ht').holds_neg, htv]
    | true =>
      cases huv : u'.2.holds v with
      | false => simp [(hky u' hu').holds_neg, huv]
      | true =>
        simp [(hxiff t' ht').mp htv, (hyiff u' hu').mp huv, h]

theorem known_equivalent {l : Literal} (ha : aux.Known n) (hl : l.Known n) :
    ∀ c ∈ equivalent aux l, c.Known n := by
  simp [equivalent, ha, ha.neg, hl, hl.neg]

theorem satisfies_equivalent {l : Literal} (ha : aux.Known n) (hl : l.Known n) :
    v.Satisfies (equivalent aux l) ↔ aux.holds v = l.holds v := by
  cases hav : aux.holds v <;> cases hlv : l.holds v <;>
    simp [equivalent, ha.holds_neg, hl.holds_neg, hav, hlv]

theorem known_disjunction {ls : List Literal} (ha : aux.Known n) (hl : ∀ l ∈ ls, l.Known n) :
    ∀ c ∈ disjunction aux ls, c.Known n := by
  refine List.forall_mem_cons.mpr ⟨Clause.known_cons.mpr ⟨ha.neg, hl⟩, ?_⟩
  intro c hc
  obtain ⟨l, hmem, rfl⟩ := List.mem_map.mp hc
  simp [ha, (hl l hmem).neg]

theorem satisfies_disjunction {ls : List Literal} (ha : aux.Known n) (hl : ∀ l ∈ ls, l.Known n) :
    v.Satisfies (disjunction aux ls) ↔ aux.holds v = decide (1 ≤ Cardinality.trues v ls) := by
  have heach : v.Satisfies (ls.map fun l => [-l, aux]) ↔
      (1 ≤ Cardinality.trues v ls → aux.holds v = true) := by
    rw [Cardinality.trues_pos_iff]
    constructor
    · rintro h ⟨l, hmem, hlv⟩
      have := h _ (List.mem_map_of_mem hmem)
      simpa [(hl l hmem).holds_neg, hlv] using this
    · intro h c hc
      obtain ⟨l, hmem, rfl⟩ := List.mem_map.mp hc
      cases hlv : l.holds v with
      | false => simp [(hl l hmem).holds_neg, hlv]
      | true => simp [h ⟨l, hmem, hlv⟩]
  have hsome : Clause.holds v ls = decide (1 ≤ Cardinality.trues v ls) := by
    rw [Bool.eq_iff_iff, Clause.holds_iff, decide_eq_true_eq, Cardinality.trues_pos_iff]
  rw [disjunction, Valuation.satisfies_cons, heach, Clause.holds_cons, hsome, ha.holds_neg]
  cases aux.holds v <;> by_cases h1 : 1 ≤ Cardinality.trues v ls <;> simp [h1]

end Meaning

end Clausify.Encoding
