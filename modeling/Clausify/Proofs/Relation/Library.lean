import Mathlib
import Clausify.Proofs.Relation.Check
import Clausify.Relation.Library

/-!
What the library builds. A named relation gives a single valid constraint over its operands, or, for
`alldiff`, one disequality for each pair of them (`build_cases`); so every constraint of the library
is valid, speaks about the given operands only and is not reified (`of_mem_build`). None at all is
built just for `alldiff` of fewer than two operands (`build_eq_nil_iff`).
-/

namespace Clausify.Library

variable {relation : String} {operands : List Operand} {offset value : Word}
  {cs : List Constraint} {c : Constraint}

/-! ## Disequalities -/

theorem mem_allDifferent (h : c ∈ allDifferent operands) :
    ∃ x ∈ operands, ∃ y ∈ operands, c = different x y := by
  induction operands with
  | nil => simp [allDifferent] at h
  | cons x rest ih =>
    rw [allDifferent, List.mem_append] at h
    rcases h with h | h
    · obtain ⟨y, hy, rfl⟩ := List.mem_map.mp h
      exact ⟨x, List.mem_cons_self, y, List.mem_cons_of_mem _ hy, rfl⟩
    · obtain ⟨y, hy, z, hz, rfl⟩ := ih h
      exact ⟨y, List.mem_cons_of_mem _ hy, z, List.mem_cons_of_mem _ hz, rfl⟩

theorem allDifferent_eq_nil_iff : allDifferent operands = [] ↔ operands.length ≤ 1 := by
  cases operands with
  | nil => simp [allDifferent]
  | cons x rest =>
    rw [allDifferent, List.append_eq_nil_iff, List.map_eq_nil_iff, List.length_cons]
    constructor
    · rintro ⟨rfl, -⟩
      exact Nat.le_refl 1
    · intro h
      obtain rfl : rest = [] := List.eq_nil_of_length_eq_zero (by omega)
      exact ⟨rfl, rfl⟩

/-! ## Named relations -/

/-- A valid constraint over given operands that no variable reifies. -/
structure Posts (operands : List Operand) (c : Constraint) : Prop where
  valid : c.validate = .ok ()
  operands_eq : c.operands = operands
  reify_eq : c.reify = none

theorem mem_of_lookup {table : List (String × Rule)} {rule : Rule}
    (h : table.lookup relation = some rule) : rule ∈ table.map Prod.snd := by
  obtain ⟨before, after, rfl, -⟩ := List.lookup_eq_some_iff.mp h
  simp

theorem comparison_cases {compare : Word → Word → Bool}
    (h : comparison relation compare operands offset = .ok cs) :
    ∃ c, cs = [c] ∧ Posts operands c := by
  unfold comparison at h
  dsimp only at h
  split at h
  · obtain rfl := Except.ok.inj h
    exact ⟨_, rfl, rfl, rfl, rfl⟩
  · obtain rfl := Except.ok.inj h
    exact ⟨_, rfl, rfl, rfl, rfl⟩
  · simp at h

/-- A relation of the library gives one valid constraint over its operands, or it is `alldiff` and
gives the disequalities. -/
theorem build_cases (h : build relation operands offset value = .ok cs) :
    (Text.lower relation ≠ "alldiff" ∧ ∃ c, cs = [c] ∧ Posts operands c) ∨
      Text.lower relation = "alldiff" ∧ cs = allDifferent operands := by
  unfold build at h
  generalize Text.lower relation = relation at h ⊢
  -- the tables do not hold the name that decomposes
  have hne : ∀ {α : Type} {table : List (String × α)} {a : α}, table.lookup "alldiff" = none →
      table.lookup relation = some a → relation ≠ "alldiff" := by
    rintro α table a hnone hsome rfl
    simp [hnone] at hsome
  dsimp only at h
  split at h
  · next compare hlookup => exact .inl ⟨hne rfl hlookup, comparison_cases h⟩
  split at h
  · next function hlookup =>
    split_ifs at h with hlength
    obtain rfl := Except.ok.inj h
    refine .inl ⟨hne rfl hlookup, _, rfl, ?_, rfl, rfl⟩
    simp [Constraint.validate, hlength]
  split at h
  · next rule hlookup =>
    split_ifs at h with hlength
    obtain rfl := Except.ok.inj h
    refine .inl ⟨hne rfl hlookup, _, rfl, ?_, rfl, rfl⟩
    have hrule : rule = .atLeast ∨ rule = .atMost := by simpa [bounds] using mem_of_lookup hlookup
    rcases hrule with rfl | rfl <;> simp [Constraint.validate, hlength]
  split at h
  · next rule hlookup =>
    obtain rfl := Except.ok.inj h
    refine .inl ⟨hne rfl hlookup, _, rfl, ?_, rfl, rfl⟩
    have hrule : rule = .atMostOne ∨ rule = .exactlyOne ∨ rule = .disjunction := by
      simpa [cardinalities] using mem_of_lookup hlookup
    rcases hrule with rfl | rfl | rfl <;> rfl
  split_ifs at h with hname
  obtain rfl := Except.ok.inj h
  exact .inr ⟨hname, rfl⟩

/-- Every constraint of the library is valid, speaks about the given operands and is not reified. -/
theorem of_mem_build (h : build relation operands offset value = .ok cs) (hc : c ∈ cs) :
    c.validate = .ok () ∧ c.operands ⊆ operands ∧ c.reify = none := by
  rcases build_cases h with ⟨-, c', rfl, hpost⟩ | ⟨-, rfl⟩
  · obtain rfl := List.mem_singleton.mp hc
    refine ⟨hpost.valid, ?_, hpost.reify_eq⟩
    rw [hpost.operands_eq]
    exact List.Subset.refl _
  · obtain ⟨x, hx, y, hy, rfl⟩ := mem_allDifferent hc
    exact ⟨rfl, by simp [different, hx, hy], rfl⟩

/-- Nothing is built only for `alldiff` of fewer than two operands. -/
theorem build_eq_nil_iff (h : build relation operands offset value = .ok cs) :
    cs = [] ↔ Text.lower relation = "alldiff" ∧ operands.length ≤ 1 := by
  rcases build_cases h with ⟨hname, c', rfl, -⟩ | ⟨hname, rfl⟩
  · simp [hname]
  · rw [allDifferent_eq_nil_iff, and_iff_right hname]

/-! ## Values that are read -/

theorem fed_of_arity {test : Test} (hrule : c.rule = .relation (some test))
    (h : test.arity ≤ c.operands.length) : c.Fed := by
  intro other hother
  obtain rfl := Option.some.inj (Rule.relation.inj (hrule.symm.trans hother))
  exact h

theorem fed_allDifferent (operands : List Operand) : ∀ c ∈ allDifferent operands, c.Fed := by
  induction operands with
  | nil => simp [allDifferent]
  | cons x rest ih =>
    rw [allDifferent, List.forall_mem_append]
    refine ⟨fun c hc => ?_, ih⟩
    obtain ⟨y, -, rfl⟩ := List.mem_map.mp hc
    exact fed_of_arity rfl (Nat.le_refl 2)

theorem fed_of_lookup {table : List (String × Rule)}
    (htable : ∀ entry ∈ table, ∀ test, entry.2 ≠ .relation test)
    (h : table.lookup relation = some c.rule) : c.Fed := by
  intro test htest
  obtain ⟨before, after, rfl, -⟩ := List.lookup_eq_some_iff.mp h
  exact absurd htest (htable (relation, c.rule) (by simp) _)

/-- The library picks the test by the number of operands. -/
theorem fed_of_build (h : build relation operands offset value = .ok cs) :
    ∀ c ∈ cs, c.Fed := by
  unfold build at h
  dsimp only at h
  split at h
  · -- a comparison of one operand with the offset, or of two operands
    unfold comparison at h
    dsimp only at h
    split at h
    · obtain rfl := Except.ok.inj h
      exact List.forall_mem_singleton.mpr (fed_of_arity rfl (Nat.le_refl 1))
    · obtain rfl := Except.ok.inj h
      exact List.forall_mem_singleton.mpr (fed_of_arity rfl (Nat.le_refl 2))
    · simp at h
  split at h
  · split at h
    · simp at h
    · obtain rfl := Except.ok.inj h
      simp [Constraint.Fed]
  split at h
  · next rule hrule =>
    split at h
    · simp at h
    · obtain rfl := Except.ok.inj h
      rw [List.forall_mem_singleton]
      exact fed_of_lookup (by simp [bounds]) hrule
  split at h
  · next rule hrule =>
    obtain rfl := Except.ok.inj h
    rw [List.forall_mem_singleton]
    exact fed_of_lookup (by simp [cardinalities]) hrule
  split at h
  · obtain rfl := Except.ok.inj h
    exact fed_allDifferent operands
  · simp at h

end Clausify.Library
