import Mathlib
import Clausify.Relation.Constraint

/-!
Constraints over total assignments. Where every variable has a value, a constraint holds when the
truth of its rule is that of its reifying variable, or when the rule is true if there is none
(`Constraint.Holds`). The rule of a valid constraint that has the operands it reads is true or false
of any values (`Constraint.exists_satisfied`). Main statement: checking a constraint on an
assignment that gives its variables these values compares the two (`Constraint.check_eq`), so it
answers "true" exactly then (`Constraint.check_eq_true_iff`).
-/

namespace Clausify

/-- The value of an operand where every variable has one. -/
def Operand.valueIn (a : String → Word) : Operand → Word
  | .const value => value
  | .var name => a name

namespace Constraint

theorem mem_variableNames {c : Constraint} {x : String} :
    x ∈ c.variableNames ↔ Operand.var x ∈ c.operands ∨ c.reify = some x := by
  rw [variableNames, List.mem_eraseDups, List.mem_append, Option.mem_toList]
  refine or_congr_left ?_
  rw [List.mem_filterMap]
  constructor
  · rintro ⟨o, ho, hx⟩
    cases o with
    | var y => rwa [← Option.some_inj.mp hx]
    | const w => simp [Operand.name?] at hx
  · intro h
    exact ⟨.var x, h, rfl⟩

/-- What the reifying variable says of the rule; without one, the rule is to be true. -/
def verdict (c : Constraint) (a : String → Word) : Bool :=
  match c.reify with
  | none => true
  | some name => a name = 1

/-- The constraint is true of the values of all variables. -/
def Holds (c : Constraint) (a : String → Word) : Prop :=
  c.satisfied (c.operands.map (Operand.valueIn a)) = .ok (c.verdict a)

/-- The test, if there is one, reads no more values than there are operands. This is so for all
constraints of the library (`Library.fed_of_build`). -/
def Fed (c : Constraint) : Prop :=
  ∀ test, c.rule = .relation (some test) → test.arity ≤ c.operands.length

/-- A rule that is complete and has its operands is true or false of their values. -/
theorem exists_satisfied {c : Constraint} (hvalid : c.validate = .ok ())
    (hfed : c.Fed) {values : List Word} (hlength : values.length = c.operands.length) :
    ∃ b, c.satisfied values = .ok b := by
  unfold validate at hvalid
  cases hrule : c.rule with
  | relation test =>
    cases test with
    | none => simp [hrule] at hvalid
    | some test =>
      -- a test is given as many values as there are operands
      have harity : ¬ values.length < test.arity := by
        rw [hlength]
        exact Nat.not_lt.mpr (hfed test hrule)
      exact ⟨test.holds values, by simp [satisfied, hrule, harity]⟩
  | functional function =>
    cases function with
    | none => simp [hrule] at hvalid
    | some function =>
      have hthree : values.length = 3 := by simpa [hrule, ← hlength] using hvalid
      obtain ⟨x, y, z, rfl⟩ := List.length_eq_three.mp hthree
      cases hresult : function x y with
      | none => exact ⟨false, by simp [satisfied, hrule, hresult]⟩
      | some result => exact ⟨decide (result = z), by simp [satisfied, hrule, hresult]⟩
  | atMost =>
    have hone : values.length = 1 := by simpa [hrule, ← hlength] using hvalid
    obtain ⟨x, rfl⟩ := List.length_eq_one_iff.mp hone
    exact ⟨decide (x ≤ c.threshold), by simp [satisfied, hrule]⟩
  | atLeast =>
    have hone : values.length = 1 := by simpa [hrule, ← hlength] using hvalid
    obtain ⟨x, rfl⟩ := List.length_eq_one_iff.mp hone
    exact ⟨decide (c.threshold ≤ x), by simp [satisfied, hrule]⟩
  | atMostOne => exact ⟨decide (ones values ≤ 1), by simp [satisfied, hrule]⟩
  | exactlyOne => exact ⟨decide (ones values = 1), by simp [satisfied, hrule]⟩
  | disjunction => exact ⟨decide (1 ≤ ones values), by simp [satisfied, hrule]⟩
  | unknown tag => simp [hrule] at hvalid

theorem mapM_valueOf {assignment : Assignment} {a : String → Word} {operands : List Operand}
    (h : ∀ x, Operand.var x ∈ operands → assignment.lookup x = some (a x)) :
    operands.mapM (valueOf assignment) = .ok (operands.map (Operand.valueIn a)) := by
  induction operands with
  | nil => rfl
  | cons o rest ih =>
    have ho : valueOf assignment o = .ok (o.valueIn a) := by
      cases o with
      | const w => rfl
      | var x => simp [valueOf, Operand.valueIn, h x List.mem_cons_self]
    rw [List.mapM_cons, ho, ih fun x hx => h x (List.mem_cons_of_mem _ hx)]
    rfl

section Lookup

variable {c : Constraint} {assignment : Assignment} {a : String → Word}

/-- Checking a constraint compares the truth of its rule with what the reifying variable says. -/
theorem check_eq (h : ∀ x ∈ c.variableNames, assignment.lookup x = some (a x)) :
    c.check assignment =
      (c.satisfied (c.operands.map (Operand.valueIn a))).map (· == c.verdict a) := by
  have hoperands := mapM_valueOf fun x hx => h x (mem_variableNames.mpr (.inl hx))
  simp only [check, hoperands, verdict]
  show (c.satisfied _ >>= _) = _
  cases c.satisfied (c.operands.map (Operand.valueIn a)) with
  | error misuse => rfl
  | ok b =>
    cases hr : c.reify with
    | none => simp [bind, Except.bind, Except.map]
    | some x =>
      have hx := h x (mem_variableNames.mpr (.inr hr))
      simp [bind, Except.bind, Except.map, valueOf, hx]

theorem check_eq_true_iff (h : ∀ x ∈ c.variableNames, assignment.lookup x = some (a x)) :
    c.check assignment = .ok true ↔ c.Holds a := by
  rw [check_eq h, Holds]
  cases c.satisfied (c.operands.map (Operand.valueIn a)) with
  | error misuse => simp [Except.map]
  | ok b => simp [Except.map]

end Lookup

end Constraint

end Clausify
