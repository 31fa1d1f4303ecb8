import Mathlib
import Clausify.Proofs.Relation.Arithmetic

/-!
The comparisons of the library against the integers. A comparison of two operands adds its offset to
the second of them modulo the number of words, and compares words (`satisfied_eq`). As words are
compared like integers, the answer is that for the integers as long as the sum is in range. Main
statement: it is so for no other sum, since one that leaves the range comes back on the far side of
some word, whatever the comparison (`exact_iff_sum_fits`).
-/

namespace Clausify

inductive Comparison where
  | eq
  | ne
  | lt
  | le
  | gt
  | ge
  deriving DecidableEq, Repr

namespace Comparison

open Library Arithmetic
open Word (Fits fits_iff)

def name : Comparison → String
  | eq => "eq"
  | ne => "ne"
  | lt => "lt"
  | le => "le"
  | gt => "gt"
  | ge => "ge"

/-- What a comparison says of two integers. -/
def Holds (op : Comparison) (x y : Int) : Prop :=
  match op with
  | eq => x = y
  | ne => x ≠ y
  | lt => x < y
  | le => x ≤ y
  | gt => x > y
  | ge => x ≥ y

instance (op : Comparison) (x y : Int) : Decidable (op.Holds x y) :=
  match op with
  | eq => inferInstanceAs (Decidable (x = y))
  | ne => inferInstanceAs (Decidable (x ≠ y))
  | lt => inferInstanceAs (Decidable (x < y))
  | le => inferInstanceAs (Decidable (x ≤ y))
  | gt => inferInstanceAs (Decidable (x > y))
  | ge => inferInstanceAs (Decidable (x ≥ y))

def test : Comparison → Word → Word → Bool
  | eq => fun x y => x = y
  | ne => fun x y => x ≠ y
  | lt => fun x y => x < y
  | le => fun x y => x ≤ y
  | gt => fun x y => y < x
  | ge => fun x y => y ≤ x

theorem lookup_name (op : Comparison) : comparisons.lookup op.name = some op.test := by
  cases op <;> rfl

theorem test_eq (op : Comparison) (x y : Word) :
    op.test x y = decide (op.Holds x.toInt y.toInt) := by
  rw [Bool.eq_iff_iff, decide_eq_true_iff]
  cases op <;>
    simp [test, Holds, Int64.lt_iff_toInt_lt, Int64.le_iff_toInt_le, Int64.toInt_inj]

/-! ## Constraints -/

variable {op : Comparison} {relation : String} {offset : Word}

theorem build_two (hname : Text.lower relation = op.name) (a b : Operand) (offset value : Word) :
    ∃ c, build relation [a, b] offset value = .ok [c] ∧ c.operands = [a, b] ∧
      c.rule = .relation (some (binaryTest op.test offset)) := by
  unfold build
  rw [hname]
  simp only [op.lookup_name]
  exact ⟨_, rfl, rfl, rfl⟩

/-- A comparison of two operands compares the first with the wrapped sum of the second and the
offset. -/
theorem satisfied_eq {c : Constraint}
    (hrule : c.rule = .relation (some (binaryTest op.test offset))) (x y : Word) :
    c.satisfied [x, y] = .ok (decide (op.Holds x.toInt (y + offset).toInt)) := by
  unfold Constraint.satisfied
  rw [hrule, ← test_eq]
  rfl

/-! ## Sums out of range -/

/-- A sum that leaves the range is told from its wrapped value by every comparison with some
word. -/
theorem fits_of_agrees {sum : Word} {n : Int} (hsum : Wraps sum n) (hnear : |n| ≤ wordCount)
    (h : ∀ x : Word, op.Holds x.toInt sum.toInt ↔ op.Holds x.toInt n) : Fits n := by
  have hleast : Word.least.toInt = -9223372036854775808 := by decide
  have hgreatest : Word.greatest.toInt = 9223372036854775807 := by decide
  have hbounds := Interval.toInt_bounds sum
  -- beyond the range all words are on one side of `n`, but not on one side of its wrapped value
  have hself := h sum
  have hlow := h Word.least
  have hhigh := h Word.greatest
  rw [hleast] at hlow
  rw [hgreatest] at hhigh
  rw [abs_le] at hnear
  rw [fits_iff]
  unfold Wraps at hsum
  unfold wordCount at hsum hnear
  cases op <;> simp only [Holds, true_iff] at hself hlow hhigh <;> omega

/-- Comparisons of two operands wrap. For each of them, its name in any case, a constraint over the
two operands is built. It compares the first value with the sum of the second and the offset modulo
the number of words, and its answers are those for the integers just where the sum is in range. -/
theorem exact_iff_sum_fits (hname : Text.lower relation = op.name) (a b : Operand)
    (offset value : Word) :
    ∃ c, build relation [a, b] offset value = .ok [c] ∧ c.operands = [a, b] ∧ ∀ y : Word,
      (∀ x : Word, c.satisfied [x, y] =
        .ok (decide (op.Holds x.toInt ((y.toInt + offset.toInt).bmod wordCount)))) ∧
      ((∀ x : Word, c.satisfied [x, y] =
        .ok (decide (op.Holds x.toInt (y.toInt + offset.toInt)))) ↔
          Fits (y.toInt + offset.toInt)) := by
  obtain ⟨c, hbuild, hoperands, hrule⟩ := build_two hname a b offset value
  refine ⟨c, hbuild, hoperands, fun y => ?_⟩
  have hwraps := wraps_add y offset
  have hsatisfied := fun x => satisfied_eq hrule x y
  have hsum : (y + offset).toInt = (y.toInt + offset.toInt).bmod wordCount :=
    Int64.toInt_add y offset
  -- the sum of words wraps, that of integers does not
  refine ⟨fun x => by rw [← hsum, hsatisfied], fun h => ?_, fun hfits x => ?_⟩
  · apply fits_of_agrees hwraps
    · have hy := Interval.toInt_bounds y
      have hoffset := Interval.toInt_bounds offset
      rw [abs_le, wordCount]
      omega
    · intro x
      have hx := (hsatisfied x).symm.trans (h x)
      rwa [Except.ok.injEq, decide_eq_decide] at hx
  · rw [hsatisfied, hwraps.toInt_eq_of_fits hfits]

/-- Three is less than three and one more; four is not. -/
theorem shifted_comparison_exact : ∃ c : Constraint,
    build "LT" [.var "x", .var "y"] 1 0 = .ok [c] ∧
    c.satisfied [3, 3] = .ok true ∧ c.satisfied [4, 3] = .ok false := by
  have hname : Text.lower "LT" = lt.name := by decide +kernel
  obtain ⟨c, hbuild, -, hc⟩ := exact_iff_sum_fits hname (.var "x") (.var "y") 1 0
  have hexact := (hc 3).2.mpr (by rw [fits_iff]; decide)
  refine ⟨c, hbuild, ?_, ?_⟩
  · rw [hexact]
    decide
  · rw [hexact]
    decide

/-- Zero is less than the number after the greatest word, but the constraint denies it: the sum has
come back as the least word. -/
theorem shifted_ceiling_refused : ∃ c : Constraint,
    build "lt" [.var "x", .var "y"] 1 0 = .ok [c] ∧
    c.satisfied [0, Word.greatest] = .ok false ∧
    lt.Holds (0 : Word).toInt (Word.greatest.toInt + (1 : Word).toInt) := by
  have hname : Text.lower "lt" = lt.name := by decide +kernel
  obtain ⟨c, hbuild, -, hrule⟩ := build_two hname (.var "x") (.var "y") 1 0
  refine ⟨c, hbuild, ?_, by decide⟩
  rw [satisfied_eq hrule]
  decide

end Comparison

end Clausify
