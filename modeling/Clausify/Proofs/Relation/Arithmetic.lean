import Mathlib
import Clausify.Proofs.Domain.Normal
import Clausify.Proofs.Relation.Library

/-!
The functions of the library against the integers. An operation has a result over the integers, or
none where the divisor is zero (`Operation.result`); a function on words is exact when it answers
the word of that result, and nothing when there is no such word (`Exact`). Sums, differences and
products are computed modulo the number of words and refused by a test on the wrapped value; each
test refuses exactly the results that leave the range (`exact_plus`, `exact_minus`, `exact_times`).
Quotients and remainders are cut off towards zero and then corrected (`floor_of_truncated`).

Main statement: every function of the library is exact, quotient and remainder belong together, and
a functional constraint is satisfied just when its third value is the result (`functions_exact`).
-/

namespace Clausify

def Word.Fits (n : Int) : Prop := Word.least.toInt ≤ n ∧ n ≤ Word.greatest.toInt

theorem Word.fits_iff {n : Int} :
    Fits n ↔ -9223372036854775808 ≤ n ∧ n ≤ 9223372036854775807 := by
  rw [Fits, show Word.least.toInt = -9223372036854775808 by decide,
    show Word.greatest.toInt = 9223372036854775807 by decide]

theorem Word.fits_toInt (w : Word) : Fits w.toInt := fits_iff.mpr (Interval.toInt_bounds w)

theorem Word.exists_toInt {n : Int} (h : Fits n) : ∃ w : Word, w.toInt = n := by
  rw [fits_iff] at h
  exact ⟨Int64.ofInt n, Int64.toInt_ofInt_of_le (by omega) (by omega)⟩

namespace Arithmetic

open Word (Fits fits_iff fits_toInt)

/-- The answer is the word of the result, and there is none when the result is no word or does not
exist. -/
def Exact (answer : Option Word) (result : Option Int) : Prop :=
  ∀ z : Word, answer = some z ↔ result = some z.toInt

variable {w x y : Word} {n : Int} {answer : Option Word} {result : Option Int}

theorem exact_some (h : w.toInt = n) : Exact (some w) (some n) := by
  intro z
  rw [Option.some_inj, Option.some_inj, ← h, Int64.toInt_inj]

theorem exact_none (h : ¬ Fits n) : Exact none (some n) := by
  intro z
  refine iff_of_false (by simp) fun hz => h ?_
  rw [Option.some_inj.mp hz]
  exact fits_toInt z

theorem Exact.isSome_iff (h : Exact answer result) :
    answer.isSome = true ↔ ∃ r, result = some r ∧ Fits r := by
  rw [Option.isSome_iff_exists]
  constructor
  · rintro ⟨z, hz⟩
    exact ⟨z.toInt, (h z).mp hz, fits_toInt z⟩
  · rintro ⟨r, hr, hfits⟩
    obtain ⟨z, rfl⟩ := Word.exists_toInt hfits
    exact ⟨z, (h z).mpr hr⟩

/-! ## Wrapped results -/

/-- The word is the integer up to a multiple of the number of words. -/
def Wraps (w : Word) (n : Int) : Prop := w.toInt % wordCount = n % wordCount

theorem wraps_of_bmod (h : w.toInt = n.bmod wordCount) : Wraps w n := by
  rw [Wraps, h, Int.bmod_emod]

theorem wraps_add (x y : Word) : Wraps (x + y) (x.toInt + y.toInt) :=
  wraps_of_bmod (Int64.toInt_add x y)

theorem wraps_sub (x y : Word) : Wraps (x - y) (x.toInt - y.toInt) :=
  wraps_of_bmod (Int64.toInt_sub x y)

theorem wraps_mul (x y : Word) : Wraps (x * y) (x.toInt * y.toInt) :=
  wraps_of_bmod (Int64.toInt_mul x y)

/-- Two integers with the same residue are equal if they are less than the number of words apart. -/
theorem Wraps.toInt_eq (h : Wraps w n) (hnear : |w.toInt - n| < wordCount) : w.toInt = n := by
  rw [abs_lt] at hnear
  unfold Wraps wordCount at *
  omega

theorem Wraps.toInt_eq_of_fits (h : Wraps w n) (hfits : Fits n) : w.toInt = n := by
  apply h.toInt_eq
  have hw := Interval.toInt_bounds w
  rw [fits_iff] at hfits
  rw [abs_lt, wordCount]
  omega

/-- A wrapped result is exact if the test in front of it refuses just what is out of range. -/
theorem exact_of_test {refused : Bool} (hw : Wraps w n) (h : refused = true ↔ ¬ Fits n) :
    Exact (if refused = true then none else some w) (some n) := by
  split
  · next hrefused => exact exact_none (h.mp hrefused)
  · next haccepted => exact exact_some (hw.toInt_eq_of_fits (not_not.mp (mt h.mpr haccepted)))

theorem exact_plus (x y : Word) : Exact (plus x y) (some (x.toInt + y.toInt)) := by
  apply exact_of_test (wraps_add x y)
  -- a sum out of range is off by the number of words, and so on the wrong side of `x`
  have hwraps := wraps_add x y
  have hx := Interval.toInt_bounds x
  have hy := Interval.toInt_bounds y
  have hsum := Interval.toInt_bounds (x + y)
  simp only [Bool.or_eq_true, Bool.and_eq_true, decide_eq_true_eq, Int64.lt_iff_toInt_lt,
    Int64.toInt_zero, fits_iff]
  unfold Wraps wordCount at hwraps
  omega

theorem exact_minus (x y : Word) : Exact (minus x y) (some (x.toInt - y.toInt)) := by
  apply exact_of_test (wraps_sub x y)
  have hwraps := wraps_sub x y
  have hx := Interval.toInt_bounds x
  have hy := Interval.toInt_bounds y
  have hdifference := Interval.toInt_bounds (x - y)
  simp only [Bool.or_eq_true, Bool.and_eq_true, decide_eq_true_eq, Int64.lt_iff_toInt_lt,
    Int64.toInt_zero, fits_iff]
  unfold Wraps wordCount at hwraps
  omega

theorem exact_absDiff (x y : Word) : Exact (absDiff x y) (some |x.toInt - y.toInt|) := by
  rw [absDiff]
  split
  · next h =>
    rw [Int64.lt_iff_toInt_lt] at h
    rw [abs_of_pos (by omega)]
    exact exact_minus x y
  · next h =>
    rw [Int64.not_lt, Int64.le_iff_toInt_le] at h
    rw [abs_sub_comm, abs_of_nonneg (by omega)]
    exact exact_minus y x

/-! ## Products -/

theorem truncated_bounds (x : Int) {y : Int} (hy : y ≠ 0) :
    |x.tmod y| < |y| ∧ (0 ≤ x → 0 ≤ x.tmod y) ∧ (x ≤ 0 → x.tmod y ≤ 0) := by
  refine ⟨?_, Int.tmod_nonneg y, ?_⟩
  · rw [Int.abs_eq_natAbs, Int.abs_eq_natAbs, Int.natAbs_tmod]
    exact_mod_cast Nat.mod_lt _ (by omega)
  · intro h
    have hneg := Int.tmod_nonneg y (show 0 ≤ -x by omega)
    rw [Int.neg_tmod] at hneg
    omega

theorem toInt_ne_zero (h : y ≠ 0) : y.toInt ≠ 0 := by
  intro hzero
  exact h (Int64.toInt_inj.mp (hzero.trans Int64.toInt_zero.symm))

theorem toInt_eq_neg_one : y.toInt = -1 ↔ y = -1 := by
  rw [← Int64.toInt_inj, show (-1 : Word).toInt = -1 by decide]

theorem toInt_eq_least : x.toInt = -9223372036854775808 ↔ x = Int64.minValue := by
  rw [← Int64.toInt_inj, show Int64.minValue.toInt = -9223372036854775808 by decide]

/-- Dividing the wrapped product gives the first factor back only if nothing was wrapped: the
division leaves a remainder less than the divisor, which is not enough to reach another integer with
the same residue. -/
theorem product_of_quotient (hy : y ≠ 0) (hone : y ≠ -1) (h : x * y / y = x) :
    (x * y).toInt = x.toInt * y.toInt := by
  have hquotient : (x * y).toInt.tdiv y.toInt = x.toInt := by
    rw [← Int64.toInt_div_of_ne_right _ _ hone, h]
  have hsplit := Int.tmod_add_mul_tdiv (x * y).toInt y.toInt
  rw [hquotient, Int.mul_comm] at hsplit
  apply (wraps_mul x y).toInt_eq
  calc |(x * y).toInt - x.toInt * y.toInt| = |(x * y).toInt.tmod y.toInt| := by
        congr 1
        omega
    _ < |y.toInt| := (truncated_bounds _ (toInt_ne_zero hy)).1
    _ ≤ wordCount := by
        have hbounds := Interval.toInt_bounds y
        rw [abs_le, wordCount]
        omega

theorem quotient_of_product (hy : y ≠ 0) (h : (x * y).toInt = x.toInt * y.toInt) :
    x * y / y = x := by
  apply Int64.toInt_inj.mp
  have hbounds := Interval.toInt_bounds x
  rw [Int64.toInt_div, h, Int.mul_tdiv_cancel _ (toInt_ne_zero hy)]
  exact Int.bmod_eq_of_le (by omega) (by omega)

/-- The test for a product refuses just the products out of range. The divisor `-1` is a case of its
own: there the quotient of the least word wraps back to it. -/
theorem refused_iff (hx : x ≠ 0) (hy : y ≠ 0) :
    (x * y / y ≠ x ∨ (x = -1 ∧ y = Int64.minValue)) ∨ (y = -1 ∧ x = Int64.minValue) ↔
      ¬ Fits (x.toInt * y.toInt) := by
  have hboundsx := Interval.toInt_bounds x
  have hboundsy := Interval.toInt_bounds y
  constructor
  · rintro ((hquotient | ⟨rfl, rfl⟩) | ⟨rfl, rfl⟩) hfits
    · exact hquotient (quotient_of_product hy ((wraps_mul x y).toInt_eq_of_fits hfits))
    · exact absurd (fits_iff.mp hfits) (by decide)
    · exact absurd (fits_iff.mp hfits) (by decide)
  · intro hfits
    by_contra hnot
    push Not at hnot
    obtain ⟨⟨hquotient, -⟩, hleast⟩ := hnot
    apply hfits
    by_cases hone : y = -1
    · have hne := mt toInt_eq_least.mp (hleast hone)
      rw [toInt_eq_neg_one.mpr hone, fits_iff]
      omega
    · rw [← product_of_quotient hy hone hquotient]
      exact fits_toInt _

theorem exact_times (x y : Word) : Exact (times x y) (some (x.toInt * y.toInt)) := by
  rw [times]
  split
  · next hzero =>
    apply exact_some
    simp only [Bool.or_eq_true, decide_eq_true_eq] at hzero
    rcases hzero with rfl | rfl <;> simp
  · next hnonzero =>
    simp only [Bool.or_eq_true, decide_eq_true_eq, not_or] at hnonzero
    apply exact_of_test (wraps_mul x y)
    rw [← refused_iff hnonzero.1 hnonzero.2]
    simp only [Bool.or_eq_true, Bool.and_eq_true, decide_eq_true_eq]

/-! ## Quotients -/

theorem floor_unique {x y q r : Int} (hy : y ≠ 0) (hsplit : r + y * q = x)
    (hpos : 0 < y → 0 ≤ r ∧ r < y) (hneg : y < 0 → y < r ∧ r ≤ 0) :
    x.fdiv y = q ∧ x.fmod y = r := by
  rcases lt_or_gt_of_ne hy with hlt | hgt
  · exact (Int.fdiv_fmod_unique' hlt).mpr ⟨hsplit, hneg hlt⟩
  · exact (Int.fdiv_fmod_unique hgt).mpr ⟨hsplit, hpos hgt⟩

/-- The quotient rounded down and its remainder, from the quotient cut off towards zero: where
something is left over and the signs differ, the quotient is one less. -/
theorem floor_of_truncated (x : Int) {y : Int} (hy : y ≠ 0) :
    if x.tmod y ≠ 0 ∧ (x < 0 ↔ ¬ y < 0)
      then x.fdiv y = x.tdiv y - 1 ∧ x.fmod y = x.tmod y + y
      else x.fdiv y = x.tdiv y ∧ x.fmod y = x.tmod y := by
  obtain ⟨hsize, hnonneg, hnonpos⟩ := truncated_bounds x hy
  have hsplit := Int.tmod_add_mul_tdiv x y
  rw [abs_lt, abs_eq_max_neg] at hsize
  split
  · refine floor_unique hy ?_ ?_ ?_
    · rw [Int.mul_sub]
      omega
    · omega
    · omega
  · refine floor_unique hy hsplit ?_ ?_
    · omega
    · omega

theorem toInt_quotient (h : ¬ (x = Int64.minValue ∧ y = -1)) :
    (x / y).toInt = x.toInt.tdiv y.toInt := by
  by_cases hx : x = Int64.minValue
  · exact Int64.toInt_div_of_ne_right x y fun hy => h ⟨hx, hy⟩
  · exact Int64.toInt_div_of_ne_left x y hx

theorem fits_ediv {a b : Int} (hb : 0 < b) (hlow : -9223372036854775808 * b ≤ a)
    (hhigh : a < 9223372036854775808 * b) : Fits (a / b) := by
  rw [fits_iff]
  exact ⟨(Int.le_ediv_iff_mul_le hb).mpr hlow,
    Int.le_of_lt_add_one ((Int.ediv_lt_iff_lt_mul hb).mpr hhigh)⟩

/-- The one quotient that leaves the range is that of the least word by `-1`. -/
theorem fits_fdiv (hy : y ≠ 0) (h : ¬ (x = Int64.minValue ∧ y = -1)) :
    Fits (x.toInt.fdiv y.toInt) := by
  have hbounds := Interval.toInt_bounds x
  rw [← toInt_eq_least, ← toInt_eq_neg_one] at h
  rcases lt_or_gt_of_ne (toInt_ne_zero hy) with hlt | hgt
  · rw [← Int.neg_fdiv_neg, Int.fdiv_eq_ediv_of_nonneg _ (by omega)]
    exact fits_ediv (by omega) (by omega) (by omega)
  · rw [Int.fdiv_eq_ediv_of_nonneg _ (by omega)]
    exact fits_ediv hgt (by omega) (by omega)

theorem signs_differ {x y : Word} : (decide (x < 0) != decide (y < 0)) = true ↔
    (x.toInt < 0 ↔ ¬ y.toInt < 0) := by
  simp only [Int64.lt_iff_toInt_lt, Int64.toInt_zero]
  by_cases hx : x.toInt < 0 <;> by_cases hy : y.toInt < 0 <;> simp [hx, hy]

theorem remainder_ne_zero {x y : Word} : x % y ≠ 0 ↔ x.toInt.tmod y.toInt ≠ 0 := by
  rw [← Int64.toInt_mod, Ne, ← Int64.toInt_inj, Int64.toInt_zero]

theorem exact_floorDiv (x : Word) (hy : y ≠ 0) :
    Exact (floorDiv x y) (some (x.toInt.fdiv y.toInt)) := by
  have hfloor := floor_of_truncated x.toInt (toInt_ne_zero hy)
  simp only [floorDiv, hy, decide_false, Bool.false_or, Bool.and_eq_true, decide_eq_true_eq,
    remainder_ne_zero, signs_differ]
  split
  · next hout =>
    obtain ⟨rfl, rfl⟩ := hout
    apply exact_none
    rw [fits_iff]
    decide
  · next hin =>
    -- the corrected quotient may be computed in words, since the true one is in range
    have hquotient := toInt_quotient hin
    split
    · next hcorrect =>
      rw [if_pos hcorrect] at hfloor
      apply exact_some
      apply Wraps.toInt_eq_of_fits _ (fits_fdiv hy hin)
      rw [hfloor.1, ← hquotient]
      exact wraps_sub (x / y) 1
    · next hcorrect =>
      rw [if_neg hcorrect] at hfloor
      exact exact_some (hquotient.trans hfloor.1.symm)

theorem exact_floorMod (x : Word) (hy : y ≠ 0) :
    Exact (floorMod x y) (some (x.toInt.fmod y.toInt)) := by
  have hfloor := floor_of_truncated x.toInt (toInt_ne_zero hy)
  obtain ⟨hsize, hnonneg, hnonpos⟩ := truncated_bounds x.toInt (toInt_ne_zero hy)
  have hremainder := Int64.toInt_mod x y
  -- what is left over has the sign of the dividend
  have htest : (x % y ≠ 0 ∧ (decide (x % y < 0) != decide (y < 0)) = true) ↔
      x.toInt.tmod y.toInt ≠ 0 ∧ (x.toInt < 0 ↔ ¬ y.toInt < 0) := by
    rw [remainder_ne_zero, signs_differ, hremainder]
    omega
  simp only [floorMod, hy, if_false, Bool.and_eq_true, decide_eq_true_eq, htest]
  split
  · next hcorrect =>
    rw [if_pos hcorrect] at hfloor
    apply exact_some
    rw [hfloor.2, ← hremainder]
    apply (wraps_add (x % y) y).toInt_eq_of_fits
    have hbounds := Interval.toInt_bounds y
    rw [abs_lt, abs_eq_max_neg] at hsize
    rw [hremainder, fits_iff]
    omega
  · next hcorrect =>
    rw [if_neg hcorrect] at hfloor
    exact exact_some (hremainder.trans hfloor.2.symm)

end Arithmetic

/-! ## The functions of the library -/

inductive Operation where
  | plus
  | minus
  | times
  | div
  | mod
  | min
  | max
  | absDiff
  deriving DecidableEq, Repr

namespace Operation

open Arithmetic Library

def name : Operation → String
  | plus => "plus"
  | minus => "minus"
  | times => "times"
  | div => "div"
  | mod => "mod"
  | min => "min"
  | max => "max"
  | absDiff => "absdiff"

/-- The result over the integers. A quotient is rounded down and a remainder has the sign of the
divisor; there is neither for the divisor zero. -/
def result (op : Operation) (x y : Int) : Option Int :=
  match op with
  | plus => some (x + y)
  | minus => some (x - y)
  | times => some (x * y)
  | div => if y = 0 then none else some (x.fdiv y)
  | mod => if y = 0 then none else some (x.fmod y)
  | min => some (Min.min x y)
  | max => some (Max.max x y)
  | absDiff => some |x - y|

def function : Operation → Word → Word → Option Word
  | plus => Arithmetic.plus
  | minus => Arithmetic.minus
  | times => Arithmetic.times
  | div => floorDiv
  | mod => floorMod
  | min => fun x y => some (Min.min x y)
  | max => fun x y => some (Max.max x y)
  | absDiff => Arithmetic.absDiff

theorem toInt_min (x y : Word) : (Min.min x y).toInt = Min.min x.toInt y.toInt := by
  show (if x ≤ y then x else y).toInt = _
  split
  · next h => exact (min_eq_left (Int64.le_iff_toInt_le.mp h)).symm
  · next h =>
    have hlt := Int64.lt_iff_toInt_lt.mp (Int64.not_le.mp h)
    exact (min_eq_right (by omega)).symm

theorem exact (op : Operation) (x y : Word) :
    Exact (op.function x y) (op.result x.toInt y.toInt) := by
  cases op with
  | plus => exact exact_plus x y
  | minus => exact exact_minus x y
  | times => exact exact_times x y
  | div =>
    by_cases hy : y = 0
    · intro z
      simp [function, result, floorDiv, hy]
    · rw [result, if_neg (toInt_ne_zero hy)]
      exact exact_floorDiv x hy
  | mod =>
    by_cases hy : y = 0
    · intro z
      simp [function, result, floorMod, hy]
    · rw [result, if_neg (toInt_ne_zero hy)]
      exact exact_floorMod x hy
  | min => exact exact_some (toInt_min x y)
  | max => exact exact_some (Domain.toInt_max x y)
  | absDiff => exact exact_absDiff x y

theorem lookup_name (op : Operation) : functions.lookup op.name = some op.function := by
  cases op <;> rfl

theorem of_lookup {relation : String} {f : Word → Word → Option Word}
    (h : functions.lookup relation = some f) :
    ∃ op : Operation, relation = op.name ∧ f = op.function := by
  obtain ⟨before, after, hsplit, -⟩ := List.lookup_eq_some_iff.mp h
  have hmem : (relation, f) ∈ functions := by simp [hsplit]
  simp only [functions, List.mem_cons, Prod.mk.injEq, List.not_mem_nil, or_false] at hmem
  rcases hmem with h | h | h | h | h | h | h | h
  · exact ⟨absDiff, h⟩
  · exact ⟨div, h⟩
  · exact ⟨max, h⟩
  · exact ⟨min, h⟩
  · exact ⟨minus, h⟩
  · exact ⟨mod, h⟩
  · exact ⟨plus, h⟩
  · exact ⟨times, h⟩

end Operation

namespace Library

variable {relation : String} {operands : List Operand} {offset value : Word}

theorem build_operation {op : Operation} (hname : Text.lower relation = op.name)
    (hlength : operands.length = 3) : ∃ c, build relation operands offset value = .ok [c] ∧
      c.operands = operands ∧ c.rule = .functional (some op.function) := by
  have hnone : comparisons.lookup op.name = none := by cases op <;> rfl
  unfold build
  rw [hname]
  simp only [hnone, op.lookup_name, hlength, ne_eq, not_true_eq_false, if_false]
  exact ⟨_, rfl, rfl, rfl⟩

/-- Functional constraints are built for operations only. -/
theorem operation_of_functional {cs : List Constraint} {c : Constraint}
    {f : Option (Word → Word → Option Word)} (h : build relation operands offset value = .ok cs)
    (hc : c ∈ cs) (hrule : c.rule = .functional f) :
    ∃ op : Operation, Text.lower relation = op.name ∧ f = some op.function := by
  unfold build at h
  generalize Text.lower relation = relation at h ⊢
  dsimp only at h
  -- the tables are tried in turn, and only that of the functions gives such rules
  split at h
  · next compare hlookup =>
    exfalso
    unfold comparison at h
    dsimp only at h
    split at h
    · obtain rfl := Except.ok.inj h
      simp [List.mem_singleton.mp hc] at hrule
    · obtain rfl := Except.ok.inj h
      simp [List.mem_singleton.mp hc] at hrule
    · simp at h
  split at h
  · next function hlookup =>
    split_ifs at h with hlength
    obtain rfl := Except.ok.inj h
    obtain ⟨op, hname, rfl⟩ := Operation.of_lookup hlookup
    obtain rfl := List.mem_singleton.mp hc
    exact ⟨op, hname, (Rule.functional.inj hrule).symm⟩
  split at h
  · next rule hlookup =>
    split_ifs at h with hlength
    obtain rfl := Except.ok.inj h
    obtain rfl := List.mem_singleton.mp hc
    obtain rfl : rule = .functional f := hrule
    simpa [bounds] using mem_of_lookup hlookup
  split at h
  · next rule hlookup =>
    obtain rfl := Except.ok.inj h
    obtain rfl := List.mem_singleton.mp hc
    obtain rfl : rule = .functional f := hrule
    simpa [cardinalities] using mem_of_lookup hlookup
  split_ifs at h with hname
  obtain rfl := Except.ok.inj h
  obtain ⟨x, -, y, -, rfl⟩ := mem_allDifferent hc
  simp [different] at hrule

end Library

namespace Operation

open Arithmetic

theorem satisfied_iff_result {c : Constraint} {op : Operation}
    (h : c.rule = .functional (some op.function)) (x y z : Word) :
    c.satisfied [x, y, z] = .ok (decide (op.result x.toInt y.toInt = some z.toInt)) := by
  have hexact := op.exact x y z
  unfold Constraint.satisfied
  rw [h]
  dsimp only
  cases hanswer : op.function x y with
  | none =>
    rw [hanswer] at hexact
    simp [← hexact]
  | some r =>
    rw [hanswer] at hexact
    simp [← hexact]

/-- The arithmetic of the library is that of the integers. Each function answers the result of its
operation, and it answers exactly when there is a result and it is in range. Quotient and remainder
make up the dividend. For each operation, its name in any case, a functional constraint over three
operands is built, and a functional constraint of the library is satisfied by three values exactly
when the third is the result for the other two. -/
theorem functions_exact :
    (∀ op : Operation, ∃ f, Library.functions.lookup op.name = some f ∧ ∀ x y : Word,
      (∀ z : Word, f x y = some z ↔ op.result x.toInt y.toInt = some z.toInt) ∧
      ((f x y).isSome = true ↔ ∃ r, op.result x.toInt y.toInt = some r ∧ Word.Fits r)) ∧
    (∀ x y q : Word, floorDiv x y = some q →
      ∃ r : Word, floorMod x y = some r ∧ x.toInt = y.toInt * q.toInt + r.toInt) ∧
    (∀ (op : Operation) (relation : String) (operands : List Operand) (offset value : Word),
      Text.lower relation = op.name → operands.length = 3 →
      ∃ c f, Library.build relation operands offset value = .ok [c] ∧ c.operands = operands ∧
        c.rule = .functional f) ∧
    ∀ (relation : String) (operands : List Operand) (offset value : Word) (cs : List Constraint)
      (c : Constraint) (f : Option (Word → Word → Option Word)),
      Library.build relation operands offset value = .ok cs → c ∈ cs → c.rule = .functional f →
      ∃ op : Operation, Text.lower relation = op.name ∧ ∀ x y z : Word,
        c.satisfied [x, y, z] = .ok (decide (op.result x.toInt y.toInt = some z.toInt)) := by
  refine ⟨?_, ?_, ?_, ?_⟩
  · intro op
    exact ⟨op.function, op.lookup_name, fun x y => ⟨op.exact x y, (op.exact x y).isSome_iff⟩⟩
  · intro x y q hq
    have hy : y ≠ 0 := by
      rintro rfl
      simp [floorDiv] at hq
    have hquotient := Option.some_inj.mp ((exact_floorDiv x hy q).mp hq)
    -- a remainder by a divisor is always in range
    obtain ⟨r, hr⟩ : ∃ r, floorMod x y = some r := by
      simp only [floorMod, hy, if_false]
      split
      · exact ⟨_, rfl⟩
      · exact ⟨_, rfl⟩
    have hremainder := Option.some_inj.mp ((exact_floorMod x hy r).mp hr)
    refine ⟨r, hr, ?_⟩
    rw [← hquotient, ← hremainder, Int.add_comm, Int.fmod_add_mul_fdiv]
  · intro op relation operands offset value hname hlength
    obtain ⟨c, hbuild, hoperands, hrule⟩ := Library.build_operation hname hlength
    exact ⟨c, _, hbuild, hoperands, hrule⟩
  · intro relation operands offset value cs c f hbuild hc hrule
    obtain ⟨op, hname, rfl⟩ := Library.operation_of_functional hbuild hc hrule
    exact ⟨op, hname, satisfied_iff_result hrule⟩

/-- The quotient of `-7` by `2` is `-4`; that of the least word by `-1` is no word. -/
theorem quotients_exact :
    (∃ r : Word, floorMod (-7) 2 = some r ∧ (-7 : Word).toInt = (2 : Word).toInt *
      (-4 : Word).toInt + r.toInt) ∧
    ∃ c : Constraint, Library.build "Div" [.var "x", .const 2, .var "z"] 5 0 = .ok [c] ∧
      c.satisfied [-7, 2, -4] = .ok true ∧ c.satisfied [-7, 2, -3] = .ok false ∧
      c.satisfied [Word.least, -1, Word.least] = .ok false := by
  have hname : Text.lower "Div" = div.name := by decide +kernel
  obtain ⟨-, hsplit, hbuilds, hmeaning⟩ := functions_exact
  refine ⟨hsplit (-7) 2 (-4) (by decide), ?_⟩
  obtain ⟨c, f, hbuild, -, hrule⟩ := hbuilds div "Div" [.var "x", .const 2, .var "z"] 5 0 hname rfl
  obtain ⟨op, hop, hsatisfied⟩ := hmeaning _ _ _ _ _ c f hbuild List.mem_cons_self hrule
  obtain rfl : op = div := by
    rw [hname] at hop
    revert hop
    cases op <;> decide
  refine ⟨c, hbuild, ?_, ?_, ?_⟩
  · rw [hsatisfied]
    decide
  · rw [hsatisfied]
    decide
  · rw [hsatisfied]
    decide

end Operation

end Clausify
