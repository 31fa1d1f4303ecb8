import Mathlib
import Clausify.Proofs.Number.Decimal

/-!
Which texts are numerals. A decimal numeral is a run of digits with at most one sign before it, and
denotes an integer by the places of its digits (`Denotes`). Reading goes from the left and gives up
at the first digit that leaves the range of 64 bits; as the number read so far never shrinks, this
refuses no numeral whose number is in range (`magnitudeFrom_eq_ok_iff`). Main statement: a text is
read as a word exactly when it is a numeral of that word (`parseWord_eq_ok_iff`).
-/

namespace Clausify.Numeral

def digit (c : Char) : Nat := c.toNat - '0'.toNat

structure IsDigits (ds : List Char) : Prop where
  ne_nil : ds ≠ []
  digits : ∀ c ∈ ds, c.isDigit = true

/-- The number that digits stand for, those of the higher places first. -/
def decimal (ds : List Char) : Nat := Nat.ofDigits 10 (ds.reverse.map digit)

/-- A decimal numeral and the integer it denotes. -/
inductive Denotes : List Char → Int → Prop where
  | unsigned {ds : List Char} (h : IsDigits ds) : Denotes ds (decimal ds)
  | plus {ds : List Char} (h : IsDigits ds) : Denotes ('+' :: ds) (decimal ds)
  | minus {ds : List Char} (h : IsDigits ds) : Denotes ('-' :: ds) (-(decimal ds : Int))

/-! ## Digits -/

theorem decimal_nil : decimal [] = 0 := rfl

theorem decimal_cons (c : Char) (ds : List Char) :
    decimal (c :: ds) = digit c * 10 ^ ds.length + decimal ds := by
  rw [decimal, List.reverse_cons, List.map_append, Nat.ofDigits_append, List.length_map,
    List.length_reverse, List.map_singleton, Nat.ofDigits_singleton, decimal]
  ring

/-- A letter has a number of ten or more, so what has a smaller one is a digit. -/
theorem digitValue_eq_some_iff {c : Char} {d : Nat} :
    (digitValue c = some d ∧ d < 10) ↔ c.isDigit = true ∧ d = digit c := by
  unfold digitValue
  cases hc : c.isDigit with
  | true =>
    have hrange : c.toNat ≤ 57 := by
      simp only [Char.isDigit, Bool.and_eq_true, decide_eq_true_eq] at hc
      exact UInt32.le_iff_toNat_le.mp hc.2
    have hzero : '0'.toNat = 48 := by decide
    simp only [if_true, Option.some_inj, true_and, digit, hzero]
    omega
  | false =>
    simp only [Bool.false_eq_true, if_false, false_and, iff_false, not_and, not_lt]
    intro hd
    split_ifs at hd
    have := Option.some_inj.mp hd
    omega

/-- The next character is read when it is a digit and the number stays in range. -/
theorem magnitudeFrom_cons_eq_ok {n m : Nat} {c : Char} {rest : List Char} :
    magnitudeFrom 10 false n (c :: rest) = .ok m ↔ c.isDigit = true ∧
      n * 10 + digit c < wordCount ∧ magnitudeFrom 10 false (n * 10 + digit c) rest = .ok m := by
  simp only [magnitudeFrom, Bool.false_and, Bool.false_eq_true, if_false]
  cases hd : digitValue c with
  | none =>
    refine iff_of_false (by simp) fun h => ?_
    have hdigit := (digitValue_eq_some_iff.mpr ⟨h.1, rfl⟩).1
    simp [hd] at hdigit
  | some d =>
    dsimp only
    by_cases hten : d < 10
    · obtain ⟨hc, rfl⟩ := digitValue_eq_some_iff.mp ⟨hd, hten⟩
      rw [if_neg (by omega), hc]
      by_cases hrange : n * 10 + digit c < wordCount
      · rw [if_neg (by omega)]
        simp [hrange]
      · rw [if_pos (by omega)]
        simp [hrange]
    · refine iff_of_false (by simp [not_lt.mp hten]) fun h => hten ?_
      obtain ⟨hdigit, hlt⟩ := digitValue_eq_some_iff.mpr ⟨h.1, rfl⟩
      rwa [Option.some_inj.mp (hd.symm.trans hdigit)]

/-- Digits that follow a number are read onto it, unless the number they make up is too large. -/
theorem magnitudeFrom_eq_ok_iff {n m : Nat} {cs : List Char} (hn : n < wordCount) :
    magnitudeFrom 10 false n cs = .ok m ↔
      (∀ c ∈ cs, c.isDigit = true) ∧ m = n * 10 ^ cs.length + decimal cs ∧ m < wordCount := by
  induction cs generalizing n with
  | nil =>
    have hnumber : n * 10 ^ ([] : List Char).length + decimal [] = n := by simp [decimal_nil]
    rw [hnumber, magnitudeFrom, Except.ok.injEq]
    constructor
    · rintro rfl
      exact ⟨List.forall_mem_nil _, rfl, hn⟩
    · exact fun h => h.2.1.symm
  | cons c rest ih =>
    have hnumber : n * 10 ^ (c :: rest).length + decimal (c :: rest) =
        (n * 10 + digit c) * 10 ^ rest.length + decimal rest := by
      rw [decimal_cons, List.length_cons]
      ring
    rw [magnitudeFrom_cons_eq_ok, List.forall_mem_cons, hnumber]
    constructor
    · rintro ⟨hc, hrange, h⟩
      obtain ⟨hrest, hm⟩ := (ih hrange).mp h
      exact ⟨⟨hc, hrest⟩, hm⟩
    · rintro ⟨⟨hc, hrest⟩, hm, hmrange⟩
      -- the number read so far is at most the one that is read in the end
      have hgrows : n * 10 + digit c ≤ m := by
        have := Nat.le_mul_of_pos_right (n * 10 + digit c) (Nat.pow_pos (n := rest.length)
          (show 0 < 10 by decide))
        omega
      have hrange : n * 10 + digit c < wordCount := by omega
      exact ⟨hc, hrange, (ih hrange).mpr ⟨hrest, hm, hmrange⟩⟩

theorem decimalMagnitude_eq_ok_iff {m : Nat} {cs : List Char} :
    decimalMagnitude cs = .ok m ↔ IsDigits cs ∧ m = decimal cs ∧ m < wordCount := by
  unfold decimalMagnitude
  split_ifs with hempty
  · refine iff_of_false (by simp) fun h => h.1.ne_nil ?_
    exact List.isEmpty_iff.mp hempty
  · rw [magnitudeFrom_eq_ok_iff (by decide), Nat.zero_mul, Nat.zero_add]
    constructor
    · rintro ⟨hdigits, hm⟩
      exact ⟨⟨by simpa using hempty, hdigits⟩, hm⟩
    · rintro ⟨hdigits, hm⟩
      exact ⟨hdigits.digits, hm⟩

/-! ## Signs -/

/-- A magnitude with its sign is read as the word that has both. -/
theorem withSign_eq_ok_iff {negative : Bool} {magnitude : Except Fault Nat} {w : Word} :
    withSign negative magnitude = .ok w ↔
      ∃ n : Nat, magnitude = .ok n ∧ w.toInt = if negative then -(n : Int) else n := by
  have hlow := Int64.le_toInt w
  have hhigh := Int64.toInt_lt w
  cases magnitude with
  | error fault => simp [withSign]
  | ok n =>
    -- within the range a word is determined by its integer
    have hword : ∀ z : Int, -9223372036854775808 ≤ z → z < 9223372036854775808 →
        (Int64.ofInt z = w ↔ w.toInt = z) := by
      intro z hz hz'
      rw [← Int64.toInt_inj, Int64.toInt_ofInt_of_le (by omega) (by omega), eq_comm]
    simp only [withSign, Except.ok.injEq, exists_eq_left']
    unfold halfCount
    cases negative with
    | true =>
      simp only [if_true]
      split_ifs with hrange
      · refine iff_of_false (by simp) fun h => ?_
        omega
      · rw [Except.ok.injEq, hword _ (by omega) (by omega)]
    | false =>
      simp only [Bool.false_eq_true, if_false]
      split_ifs with hrange
      · refine iff_of_false (by simp) fun h => ?_
        omega
      · rw [Except.ok.injEq, ← Int64.ofInt_eq_ofNat, hword _ (by omega) (by omega)]

/-- Digits behind a sign are read as the word that has the sign and their number. -/
theorem withSign_decimal_iff {negative : Bool} {ds : List Char} {w : Word} :
    withSign negative (decimalMagnitude ds) = .ok w ↔
      IsDigits ds ∧ w.toInt = if negative then -(decimal ds : Int) else decimal ds := by
  rw [withSign_eq_ok_iff]
  constructor
  · rintro ⟨n, hn, hw⟩
    obtain ⟨hdigits, rfl, -⟩ := decimalMagnitude_eq_ok_iff.mp hn
    exact ⟨hdigits, hw⟩
  · rintro ⟨hdigits, hw⟩
    have hrange : decimal ds < wordCount := by
      have hlow := Int64.le_toInt w
      have hhigh := Int64.toInt_lt w
      unfold wordCount
      split_ifs at hw <;> omega
    exact ⟨_, decimalMagnitude_eq_ok_iff.mpr ⟨hdigits, rfl, hrange⟩, hw⟩

/-- A text is read as a word exactly when it is a decimal numeral of the word. -/
theorem parseWord_eq_ok_iff {s : String} {w : Word} :
    parseWord s = .ok w ↔ Denotes s.toList w.toInt := by
  unfold parseWord
  generalize s.toList = cs
  constructor
  · intro h
    obtain ⟨negative, ds, hsplit⟩ : ∃ negative ds, splitSign cs = (negative, ds) := ⟨_, _, rfl⟩
    rw [hsplit] at h
    obtain ⟨hdigits, hw⟩ := withSign_decimal_iff.mp h
    rw [hw]
    unfold splitSign at hsplit
    split at hsplit
    · obtain ⟨rfl, rfl⟩ := Prod.mk.inj hsplit
      exact .plus hdigits
    · obtain ⟨rfl, rfl⟩ := Prod.mk.inj hsplit
      exact .minus hdigits
    · obtain ⟨rfl, rfl⟩ := Prod.mk.inj hsplit
      exact .unsigned hdigits
  · intro h
    generalize hn : w.toInt = n at h
    cases h with
    | plus hdigits => exact withSign_decimal_iff.mpr ⟨hdigits, hn⟩
    | minus hdigits => exact withSign_decimal_iff.mpr ⟨hdigits, hn⟩
    | unsigned hdigits =>
      -- a digit is no sign
      have hsign : splitSign cs = (false, cs) := by
        unfold splitSign
        split
        · exact absurd (hdigits.digits '+' List.mem_cons_self) (by decide)
        · exact absurd (hdigits.digits '-' List.mem_cons_self) (by decide)
        · rfl
      rw [hsign]
      exact withSign_decimal_iff.mpr ⟨hdigits, hn⟩

end Clausify.Numeral
