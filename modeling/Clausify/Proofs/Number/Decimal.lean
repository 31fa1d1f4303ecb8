import Mathlib
import Clausify.Number.Numeral

/-!
Decimal numerals read back. The text of a natural number below `2 ^ 64` and the text of every word
are read as the number they were written for (`parseNat_repr`, `parseWord_text`), and no natural
number that is read is larger (`parseNat_lt`).
-/

namespace Clausify

namespace Numeral

theorem magnitudeFrom_append {n : Nat} {cs ds : List Char} {m : Nat}
    (h : magnitudeFrom 10 false n cs = .ok m) :
    magnitudeFrom 10 false n (cs ++ ds) = magnitudeFrom 10 false m ds := by
  induction cs generalizing n with
  | nil =>
    obtain rfl := Except.ok.inj h
    rfl
  | cons c rest ih =>
    simp only [List.cons_append, magnitudeFrom, Bool.false_and, Bool.false_eq_true,
      if_false] at h ⊢
    cases hd : digitValue c with
    | none => simp [hd] at h
    | some d =>
      simp only [hd] at h ⊢
      split_ifs at h ⊢
      exact ih h

theorem digitValue_digitChar {d : Nat} (h : d < 10) : digitValue d.digitChar = some d := by
  interval_cases d <;> decide

theorem magnitudeFrom_digit {n d : Nat} (hd : d < 10) (h : n * 10 + d < wordCount) :
    magnitudeFrom 10 false n [d.digitChar] = .ok (n * 10 + d) := by
  have h1 : ¬ d ≥ 10 := by omega
  have h2 : ¬ n * 10 + d ≥ wordCount := by omega
  simp [magnitudeFrom, digitValue_digitChar hd, h1, h2]

theorem magnitudeFrom_toDigits {n : Nat} (h : n < wordCount) :
    magnitudeFrom 10 false 0 (Nat.toDigits 10 n) = .ok n := by
  induction n using Nat.strong_induction_on with
  | _ n ih =>
    rw [Nat.toDigits_eq_if (by decide)]
    split
    · next hlt =>
      rw [magnitudeFrom_digit hlt (by omega)]
      simp
    · next hge =>
      have hfirst := ih (n / 10) (by omega) (by omega)
      rw [magnitudeFrom_append hfirst, magnitudeFrom_digit (Nat.mod_lt _ (by decide)) (by omega)]
      congr 1
      omega

theorem decimalMagnitude_toDigits {n : Nat} (h : n < wordCount) :
    decimalMagnitude (Nat.toDigits 10 n) = .ok n := by
  rw [decimalMagnitude, if_neg (by simp [Nat.toDigits_ne_nil]), magnitudeFrom_toDigits h]

theorem parseNat_repr {n : Nat} (h : n < wordCount) : parseNat n.repr = .ok n := by
  rw [parseNat, Nat.toList_repr, decimalMagnitude_toDigits h]

theorem magnitudeFrom_lt {base : Nat} {separators : Bool} {n m : Nat} {cs : List Char}
    (hn : n < wordCount) (h : magnitudeFrom base separators n cs = .ok m) : m < wordCount := by
  induction cs generalizing n with
  | nil =>
    obtain rfl := Except.ok.inj h
    exact hn
  | cons c rest ih =>
    simp only [magnitudeFrom] at h
    split at h
    · exact ih hn h
    · split at h
      · simp at h
      · split_ifs at h with hbase hrange
        exact ih (Nat.not_le.mp hrange) h

theorem parseNat_lt {s : String} {n : Nat} (h : parseNat s = .ok n) : n < wordCount := by
  rw [parseNat, decimalMagnitude] at h
  split at h
  · simp at h
  · exact magnitudeFrom_lt (by decide) h

end Numeral

namespace Word

/-- The text of a word: a sign where it is negative, and the digits of its magnitude. -/
theorem toList_text (w : Word) :
    w.text.toList = (if w.toInt < 0 then ['-'] else []) ++ Nat.toDigits 10 w.toInt.natAbs := by
  rw [text, Int.toString_eq_repr, Int.repr_eq_if]
  split
  · next h =>
    rw [if_neg (by omega), Nat.toList_repr, List.nil_append]
    congr 1
    omega
  · next h =>
    rw [if_pos (by omega), String.toList_append, Nat.toList_repr]
    congr 2
    omega

theorem of_mem_text {w : Word} {c : Char} (h : c ∈ w.text.toList) : c.isDigit = true ∨ c = '-' := by
  rw [toList_text, List.mem_append] at h
  rcases h with h | h
  · split at h
    · exact .inr (List.mem_singleton.mp h)
    · simp at h
  · exact .inl (Nat.isDigit_of_mem_toDigits (by decide) (by decide) h)

theorem text_ne_nil (w : Word) : w.text.toList ≠ [] := by
  rw [toList_text]
  simp [Nat.toDigits_ne_nil]

end Word

namespace Numeral

theorem splitSign_toDigits (n : Nat) :
    splitSign (Nat.toDigits 10 n) = (false, Nat.toDigits 10 n) := by
  cases h : Nat.toDigits 10 n with
  | nil => exact absurd h Nat.toDigits_ne_nil
  | cons c rest =>
    have hc : c.isDigit = true :=
      Nat.isDigit_of_mem_toDigits (by decide) (by decide) (h ▸ List.mem_cons_self)
    unfold splitSign
    split
    · next heq => simp_all
    · next heq => simp_all
    · rfl

theorem parseWord_text (w : Word) : parseWord w.text = .ok w := by
  have hl := Int64.le_toInt w
  have hu := Int64.toInt_lt w
  rw [parseWord, Word.toList_text]
  by_cases hneg : w.toInt < 0
  · rw [if_pos hneg, List.singleton_append]
    simp only [splitSign]
    rw [decimalMagnitude_toDigits (by unfold wordCount; omega), withSign]
    have hle : ¬ w.toInt.natAbs > halfCount := by unfold halfCount; omega
    simp only [if_true, hle, if_false]
    rw [show -(w.toInt.natAbs : Int) = w.toInt by omega, Int64.ofInt_toInt]
  · rw [if_neg hneg, List.nil_append, splitSign_toDigits]
    simp only
    rw [decimalMagnitude_toDigits (by unfold wordCount; omega), withSign]
    have hlt : ¬ w.toInt.natAbs ≥ halfCount := by unfold halfCount; omega
    simp only [Bool.false_eq_true, if_false, hlt]
    rw [← Int64.ofInt_eq_ofNat, show (w.toInt.natAbs : Int) = w.toInt by omega, Int64.ofInt_toInt]

end Numeral

end Clausify
