import Mathlib
import Clausify.Text.Case

/-!
Lower-casing settles after one step, as far as plain small letters are concerned: a text that is in
lower case and becomes a word of such letters is that word (`lower_eq_of_lower_lower`). The letters
that become plain small ones are the plain capital ones, U+0130 and U+212A (`IsCapital`), and no
letter becomes one of those (`not_isCapital_lowerChar`).
-/

namespace Clausify.Text

/-- The code point is that of a letter with a plain small form other than itself. -/
def IsCapital (point : Nat) : Prop :=
  (0x41 ≤ point ∧ point ≤ 0x5a) ∨ point = 0x130 ∨ point = 0x212a

/-- The code point is that of a plain small letter. -/
def IsSmall (point : Nat) : Prop := 0x61 ≤ point ∧ point ≤ 0x7a

instance (point : Nat) : Decidable (IsSmall point) :=
  inferInstanceAs (Decidable (0x61 ≤ point ∧ point ≤ 0x7a))

theorem toNat_toLower (c : Char) : c.toLower.toNat =
    if 0x41 ≤ c.toNat ∧ c.toNat ≤ 0x5a then c.toNat + 32 else c.toNat := by
  have htest : (c.val ≥ 'A'.val ∧ c.val ≤ 'Z'.val) ↔ 0x41 ≤ c.toNat ∧ c.toNat ≤ 0x5a := by
    simp only [ge_iff_le, UInt32.le_iff_toNat_le]
    exact Iff.rfl
  unfold Char.toLower
  split
  · next h =>
    rw [htest] at h
    rw [if_pos h]
    show (c.val + 32).toNat = c.val.toNat + 32
    have hval : c.val.toNat = c.toNat := rfl
    rw [UInt32.toNat_add, show (32 : UInt32).toNat = 32 from rfl]
    omega
  · next h => rw [if_neg (mt htest.mpr h)]

/-- A plain character is lower-cased on its own, and another by the run it belongs to, if any. -/
theorem lowerChar_cases (c : Char) :
    (c.toNat < 0x80 ∧ lowerChar c = c.toLower) ∨
    (∃ run ∈ caseRuns, run.first ≤ c.toNat ∧ c.toNat ≤ run.last ∧
      lowerChar c = Char.ofNat (run.image + (c.toNat - run.first))) ∨
    (0x80 ≤ c.toNat ∧ lowerChar c = c ∧ ∀ run ∈ caseRuns, ¬ (run.first ≤ c.toNat ∧
      c.toNat ≤ run.last ∧ (c.toNat - run.first) % run.stride = 0)) := by
  unfold lowerChar
  dsimp only
  split
  · next hplain => exact .inl ⟨hplain, rfl⟩
  · next hplain =>
    right
    split
    · next run hfound =>
      have htest := Array.find?_some hfound
      simp only [Bool.and_eq_true, decide_eq_true_eq] at htest
      exact .inl ⟨run, Array.mem_of_find?_eq_some hfound, htest.1.1, htest.1.2, rfl⟩
    · next hnone =>
      refine .inr ⟨Nat.not_lt.mp hplain, rfl, fun run hrun htest => ?_⟩
      apply Array.find?_eq_none.mp hnone run hrun
      simp [htest]

/-- No run reaches a capital letter with a plain small form. -/
theorem images_not_capital : ∀ run ∈ caseRuns,
    (run.image + (run.last - run.first) < 0x41 ∨ 0x5a < run.image) ∧
    (run.image + (run.last - run.first) < 0x130 ∨ 0x130 < run.image) ∧
    (run.image + (run.last - run.first) < 0x212a ∨ 0x212a < run.image) := by
  decide +kernel

/-- Two runs of one letter reach a plain small letter. -/
theorem images_small : ∀ run ∈ caseRuns, run.image + (run.last - run.first) < 0x61 ∨
    0x7a < run.image ∨ (run.first = run.last ∧ (run.first = 0x130 ∨ run.first = 0x212a)) := by
  decide +kernel

theorem capital_in_run {point : Nat} (h : point = 0x130 ∨ point = 0x212a) :
    ∃ run ∈ caseRuns, run.first ≤ point ∧ point ≤ run.last ∧
      (point - run.first) % run.stride = 0 := by
  rcases h with rfl | rfl <;> decide +kernel

theorem not_isCapital_lowerChar (c : Char) : ¬ IsCapital (lowerChar c).toNat := by
  unfold IsCapital
  rcases lowerChar_cases c with ⟨hplain, heq⟩ | ⟨run, hrun, hfirst, hlast, heq⟩ |
    ⟨hplain, heq, hnone⟩
  · rw [heq, toNat_toLower]
    split <;> omega
  · have himages := images_not_capital run hrun
    rw [heq, Char.toNat_ofNat]
    split <;> omega
  · -- what has no run is neither of the two capitals beyond the plain ones
    rw [heq]
    rintro (hcapital | hcapital)
    · omega
    · obtain ⟨run, hrun, htest⟩ := capital_in_run hcapital
      exact hnone run hrun htest

theorem lowerChar_eq_of_isSmall {c : Char} (h : ¬ IsCapital c.toNat)
    (hsmall : IsSmall (lowerChar c).toNat) : lowerChar c = c := by
  unfold IsCapital at h
  unfold IsSmall at hsmall
  rcases lowerChar_cases c with ⟨hplain, heq⟩ | ⟨run, hrun, hfirst, hlast, heq⟩ |
    ⟨hplain, heq, hnone⟩
  · rw [heq]
    apply Char.toNat_inj.mp
    rw [toNat_toLower, if_neg (by omega)]
  · have himages := images_small run hrun
    rw [heq, Char.toNat_ofNat] at hsmall
    split at hsmall <;> omega
  · exact heq

/-- A text in lower case that becomes a word of plain small letters is that word. -/
theorem lower_eq_of_lower_lower {text word : String} (hword : ∀ c ∈ word.toList, IsSmall c.toNat)
    (h : lower (lower text) = word) : lower text = word := by
  have hchars : ∀ c ∈ (lower text).toList, lowerChar c = c := by
    intro c hc
    apply lowerChar_eq_of_isSmall
    · rw [lower, String.toList_map] at hc
      obtain ⟨d, -, rfl⟩ := List.mem_map.mp hc
      exact not_isCapital_lowerChar d
    · apply hword
      rw [← h, lower, String.toList_map]
      exact List.mem_map_of_mem hc
  rw [← h, ← String.toList_inj]
  show (lower text).toList = ((lower text).map lowerChar).toList
  rw [String.toList_map, List.map_congr_left hchars, List.map_id']

end Clausify.Text
