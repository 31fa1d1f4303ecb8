import Mathlib
import Clausify.Text.Blank
import Clausify.Text.Utf8

/-!
Cutting text at blanks and line breaks. Trimming leaves a text that starts and ends in a non-blank
as it is, whatever blanks follow, and the blanks at the end may be cut off first; a run of
non-blanks before a blank is a field of its own; and a piece without line breaks before one is a
line of its own.
-/

namespace Clausify.Text

theorem isBlank_of_isDigit {c : Char} (h : c.isDigit = true) : isBlank c = false := by
  have hrange : 48 ≤ c.toNat ∧ c.toNat ≤ 57 := by
    simp only [Char.isDigit, Bool.and_eq_true, decide_eq_true_eq] at h
    exact ⟨UInt32.le_iff_toNat_le.mp h.1, UInt32.le_iff_toNat_le.mp h.2⟩
  simp only [isBlank, Bool.or_eq_false_iff, Bool.and_eq_false_iff, decide_eq_false_iff_not,
    beq_eq_false_iff_ne]
  omega

/-! ## Trimming -/

theorem rdropWhile_cons {α : Type} (p : α → Bool) (x : α) (xs : List α) :
    (x :: xs).rdropWhile p =
      if p x = true ∧ xs.rdropWhile p = [] then [] else x :: xs.rdropWhile p := by
  rw [List.rdropWhile, List.rdropWhile, List.reverse_cons, List.dropWhile_append]
  cases xs.reverse.dropWhile p with
  | nil => by_cases hx : p x = true <;> simp [hx]
  | cons y ys => simp

theorem trimChars_of_head {c : Char} (h : isBlank c = false) (cs : List Char) :
    trimChars (c :: cs) = c :: cs.rdropWhile isBlank := by
  have hleft : (c :: cs).dropWhile isBlank = c :: cs := List.dropWhile_cons_of_neg (by simp [h])
  show ((c :: cs).dropWhile isBlank).rdropWhile isBlank = _
  rw [hleft, rdropWhile_cons, if_neg (by simp [h])]

theorem trimChars_of_blank {c : Char} (h : isBlank c = true) (cs : List Char) :
    trimChars (c :: cs) = trimChars cs := by
  rw [trimChars, List.dropWhile_cons_of_pos h, trimChars]

theorem trimChars_cons {c : Char} (h : isBlank c = false) (cs : List Char) :
    ∃ rest, trimChars (c :: cs) = c :: rest :=
  ⟨_, trimChars_of_head h cs⟩

theorem trimChars_rdropWhile (cs : List Char) :
    trimChars (cs.rdropWhile isBlank) = trimChars cs := by
  induction cs with
  | nil => rfl
  | cons c cs ih =>
    rw [rdropWhile_cons]
    cases hc : isBlank c with
    | false =>
      rw [if_neg (by simp), trimChars_of_head hc, trimChars_of_head hc,
        List.rdropWhile_idempotent]
    | true =>
      rw [trimChars_of_blank hc, ← ih]
      split
      · next hnil => rw [hnil.2]
      · exact trimChars_of_blank hc _

/-- Blanks after a text that starts and ends in a non-blank are cut off, and nothing else. -/
theorem trimChars_append_blanks {cs bs : List Char} {c d : Char} (hhead : cs.head? = some c)
    (hc : isBlank c = false) (hlast : cs.getLast? = some d) (hd : isBlank d = false)
    (hbs : ∀ b ∈ bs, isBlank b = true) : trimChars (cs ++ bs) = cs := by
  obtain ⟨rest, rfl⟩ := List.head?_eq_some_iff.mp hhead
  obtain ⟨front, hfront⟩ := List.getLast?_eq_some_iff.mp hlast
  have hleft : (c :: rest ++ bs).dropWhile isBlank = c :: rest ++ bs :=
    List.dropWhile_cons_of_neg (by simp [hc])
  rw [trimChars, hleft, List.reverse_append,
    List.dropWhile_append_of_pos (fun b hb => hbs b (List.mem_reverse.mp hb)), hfront,
    List.reverse_append, List.reverse_singleton, List.singleton_append,
    List.dropWhile_cons_of_neg (by simp [hd])]
  simp

/-! ## Fields -/

theorem runsFrom_blank {keep : Char → Bool} {f : List Char} (hne : f ≠ [])
    (hf : ∀ c ∈ f, keep c = true) {b : Char} (hb : keep b = false) (rest : List Char) :
    runsFrom keep [] (f ++ b :: rest) = f :: runsFrom keep [] rest := by
  have hrun : ∀ run : List Char, run.reverse ++ f ≠ [] →
      runsFrom keep run (f ++ b :: rest) = (run.reverse ++ f) :: runsFrom keep [] rest := by
    clear hne
    induction f with
    | nil =>
      intro run hrun
      have : run ≠ [] := by simpa using hrun
      simp [runsFrom, hb, this]
    | cons c cs ih =>
      intro run _
      rw [List.forall_mem_cons] at hf
      rw [List.cons_append, runsFrom, if_pos hf.1, ih hf.2 (c :: run) (by simp)]
      simp
  simpa using hrun [] (by simpa using hne)

theorem runsFrom_last {keep : Char → Bool} {f : List Char} (hne : f ≠ [])
    (hf : ∀ c ∈ f, keep c = true) : runsFrom keep [] f = [f] := by
  have hrun : ∀ run : List Char, run.reverse ++ f ≠ [] →
      runsFrom keep run f = [run.reverse ++ f] := by
    clear hne
    induction f with
    | nil =>
      intro run hrun
      have : run ≠ [] := by simpa using hrun
      simp [runsFrom, this]
    | cons c cs ih =>
      intro run _
      rw [List.forall_mem_cons] at hf
      rw [runsFrom, if_pos hf.1, ih hf.2 (c :: run) (by simp)]
      simp
  simpa using hrun [] (by simpa using hne)

theorem fieldsOf_blank {f : List Char} (hne : f ≠ []) (hf : ∀ c ∈ f, isBlank c = false)
    (rest : List Char) : fieldsOf (f ++ ' ' :: rest) = f :: fieldsOf rest :=
  runsFrom_blank hne (fun c hc => by simp [hf c hc]) (by decide) rest

theorem fieldsOf_last {f : List Char} (hne : f ≠ []) (hf : ∀ c ∈ f, isBlank c = false) :
    fieldsOf f = [f] :=
  runsFrom_last hne fun c hc => by simp [hf c hc]

/-! ## Lines -/

theorem splitAt_append {α : Type} [DecidableEq α] {separator : α} {piece : List α}
    (h : separator ∉ piece) (rest : List α) :
    Text.splitAt separator (piece ++ separator :: rest) = piece :: Text.splitAt separator rest := by
  have hrun : ∀ start : List α,
      splitFrom separator start (piece ++ separator :: rest) =
        (start.reverse ++ piece) :: splitFrom separator [] rest := by
    induction piece with
    | nil =>
      intro start
      simp [splitFrom]
    | cons c cs ih =>
      intro start
      rw [List.mem_cons, not_or] at h
      rw [List.cons_append, splitFrom, if_neg (Ne.symm h.1), ih h.2 (c :: start)]
      simp
  exact hrun []

theorem linesOf_append {line : List Char} (h : '\n' ∉ line) (rest : List Char) :
    linesOf (line ++ '\n' :: rest) = line :: linesOf rest := splitAt_append h rest

/-! ## Bytes -/

theorem decode_toUTF8 (s : String) : decode s.toUTF8 = s := by
  have h : String.fromUTF8? s.toUTF8 = some s := by
    rw [String.toUTF8_eq_toByteArray, String.fromUTF8?, dif_pos s.isValidUTF8]
    rfl
  rw [decode, h]

end Clausify.Text
