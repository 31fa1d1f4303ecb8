import Mathlib
import Clausify.Proofs.Text.Fields

/-!
Words spread over a line. A line holds words in order when white space stands between neighbours,
and any amount of it around them (`Spread`). The fields of such a line are the words, before and
after trimming (`spread_iff`, `fieldsOf_trimChars`), so nothing that is read field by field depends
on the white space. Lines joined by line breaks are the lines of the text
(`linesOf_intercalate`), and its fields are those of the lines (`flatMap_fieldsOf_linesOf`).
-/

namespace Clausify.Text

/-- White space that stays on its line. -/
def Gap (cs : List Char) : Prop := ∀ c ∈ cs, isBlank c = true ∧ c ≠ '\n'

/-- Some characters without white space among them. -/
structure IsField (cs : List Char) : Prop where
  ne_nil : cs ≠ []
  solid : ∀ c ∈ cs, isBlank c = false

/-- A line that holds some words in order. Behind a word the line ends or white space follows. -/
inductive Spread : List (List Char) → List Char → Prop where
  | blank {gap : List Char} (h : Gap gap) : Spread [] gap
  | word {margin word line : List Char} {words : List (List Char)} (hmargin : Gap margin)
      (hword : IsField word) (hend : ∀ c ∈ line.head?, isBlank c = true)
      (h : Spread words line) : Spread (word :: words) (margin ++ (word ++ line))

variable {words : List (List Char)} {line gap word : List Char}

theorem gap_nil : Gap [] := by simp [Gap]

theorem Gap.isBlank (h : Gap gap) : ∀ c ∈ gap, Text.isBlank c = true := fun c hc => (h c hc).1

theorem Spread.cons_blank {c : Char} (hc : Text.isBlank c = true) (hbreak : c ≠ '\n')
    (h : Spread words line) : Spread words (c :: line) := by
  cases h with
  | blank hgap => exact .blank (List.forall_mem_cons.mpr ⟨⟨hc, hbreak⟩, hgap⟩)
  | word hmargin hword hend h =>
    exact .word (List.forall_mem_cons.mpr ⟨⟨hc, hbreak⟩, hmargin⟩) hword hend h

theorem IsField.before {c : Char} (hword : IsField word) (hc : Text.isBlank c = true)
    (hbreak : c ≠ '\n') (h : Spread words line) : Spread (word :: words) (word ++ c :: line) := by
  refine .word gap_nil hword ?_ (h.cons_blank hc hbreak)
  rintro b ⟨⟩
  exact hc

theorem IsField.space (hword : IsField word) (h : Spread words line) :
    Spread (word :: words) (word ++ ' ' :: line) := hword.before (by decide) (by decide) h

theorem Spread.last (hword : IsField word) (hgap : Gap gap) : Spread [word] (word ++ gap) := by
  refine .word gap_nil hword ?_ (.blank hgap)
  intro c hc
  exact hgap.isBlank c (List.mem_of_mem_head? hc)

theorem Spread.newline_not_mem (h : Spread words line) : '\n' ∉ line := by
  induction h with
  | blank hgap => exact fun hmem => (hgap _ hmem).2 rfl
  | word hmargin hword hend h ih =>
    simp only [List.mem_append, not_or]
    refine ⟨fun hmem => (hmargin _ hmem).2 rfl, fun hmem => ?_, ih⟩
    exact absurd (hword.solid _ hmem) (by decide)

/-! ## Fields -/

theorem fieldsOf_cons_blank {c : Char} (h : isBlank c = true) (cs : List Char) :
    fieldsOf (c :: cs) = fieldsOf cs := by
  simp [fieldsOf, runsFrom, h]

theorem fieldsOf_append_left {bs : List Char} (h : ∀ b ∈ bs, isBlank b = true) (cs : List Char) :
    fieldsOf (bs ++ cs) = fieldsOf cs := by
  induction bs with
  | nil => rfl
  | cons b rest ih =>
    rw [List.forall_mem_cons] at h
    rw [List.cons_append, fieldsOf_cons_blank h.1, ih h.2]

/-- A run is not changed by a blank behind the text. -/
theorem runsFrom_concat_blank {keep : Char → Bool} {b : Char} (h : keep b = false)
    (run cs : List Char) : runsFrom keep run (cs ++ [b]) = runsFrom keep run cs := by
  induction cs generalizing run with
  | nil => simp [runsFrom, h]
  | cons c rest ih =>
    simp only [List.cons_append, runsFrom, ih]

theorem fieldsOf_append_right {bs : List Char} (h : ∀ b ∈ bs, isBlank b = true) (cs : List Char) :
    fieldsOf (cs ++ bs) = fieldsOf cs := by
  induction bs using List.reverseRecOn with
  | nil => rw [List.append_nil]
  | append_singleton rest b ih =>
    have hb : isBlank b = true := h b (by simp)
    have hrest : ∀ c ∈ rest, isBlank c = true := fun c hc => h c (List.mem_append_left _ hc)
    rw [← List.append_assoc, fieldsOf, runsFrom_concat_blank (by simp [hb])]
    exact ih hrest

theorem exists_trimChars (cs : List Char) :
    ∃ before behind, cs = before ++ (trimChars cs ++ behind) ∧
      (∀ b ∈ before, isBlank b = true) ∧ ∀ b ∈ behind, isBlank b = true := by
  have hright : trimChars cs ++ (cs.dropWhile isBlank).rtakeWhile isBlank = cs.dropWhile isBlank :=
    List.rdropWhile_append_rtakeWhile
  refine ⟨cs.takeWhile isBlank, (cs.dropWhile isBlank).rtakeWhile isBlank, ?_, ?_, ?_⟩
  · rw [hright, List.takeWhile_append_dropWhile]
  · intro b hb
    exact List.mem_takeWhile_imp hb
  · intro b hb
    exact List.mem_rtakeWhile_imp hb

theorem fieldsOf_trimChars (cs : List Char) : fieldsOf (trimChars cs) = fieldsOf cs := by
  obtain ⟨before, behind, hcs, hbefore, hbehind⟩ := exists_trimChars cs
  calc fieldsOf (trimChars cs)
      = fieldsOf (trimChars cs ++ behind) := (fieldsOf_append_right hbehind _).symm
    _ = fieldsOf (before ++ (trimChars cs ++ behind)) := (fieldsOf_append_left hbefore _).symm
    _ = fieldsOf cs := by rw [← hcs]

theorem fieldsOf_word (hword : IsField word) (hend : ∀ c ∈ line.head?, isBlank c = true) :
    fieldsOf (word ++ line) = word :: fieldsOf line := by
  cases line with
  | nil =>
    rw [List.append_nil, fieldsOf_last hword.ne_nil hword.solid]
    rfl
  | cons b rest =>
    have hb : isBlank b = true := hend b rfl
    rw [fieldsOf, runsFrom_blank hword.ne_nil (fun c hc => by simp [hword.solid c hc])
      (by simp [hb]), fieldsOf_cons_blank hb]
    rfl

theorem fieldsOf_of_spread (h : Spread words line) : fieldsOf line = words := by
  induction h with
  | @blank gap hgap =>
    rw [← List.append_nil gap, fieldsOf_append_left hgap.isBlank]
    rfl
  | word hmargin hword hend h ih =>
    rw [fieldsOf_append_left hmargin.isBlank, fieldsOf_word hword hend, ih]

theorem runsFrom_append_blank {keep : Char → Bool} {b : Char} (h : keep b = false)
    (run cs rest : List Char) :
    runsFrom keep run (cs ++ b :: rest) = runsFrom keep run cs ++ runsFrom keep [] rest := by
  induction cs generalizing run with
  | nil => by_cases hrun : run = [] <;> simp [runsFrom, h, hrun]
  | cons c cs ih =>
    simp only [List.cons_append, runsFrom, ih]
    split_ifs <;> rfl

theorem fieldsOf_append (cs : List Char) {rest : List Char}
    (h : ∀ c ∈ rest.head?, isBlank c = true) :
    fieldsOf (cs ++ rest) = fieldsOf cs ++ fieldsOf rest := by
  cases rest with
  | nil =>
    rw [List.append_nil]
    exact (List.append_nil _).symm
  | cons b rest =>
    have hb : isBlank b = true := h b rfl
    rw [fieldsOf_cons_blank hb, fieldsOf, runsFrom_append_blank (by simp [hb])]
    rfl

theorem spread_runsFrom {run : List Char} (hrun : ∀ c ∈ run, isBlank c = false)
    (h : '\n' ∉ line) : Spread (runsFrom (fun c => !isBlank c) run line) (run.reverse ++ line) := by
  have hfield : ∀ {run : List Char}, (∀ c ∈ run, isBlank c = false) → run ≠ [] →
      IsField run.reverse := by
    intro run hrun hne
    exact ⟨by simpa using hne, fun c hc => hrun c (List.mem_reverse.mp hc)⟩
  induction line generalizing run with
  | nil =>
    rw [runsFrom]
    by_cases hne : run = []
    · rw [if_pos (by simp [hne]), hne]
      exact .blank gap_nil
    · rw [if_neg (by simp [hne])]
      exact .last (hfield hrun hne) gap_nil
  | cons c rest ih =>
    rw [List.mem_cons, not_or] at h
    rw [runsFrom]
    cases hc : isBlank c with
    | false =>
      -- the run goes on
      have hlonger := ih (List.forall_mem_cons.mpr ⟨hc, hrun⟩) h.2
      simpa using hlonger
    | true =>
      have hrest := (ih (List.forall_mem_nil _) h.2).cons_blank hc (Ne.symm h.1)
      by_cases hne : run = []
      · simpa [hne] using hrest
      · rw [if_neg (by simp), if_neg (by simp [hne])]
        exact (hfield hrun hne).before hc (Ne.symm h.1) (ih (List.forall_mem_nil _) h.2)

/-- A line holds exactly its fields. -/
theorem spread_iff : Spread words line ↔ '\n' ∉ line ∧ fieldsOf line = words := by
  constructor
  · intro h
    exact ⟨h.newline_not_mem, fieldsOf_of_spread h⟩
  · rintro ⟨h, rfl⟩
    exact spread_runsFrom (List.forall_mem_nil _) h

instance (words : List (List Char)) (line : List Char) : Decidable (Spread words line) :=
  decidable_of_iff _ spread_iff.symm

/-! ## Trimming -/

theorem trimChars_append_left {bs : List Char} (h : ∀ b ∈ bs, isBlank b = true) (cs : List Char) :
    trimChars (bs ++ cs) = trimChars cs := by
  induction bs with
  | nil => rfl
  | cons b rest ih =>
    rw [List.forall_mem_cons] at h
    rw [List.cons_append, trimChars_of_blank h.1, ih h.2]

theorem trimChars_of_spread_nil (h : Spread [] line) : trimChars line = [] := by
  cases h with
  | blank hgap =>
    rw [← List.append_nil line, trimChars_append_left hgap.isBlank]
    rfl

theorem trimChars_of_spread_singleton (h : Spread [word] line) : trimChars line = word := by
  cases h with
  | word hmargin hword hend h =>
    cases h with
    | blank hgap =>
      rw [trimChars_append_left hmargin.isBlank]
      apply trimChars_append_blanks (List.head?_eq_some_head hword.ne_nil)
        (hword.solid _ (List.head_mem _)) (List.getLast?_eq_some_getLast hword.ne_nil)
        (hword.solid _ (List.getLast_mem _)) hgap.isBlank

theorem trimChars_of_spread {c : Char} {cs : List Char} (h : Spread ((c :: cs) :: words) line) :
    ∃ rest, trimChars line = c :: rest := by
  cases h with
  | word hmargin hword hend h =>
    rw [trimChars_append_left hmargin.isBlank]
    exact trimChars_cons (hword.solid c List.mem_cons_self) _

/-! ## Lines -/

/-- Cutting at a separator is the splitting of lists, the open piece put before the first part. -/
theorem splitFrom_eq_splitOn {α : Type} [DecidableEq α] (separator : α) (piece xs : List α) :
    splitFrom separator piece xs = (xs.splitOn separator).modifyHead (piece.reverse ++ ·) := by
  induction xs generalizing piece with
  | nil => simp [splitFrom]
  | cons x rest ih =>
    rw [splitFrom, List.splitOn_cons_eq_if_modifyHead]
    by_cases hx : x = separator
    · have hhead : (rest.splitOn separator).modifyHead ([] ++ ·) = rest.splitOn separator :=
        congrFun List.modifyHead_id _
      simpa [hx, ih] using hhead
    · rw [if_neg hx, if_neg (by simpa using hx), ih, List.modifyHead_modifyHead]
      congr 1
      funext part
      simp

theorem linesOf_eq_splitOn (cs : List Char) : linesOf cs = cs.splitOn '\n' := by
  rw [linesOf, Text.splitAt, splitFrom_eq_splitOn]
  exact congrFun List.modifyHead_id _

theorem intercalate_linesOf (cs : List Char) : ['\n'].intercalate (linesOf cs) = cs := by
  rw [linesOf_eq_splitOn, List.intercalate_splitOn]

theorem linesOf_append_newline (cs rest : List Char) :
    linesOf (cs ++ '\n' :: rest) = linesOf cs ++ linesOf rest := by
  have hsplit : ∀ piece : List Char, splitFrom '\n' piece (cs ++ '\n' :: rest) =
      splitFrom '\n' piece cs ++ splitFrom '\n' [] rest := by
    induction cs with
    | nil => simp [splitFrom]
    | cons c cs ih =>
      intro piece
      simp only [List.cons_append, splitFrom, ih]
      split_ifs <;> rfl
  exact hsplit []

/-- The fields of a text are those of its lines. -/
theorem flatMap_fieldsOf_linesOf (cs : List Char) :
    (linesOf cs).flatMap fieldsOf = fieldsOf cs := by
  have hjoined : ∀ lines : List (List Char),
      fieldsOf (['\n'].intercalate lines) = lines.flatMap fieldsOf := by
    intro lines
    induction lines with
    | nil => rfl
    | cons line lines ih =>
      cases lines with
      | nil => simp
      | cons next lines =>
        have hbreak : ∀ c ∈ ('\n' :: ['\n'].intercalate (next :: lines)).head?,
            isBlank c = true := by
          rintro c ⟨⟩
          decide
        rw [List.intercalate_cons_cons, List.append_assoc, List.singleton_append,
          fieldsOf_append line hbreak, fieldsOf_cons_blank (by decide), ih]
        rfl
  rw [← hjoined, intercalate_linesOf]

theorem linesOf_intercalate {lines : List (List Char)} (hne : lines ≠ [])
    (h : ∀ l ∈ lines, '\n' ∉ l) : linesOf (['\n'].intercalate lines) = lines := by
  rw [linesOf_eq_splitOn, List.splitOn_intercalate '\n' h hne]

end Clausify.Text
