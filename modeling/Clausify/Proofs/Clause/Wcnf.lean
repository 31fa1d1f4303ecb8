import Mathlib
import Clausify.Proofs.Clause.Dimacs

/-!
Weighted documents. The header `p wcnf V C top` gives the number of variables, the number of clauses
and the top weight. Every line behind it that is no comment is one clause: a weight, the literals
and a closing zero. A clause is hard when its weight is at least the top weight, and soft otherwise
(`Document.hard`, `Document.soft`). Main statement: a finished weighted file is read as the clauses
of its lines with their weights (`parse_weighted_file`).
-/

namespace Clausify.Wcnf

open Dimacs (Line)

/-- What a weighted document says. -/
structure Document where
  variableCount : Nat
  top : Word
  clauses : List (Word × Clause)
  deriving DecidableEq

namespace Document

/-- The clauses that have to hold. -/
def hard (d : Document) : List Clause := (d.clauses.filter fun c => d.top ≤ c.1).map Prod.snd

/-- The clauses that may fail, each at the price of its weight. -/
def soft (d : Document) : List (Word × Clause) := d.clauses.filter fun c => c.1 < d.top

end Document

/-! ## Reading -/

structure Header where
  variableCount : Nat
  clauses : Nat
  top : Word

def readHeader : List (List Char) → Option Header
  | [['p'], ['w', 'c', 'n', 'f'], count, clauses, top] => do
    let count ← (Numeral.parseNat (String.ofList count)).toOption
    let clauses ← (Numeral.parseNat (String.ofList clauses)).toOption
    let top ← (Numeral.parseWord (String.ofList top)).toOption
    some ⟨count, clauses, top⟩
  | _ => none

/-- The literals in front of a closing zero, all of them of the first `count` variables. -/
def literalsOf (count : Nat) : List Word → Option Clause
  | [] => none
  | w :: rest =>
    if w = 0 then if rest.isEmpty then some [] else none
    else if count < Dimacs.Reading.magnitudeOf w then none
    else (literalsOf count rest).map (⟨w⟩ :: ·)

def readClause (count : Nat) (fields : List (List Char)) : Option (Word × Clause) :=
  match fields.mapM fun field => (Numeral.parseWord (String.ofList field)).toOption with
  | some (weight :: rest) => (literalsOf count rest).map (weight, ·)
  | _ => none

def readBody (count : Nat) : List (List Char) → Option (List (Word × Clause))
  | [] => some []
  | line :: rest =>
    match Text.trimChars line with
    | [] | 'c' :: _ => readBody count rest
    | trimmed => do
      let clause ← readClause count (Text.fieldsOf trimmed)
      let clauses ← readBody count rest
      some (clause :: clauses)

/-- Reads lines up to the header, and then the clauses that it announces. -/
def readLines : List (List Char) → Option Document
  | [] => none
  | line :: rest =>
    match Text.trimChars line with
    | [] | 'c' :: _ => readLines rest
    | trimmed => do
      let header ← readHeader (Text.fieldsOf trimmed)
      let clauses ← readBody header.variableCount rest
      if clauses.length = header.clauses then
        some ⟨header.variableCount, header.top, clauses⟩
      else none

def parse (text : String) : Option Document := readLines (Text.linesOf text.toList)

/-! ## Reading what was written -/

/-- The clause of a line with its weight, if it has both. -/
def weighted? : Line → Option (Word × Clause)
  | .clause (some weight) c => some (weight, c)
  | _ => none

/-- Weighted documents with `n` variables may have this line. -/
def Readable (n : Nat) : Line → Prop
  | .comment _ => True
  | .clause weight c =>
    weight.isSome = true ∧ ∀ l ∈ c, l.word ≠ 0 ∧ Dimacs.Reading.magnitudeOf l.word ≤ n

theorem literalsOf_words {n : Nat} {c : Clause}
    (h : ∀ l ∈ c, l.word ≠ 0 ∧ Dimacs.Reading.magnitudeOf l.word ≤ n) :
    literalsOf n (c.map Literal.word ++ [0]) = some c := by
  induction c with
  | nil => rfl
  | cons l rest ih =>
    rw [List.forall_mem_cons] at h
    rw [List.map_cons, List.cons_append, literalsOf, if_neg h.1.1, if_neg (by omega), ih h.2]
    rfl

theorem mapM_texts (ws : List Word) :
    (ws.map fun w => w.text.toList).mapM
      (fun field => (Numeral.parseWord (String.ofList field)).toOption) = some ws := by
  induction ws with
  | nil => rfl
  | cons w rest ih =>
    rw [List.map_cons, List.mapM_cons, ih, String.ofList_toList, Numeral.parseWord_text]
    rfl

theorem fieldsOf_weighted (weight : Word) (c : Clause) :
    Text.fieldsOf (Line.clause (some weight) c).chars =
      (weight :: (c.map Literal.word ++ [0])).map fun w => w.text.toList := by
  have hzero : (0 : Word).text.toList = ['0'] := by decide
  show Text.fieldsOf ((weight.text.toList ++ [' ']) ++ _) = _
  rw [List.append_assoc, List.singleton_append,
    Text.fieldsOf_blank (Word.text_ne_nil weight) fun _ => Dimacs.Reading.isBlank_of_mem_text,
    Dimacs.Reading.fieldsOf_clause]
  simp [hzero, Literal.number]

theorem readClause_line {n : Nat} {weight : Word} {c : Clause}
    (h : ∀ l ∈ c, l.word ≠ 0 ∧ Dimacs.Reading.magnitudeOf l.word ≤ n) :
    readClause n (Text.fieldsOf (Line.clause (some weight) c).chars) = some (weight, c) := by
  rw [readClause, fieldsOf_weighted, mapM_texts]
  simp only [literalsOf_words h, Option.map_some]

theorem readBody_lines {n : Nat} {ls : List Line} (h : ∀ l ∈ ls, Readable n l) :
    readBody n (ls.map Line.chars ++ [[]]) = some (ls.filterMap weighted?) := by
  induction ls with
  | nil => rfl
  | cons l rest ih =>
    rw [List.forall_mem_cons] at h
    rw [List.map_cons, List.cons_append, readBody]
    cases l with
    | comment text =>
      obtain ⟨chars, hchars⟩ := Text.trimChars_cons (c := 'c') (by decide)
        (' ' :: text.toList.map fun c => if c = '\n' then ' ' else c)
      simp only [Line.chars, hchars]
      exact ih h.2
    | clause weight c =>
      obtain ⟨hweight, hc⟩ := h.1
      obtain ⟨w, rfl⟩ := Option.isSome_iff_exists.mp hweight
      obtain ⟨ch, chars, hchars, hch⟩ := Dimacs.Reading.chars_clause_cons (some w) c
      rw [Dimacs.Reading.trimChars_clause]
      -- a clause line is neither blank nor a comment
      split
      · next heq => rw [hchars] at heq; simp at heq
      · next heq =>
        obtain rfl : ch = 'c' := by rw [hchars] at heq; exact (List.cons.inj heq).1
        exact absurd hch (by decide)
      · rw [readClause_line hc, ih h.2]
        rfl

theorem toList_header {i : Instance} (h : i.options.weighted = true) :
    i.header.toList = 'p' :: ' ' :: (['w', 'c', 'n', 'f'] ++ ' ' ::
      (Nat.toDigits 10 i.variableCount ++ ' ' :: (Nat.toDigits 10 i.clauses ++ ' ' ::
        i.options.top.text.toList))) := by
  simp [Instance.header, h, String.toList_append, Nat.toString_eq_repr]

/-- A weighted header has no blanks around it, once the filling is taken away. -/
theorem trimChars_header {i : Instance} (h : i.options.weighted = true) :
    Text.trimChars i.paddedHeader.toList = i.header.toList := by
  have hchars := toList_header h
  obtain ⟨d, hd⟩ : ∃ d, i.options.top.text.toList.getLast? = some d :=
    ⟨_, List.getLast?_eq_some_getLast (Word.text_ne_nil _)⟩
  have hhead : i.header.toList.head? = some 'p' := by rw [hchars]; rfl
  have hlast : i.header.toList.getLast? = some d := by
    rw [hchars]
    simp [List.getLast?_append, List.getLast?_cons, hd]
  exact Dimacs.Reading.trimChars_paddedHeader hhead (by decide) hlast
    (Dimacs.Reading.isBlank_of_mem_text (List.mem_of_getLast? hd))

theorem readHeader_header {i : Instance} (hweighted : i.options.weighted = true)
    (hcount : i.variableCount < wordCount) (hclauses : i.clauses < wordCount) :
    readHeader (Text.fieldsOf i.header.toList) =
      some ⟨i.variableCount, i.clauses, i.options.top⟩ := by
  have hfields : Text.fieldsOf i.header.toList = [['p'], ['w', 'c', 'n', 'f'],
      Nat.toDigits 10 i.variableCount, Nat.toDigits 10 i.clauses, i.options.top.text.toList] := by
    rw [toList_header hweighted]
    show Text.fieldsOf (['p'] ++ ' ' :: _) = _
    rw [Text.fieldsOf_blank (by simp) (by simp [Text.isBlank]),
      Text.fieldsOf_blank (by simp) (by simp [Text.isBlank]),
      Text.fieldsOf_blank Nat.toDigits_ne_nil fun _ => Dimacs.Reading.isBlank_of_mem_toDigits,
      Text.fieldsOf_blank Nat.toDigits_ne_nil fun _ => Dimacs.Reading.isBlank_of_mem_toDigits,
      Text.fieldsOf_last (Word.text_ne_nil _) fun _ => Dimacs.Reading.isBlank_of_mem_text]
  have hnat : ∀ n : Nat, n < wordCount →
      Numeral.parseNat (String.ofList (Nat.toDigits 10 n)) = .ok n := by
    intro n hn
    rw [← Nat.toList_repr, String.ofList_toList, Numeral.parseNat_repr hn]
  rw [hfields]
  simp only [readHeader, hnat _ hcount, hnat _ hclauses, String.ofList_toList,
    Numeral.parseWord_text]
  rfl

/-- A finished weighted file with readable lines is read as the clauses of its lines. -/
theorem parse_weighted_file {i : Instance} {ls : List Line} (hweighted : i.options.weighted = true)
    (hcount : i.variableCount < wordCount) (hclauses : i.clauses < wordCount)
    (htotal : i.clauses = (ls.filterMap weighted?).length)
    (h : ∀ l ∈ ls, Readable i.variableCount l) :
    parse (i.paddedHeader ++ "\n" ++ String.join (ls.map Line.text)) =
      some ⟨i.variableCount, i.options.top, ls.filterMap weighted?⟩ := by
  rw [parse, Dimacs.linesOf_file, readLines, trimChars_header hweighted]
  have hchars := toList_header hweighted
  split
  · next heq => rw [hchars] at heq; simp at heq
  · next heq => rw [hchars] at heq; simp at heq
  · rw [readHeader_header hweighted hcount hclauses]
    simp [readBody_lines h, htotal]

end Clausify.Wcnf
