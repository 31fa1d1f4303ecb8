import Mathlib
import Clausify.Proofs.Number.Denotation
import Clausify.Proofs.Problem.Source

/-!
What the operands of a document stand for. A text is first read as a numeral; only a text that is
none is looked up among the declared variables, and one that is not found there is refused
(`operand_text_eq_ok_iff`). The operands of a written constraint go unchanged into the constraints
that the library builds for it, all together or two by two (`operands_build`). Main statement:
`operand_texts_resolve`, for all constraints of a problem. A variable may be declared under a
numeral, but no text speaks about it; the empty text, which no variable has for a name, is a
constant (`numeral_hides_variable`).
-/

namespace Clausify

/-! ## Operands of the library -/

namespace Library

/-- All pairs of positions, by the first of them. -/
def pairs : List Operand → List (List Operand)
  | [] => []
  | x :: rest => rest.map (fun y => [x, y]) ++ pairs rest

/-- The operands of each constraint of a relation. -/
def scopes (relation : String) (operands : List Operand) : List (List Operand) :=
  if Text.lower relation = "alldiff" then pairs operands else [operands]

theorem operands_allDifferent (operands : List Operand) :
    (allDifferent operands).map Constraint.operands = pairs operands := by
  induction operands with
  | nil => rfl
  | cons x rest ih =>
    rw [allDifferent, List.map_append, List.map_map, ih]
    rfl

theorem operands_build {relation : String} {operands : List Operand} {offset value : Word}
    {cs : List Constraint} (h : build relation operands offset value = .ok cs) :
    cs.map Constraint.operands = scopes relation operands := by
  unfold scopes
  rcases build_cases h with ⟨hname, c, rfl, hpost⟩ | ⟨hname, rfl⟩
  · rw [if_neg hname, List.map_singleton, hpost.operands_eq]
  · rw [if_pos hname, operands_allDifferent]

end Library

/-! ## Written operands -/

namespace ConstraintSource

variable {catalog : Catalog} {relation : String}

/-- A text that is a numeral is its number, whether or not a variable has that name; any other text
is a declared variable. -/
theorem operand_text_eq_ok_iff {t : String} {o : Operand} (ht : t ≠ "") :
    operand catalog relation (.text t) = .ok o ↔
      (∃ w, Numeral.Denotes t.toList w.toInt ∧ o = .const w) ∨
        (∀ w : Word, ¬ Numeral.Denotes t.toList w.toInt) ∧ t ∈ catalog.names ∧ o = .var t := by
  simp only [← Numeral.parseWord_eq_ok_iff, ← Catalog.isKnown_iff]
  rw [operand_eq_ok, Operand.ofValue]
  cases hw : Numeral.parseWord t with
  | ok w =>
    simp only [Except.ok.injEq, exists_eq_left', forall_eq', false_and, or_false]
    constructor
    · rintro ⟨rfl, -⟩
      rfl
    · rintro rfl
      exact ⟨rfl, fun x hx => Operand.noConfusion hx⟩
  | error fault =>
    have hname : Operand.ofName t = .var t := if_neg ht
    simp only [reduceCtorEq, false_and, exists_false, not_false_eq_true, implies_true, true_and,
      false_or, hname, Except.ok.injEq]
    constructor
    · rintro ⟨rfl, hknown⟩
      exact ⟨hknown t rfl, rfl⟩
    · rintro ⟨hknown, rfl⟩
      exact ⟨rfl, fun x hx => Operand.var.inj hx ▸ hknown⟩

/-- The operands that a written constraint speaks about, position by position: texts stand for
numbers or for declared variables. -/
structure Resolves (names : List String) (s : ConstraintSource) (operands : List Operand) :
    Prop where
  length_eq : operands.length = s.operands.length
  number : ∀ (i : Nat) (t : String), s.operands[i]? = some (Document.Value.text t) →
    ∀ w : Word, Numeral.Denotes t.toList w.toInt → operands[i]? = some (Operand.const w)
  name : ∀ (i : Nat) (t : String), s.operands[i]? = some (Document.Value.text t) → t ≠ "" →
    (∀ w : Word, ¬ Numeral.Denotes t.toList w.toInt) →
      t ∈ names ∧ operands[i]? = some (Operand.var t)

variable {s : ConstraintSource}

theorem ne_empty_of_denotes {t : String} {n : Int} (h : Numeral.Denotes t.toList n) : t ≠ "" := by
  rintro rfl
  generalize hcs : "".toList = cs at h
  cases h with
  | unsigned hdigits => exact hdigits.ne_nil hcs.symm
  | plus => simp at hcs
  | minus => simp at hcs

theorem resolves_of_mapM {operands : List Operand}
    (h : s.operands.mapM (operand catalog s.relation) = .ok operands) :
    s.Resolves catalog.names operands := by
  obtain ⟨hlength, hall⟩ := List.forall₂_iff_get.mp (mapM_eq_ok.mp h)
  -- what stands at a position is the operand of what is written there
  have hoperand : ∀ (i : Nat) (t : String), s.operands[i]? = some (Document.Value.text t) →
      ∃ o, operands[i]? = some o ∧ operand catalog s.relation (.text t) = .ok o := by
    intro i t ht
    obtain ⟨hi, hget⟩ := List.getElem?_eq_some_iff.mp ht
    have hi' : i < operands.length := hlength ▸ hi
    refine ⟨operands[i], List.getElem?_eq_getElem hi', ?_⟩
    rw [← hget]
    exact hall i hi hi'
  refine ⟨hlength.symm, ?_, ?_⟩
  · intro i t ht w hw
    obtain ⟨o, ho, hok⟩ := hoperand i t ht
    rw [ho]
    rcases (operand_text_eq_ok_iff (ne_empty_of_denotes hw)).mp hok with
      ⟨w', hw', rfl⟩ | ⟨hnone, -⟩
    · have hsame := Numeral.parseWord_eq_ok_iff.mpr hw'
      rw [Numeral.parseWord_eq_ok_iff.mpr hw] at hsame
      rw [Except.ok.inj hsame]
    · exact absurd hw (hnone w)
  · intro i t ht hne hnone
    obtain ⟨o, ho, hok⟩ := hoperand i t ht
    rcases (operand_text_eq_ok_iff hne).mp hok with ⟨w, hw, -⟩ | ⟨-, hknown, rfl⟩
    · exact absurd hw (hnone w)
    · exact ⟨hknown, ho⟩

/-- What is said about a constraint besides its operands leaves them as they are. -/
theorem operands_of_build {cs : List Constraint} (h : s.build catalog = .ok cs) :
    ∃ operands, s.Resolves catalog.names operands ∧
      cs.map Constraint.operands = Library.scopes s.relation operands := by
  obtain ⟨operands, strategy, us, hoperands, -, hus, -, rfl⟩ := build_cases h
  refine ⟨operands, resolves_of_mapM hoperands, ?_⟩
  rw [← Library.operands_build hus, List.map_map]
  rfl

end ConstraintSource

namespace ProblemSource

variable {s : ProblemSource} {p : Problem}

theorem names_of_declare {catalog : Catalog}
    (h : s.declarations.foldlM declare Catalog.empty = .ok catalog) :
    catalog.names = s.declarations.map VariableSource.name := by
  obtain ⟨-, vs, hvs, hdeclared⟩ := foldlM_declare h Catalog.proper_empty
  rw [Catalog.names, hdeclared, Catalog.empty, List.nil_append, eq_comm]
  rw [← List.forall₂_eq_eq_eq, List.forall₂_map_left_iff, List.forall₂_map_right_iff]
  exact hvs.imp fun source v hv => (VariableSource.of_build_eq_ok hv).1.symm

/-- The constraints of a problem that is built are those of its source in order. Their operands are
what the source writes: a numeral of a word is the word, and any other text that is not empty is a
declared variable. -/
theorem operand_texts_resolve (h : s.build = .ok p) :
    ∃ css, p.constraints = css.flatten ∧
      List.Forall₂ (fun k cs => ∃ operands,
          k.Resolves (s.declarations.map VariableSource.name) operands ∧
          cs.map Constraint.operands = Library.scopes k.relation operands)
        s.constraints css := by
  obtain ⟨catalog, css, hdeclare, -, hcss, hconstraints, -⟩ := build_cases h
  refine ⟨css, hconstraints, hcss.imp fun k cs hk => ?_⟩
  rw [← names_of_declare hdeclare]
  exact k.operands_of_build hk

/-- A variable and a quoted number. -/
theorem sample_operands_resolve : ∃ p, sample.build = .ok p ∧
    ∃ c ∈ p.constraints, c.operands = [.var "x", .const 3] := by
  obtain ⟨p, hp⟩ := exists_of_isOk (s := sample) (by cbv)
  obtain ⟨css, hflat, hall⟩ := operand_texts_resolve hp
  obtain ⟨cs, rest, ⟨operands, hresolves, hscopes⟩, -, rfl⟩ := List.forall₂_cons_left_iff.mp hall
  have hname : ∀ w : Word, ¬ Numeral.Denotes "x".toList w.toInt := by
    intro w hw
    have hread := Numeral.parseWord_eq_ok_iff.mpr hw
    simp [show Numeral.parseWord "x" = .error .malformed from rfl] at hread
  have hthree : Numeral.Denotes "3".toList (3 : Word).toInt := .unsigned ⟨by simp, by simp⟩
  have hx := (hresolves.name 0 "x" rfl (by simp) hname).2
  have hconst := hresolves.number 1 "3" rfl 3 hthree
  have hoperands : operands = [.var "x", .const 3] := by
    obtain ⟨a, b, rfl⟩ := List.length_eq_two.mp hresolves.length_eq
    simpa using And.intro hx hconst
  have hlower : Text.lower "LE" ≠ "alldiff" := by decide +kernel
  rw [Library.scopes, if_neg hlower, hoperands, List.map_eq_singleton_iff] at hscopes
  obtain ⟨c, rfl, hc⟩ := hscopes
  exact ⟨p, hp, c, by simp [hflat], hc⟩

/-- A variable named like a number, and an operand without a name. -/
def numbered : ProblemSource where
  declarations := [{ name := "7", values := [1, 2] }]
  constraints := [{ relation := "eq", operands := [.text "7"], offset := 2 },
    { relation := "atmost", operands := [.text ""] }]

/-- The text that is the name of the only variable does not stand for it, and the empty text, which
is neither a name nor a numeral, is not refused. -/
theorem numeral_hides_variable : numbered.declarations.map VariableSource.name = ["7"] ∧
    numbered.constraints.map ConstraintSource.operands = [[.text "7"], [.text ""]] ∧
    ∃ p, numbered.build = .ok p ∧
      p.constraints.map Constraint.operands = [[.const 7], [.const 0]] := by
  refine ⟨rfl, rfl, ?_⟩
  obtain ⟨p, hp⟩ := exists_of_isOk (s := numbered) (by cbv)
  have hoperands : numbered.build.toOption.map (fun p => p.constraints.map Constraint.operands) =
      some [[.const 7], [.const 0]] := by cbv
  rw [hp] at hoperands
  exact ⟨p, hp, Option.some.inj hoperands⟩

end ProblemSource

end Clausify
