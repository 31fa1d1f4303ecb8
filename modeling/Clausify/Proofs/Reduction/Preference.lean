import Mathlib
import Clausify.Proofs.Reduction.Acceptance

/-!
Preferences in a weighted file. A literal that is entered for a value is no constant, and outside
the domain the literal looked up never holds; so each preference is one clause with the weight of
the preference, of one literal or of none (`Preference.line`). Main statement: an open weighted
file without limit takes all preferences, and these are the lines it gets
(`encodePreferences_ok`).
-/

namespace Clausify

open Dimacs (Line)
open Step

/-- The clause of a preference: the literal of its value, or none if there is no such literal. -/
def Preference.clause (m : Mapping) (q : Preference) : Clause :=
  m.direct[(⟨q.var, q.value⟩ : Key)]?.toList

def Preference.line (m : Mapping) (q : Preference) : Line := .clause (some q.weight) (q.clause m)

theorem Preference.clauseCount_lines (m : Mapping) (qs : List Preference) :
    Instance.clauseCount (qs.map (line m)) = qs.length := by
  rw [Instance.clauseCount, List.filterMap_map]
  exact (congrArg List.length (congrFun List.filterMap_eq_map' qs)).trans (List.length_map ..)

theorem Preference.reduce_clause {m : Mapping} {T : List Step} (hm : m.Lists T)
    (hT : Represented T) (q : Preference) :
    Clause.reduce [m.directLiteral q.var q.value] = .ok (some (q.clause m)) := by
  rw [Mapping.directLiteral, clause]
  cases h : m.direct[(⟨q.var, q.value⟩ : Key)]? with
  | none => rfl
  | some l =>
    obtain ⟨hconstant, hknown⟩ := hT.known _ l (.inl ((hm.direct _ l).mp h))
    have hzero : l.word ≠ 0 := hknown.word_ne_zero
    simp only [Literal.isConstant, Bool.or_eq_false_iff, decide_eq_false_iff_not] at hconstant
    simp [Clause.reduce, hconstant, hzero, Except.map]

theorem Instance.Willing.addSoftClause {i : Instance} (h : i.Willing)
    (hweighted : i.options.weighted = true) {l : Literal} {c : Clause}
    (hreduce : Clause.reduce [l] = .ok (some c)) (weight : Word) :
    ∃ i', Instance.addSoftClause l weight i = .ok () i' ∧
      i.Writes i' [.clause (some weight) c] := by
  have hrun : Instance.addSoftClause l weight i = writeLine (some weight) c i := by
    simp only [Instance.addSoftClause, hweighted, h.isOpen, hreduce]
    rfl
  have hline := writeLine_eq (some weight) c h.isOpen
  rw [if_neg (by simp [h.unlimited])] at hline
  exact ⟨_, hrun.trans hline, writeLine_writes (some weight) c h.isOpen⟩

namespace Reduction

theorem encodePreferences_ok {T : List Step} (hT : Represented T) {e : Encoder Instance}
    (hm : e.mapping.Lists T) (hwilling : e.writer.Willing)
    (hweighted : e.writer.options.weighted = true) (qs : List Preference) :
    ∃ w, encodePreferences qs e = .ok () { e with writer := w } ∧
      e.writer.Writes w (qs.map (Preference.line e.mapping)) := by
  induction qs generalizing e with
  | nil => exact ⟨e.writer, rfl, .refl _⟩
  | cons q rest ih =>
    obtain ⟨w₁, hsoft, hwrites⟩ :=
      hwilling.addSoftClause hweighted (q.reduce_clause hm hT) q.weight
    have hone : blame (.preference q.var) (Encoder.onWriter (Instance.addSoftClause
        (e.mapping.directLiteral q.var q.value) q.weight) e) = .ok () { e with writer := w₁ } :=
      blame_eq_ok.mpr (Encoder.onWriter_eq_ok.mpr ⟨w₁, hsoft, rfl⟩)
    have hweighted₁ : w₁.options.weighted = true := by
      rw [hwrites.same]
      exact hweighted
    obtain ⟨w, hrest, hwrites'⟩ :=
      @ih { e with writer := w₁ } hm (hwilling.writes hwrites) hweighted₁
    exact ⟨w, (Run.bind_of_ok hone).trans hrest, hwrites.trans hwrites'⟩

end Reduction

end Clausify
