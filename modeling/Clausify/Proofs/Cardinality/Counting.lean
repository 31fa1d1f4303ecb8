import Mathlib
import Clausify.Cardinality
import Clausify.Proofs.Cardinality.Scope

/-!
The schemes as they are written to a formula. Writing allocates the variables of a plan and keeps
its clauses with the constants worked out; both leave the meaning of the plan as it is
(`Emission.write_formula`). Main statements: after "exactly one" or "at most one" of a list has been
written, a valuation of the variables that were there before can be completed to one of the new
clauses exactly when it makes that many positions of the list true (`completes_iff_counts`), and for
"exactly one", or where auxiliary variables are to be functions of the others, in one way only
(`auxiliaries_determined`). The list may be of any length, with constants, repetitions and
complementary literals.
-/

namespace Clausify

/-- A clause that is accepted is kept in a formula with the same meaning, or dropped as true. -/
theorem Formula.writeClause_adds {c : Clause} {f f' : Formula}
    (h : Formula.writeClause c f = .ok () f') :
    f'.variableCount = f.variableCount ∧ ∃ cs, f'.clauses.toList = f.clauses.toList ++ cs ∧
      (∀ d ∈ cs, ∀ l ∈ d, l ∈ c ∧ l.isConstant = false) ∧
      ∀ v : Valuation, v.Satisfies cs ↔ c.holds v = true := by
  have hmeaning := fun v => Clause.holds_reduce (c := c) v
  rcases writeClause_eq_ok_iff.mp h with ⟨hreduce, rfl⟩ | ⟨r, hreduce, rfl⟩
  · refine ⟨rfl, [], by simp, by simp, fun v => ?_⟩
    simp [(hmeaning v).2 hreduce]
  · refine ⟨rfl, [r], by simp, ?_, fun v => ?_⟩
    · simpa using Clause.mem_of_reduce hreduce
    · rw [Valuation.satisfies_cons, (hmeaning v).1 r hreduce]
      simp

theorem Formula.writeClause_known {n : Nat} {c : Clause} (hc : c.Known n) (f : Formula) :
    ∃ f', Formula.writeClause c f = .ok () f' := by
  obtain ⟨reduced, hreduce⟩ := hc.reduce_ok
  cases reduced with
  | none => exact ⟨f, writeClause_eq_ok_iff.mpr (.inl ⟨hreduce, rfl⟩)⟩
  | some r => exact ⟨_, writeClause_eq_ok_iff.mpr (.inr ⟨r, hreduce, rfl⟩)⟩

namespace Emission

/-- Emissions over known literals are written to a formula in full. The clauses that are kept have
no constants and say what the emissions say. -/
theorem write_formula {n : Nat} {es : List Emission} (hk : ∀ c ∈ clausesOf es, c.Known n)
    (f : Formula) :
    ∃ f' cs, Emission.write es f = .ok () f' ∧
      f'.variableCount = f.variableCount + freshCount es ∧
      f'.clauses.toList = f.clauses.toList ++ cs ∧
      (∀ d ∈ cs, ∀ l ∈ d, l.Known n ∧ l.isConstant = false) ∧
      ∀ v : Valuation, v.Satisfies cs ↔ v.Satisfies (clausesOf es) := by
  induction es generalizing f with
  | nil => exact ⟨f, [], rfl, rfl, by simp, by simp, by simp⟩
  | cons emission es ih =>
    cases emission with
    | fresh =>
      obtain ⟨f', cs, hwrite, hcount, hclauses, hkept, hmeaning⟩ := ih hk f.addVariable
      refine ⟨f', cs, hwrite, ?_, hclauses, hkept, hmeaning⟩
      rw [hcount, freshCount_fresh]
      show f.variableCount + 1 + freshCount es = _
      omega
    | clause c =>
      rw [clausesOf_clause, List.forall_mem_cons] at hk
      obtain ⟨f₁, hclause⟩ := Formula.writeClause_known hk.1 f
      -- constants are worked out of the clause, or the clause is dropped as true
      obtain ⟨hcount₁, ds, hclauses₁, hkept₁, hmeaning₁⟩ := Formula.writeClause_adds hclause
      obtain ⟨f', cs, hwrite, hcount, hclauses, hkept, hmeaning⟩ := ih hk.2 f₁
      have hfresh : freshCount (.clause c :: es) = freshCount es := by simp [freshCount]
      refine ⟨f', ds ++ cs, ?_, ?_, ?_, ?_, fun v => ?_⟩
      · have hadd : ClauseWriter.addClause c f = .ok () f₁ := hclause
        simp only [Emission.write, hadd]
        exact hwrite
      · rw [hcount, hcount₁, hfresh]
      · rw [hclauses, hclauses₁, List.append_assoc]
      · intro d hd l hl
        rcases List.mem_append.mp hd with hd | hd
        · exact ⟨hk.1 l (hkept₁ d hd l hl).1, (hkept₁ d hd l hl).2⟩
        · exact hkept d hd l hl
      · rw [Valuation.satisfies_append, clausesOf_clause, Valuation.satisfies_cons, hmeaning₁,
          hmeaning]

end Emission

namespace Cardinality

open Emission

/-- The number of variables that are allocated for a list, `count` being there before. -/
def demand (settings : Settings) (scheme : Scheme) (count : Nat) (exactlyOne : Bool)
    (ls : List Literal) : Nat :=
  freshCount (encode settings scheme count exactlyOne ls).emissions

theorem meets_iff {exactlyOne : Bool} {ls : List Literal} {v : Valuation} :
    Meets exactlyOne ls v ↔ if exactlyOne then trues v ls = 1 else trues v ls ≤ 1 := by
  cases exactlyOne <;> simp [Meets]
  omega

/-- Every scheme counts. Written to a formula, "exactly one" and "at most one" of a list succeed,
and a valuation of the variables that were there before can be completed to one of the new clauses
exactly when one position of the list holds, or at most one. The new clauses speak about variables
of the formula only. -/
theorem completes_iff_counts {settings : Settings} {scheme : Scheme}
    (hscheme : scheme ∈ Scheme.all) (hgroup : 1 ≤ settings.bimanderGroupSize)
    (hpart : 2 ≤ settings.commanderPartSize) (exactlyOne : Bool) {f : Formula} {ls : List Literal}
    (hls : ∀ l ∈ ls, l.Known f.variableCount)
    (hroom : f.variableCount + demand settings scheme f.variableCount exactlyOne ls <
      Literal.limit) :
    ∃ f' cs, Cardinality.write settings scheme exactlyOne ls f = .ok () f' ∧
      f'.variableCount =
        f.variableCount + demand settings scheme f.variableCount exactlyOne ls ∧
      f'.clauses.toList = f.clauses.toList ++ cs ∧
      (∀ c ∈ cs, ∀ l ∈ c, 0 < l.var ∧ l.var ≤ f'.variableCount) ∧
      ∀ v : Valuation, (∃ u : Valuation, v.Agree f.variableCount u ∧ u.Satisfies cs) ↔
        if exactlyOne then trues v ls = 1 else trues v ls ≤ 1 := by
  have hstop := encode_stop ⟨hgroup, hpart⟩ hscheme f.variableCount exactlyOne ls
  have hasserts := encode_asserts hls hstop hroom
  obtain ⟨f', cs, hwrite, hcount, hclauses, hkept, hmeaning⟩ := write_formula hasserts.known f
  refine ⟨f', cs, ?_, hcount, hclauses, ?_, fun v => ?_⟩
  · show (encode settings scheme f.variableCount exactlyOne ls).write f = _
    rw [Plan.write, hwrite, hstop]
  · intro c hc l hl
    obtain ⟨hknown, hconstant⟩ := hkept c hc l hl
    rw [hcount]
    exact ⟨hknown.var_pos, hknown.var_le hconstant⟩
  · rw [← meets_iff]
    constructor
    · rintro ⟨u, hagree, hu⟩
      -- the count is read off the variables that were there before
      have hmeets := hasserts.sound u ((hmeaning u).mp hu)
      rwa [Meets, ← trues_congr hls hagree] at hmeets
    · intro hmeets
      obtain ⟨u, hagree, hu⟩ := hasserts.complete v hmeets
      exact ⟨u, hagree, (hmeaning u).mpr hu⟩

/-- Seven positions over three variables: complementary literals, a constant and a literal at three
places. -/
def sevenPositions : List Literal := [⟨1⟩, ⟨-1⟩, ⟨2⟩, ⟨2⟩, Literal.never, ⟨-3⟩, ⟨2⟩]

/-- Commanders over seven positions: exactly one holds just when the second variable is false and
the third is true. -/
theorem commanders_count_seven :
    ∃ (f' : Formula) (cs : List Clause),
      Cardinality.write {} .commander true sevenPositions ({ variableCount := 3 } : Formula) =
        .ok () f' ∧
      f'.variableCount = 5 ∧ f'.clauses.toList = cs ∧
      ∀ v : Valuation, (∃ u : Valuation, v.Agree 3 u ∧ u.Satisfies cs) ↔
        v 2 = false ∧ v 3 = true := by
  have hknown : ∀ l ∈ sevenPositions, l.Known 3 := by decide
  have hdemand : demand {} .commander 3 true sevenPositions = 2 := by decide
  have hcounts : ∀ v : Valuation, trues v sevenPositions = 1 ↔ v 2 = false ∧ v 3 = true := by
    intro v
    have hone : Literal.holds v ⟨1⟩ = v 1 := Literal.holds_of_not_constant (by decide)
    have hminus : Literal.holds v ⟨-1⟩ = !v 1 := Literal.holds_of_not_constant (by decide)
    have htwo : Literal.holds v ⟨2⟩ = v 2 := Literal.holds_of_not_constant (by decide)
    have hthree : Literal.holds v ⟨-3⟩ = !v 3 := Literal.holds_of_not_constant (by decide)
    simp only [sevenPositions, trues_cons, trues_nil, hone, hminus, htwo, hthree,
      Literal.holds_never]
    cases v 1 <;> cases v 2 <;> cases v 3 <;> decide
  obtain ⟨f', cs, hwrite, hcount, hclauses, -, hiff⟩ :=
    @completes_iff_counts {} .commander (by decide) (by decide) (by decide) true
      { variableCount := 3 } sevenPositions hknown (by rw [hdemand]; decide)
  refine ⟨f', cs, hwrite, by rw [hcount, hdemand], by simpa using hclauses, fun v => ?_⟩
  rw [hiff, ← hcounts]
  rfl

/-- The variables that a scheme allocates are functions of those before, if exactly one position is
to hold or auxiliary variables may not be left open: two valuations of the new clauses that agree on
the variables before agree on the slack and on the auxiliary variables of every level. -/
theorem auxiliaries_determined {settings : Settings} {scheme : Scheme}
    (hscheme : scheme ∈ Scheme.all) (hgroup : 1 ≤ settings.bimanderGroupSize)
    (hpart : 2 ≤ settings.commanderPartSize) {exactlyOne : Bool}
    (hdet : exactlyOne = true ∨ settings.auxNonFunctional = false) {f : Formula}
    {ls : List Literal} (hls : ∀ l ∈ ls, l.Known f.variableCount)
    (hroom : f.variableCount + demand settings scheme f.variableCount exactlyOne ls <
      Literal.limit) :
    ∃ f' cs, Cardinality.write settings scheme exactlyOne ls f = .ok () f' ∧
      f'.variableCount =
        f.variableCount + demand settings scheme f.variableCount exactlyOne ls ∧
      f'.clauses.toList = f.clauses.toList ++ cs ∧
      ∀ v u : Valuation, v.Satisfies cs → u.Satisfies cs → v.Agree f.variableCount u →
        v.Agree f'.variableCount u := by
  have hstop := encode_stop ⟨hgroup, hpart⟩ hscheme f.variableCount exactlyOne ls
  have hknown := (encode_asserts hls hstop hroom).known
  obtain ⟨f', cs, hwrite, hcount, hclauses, -, hmeaning⟩ := write_formula hknown f
  refine ⟨f', cs, ?_, hcount, hclauses, fun v u hv hu hagree => ?_⟩
  · show (encode settings scheme f.variableCount exactlyOne ls).write f = _
    rw [Plan.write, hwrite, hstop]
  · rw [hcount]
    exact encode_fixes hls hdet hstop hroom v u trivial ((hmeaning v).mp hv) ((hmeaning u).mp hu)
      hagree

/-- At most one of seven positions on a grid: with a slack they are eight, on three rows and three
columns, and all seven of these variables are settled by the three of the list. -/
theorem grid_determined_seven :
    ∃ (f' : Formula) (cs : List Clause),
      Cardinality.write {} .product false sevenPositions ({ variableCount := 3 } : Formula) =
        .ok () f' ∧
      f'.variableCount = 10 ∧ f'.clauses.toList = cs ∧
      ∀ v u : Valuation, v.Satisfies cs → u.Satisfies cs → v.Agree 3 u → v.Agree 10 u := by
  have hdemand : demand {} .product 3 false sevenPositions = 7 := by decide
  obtain ⟨f', cs, hwrite, hcount, hclauses, hagree⟩ :=
    @auxiliaries_determined {} .product (by decide) (by decide) (by decide) false (.inr rfl)
      { variableCount := 3 } sevenPositions (by decide) (by rw [hdemand]; decide)
  have hten : f'.variableCount = 10 := by rw [hcount, hdemand]
  rw [hten] at hagree
  exact ⟨f', cs, hwrite, hten, by simpa using hclauses, hagree⟩

end Cardinality

end Clausify
