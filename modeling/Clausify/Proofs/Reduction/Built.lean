import Mathlib
import Clausify.Proofs.Cardinality.Counting
import Clausify.Proofs.Reduction.Allocation

/-!
Encoders that write to a formula in memory, over their whole history. A run that comes to its end
adds clauses that say what its steps say (`Encoder.run_adds`). Variables and constraints may be
encoded in any order and under settings of their own, and what a refused constraint has allocated
stays allocated (`Built`). Main statement: at any time the clauses that were written for the
variables say that each of them has a value of its domain, and its literals tell which
(`Built.stands`).
-/

namespace Clausify

open Step

/-! ## What a run adds to a formula -/

namespace Encoder

variable {e e' : Encoder Formula} {s : Step} {U : List Step} {cs : List Clause}

/-- The clauses that are added to a formula say what the steps say, in literals of theirs that are
not constants. -/
structure Adds (e e' : Encoder Formula) (U : List Step) (cs : List Clause) : Prop where
  clauses : e'.writer.clauses.toList = e.writer.clauses.toList ++ cs
  literals : ∀ d ∈ cs, ∀ l ∈ d, l.isConstant = false ∧ ∃ c ∈ clausesOf U, l ∈ c
  meaning : ∀ v : Valuation, v.Satisfies cs ↔ v.Satisfies (clausesOf U)

theorem adds_nothing (hclauses : e'.writer.clauses = e.writer.clauses) (hU : clausesOf U = []) :
    Adds e e' U [] := by
  refine ⟨by rw [hclauses, List.append_nil], by simp, fun v => by rw [hU]⟩

theorem Adds.trans {e'' : Encoder Formula} {V : List Step} {ds : List Clause}
    (h : Adds e e' U cs) (h' : Adds e' e'' V ds) : Adds e e'' (U ++ V) (cs ++ ds) where
  clauses := by rw [h'.clauses, h.clauses, List.append_assoc]
  literals := by
    intro d hd l hl
    rw [clausesOf_append]
    rcases List.mem_append.mp hd with hd | hd
    · obtain ⟨hc, c, hmem, hlc⟩ := h.literals d hd l hl
      exact ⟨hc, c, List.mem_append_left _ hmem, hlc⟩
    · obtain ⟨hc, c, hmem, hlc⟩ := h'.literals d hd l hl
      exact ⟨hc, c, List.mem_append_right _ hmem, hlc⟩
  meaning := by
    intro v
    rw [clausesOf_append, Valuation.satisfies_append, Valuation.satisfies_append, h.meaning,
      h'.meaning]

theorem Adds.congr {V : List Step} (h : Adds e e' U cs) (hV : clausesOf U = clausesOf V) :
    Adds e e' V cs :=
  ⟨h.clauses, hV ▸ h.literals, hV ▸ h.meaning⟩

theorem Adds.allocated {n : Nat} (h : Adds e e' U cs) (hknown : ∀ c ∈ clausesOf U, c.Known n) :
    ∀ d ∈ cs, d.Allocated n := by
  intro d hd l hl
  obtain ⟨hconst, c, hc, hlc⟩ := h.literals d hd l hl
  exact ⟨(hknown c hc l hlc).var_pos, (hknown c hc l hlc).var_le hconst⟩

theorem take_adds (ht : take s e = .ok () e') : ∃ cs, Adds e e' [s] cs := by
  cases s with
  | emit emission =>
    cases emission with
    | fresh =>
      obtain rfl := (EStateM.Result.ok.inj ht).2
      exact ⟨[], adds_nothing rfl rfl⟩
    | clause c =>
      obtain ⟨f, hf, rfl⟩ := onWriter_eq_ok.mp ht
      -- constants are worked out, so a clause adds one clause or none
      obtain ⟨-, cs, hclauses, hkept, hmeaning⟩ := Formula.writeClause_adds hf
      have hwritten : clausesOf [.emit (.clause c)] = [c] := rfl
      refine ⟨cs, hclauses, fun d hd l hl => ?_, fun v => ?_⟩
      · exact ⟨(hkept d hd l hl).2, c, by simp [hwritten], (hkept d hd l hl).1⟩
      · rw [hmeaning, hwritten]
        simp
  | comment text =>
    have hwrite : onWriter (ClauseWriter.addComment text) e = .ok () e' := ht
    obtain ⟨f, hf, rfl⟩ := onWriter_eq_ok.mp hwrite
    obtain rfl := (EStateM.Result.ok.inj hf).2
    exact ⟨[], adds_nothing rfl rfl⟩
  | shape name shape =>
    obtain rfl := (EStateM.Result.ok.inj ht).2
    exact ⟨[], adds_nothing rfl rfl⟩
  | note entry =>
    obtain rfl := (EStateM.Result.ok.inj ht).2
    exact ⟨[], adds_nothing rfl rfl⟩
  | stop reason => cases ht
  | _ =>
    obtain ⟨m, -, rfl⟩ := onMapping_eq_ok.mp ht
    exact ⟨[], adds_nothing rfl rfl⟩

theorem run_adds (hrun : run U e = .ok () e') : ∃ cs, Adds e e' U cs := by
  refine run_induction (T := []) (P := fun e' T => ∃ cs, Adds e e' T cs) ?_
    ⟨[], adds_nothing rfl rfl⟩ hrun
  rintro e₁ e₂ T s ⟨cs, h⟩ ht
  obtain ⟨ds, hs⟩ := take_adds ht
  exact ⟨cs ++ ds, h.trans hs⟩

end Encoder

namespace Reduction

/-! ## Histories -/

/-- How encoders of formulas come about: from any formula, variables and constraints are encoded in
any order, each under settings of its own, with anything noted in between. `vs` are the variables
that were encoded and `cs` the clauses that were written for them. -/
inductive Built : List Variable → List Clause → Encoder Formula → Prop
  | start (f : Formula) (journal : Array JournalEntry) : Built [] [] { writer := f, journal }
  | aside {vs : List Variable} {cs : List Clause} {e : Encoder Formula} (h : Built vs cs e)
      (comments : Array String) (journal : Array JournalEntry) :
      Built vs cs { e with writer := { e.writer with comments }, journal }
  | declare {vs : List Variable} {cs new : List Clause} {e e' : Encoder Formula}
      {settings : Settings} {v : Variable} {needs : Representation} {constrained : Bool}
      (h : Built vs cs e)
      (hrun : (Encoding.encodeVariable settings v needs constrained e).2 = .ok () e')
      (hnew : e'.writer.clauses.toList = e.writer.clauses.toList ++ new) :
      Built (vs ++ [v]) (cs ++ new) e'
  -- a constraint counts whether it is accepted or refused half way
  | post {vs : List Variable} {cs : List Clause} {e e' : Encoder Formula} {settings : Settings}
      {catalog : Catalog} {c : Constraint} (h : Built vs cs e)
      (hrun : Run.Leaves (Encoding.encodeConstraint settings catalog c) e e') : Built vs cs e'

/-- Settings under which auxiliary variables need not be determined, so that those of a constraint
may be counted in. -/
def loose : Settings := { auxNonFunctional := true }

/-- The steps `T` stand for the history of an encoder: those of its variables, and for everything
else the variables it took up. -/
structure Stands (vs : List Variable) (cs : List Clause) (e : Encoder Formula) (T : List Step) :
    Prop where
  lists : e.mapping.Lists T
  count : e.variableCount = freshCount T
  clauses : ∀ v : Valuation, v.Satisfies cs ↔ v.Satisfies (clausesOf T)
  meaning : freshCount T < Literal.limit → Meaning loose vs [] e.shapes T

theorem Meaning.append_spare {vs : List Variable} {shapes : Table String Shape} {T : List Step}
    (h : Meaning loose vs [] shapes T) (n : Nat) : Meaning loose vs [] shapes (T ++ spare n) := by
  have hmem : ∀ x d, .domain x d ∈ T ++ spare n ↔ .domain x d ∈ T :=
    fun x d => mem_append_silent (silent_spare n) (s := .domain x d) id
  exact {
    domains := fun x d => by rw [hmem, h.domains]
    shapes := by
      intro x s hs
      obtain ⟨d, hd⟩ := h.shapes x s hs
      exact ⟨d, (hmem x d).mpr hd⟩
    represented := h.represented.append_silent (silent_spare n)
    faithful := by
      refine (h.faithful.append_spare h.represented (by simp [loose]) n).congr fun a => ?_
      simp only [InDomains, hmem] }

section Stands

variable {vs : List Variable} {cs : List Clause} {e e' : Encoder Formula} {T : List Step}

theorem stands_start (f : Formula) (journal : Array JournalEntry) :
    Stands [] [] { writer := f, journal } (spare f.variableCount) where
  lists := Mapping.lists_of_silent (silent_spare _)
  count := (freshCount_spare _).symm
  clauses v := by rw [clausesOf_spare]
  meaning _ := (meaning_nil loose).append_spare f.variableCount

theorem Stands.declare (h : Stands vs cs e T) {settings : Settings} {v : Variable}
    {needs : Representation} {constrained : Bool} {new : List Clause}
    (hrun : Encoder.run (declaration settings v needs constrained e) e = .ok () e')
    (hnew : e'.writer.clauses.toList = e.writer.clauses.toList ++ new) :
    Stands (vs ++ [v]) (cs ++ new) e' (T ++ declaration settings v needs constrained e) := by
  obtain ⟨added, hadds⟩ := Encoder.run_adds hrun
  obtain rfl : new = added := List.append_cancel_left (hnew.symm.trans hadds.clauses)
  exact {
    lists := Encoder.run_lists h.lists hrun
    count := by rw [Encoder.run_count hrun, h.count, freshCount_append]
    clauses := by
      intro u
      rw [clausesOf_append, Valuation.satisfies_append, Valuation.satisfies_append, h.clauses,
        hadds.meaning]
    meaning := Meaning.declare h.meaning h.lists h.count hrun }

theorem Stands.extend (h : Stands vs cs e T) (hext : e.Extends e') :
    Stands vs cs e' (T ++ spare (e'.variableCount - e.variableCount)) := by
  obtain ⟨n, hn⟩ := Nat.exists_eq_add_of_le hext.count
  rw [hn, Nat.add_sub_cancel_left]
  exact {
    lists := by
      rw [hext.mapping]
      exact h.lists.append_all_silent (silent_spare n)
    count := by rw [hn, h.count, freshCount_append, freshCount_spare]
    clauses := by
      intro v
      rw [clausesOf_append, clausesOf_spare, List.append_nil, h.clauses]
    meaning := by
      intro hlim
      rw [freshCount_append, freshCount_spare] at hlim
      rw [hext.shapes]
      exact (h.meaning (by omega)).append_spare n }

/-- Every history is that of some steps. -/
theorem Built.stands (h : Built vs cs e) : ∃ T, Stands vs cs e T := by
  induction h with
  | start f journal => exact ⟨_, stands_start f journal⟩
  | aside _ comments journal ih =>
    obtain ⟨T, h⟩ := ih
    exact ⟨T, h.lists, h.count, h.clauses, h.meaning⟩
  | declare _ hrun hnew ih =>
    obtain ⟨T, h⟩ := ih
    rw [encodeVariable_eq] at hrun
    exact ⟨_, h.declare hrun hnew⟩
  | post _ hrun ih =>
    obtain ⟨T, h⟩ := ih
    exact ⟨_, h.extend (encodeConstraint_extends hrun)⟩

end Stands

end Reduction

end Clausify
