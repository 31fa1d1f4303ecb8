import Mathlib
import Clausify.Proofs.Problem.Source
import Clausify.Proofs.Relation.Distinct

/-!
Reified relations of a source. A relation holds of the values of its operands when all constraints
that the library builds for it are satisfied (`Library.Satisfied`); for `alldiff` this is pairwise
distinctness (`Library.satisfied_allDifferent`). Main statement: where a reified relation gives a
constraint, checking it on a complete assignment answers whether the reifying variable is `1`
exactly if the relation holds, and only `alldiff` of fewer than two operands gives none
(`reified_relation_checked`). That one holds of all values and leaves the reifying variable free
(`lone_operand_unreified`).
-/

namespace Clausify

/-! ## Reified sources -/

namespace ConstraintSource

variable {catalog : Catalog} {s : ConstraintSource} {u : Constraint} {strategy : Strategy}
  {assignment : Assignment} {a : String → Word}

theorem satisfied_dress {values : List Word} :
    (s.dress strategy u).satisfied values = u.satisfied values := rfl

theorem verdict_dress (hreify : s.reify ≠ "") :
    (s.dress strategy u).verdict a = decide (a s.reify = 1) := by
  simp [dress, Constraint.verdict, hreify]

theorem check_dress (hreify : s.reify ≠ "")
    (h : ∀ x ∈ (s.dress strategy u).variableNames, assignment.lookup x = some (a x)) {b : Bool}
    (hb : u.satisfied (u.operands.map (Operand.valueIn a)) = .ok b) :
    (s.dress strategy u).check assignment = .ok (b == decide (a s.reify = 1)) := by
  rw [Constraint.check_eq h, verdict_dress hreify, satisfied_dress]
  show (u.satisfied (u.operands.map (Operand.valueIn a))).map _ = _
  rw [hb]
  rfl

end ConstraintSource

namespace ProblemSource

variable {s : ProblemSource} {p : Problem} {k : ConstraintSource}

/-- A reified relation of a source is checked as an equivalence. Its constraints are checked without
misuse on every assignment of all variables, and if there are any they are true exactly when the
reifying variable is `1` just if the relation holds; for `alldiff` this means that all operands
differ. There are none exactly for `alldiff` of fewer than two operands. -/
theorem reified_relation_checked (h : s.build = .ok p) (hk : k ∈ s.constraints)
    (hreify : k.reify ≠ "") :
    ∃ catalog operands us cs, p.catalog = some catalog ∧
      k.operands.mapM Operand.ofValue = .ok operands ∧
      Library.build k.relation operands k.offset k.value = .ok us ∧
      k.build catalog = .ok cs ∧ cs ⊆ p.constraints ∧
      (cs = [] ↔ Text.lower k.relation = "alldiff" ∧ operands.length ≤ 1) ∧
      ∀ (assignment : Assignment) (a : String → Word),
        (∀ x, catalog.isKnown x = true → assignment.lookup x = some (a x)) →
        (Text.lower k.relation = "alldiff" →
          (Library.Satisfied us a ↔ (operands.map (Operand.valueIn a)).Nodup)) ∧
        (∀ c ∈ cs, ∃ b, c.check assignment = .ok b) ∧
        (cs ≠ [] → ((∀ c ∈ cs, c.check assignment = .ok true) ↔
          (a k.reify = 1 ↔ Library.Satisfied us a))) := by
  obtain ⟨catalog, css, -, hcatalog, hcss, hconstraints, -⟩ := build_cases h
  obtain ⟨cs, hcs, hbuild⟩ := exists_right_of_mem hcss hk
  obtain ⟨operands, strategy, us, hoperands, -, hus, hfew, heq⟩ := k.build_cases hbuild
  have hposed := k.wellPosed_of_build hbuild
  have hwritten := (ConstraintSource.of_mapM_operand hoperands).1
  refine ⟨catalog, operands, us, cs, hcatalog, hwritten, hus, hbuild, ?_, ?_, ?_⟩
  · rw [hconstraints]
    exact fun c hc => List.mem_flatten_of_mem hcs hc
  · rw [heq, List.map_eq_nil_iff]
    exact Library.build_eq_nil_iff hus
  intro assignment a hcomplete
  -- the constraints that the library gives are true or false of the values
  have hchecked : ∀ u ∈ us, ∃ b, u.satisfied (u.operands.map (Operand.valueIn a)) = .ok b ∧
      (k.dress strategy u).check assignment = .ok (b == decide (a k.reify = 1)) := by
    intro u hu
    obtain ⟨b, hb⟩ := Constraint.exists_satisfied (Library.of_mem_build hus hu).1
      (Library.fed_of_build hus u hu) (List.length_map (Operand.valueIn a))
    have hmem : k.dress strategy u ∈ cs := heq ▸ List.mem_map_of_mem hu
    exact ⟨b, hb, k.check_dress hreify (fun x hx => hcomplete x ((hposed _ hmem).known x hx)) hb⟩
  refine ⟨?_, ?_, ?_⟩
  · intro hname
    rcases Library.build_cases hus with ⟨hne, -⟩ | ⟨-, rfl⟩
    · exact absurd hname hne
    · exact Library.satisfied_allDifferent
  · rw [heq, List.forall_mem_map]
    intro u hu
    obtain ⟨b, -, hcheck⟩ := hchecked u hu
    exact ⟨_, hcheck⟩
  · intro hsome
    have hlength : us.length = 1 := by
      have hne : us ≠ [] := by simpa [heq] using hsome
      have := List.length_pos_iff.mpr hne
      have := hfew hreify
      omega
    obtain ⟨u, rfl⟩ := List.length_eq_one_iff.mp hlength
    obtain ⟨b, hb, hcheck⟩ := hchecked u List.mem_cons_self
    rw [heq, List.map_singleton, List.forall_mem_singleton, hcheck, Library.Satisfied,
      List.forall_mem_singleton, hb]
    cases b <;> simp

theorem sample_comparison_checked : ∃ p catalog cs, sample.build = .ok p ∧
    p.catalog = some catalog ∧ cs ≠ [] ∧ cs ⊆ p.constraints ∧
    ∀ (assignment : Assignment) (a : String → Word),
      (∀ x, catalog.isKnown x = true → assignment.lookup x = some (a x)) →
      ((∀ c ∈ cs, c.check assignment = .ok true) ↔ (a "b" = 1 ↔ a "x" ≤ 3)) := by
  obtain ⟨p, hp⟩ := exists_of_isOk (s := sample) (by cbv)
  obtain ⟨catalog, operands, us, cs, hcatalog, hoperands, hus, -, hsubset, hnone, hchecked⟩ :=
    reified_relation_checked hp (List.mem_cons_self) (by decide)
  have hwritten : [Document.Value.text "x", .text "3"].mapM Operand.ofValue =
      .ok [Operand.var "x", .const 3] := by cbv
  obtain rfl := Except.ok.inj (hoperands.symm.trans hwritten)
  have hlower : Text.lower "LE" = "le" := by decide +kernel
  have hsome : cs ≠ [] := by
    intro hcs
    exact absurd (hlower.symm.trans (hnone.mp hcs).1) (by decide)
  refine ⟨p, catalog, cs, hp, hcatalog, hsome, hsubset, fun assignment a hcomplete => ?_⟩
  have hle : Library.Satisfied us a ↔ a "x" ≤ 3 := by
    unfold Library.build at hus
    rw [hlower] at hus
    rw [← Except.ok.inj hus]
    simp [Library.Satisfied, Constraint.satisfied, Library.binaryTest, Operand.valueIn]
  rw [(hchecked assignment a hcomplete).2.2 hsome, hle]

/-- `alldiff` of a single variable, reified. -/
def lone : ProblemSource where
  declarations := [{ name := "x", values := [1, 2] }, { name := "b", values := [0, 1] }]
  constraints := [{ relation := "alldiff", operands := [.text "x"], reify := "b" }]

/-- A single operand is unlike no other, but the variable that reifies this may be `0`: nothing is
built for it, and every check passes. -/
theorem lone_operand_unreified : ∃ p us, lone.build = .ok p ∧
    Library.build "alldiff" [.var "x"] 0 0 = .ok us ∧
    ∀ (assignment : Assignment) (a : String → Word), a "b" = 0 →
      ¬ ((∀ c ∈ p.constraints, c.check assignment = .ok true) ↔
        (a "b" = 1 ↔ Library.Satisfied us a)) := by
  obtain ⟨p, hp⟩ := exists_of_isOk (s := lone) (by cbv)
  have hnone : p.constraints = [] := by
    have hlength : lone.build.toOption.map (fun p => p.constraints.length) = some 0 := by
      cbv
    rw [hp] at hlength
    simpa [Except.toOption] using hlength
  have hlower : Text.lower "alldiff" = "alldiff" := by decide +kernel
  refine ⟨p, [], hp, ?_, fun assignment a hzero => ?_⟩
  · unfold Library.build
    rw [hlower]
    rfl
  · rw [hnone, hzero]
    simp [Library.Satisfied]

end ProblemSource

end Clausify
