import Mathlib
import Clausify.Proofs.Relation.Check
import Clausify.Proofs.Relation.Library

/-!
Pairwise distinctness. A relation holds of the values of its operands when all constraints that the
library builds for it are satisfied (`Satisfied`). The disequalities of `alldiff` are one for each
pair of positions (`getElem_of_mem_allDifferent`, `length_allDifferent`), and together they say that
no value occurs twice (`satisfied_allDifferent`). Main statement: `alldiff_decomposes`, for operands
that may be repeated or constant, whatever the offset and the value.
-/

namespace Clausify

namespace Library

/-- The rules of all constraints are true of the values of their operands. -/
def Satisfied (cs : List Constraint) (a : String → Word) : Prop :=
  ∀ c ∈ cs, c.satisfied (c.operands.map (Operand.valueIn a)) = .ok true

variable {a : String → Word}

theorem satisfied_append {cs ds : List Constraint} :
    Satisfied (cs ++ ds) a ↔ Satisfied cs a ∧ Satisfied ds a :=
  List.forall_mem_append

theorem satisfied_different {x y : Operand} :
    (different x y).satisfied ((different x y).operands.map (Operand.valueIn a)) = .ok true ↔
      x.valueIn a ≠ y.valueIn a := by
  simp [different, Constraint.satisfied, binaryTest]

theorem satisfied_allDifferent {operands : List Operand} :
    Satisfied (allDifferent operands) a ↔ (operands.map (Operand.valueIn a)).Nodup := by
  induction operands with
  | nil => simp [allDifferent, Satisfied]
  | cons x rest ih =>
    rw [allDifferent, satisfied_append, ih, List.map_cons, List.nodup_cons]
    -- the first operand has one disequality with each of the others
    refine and_congr_left fun _ => ?_
    unfold Satisfied
    rw [List.forall_mem_map]
    simp only [satisfied_different, List.mem_map, not_exists, not_and]
    exact forall₂_congr fun y _ => ne_comm

theorem length_allDifferent (operands : List Operand) :
    (allDifferent operands).length = operands.length.choose 2 := by
  induction operands with
  | nil => rfl
  | cons x rest ih =>
    rw [allDifferent, List.length_append, List.length_map, ih, List.length_cons,
      Nat.choose_succ_succ', Nat.choose_one_right]

theorem getElem_of_mem_allDifferent {operands : List Operand} {c : Constraint}
    (h : c ∈ allDifferent operands) :
    ∃ i j, ∃ (hij : i < j) (hj : j < operands.length), c = different operands[i] operands[j] := by
  induction operands with
  | nil => simp [allDifferent] at h
  | cons x rest ih =>
    rw [allDifferent, List.mem_append] at h
    rcases h with h | h
    · obtain ⟨y, hy, rfl⟩ := List.mem_map.mp h
      obtain ⟨j, hj, rfl⟩ := List.getElem_of_mem hy
      exact ⟨0, j + 1, Nat.succ_pos j, Nat.succ_lt_succ hj, rfl⟩
    · obtain ⟨i, j, hij, hj, rfl⟩ := ih h
      exact ⟨i + 1, j + 1, Nat.succ_lt_succ hij, Nat.succ_lt_succ hj, rfl⟩

theorem check_different {assignment : Assignment} {x y : Operand}
    (h : ∀ z, Operand.var z = x ∨ Operand.var z = y → assignment.lookup z = some (a z)) :
    (different x y).check assignment = .ok (decide (x.valueIn a ≠ y.valueIn a)) := by
  have hlookup : ∀ z ∈ (different x y).variableNames, assignment.lookup z = some (a z) := by
    intro z hz
    apply h
    simpa [Constraint.mem_variableNames, different] using hz
  rw [Constraint.check_eq hlookup]
  simp [different, Constraint.satisfied, binaryTest, Constraint.verdict, Except.map]

theorem check_allDifferent {assignment : Assignment} {operands : List Operand}
    (h : ∀ x, Operand.var x ∈ operands → assignment.lookup x = some (a x)) :
    ∀ c ∈ allDifferent operands, ∃ b, c.check assignment = .ok b ∧
      (b = true ↔ c.satisfied (c.operands.map (Operand.valueIn a)) = .ok true) := by
  intro c hc
  obtain ⟨x, hx, y, hy, rfl⟩ := mem_allDifferent hc
  refine ⟨decide (x.valueIn a ≠ y.valueIn a), check_different ?_, ?_⟩
  · rintro z (rfl | rfl)
    · exact h z hx
    · exact h z hy
  · rw [satisfied_different, decide_eq_true_eq]

theorem build_alldiff {relation : String} (h : Text.lower relation = "alldiff")
    (operands : List Operand) (offset value : Word) :
    build relation operands offset value = .ok (allDifferent operands) := by
  unfold build
  rw [h]
  rfl

/-- `alldiff`, its name in any case, is one relation of two operands for each pair of positions, the
same for every offset and value. All of them are valid, and on an assignment of all variables they
are checked without misuse and all true exactly when the operands at any two positions have
different values. -/
theorem alldiff_decomposes {relation : String} (hname : Text.lower relation = "alldiff")
    (operands : List Operand) :
    ∃ cs : List Constraint,
      (∀ offset value, build relation operands offset value = .ok cs) ∧
      cs.length = operands.length * (operands.length - 1) / 2 ∧
      (∀ c ∈ cs, c.validate = .ok () ∧ (∃ test, c.rule = .relation (some test)) ∧
        ∃ i j, ∃ (hij : i < j) (hj : j < operands.length),
          c.operands = [operands[i], operands[j]]) ∧
      ∀ (assignment : Assignment) (a : String → Word),
        (∀ x, Operand.var x ∈ operands → assignment.lookup x = some (a x)) →
        (∀ c ∈ cs, ∃ b, c.check assignment = .ok b) ∧
        ((∀ c ∈ cs, c.check assignment = .ok true) ↔
          ∀ i j, ∀ (hi : i < operands.length) (hj : j < operands.length), i ≠ j →
            operands[i].valueIn a ≠ operands[j].valueIn a) := by
  refine ⟨allDifferent operands, build_alldiff hname operands, ?_, ?_, ?_⟩
  · rw [length_allDifferent, Nat.choose_two_right]
  · intro c hc
    obtain ⟨i, j, hij, hj, rfl⟩ := getElem_of_mem_allDifferent hc
    exact ⟨rfl, ⟨_, rfl⟩, i, j, hij, hj, rfl⟩
  · intro assignment a hcomplete
    have hcheck := check_allDifferent hcomplete
    refine ⟨fun c hc => (hcheck c hc).imp fun b hb => hb.1, ?_⟩
    have hall : (∀ c ∈ allDifferent operands, c.check assignment = .ok true) ↔
        Satisfied (allDifferent operands) a := by
      refine forall₂_congr fun c hc => ?_
      obtain ⟨b, hb, hiff⟩ := hcheck c hc
      rw [hb, ← hiff, Except.ok.injEq]
    rw [hall, satisfied_allDifferent, List.nodup_iff_pairwise_ne, List.pairwise_map,
      List.pairwise_iff_getElem]
    constructor
    · intro hlt i j hi hj hne
      -- each pair of positions is compared once, the earlier one first
      rcases Nat.lt_or_gt_of_ne hne with hij | hij
      · exact hlt i j hi hj hij
      · exact (hlt j i hj hi hij).symm
    · intro hne i j hi hj hij
      exact hne i j hi hj (Nat.ne_of_lt hij)

/-- A constant, a variable and the variable again: three relations, the last of which is false of
every assignment. -/
theorem repeated_operand_refused : ∃ cs : List Constraint,
    build "AllDiff" [.const 3, .var "x", .var "x"] 7 9 = .ok cs ∧ cs.length = 3 ∧
    ∀ w : Word, ¬ ∀ c ∈ cs, c.check [("x", w)] = .ok true := by
  have hname : Text.lower "AllDiff" = "alldiff" := by decide +kernel
  obtain ⟨cs, hbuild, hlength, -, hchecks⟩ :=
    alldiff_decomposes hname [.const 3, .var "x", .var "x"]
  refine ⟨cs, hbuild 7 9, hlength, fun w hall => ?_⟩
  have hcomplete : ∀ x, Operand.var x ∈ [Operand.const 3, .var "x", .var "x"] →
      List.lookup x [("x", w)] = some w := by
    intro x hx
    obtain rfl : x = "x" := by simpa using hx
    rfl
  exact ((hchecks [("x", w)] (fun _ => w) hcomplete).2.mp hall) 1 2 (by decide) (by decide)
    (by decide) rfl

end Library

end Clausify
