import Mathlib
import Clausify.Proofs.Cardinality.Scope

/-!
Which literals the clauses of a scheme have: those of the list and those of the variables that the
scheme allocates, or their negations. It is said of any property `P` of literals that does not look
at signs: if `P` holds of the list and of the allocated variables, it holds of every literal that is
written (`encode_over`). So a list over the variables beyond some number is counted by clauses that
speak about variables beyond it only.
-/

namespace Clausify

namespace Emission

variable {P : Literal → Prop} {count : Nat}

/-- All literals that are written have the property. -/
def Over (P : Literal → Prop) (es : List Emission) : Prop := ∀ c ∈ clausesOf es, ∀ l ∈ c, P l

/-- The variables that are allocated after `count` have the property. -/
def Supplies (P : Literal → Prop) (count n : Nat) : Prop :=
  ∀ k, count < k → k ≤ count + n → P (Literal.ofVariable k)

theorem Supplies.part {n count' n' : Nat} (h : Supplies P count n) (hlow : count ≤ count')
    (hhigh : count' + n' ≤ count + n) : Supplies P count' n' := by
  intro k hk hk'
  apply h k
  · omega
  · omega

theorem Supplies.literalsFrom {n : Nat} (h : Supplies P count n) :
    ∀ l ∈ literalsFrom count n, P l := by
  intro l hl
  obtain ⟨k, hk, rfl⟩ := mem_literalsFrom.mp hl
  apply h
  · omega
  · omega

theorem over_append {es fs : List Emission} : Over P (es ++ fs) ↔ Over P es ∧ Over P fs := by
  rw [Over, clausesOf_append]
  exact List.forall_mem_append

theorem over_clauses {cs : List Clause} (h : ∀ c ∈ cs, ∀ l ∈ c, P l) : Over P (clauses cs) := by
  rwa [Over, clausesOf_clauses]

theorem over_allocate (n : Nat) : Over P (allocate n) := by
  simp [Over]

end Emission

namespace Cardinality

open Emission

variable {P : Literal → Prop} {count : Nat} {e : Bool} {ls : List Literal}
  (hneg : ∀ l, P l → P (-l))

include hneg

theorem pairwise_over (e : Bool) (h : ∀ l ∈ ls, P l) : Over P (pairwise e ls) := by
  apply over_clauses
  intro c hc
  rcases List.mem_append.mp hc with hc | hc
  · exact over_pairs hneg h c hc
  · exact over_someOf h c hc

theorem ladder_over (e : Bool) (h : ∀ l ∈ ls, P l)
    (hfresh : Supplies P count (freshCount (ladder count e ls))) : Over P (ladder count e ls) := by
  have hrungs : ∀ r ∈ rungs count ls, P r := by
    cases ls with
    | nil => simp [rungs]
    | cons first rest =>
      refine List.forall_mem_cons.mpr ⟨h first List.mem_cons_self, ?_⟩
      apply Supplies.literalsFrom
      simpa [ladder, rungs] using hfresh
  refine over_append.mpr ⟨over_allocate _, over_clauses fun c hc => ?_⟩
  rcases List.mem_append.mp hc with hc | hc
  · rcases List.mem_append.mp hc with hc | hc
    · exact over_chain hneg hrungs c hc
    · exact over_climb hneg (fun l hl => h l (List.mem_of_mem_tail hl)) hrungs c hc
  · exact over_someOf h c hc

theorem grid_over (fuel count : Nat) (ls : List Literal) : (∀ l ∈ ls, P l) →
    Supplies P count (freshCount (grid fuel count ls)) → Over P (grid fuel count ls) := by
  refine grid_induction (motive := fun count ls es => (∀ l ∈ ls, P l) →
    Supplies P count (freshCount es) → Over P es) ?_ ?_ fuel count ls
  · intro count ls h _
    exact over_clauses (over_pairs hneg h)
  · intro count ls p q rows columns hp hq hrows hcolumns h hfresh
    simp only [freshCount_append, freshCount_allocate, freshCount_clauses] at hfresh
    -- rows and columns are allocated in front, and each then allocates its own
    have hplaces : Supplies P count (p + columnCount ls.length p) :=
      hfresh.part (Nat.le_refl _) (by omega)
    simp only [over_append]
    refine ⟨⟨⟨over_allocate _, over_clauses (over_placements hneg h hp ?_)⟩, hrows ?_ ?_⟩,
      hcolumns ?_ ?_⟩
    · intro k hk hk'
      exact hplaces k hk (by omega)
    · exact (hfresh.part (Nat.le_refl _) (by omega)).literalsFrom
    · exact hfresh.part (by omega) (by omega)
    · exact (hfresh.part (by omega) (by omega)).literalsFrom
    · exact hfresh.part (by omega) (by omega)

theorem groups_over {size : Nat} (hsize : 0 < size) (h : ∀ l ∈ ls, P l)
    (hfresh : Supplies P count (freshCount (groups count size ls))) :
    Over P (groups count size ls) := by
  have hcells : ∀ g ∈ chunks size ls, ∀ l ∈ g, P l := by
    intro g hg l hl
    exact h l (mem_of_mem_chunk hsize hg hl)
  refine over_append.mpr ⟨over_append.mpr ⟨over_clauses ?_, over_allocate _⟩, over_clauses ?_⟩
  · intro c hc
    obtain ⟨g, hg, hc⟩ := List.mem_flatMap.mp hc
    exact over_pairs hneg (hcells g hg) c hc
  · apply over_codes hneg hcells
    simpa [groups, Supplies] using hfresh

theorem commandCells_over (closed : Bool) {cells : List (List Literal)}
    (h : ∀ cell ∈ cells, ∀ l ∈ cell, P l)
    (hfresh : Supplies P count (freshCount (commandCells closed count cells).1)) :
    Over P (commandCells closed count cells).1 ∧
      ∀ l ∈ (commandCells closed count cells).2, P l := by
  fun_induction commandCells closed count cells with
  | case1 count => exact ⟨by simp [Over], by simp⟩
  | case2 count l rest es reps hrest ih =>
    rw [List.forall_mem_cons] at h
    rw [hrest] at ih
    obtain ⟨hes, hreps⟩ := ih h.2 hfresh
    exact ⟨hes, List.forall_mem_cons.mpr ⟨h.1 l (List.mem_singleton_self l), hreps⟩⟩
  | case3 count cell rest hcell commander es reps hrest ih =>
    rw [List.forall_mem_cons] at h
    rw [hrest] at ih
    simp only [freshCount_append, freshCount_clauses, freshCount_fresh, Nat.zero_add] at hfresh ih
    have hcommander : P commander := hfresh (count + 1) (by omega) (by omega)
    obtain ⟨hes, hreps⟩ := ih h.2 (hfresh.part (by omega) (by omega))
    have hcommand : Over P (.fresh :: clauses (command closed commander cell)) :=
      over_clauses (over_command hneg hcommander h.1)
    refine ⟨over_append.mpr ⟨over_append.mpr ⟨over_clauses (over_pairs hneg h.1), hcommand⟩, hes⟩,
      List.forall_mem_cons.mpr ⟨hcommander, hreps⟩⟩

theorem hierarchy_over {size : Nat} (hsize : 0 < size) (closed e : Bool) (fuel : Nat)
    (h : ∀ l ∈ ls, P l)
    (hfresh : Supplies P count (freshCount (hierarchy size closed e fuel count ls).emissions)) :
    Over P (hierarchy size closed e fuel count ls).emissions := by
  induction fuel generalizing count ls with
  | zero => simp [hierarchy, Over]
  | succ fuel ih =>
    by_cases hshort : ls.length ≤ size
    · simp only [hierarchy, hshort, if_true]
      exact pairwise_over hneg e h
    · rw [hierarchy_step hshort] at hfresh ⊢
      simp only [freshCount_append] at hfresh
      have hcells : ∀ cell ∈ chunks size ls, ∀ l ∈ cell, P l := by
        intro cell hcell l hl
        exact h l (mem_of_mem_chunk hsize hcell hl)
      obtain ⟨hes, hreps⟩ :=
        commandCells_over hneg closed hcells (hfresh.part (Nat.le_refl _) (by omega))
      exact over_append.mpr ⟨hes, ih hreps (hfresh.part (by omega) (by omega))⟩

theorem schemePlan_over {settings : Settings} (hsized : settings.Sized) (scheme : Scheme)
    (h : ∀ l ∈ ls, P l)
    (hfresh : Supplies P count (freshCount (schemePlan settings scheme count e ls).emissions)) :
    Over P (schemePlan settings scheme count e ls).emissions := by
  obtain ⟨hgroup, hpart⟩ := hsized.toInt
  have hone : Over P (clauses (someOf e ls)) := over_clauses (over_someOf h)
  cases scheme with
  | pairwise => exact pairwise_over hneg e h
  | ladder => exact ladder_over hneg e h hfresh
  | product =>
    refine over_append.mpr ⟨hone, grid_over hneg _ _ _ h ?_⟩
    simpa [schemePlan, product_fresh] using hfresh
  | bimander =>
    rw [schemePlan, bimander_eq hgroup] at hfresh ⊢
    refine over_append.mpr ⟨hone, groups_over hneg (by omega) h ?_⟩
    simpa using hfresh
  | commander =>
    rw [schemePlan, commander_eq (Int.le_trans (by decide) hpart)] at hfresh ⊢
    exact hierarchy_over hneg (by omega) _ _ _ h hfresh
  | other name => simp [schemePlan, Over]

/-- What holds of the list and of the allocated variables holds of all literals in the clauses. -/
theorem encode_over {settings : Settings} (hsized : settings.Sized) (scheme : Scheme)
    (h : ∀ l ∈ ls, P l)
    (hfresh : Supplies P count (freshCount (encode settings scheme count e ls).emissions)) :
    Over P (encode settings scheme count e ls).emissions := by
  rcases encode_cases settings scheme count e ls with ⟨-, heq⟩ | ⟨-, heq⟩ | ⟨-, heq⟩
  · rw [heq]
    exact over_clauses (over_someOf (by simp))
  · rw [heq] at hfresh ⊢
    simp only [freshCount_fresh] at hfresh
    have hslack : ∀ l ∈ ls ++ [Literal.ofVariable (count + 1)], P l := by
      refine List.forall_mem_append.mpr ⟨h, List.forall_mem_singleton.mpr ?_⟩
      exact hfresh (count + 1) (by omega) (by omega)
    exact schemePlan_over hneg hsized scheme hslack (hfresh.part (by omega) (by omega))
  · rw [heq] at hfresh ⊢
    exact schemePlan_over hneg hsized scheme h hfresh

end Cardinality

end Clausify
