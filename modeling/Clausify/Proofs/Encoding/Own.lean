import Mathlib
import Clausify.Proofs.Cardinality.Literals
import Clausify.Proofs.Encoding.Scope

/-!
The clauses of a variable speak about the propositional variables that are allocated for it, and
about no others. The steps of every shape write literals of these only, and so do the schemes that
count the single-value literals (`shapeSteps_own`). So whether a valuation satisfies the clauses
depends on these variables alone.
-/

namespace Clausify

open Step Encoding
open Emission (Supplies)

/-- All literals that the steps write have the property. -/
def Step.Over (P : Literal → Prop) (T : List Step) : Prop := Emission.Over P (emissions T)

theorem Step.over_append {P : Literal → Prop} {T U : List Step} :
    Over P (T ++ U) ↔ Over P T ∧ Over P U := by
  rw [Over, emissions_append]
  exact Emission.over_append

theorem Step.over_iff {P : Literal → Prop} {T : List Step} :
    Over P T ↔ ∀ c ∈ clausesOf T, ∀ l ∈ c, P l := Iff.rfl

section Shapes

variable {P : Literal → Prop} {settings : Settings} {x : String} {count : Nat}
  {previous : Literal} {value : Word} {values : List Word} (hneg : ∀ l, P l → P (-l))

include hneg

theorem tieSteps_over (hprevious : P previous) (hfresh : Supplies P count 2) :
    Over P (tieSteps settings x count previous value) := by
  have hbound := hfresh (count + 1) (by omega) (by omega)
  have hsingle := hfresh (count + 2) (by omega) (by omega)
  rw [over_iff, clausesOf_tieSteps]
  simp [tieClauses, hprevious, hbound, hsingle, hneg _ hprevious, hneg _ hbound, hneg _ hsingle]

theorem channelFrom_over (hprevious : P previous)
    (hfresh : Supplies P count (freshCount (channelFrom settings x count previous values).1)) :
    Over P (channelFrom settings x count previous values).1 ∧
      ∀ l ∈ (channelFrom settings x count previous values).2, P l := by
  induction values generalizing count previous with
  | nil => exact ⟨by simp [channelFrom, over_iff], by simp [channelFrom]⟩
  | cons value rest ih =>
    cases rest with
    | nil => exact ⟨by simp [channelFrom, over_iff], by simp [channelFrom, hneg _ hprevious]⟩
    | cons next rest =>
      obtain ⟨hsteps, hsingles⟩ := channelFrom_cons settings x count previous value next rest
      rw [hsteps, freshCount_append, freshCount_tieSteps] at hfresh
      have hpair : Supplies P count 2 := hfresh.part (Nat.le_refl _) (by omega)
      have hbound := hpair (count + 1) (by omega) (by omega)
      have hsingle := hpair (count + 2) (by omega) (by omega)
      have hlater : Supplies P (count + 2) (freshCount (channelFrom settings x (count + 2)
          (Literal.ofVariable (count + 1)) (next :: rest)).1) := hfresh.part (by omega) (by omega)
      obtain ⟨hrest, hliterals⟩ := ih hbound hlater
      rw [hsteps, hsingles, over_append]
      exact ⟨⟨tieSteps_over hneg hprevious hpair, hrest⟩,
        List.forall_mem_cons.mpr ⟨hsingle, hliterals⟩⟩

theorem boundsFrom_over (hprevious : P previous)
    (hfresh : Supplies P count (freshCount (boundsFrom settings x count previous values))) :
    Over P (boundsFrom settings x count previous values) := by
  induction values generalizing count previous with
  | nil => simp [boundsFrom, over_iff]
  | cons value rest ih =>
    cases rest with
    | nil => simp [boundsFrom, over_iff]
    | cons next rest =>
      rw [boundsFrom_cons, freshCount_append, freshCount_boundSteps] at hfresh
      have hbound := hfresh (count + 1) (by omega) (by omega)
      rw [boundsFrom_cons, over_append]
      refine ⟨?_, ih hbound (hfresh.part (by omega) (by omega))⟩
      simp [boundSteps, over_iff, hbound, hneg _ hprevious]

theorem hybrid_over (hfresh : Supplies P count (freshCount (hybrid settings count x values))) :
    Over P (hybrid settings count x values) := by
  cases values with
  | nil => simp [hybrid, over_iff]
  | cons first rest =>
    have hfirst : freshCount (firstTie settings x count first) = 1 := by simp [firstTie]
    rw [hybrid_eq, freshCount_append, freshCount_append, hfirst] at hfresh
    have hbound := hfresh (count + 1) (by omega) (by omega)
    have hrest : Supplies P (count + 1) (freshCount (channelFrom settings x (count + 1)
        (Literal.ofVariable (count + 1)) rest).1) := hfresh.part (by omega) (by omega)
    obtain ⟨hchannel, hsingles⟩ := channelFrom_over hneg hbound hrest
    rw [hybrid_eq, over_append, over_append]
    refine ⟨⟨by simp [firstTie, over_iff], hchannel⟩, ?_⟩
    rw [over_iff, clausesOf_clause, clausesOf_nil, List.forall_mem_singleton]
    exact List.forall_mem_cons.mpr ⟨hbound, hsingles⟩

theorem orderOnly_over
    (hfresh : Supplies P count (freshCount (orderOnly settings count x values))) :
    Over P (orderOnly settings count x values) := by
  cases values with
  | nil => simp [orderOnly, over_iff]
  | cons first rest =>
    have hfirst : freshCount (firstBound settings x count first) = 1 := by simp [firstBound]
    rw [orderOnly_eq, freshCount_append, hfirst] at hfresh
    rw [orderOnly_eq, over_append]
    refine ⟨by simp [firstBound, over_iff], boundsFrom_over hneg ?_ ?_⟩
    · exact hfresh (count + 1) (by omega) (by omega)
    · exact hfresh.part (by omega) (by omega)

theorem directOnly_over (hsized : settings.Sized)
    (hfresh : Supplies P count (freshCount (directOnly settings count x values))) :
    Over P (directOnly settings count x values) := by
  rw [directOnly_eq, freshCount, emissions_append, emissions_singleSteps, Plan.emissions_steps,
    length_singleTerms, Emission.freshCount_append, Emission.freshCount_allocate] at hfresh
  rw [directOnly_eq, Over, emissions_append, emissions_singleSteps, Plan.emissions_steps]
  refine Emission.over_append.mpr
    ⟨Emission.over_allocate _, Cardinality.encode_over hneg hsized _ ?_ ?_⟩
  · exact (hfresh.part (Nat.le_refl _) (by omega)).literalsFrom
  · exact hfresh.part (by omega) (by omega)

theorem shapeSteps_over (hsized : settings.Sized) (hnever : P .never) {v : Variable}
    {constrained : Bool} {shape : Shape}
    (hfresh : Supplies P count (freshCount (shapeSteps settings count v constrained shape))) :
    Over P (shapeSteps settings count v constrained shape) := by
  cases shape with
  | unsatisfiable => simpa [shapeSteps, over_iff] using hnever
  | constant =>
    simp only [shapeSteps] at hfresh ⊢
    split
    · next hb =>
      rw [hb] at hfresh
      simpa [constant, over_iff] using hfresh (count + 1) (by omega) (by simp [constant])
    · simp [over_iff]
  | boolean =>
    simp only [shapeSteps] at hfresh ⊢
    split
    · next hb =>
      rw [hb] at hfresh
      cases constrained with
      | true => simp [boolean, over_iff]
      | false =>
        have hnext := hfresh (count + 1) (by omega) (by simp [boolean])
        simp [boolean, over_iff, hnext, hneg _ hnext]
    · simp [over_iff]
  | hybrid => exact hybrid_over hneg hfresh
  | direct => exact directOnly_over hneg hsized hfresh
  | order => exact orderOnly_over hneg hfresh

end Shapes

/-- The clauses of a shape speak about no variable that was there before. -/
theorem shapeSteps_own {settings : Settings} (hsized : settings.Sized) {count : Nat}
    {v : Variable} {constrained : Bool} {shape : Shape}
    (hlim : count + freshCount (shapeSteps settings count v constrained shape) < Literal.limit) :
    ∀ c ∈ clausesOf (shapeSteps settings count v constrained shape), ∀ l ∈ c, count < l.var := by
  refine shapeSteps_over (P := fun l => count < l.var) ?_ hsized ?_ ?_
  · intro l hl
    rwa [Literal.var_neg]
  · exact Nat.lt_of_le_of_lt (Nat.le_add_right _ _) hlim
  · intro k hk hle
    rw [Literal.var_ofVariable (by omega)]
    exact hk

end Clausify
