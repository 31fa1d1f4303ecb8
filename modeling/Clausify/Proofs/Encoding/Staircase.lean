import Mathlib
import Clausify.Proofs.Encoding.Reading

/-!
Order literals as a staircase. Going through the values of a domain in increasing order, each value
gets a literal for "is at most this value", implied by the literal `previous` of the value before.
A staircase over the values that remain reads a value below all of them when `previous` holds and
one of them when it does not (`Staircase`). Both representations with order literals, with and
without literals for single values, are built from such steps (`staircase_step`); the last value
takes the negation of `previous` (`staircase_last`).
-/

namespace Clausify.Step

/-- The steps for the values that remain after the order literal `previous`. -/
structure Staircase (x : String) (values : List Word) (low count : Nat) (previous : Literal)
    (T : List Step) : Prop where
  owned : ∀ s ∈ T, s.Owned x low (count + freshCount T)
  known : ∀ c ∈ clausesOf T, c.Known (count + freshCount T)
  below : ∀ v : Valuation, v.Satisfies (clausesOf T) → previous.holds v = true →
    ∀ w : Word, (∀ y ∈ values, w < y) → Reads T v fun _ => w
  inside : ∀ v : Valuation, v.Satisfies (clausesOf T) → previous.holds v = false →
    ∃ w ∈ values, Reads T v fun _ => w
  complete : ∀ (v : Valuation) (w : Word),
    (previous.holds v = true ∧ ∀ y ∈ values, w < y) ∨ (previous.holds v = false ∧ w ∈ values) →
    ∃ u : Valuation, v.Agree count u ∧ u.Satisfies (clausesOf T) ∧ Reads T u fun _ => w
  unique : ∀ (v u : Valuation) (w : Word), Reads T v (fun _ => w) → Reads T u (fun _ => w) →
    v.Agree count u → v.Agree (count + freshCount T) u

theorem not_lt_self (w : Word) : ¬ w < w := Int64.lt_irrefl

/-- The last value needs no literal of its own. -/
theorem staircase_last {x : String} {last : Word} {low count : Nat} {previous : Literal}
    {T : List Step} (hp : previous.Known count) (hwrites : emissions T = [])
    (howned : ∀ s ∈ T, s.Owned x low count)
    (hreads : ∀ v w, Reads T v (fun _ => w) ↔ ((-previous).holds v = true ↔ w = last)) :
    Staircase x [last] low count previous T := by
  have hclauses : clausesOf T = [] := by rw [clausesOf, hwrites]; rfl
  have hfresh : count + freshCount T = count := by rw [freshCount, hwrites]; rfl
  -- below the last value its literal must fail, and it does
  have hbelow : ∀ v w, previous.holds v = true → (∀ y ∈ [last], w < y) →
      Reads T v fun _ => w := by
    intro v w hpv hw
    have hne : w ≠ last := by
      rintro rfl
      exact not_lt_self w (hw w (List.mem_singleton_self w))
    simp [hreads, hp.holds_neg, hpv, hne]
  have hlast : ∀ v, previous.holds v = false → Reads T v fun _ => last := by
    intro v hpv
    simp [hreads, hp.holds_neg, hpv]
  exact {
    owned := by rwa [hfresh]
    known := by simp [hclauses]
    below := fun v _ hpv w hw => hbelow v w hpv hw
    inside := fun v _ hpv => ⟨last, List.mem_singleton_self last, hlast v hpv⟩
    complete := by
      intro v w hcase
      refine ⟨v, .refl _ _, by simp [hclauses], ?_⟩
      rcases hcase with ⟨hpv, hw⟩ | ⟨hpv, hw⟩
      · exact hbelow v w hpv hw
      · rw [List.mem_singleton.mp hw]
        exact hlast v hpv
    unique := by
      intro v u w _ _ ha
      rwa [hfresh] }

/-- The steps `S` of one value between the order literals `previous` and `bound`. -/
structure Stair (x : String) (value : Word) (low count : Nat) (previous bound : Literal)
    (S : List Step) : Prop where
  owned : ∀ s ∈ S, s.Owned x low (count + freshCount S)
  known : ∀ c ∈ clausesOf S, c.Known (count + freshCount S)
  knownBound : bound.Known (count + freshCount S)
  climbs : ∀ v : Valuation, v.Satisfies (clausesOf S) → previous.holds v = true →
    bound.holds v = true
  reads : ∀ (v : Valuation) (w : Word), v.Satisfies (clausesOf S) →
    previous.holds v = decide (w < value) → bound.holds v = decide (w ≤ value) →
    Reads S v fun _ => w
  complete : ∀ (v : Valuation) (w : Word), previous.holds v = decide (w < value) →
    ∃ u : Valuation, v.Agree count u ∧ u.Satisfies (clausesOf S) ∧
      bound.holds u = decide (w ≤ value)
  unique : ∀ (v u : Valuation) (w : Word), Reads S v (fun _ => w) → Reads S u (fun _ => w) →
    v.Agree count u → v.Agree (count + freshCount S) u

section Front

variable {x : String} {value w : Word} {values : List Word} {low count : Nat}
  {previous bound : Literal} {S T : List Step} {v : Valuation}

/-- Where `previous` tells a word below all values from one of them, it tells whether the word is
below the first. -/
theorem holds_eq_lt_first (hinc : ∀ y ∈ values, value < y)
    (hcase : (previous.holds v = true ∧ ∀ y ∈ value :: values, w < y) ∨
      (previous.holds v = false ∧ w ∈ value :: values)) :
    previous.holds v = decide (w < value) := by
  rcases hcase with ⟨hpv, hw⟩ | ⟨hpv, hw⟩
  · rw [hpv, eq_comm, decide_eq_true_eq]
    exact hw value List.mem_cons_self
  · rw [hpv, eq_comm, decide_eq_false_iff_not]
    rcases List.mem_cons.mp hw with rfl | hw
    · exact not_lt_self w
    · exact Int64.not_lt.mpr (Int64.le_of_lt (hinc w hw))

/-- Behind the first value its bound tells a word below the values that remain from one of them. -/
theorem bound_cases (hinc : ∀ y ∈ values, value < y)
    (hw : (∀ y ∈ value :: values, w < y) ∨ w ∈ value :: values)
    (hb : bound.holds v = decide (w ≤ value)) :
    (bound.holds v = true ∧ ∀ y ∈ values, w < y) ∨ (bound.holds v = false ∧ w ∈ values) := by
  rcases hw with hw | hw
  · rw [List.forall_mem_cons] at hw
    exact .inl ⟨by simp [hb, Int64.le_of_lt hw.1], hw.2⟩
  · rcases List.mem_cons.mp hw with rfl | hw
    · exact .inl ⟨by simp [hb], hinc⟩
    · refine .inr ⟨?_, hw⟩
      rw [hb, decide_eq_false_iff_not]
      exact Int64.not_le.mpr (hinc w hw)

/-- A value is found where the order literals change: the first one, if its bound holds, or else one
of those that remain. -/
theorem inside_step (hinc : ∀ y ∈ values, value < y)
    (hS : Stair x value low count previous bound S)
    (hT : Staircase x values low (count + freshCount S) bound T)
    (hv : v.Satisfies (clausesOf S)) (hv' : v.Satisfies (clausesOf T))
    (hpv : previous.holds v = false) :
    ∃ w ∈ value :: values, Reads (S ++ T) v fun _ => w := by
  cases hb : bound.holds v with
  | true =>
    refine ⟨value, List.mem_cons_self, reads_append.mpr ⟨hS.reads v value hv ?_ ?_, ?_⟩⟩
    · simp [hpv]
    · simp [hb]
    · exact hT.below v hv' hb value hinc
  | false =>
    obtain ⟨w, hw, hreads⟩ := hT.inside v hv' hb
    refine ⟨w, List.mem_cons_of_mem _ hw, reads_append.mpr ⟨hS.reads v w hv ?_ ?_, hreads⟩⟩
    · exact holds_eq_lt_first hinc (.inr ⟨hpv, List.mem_cons_of_mem _ hw⟩)
    · rw [hb, eq_comm, decide_eq_false_iff_not]
      exact Int64.not_le.mpr (hinc w hw)

/-- The stair is completed first and the staircase behind it after that. -/
theorem complete_step (hinc : ∀ y ∈ values, value < y) (hp : previous.Known count)
    (hS : Stair x value low count previous bound S)
    (hT : Staircase x values low (count + freshCount S) bound T)
    (hcase : (previous.holds v = true ∧ ∀ y ∈ value :: values, w < y) ∨
      (previous.holds v = false ∧ w ∈ value :: values)) :
    ∃ u : Valuation, v.Agree count u ∧ u.Satisfies (clausesOf (S ++ T)) ∧
      Reads (S ++ T) u fun _ => w := by
  have hpv := holds_eq_lt_first hinc hcase
  obtain ⟨s, has, hs, hbs⟩ := hS.complete v w hpv
  obtain ⟨u, hau, hu, hreads⟩ :=
    hT.complete s w (bound_cases hinc (hcase.imp And.right And.right) hbs)
  -- what the staircase adds does not touch the stair
  have hsu : u.Satisfies (clausesOf S) := hs.congr hS.known hau
  have ha : v.Agree count u := has.trans (hau.mono (Nat.le_add_right _ _))
  refine ⟨u, ha, ?_, reads_append.mpr ⟨hS.reads u w hsu ?_ ?_, hreads⟩⟩
  · rw [clausesOf_append, Valuation.satisfies_append]
    exact ⟨hsu, hu⟩
  · rw [← hp.holds_congr ha, hpv]
  · rw [← hS.knownBound.holds_congr hau, hbs]

theorem staircase_step (hinc : ∀ y ∈ values, value < y) (hp : previous.Known count)
    (hS : Stair x value low count previous bound S)
    (hT : Staircase x values low (count + freshCount S) bound T) :
    Staircase x (value :: values) low count previous (S ++ T) where
  owned := by
    rw [freshCount_append, ← Nat.add_assoc]
    refine List.forall_mem_append.mpr ⟨fun s hs => ?_, hT.owned⟩
    exact (hS.owned s hs).mono (Nat.le_refl _) (Nat.le_add_right _ _)
  known := by
    rw [freshCount_append, ← Nat.add_assoc, clausesOf_append]
    refine List.forall_mem_append.mpr ⟨fun c hc => ?_, hT.known⟩
    exact (hS.known c hc).mono (Nat.le_add_right _ _)
  below v hv hpv w hw := by
    rw [clausesOf_append, Valuation.satisfies_append] at hv
    rw [List.forall_mem_cons] at hw
    -- what is below the stairs is below this stair, whose literal then holds as well
    have hb := hS.climbs v hv.1 hpv
    refine reads_append.mpr ⟨hS.reads v w hv.1 ?_ ?_, hT.below v hv.2 hb w hw.2⟩
    · simp [hpv, hw.1]
    · simp [hb, Int64.le_of_lt hw.1]
  inside v hv hpv := by
    rw [clausesOf_append, Valuation.satisfies_append] at hv
    exact inside_step hinc hS hT hv.1 hv.2 hpv
  complete _ _ hcase := complete_step hinc hp hS hT hcase
  unique v u w hv hu ha := by
    rw [reads_append] at hv hu
    rw [freshCount_append, ← Nat.add_assoc]
    exact hT.unique v u w hv.2 hu.2 (hS.unique v u w hv.1 hu.1 ha)

end Front

end Clausify.Step
