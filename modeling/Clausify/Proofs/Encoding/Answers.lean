import Mathlib
import Clausify.Proofs.Encoding.Listing
import Clausify.Proofs.Encoding.Scope

/-!
What the mapping answers for a variable. A shape has single-value literals for every value of its
domain, or order literals for every value but the greatest, or both (`shapeSteps_direct`,
`shapeSteps_order`). Main statement: once the steps of a variable are taken, and while no other step
concerns it, the mapping answers every question that its shape is made for
(`Mapping.answers_of_lists`).
-/

namespace Clausify

/-! ## Entries of a variable -/

/-- The step enters something for the variable. -/
def Step.Concerns (x : String) : Step → Prop
  | .shape y _ | .domain y _ => y = x
  | .direct k _ | .order k _ | .bound _ k _ => k.var = x
  | _ => False

def Shape.isDirect : Shape → Bool
  | constant | boolean | hybrid | direct => true
  | unsatisfiable | order => false

/-- Whether order questions can be asked about a shape. -/
def Shape.isOrdered : Shape → Bool
  | constant | boolean | hybrid | order => true
  | unsatisfiable | direct => false

namespace Encoding

open Step

variable {settings : Settings} {count : Nat} {v : Variable} {constrained : Bool}

/-- The steps of a variable concern no other, and its shape is entered by the first of them. -/
theorem concerns_variableSteps {shape : Shape} {s : Step}
    (hs : s ∈ variableSteps settings count v shape constrained) {x : String} (hx : s.Concerns x) :
    v.name = x := by
  simp only [variableSteps, List.mem_cons] at hs
  rcases hs with rfl | rfl | rfl | rfl | hs
  · exact hx
  · exact hx.elim
  · exact hx.elim
  · exact hx
  · rcases shapeSteps_local settings count v constrained shape s hs with hlocal | ⟨r, rfl⟩
    · cases s with
      | direct k l => exact hlocal.symm.trans hx
      | order k l => exact hlocal.symm.trans hx
      | bound t k l => exact hlocal.symm.trans hx
      | shape y shape => exact hlocal.elim
      | domain y d => exact hlocal.elim
      | _ => exact hx.elim
    · exact hx.elim

theorem shape_not_mem_shapeSteps {shape shape' : Shape} {x : String} :
    .shape x shape' ∉ shapeSteps settings count v constrained shape := by
  intro hmem
  rcases shapeSteps_local settings count v constrained shape _ hmem with h | ⟨r, h⟩
  · exact h
  · cases h

theorem shapeSteps_direct {needs : Representation}
    (h : (Shape.choose settings v.domain.size needs).isDirect = true) {w : Word}
    (hw : w ∈ v.domain) :
    ∃ l, .direct ⟨v.name, w⟩ l ∈ shapeSteps settings count v constrained
      (Shape.choose settings v.domain.size needs) := by
  rw [← mem_directKeys]
  rw [← Domain.mem_values] at hw
  by_cases h0 : v.domain.size = 0
  · simp [Shape.choose, h0, Shape.isDirect] at h
  by_cases h1 : v.domain.size = 1
  · obtain ⟨value, hb, hv⟩ := Domain.values_of_size_one h1
    rw [hv] at hw
    simpa [Shape.choose, h1, shapeSteps, hb, constant] using hw
  by_cases h2 : v.domain.size = 2
  · obtain ⟨lower, upper, -, hb, hv⟩ := Domain.values_of_size_two h2
    rw [hv] at hw
    cases constrained <;> simpa [Shape.choose, h2, shapeSteps, hb, boolean, or_comm] using hw
  -- from three values on, the shape depends on the needs
  obtain ⟨first, rest, hv, -⟩ := values_eq_cons (Domain.three_le_length h0 h1 h2)
  simp only [Shape.choose, h0, h1, h2, if_false] at h ⊢
  split_ifs at h ⊢ with hboth hdirect
  · rw [hv] at hw
    simpa [shapeSteps, hv, hybrid_eq, firstTie, channelFrom_keys] using hw
  · simpa [shapeSteps, directOnly_eq, Plan.keys_steps, singleSteps_keys,
      map_fst_singleTerms] using hw
  · simp [Shape.isDirect] at h

theorem shapeSteps_order {needs : Representation}
    (h : (Shape.choose settings v.domain.size needs).isOrdered = true) {w u : Word}
    (hw : w ∈ v.domain) (hu : u ∈ v.domain) (hwu : w < u) :
    ∃ l, .order ⟨v.name, w⟩ l ∈ shapeSteps settings count v constrained
      (Shape.choose settings v.domain.size needs) := by
  rw [← Domain.mem_values] at hw hu
  have hinc := v.domain.values_increasing
  by_cases h0 : v.domain.size = 0
  · simp [Shape.choose, h0, Shape.isOrdered] at h
  by_cases h1 : v.domain.size = 1
  · -- there is no greater value
    obtain ⟨value, -, hv⟩ := Domain.values_of_size_one h1
    rw [hv, List.mem_singleton] at hw hu
    rw [hw, hu] at hwu
    exact absurd hwu (not_lt_self value)
  by_cases h2 : v.domain.size = 2
  · obtain ⟨lower, upper, -, hb, hv⟩ := Domain.values_of_size_two h2
    rw [← mem_orderKeys]
    rw [hv] at hw
    cases constrained <;> simpa [Shape.choose, h2, shapeSteps, hb, boolean, or_comm] using hw
  obtain ⟨first, rest, hv, -⟩ := values_eq_cons (Domain.three_le_length h0 h1 h2)
  rw [hv] at hw hu hinc
  rw [List.pairwise_cons] at hinc
  simp only [Shape.choose, h0, h1, h2, if_false] at h ⊢
  split_ifs at h ⊢ with hboth hdirect
  · simp only [shapeSteps, hv, hybrid_eq]
    rcases List.mem_cons.mp hw with rfl | hw
    · exact ⟨Literal.ofVariable (count + 1), by simp [firstTie, mem_order]⟩
    · obtain ⟨m, hm⟩ := channelFrom_order hinc.2 hw (mem_of_lt_later hinc.1 hw hu hwu) hwu
      exact ⟨m, List.mem_append_left _ (List.mem_append_right _ hm)⟩
  · simp [Shape.isOrdered] at h
  · simp only [shapeSteps, hv, orderOnly_eq]
    rcases List.mem_cons.mp hw with rfl | hw
    · exact ⟨Literal.ofVariable (count + 1), by simp [firstBound, mem_order]⟩
    · obtain ⟨m, hm⟩ := boundsFrom_order hinc.2 hw (mem_of_lt_later hinc.1 hw hu hwu) hwu
      exact ⟨m, List.mem_append_right _ hm⟩

end Encoding

/-- The mapping answers for every value of a variable: questions for single values and for upper
bounds, as far as the shape has them, with the literals that the steps `B` enter. The greatest
value may be answered without one. -/
structure Mapping.Answers (m : Mapping) (B : List Step) (v : Variable) (shape : Shape) : Prop where
  domain : m.domains[v.name]? = some v.domain
  direct : shape.isDirect = true → ∀ w ∈ v.domain,
    ∃ l, .direct ⟨v.name, w⟩ l ∈ B ∧ m.directLiteral v.name w = l
  order : shape.isOrdered = true → ∀ w ∈ v.domain, ∃ l, m.orderLiteral v.name w = .ok l ∧
    (.order ⟨v.name, w⟩ l ∈ B ∨ l = .always ∧ ∀ u ∈ v.domain, u ≤ w)

namespace Mapping

variable {m : Mapping} {x : String} {d : Domain} {w : Word}

theorem orderLiteral_of_greatest (hentry : m.order[(⟨x, w⟩ : Key)]? = none)
    (hd : m.domains[x]? = some d) (hw : w ∈ d) (hgreatest : ∀ u ∈ d, u ≤ w) :
    m.orderLiteral x w = .ok .always := by
  cases hb : d.bounds? with
  | none =>
    rw [← Domain.mem_values, Domain.bounds?_eq_none.mp hb] at hw
    simp at hw
  | some bounds =>
    obtain ⟨lower, upper⟩ := bounds
    obtain ⟨-, hupper, hbetween⟩ := Domain.bounds?_spec hb
    have hlow : ¬ w < lower := Int64.not_lt.mpr (hbetween w hw).1
    simp only [orderLiteral, hentry, hd, hb, hlow, hgreatest upper hupper, if_true, if_false]

/-- Where the steps of a variable were all taken, and no other step concerns it, the mapping answers
for it. -/
theorem answers_of_lists {settings : Settings} {count : Nat} {v : Variable} {constrained : Bool}
    {needs : Representation} {S S' : List Step}
    (hm : m.Lists (S ++ Encoding.variableSteps settings count v
      (Shape.choose settings v.domain.size needs) constrained ++ S'))
    (hS : ∀ s ∈ S, ¬ s.Concerns v.name) (hS' : ∀ s ∈ S', ¬ s.Concerns v.name) :
    m.Answers (Encoding.shapeSteps settings count v constrained
      (Shape.choose settings v.domain.size needs)) v
      (Shape.choose settings v.domain.size needs) := by
  have hdomain : m.domains[v.name]? = some v.domain := by
    rw [hm.domains]
    simp [Encoding.variableSteps]
  have hmem : ∀ s ∈ Encoding.shapeSteps settings count v constrained
      (Shape.choose settings v.domain.size needs), s ∈ S ++ Encoding.variableSteps settings count v
        (Shape.choose settings v.domain.size needs) constrained ++ S' := by
    intro s hs
    simp [Encoding.variableSteps, hs]
  refine ⟨hdomain, fun hdirect w hw => ?_, fun hordered w hw => ?_⟩
  · obtain ⟨l, hl⟩ := Encoding.shapeSteps_direct hdirect hw
    have hentry : m.direct[(⟨v.name, w⟩ : Key)]? = some l := (hm.direct _ _).mpr (hmem _ hl)
    exact ⟨l, hl, by rw [directLiteral, hentry]; rfl⟩
  cases hentry : m.order[(⟨v.name, w⟩ : Key)]? with
  | some l =>
    refine ⟨l, by rw [orderLiteral, hentry], .inl ?_⟩
    -- what is entered for the variable is entered by its own steps
    rw [hm.order, List.mem_append, List.mem_append] at hentry
    rcases hentry with (hentry | hentry) | hentry
    · exact absurd rfl (hS _ hentry)
    · simpa [Encoding.variableSteps] using hentry
    · exact absurd rfl (hS' _ hentry)
  | none =>
    have hgreatest : ∀ u ∈ v.domain, u ≤ w := by
      intro u hu
      by_contra hlt
      obtain ⟨l, hl⟩ := Encoding.shapeSteps_order hordered hw hu (Int64.not_le.mp hlt)
      rw [(hm.order _ _).mpr (hmem _ hl)] at hentry
      cases hentry
    exact ⟨.always, orderLiteral_of_greatest hentry hdomain hw hgreatest, .inr ⟨rfl, hgreatest⟩⟩

end Mapping

end Clausify
