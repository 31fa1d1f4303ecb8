import Mathlib
import Clausify.Relation.Library
import Clausify.Proofs.Cardinality.Scope
import Clausify.Proofs.Encoding.Constraint
import Clausify.Proofs.Encoding.Shape

/-!
Why steps are not refused. A clause is refused for an unknown literal and an entry for another
literal under its key. The steps of a shape write clauses that are in scope where they are written
and enter each key of their variable once, whether or not there is room for all of them
(`shapeSteps_fits`); and they enter literals of the kinds that the shape was chosen for
(`shapeSteps_serves`). The plan of a constraint that passes its checks comes to its end, unless
it counts and is reified (`constraintPlan_stop`); the clauses of any constraint are in scope
(`constraintPlan_scoped`).
-/

namespace Clausify

open Literal (InScope)

namespace Step

/-- The clauses among the steps are in scope where they are written. -/
def Scoped (count : Nat) (U : List Step) : Prop := Emission.Scoped count (emissions U)

theorem scoped_append {count : Nat} {U V : List Step} :
    Scoped count (U ++ V) ↔ Scoped count U ∧ Scoped (count + freshCount U) V := by
  rw [Scoped, emissions_append]
  exact Emission.scoped_append

/-- The step writes, or enters a literal of the variable. -/
def Local (x : String) : Step → Prop
  | .emit _ | .comment _ => True
  | .direct k _ | .order k _ | .bound _ k _ => k.var = x
  | _ => False

def directKeys (U : List Step) : List Key :=
  U.filterMap fun
    | .direct k _ => some k
    | _ => none

def orderKeys (U : List Step) : List Key :=
  U.filterMap fun
    | .order k _ => some k
    | _ => none

theorem mem_directKeys {U : List Step} {k : Key} :
    k ∈ directKeys U ↔ ∃ l, .direct k l ∈ U := by
  simp only [directKeys, List.mem_filterMap]
  constructor
  · rintro ⟨s, hs, hk⟩
    cases s <;> simp at hk
    next l => exact ⟨l, hk ▸ hs⟩
  · rintro ⟨l, hl⟩
    exact ⟨_, hl, rfl⟩

theorem mem_orderKeys {U : List Step} {k : Key} :
    k ∈ orderKeys U ↔ ∃ l, .order k l ∈ U := by
  simp only [orderKeys, List.mem_filterMap]
  constructor
  · rintro ⟨s, hs, hk⟩
    cases s <;> simp at hk
    next l => exact ⟨l, hk ▸ hs⟩
  · rintro ⟨l, hl⟩
    exact ⟨_, hl, rfl⟩

section Keys

variable (settings : Settings) (x : String) (w : Word) (l : Literal) (U V : List Step)

@[simp] theorem directKeys_append : directKeys (U ++ V) = directKeys U ++ directKeys V :=
  List.filterMap_append

@[simp] theorem orderKeys_append : orderKeys (U ++ V) = orderKeys U ++ orderKeys V :=
  List.filterMap_append

@[simp] theorem directKeys_emit (e : Emission) : directKeys (.emit e :: U) = directKeys U := rfl

@[simp] theorem orderKeys_emit (e : Emission) : orderKeys (.emit e :: U) = orderKeys U := rfl

@[simp] theorem directKeys_clause (c : Clause) :
    directKeys (Encoding.clause c :: U) = directKeys U := rfl

@[simp] theorem orderKeys_clause (c : Clause) :
    orderKeys (Encoding.clause c :: U) = orderKeys U := rfl

@[simp] theorem directKeys_bound (t : OrderTable) (k : Key) :
    directKeys (.bound t k l :: U) = directKeys U := rfl

@[simp] theorem orderKeys_bound (t : OrderTable) (k : Key) :
    orderKeys (.bound t k l :: U) = orderKeys U := rfl

@[simp] theorem directKeys_map_emit (es : List Emission) :
    directKeys (es.map Step.emit) = [] := by simp [directKeys]

@[simp] theorem orderKeys_map_emit (es : List Emission) :
    orderKeys (es.map Step.emit) = [] := by simp [orderKeys]

@[simp] theorem directKeys_nil : directKeys [] = [] := rfl

@[simp] theorem orderKeys_nil : orderKeys [] = [] := rfl

@[simp] theorem directKeys_direct :
    directKeys (Encoding.direct settings x w l) = [⟨x, w⟩] := by
  unfold Encoding.direct
  split <;> rfl

@[simp] theorem orderKeys_direct : orderKeys (Encoding.direct settings x w l) = [] := by
  unfold Encoding.direct
  split <;> rfl

@[simp] theorem directKeys_order : directKeys (Encoding.order settings x w l) = [] := by
  unfold Encoding.order
  split <;> rfl

@[simp] theorem orderKeys_order :
    orderKeys (Encoding.order settings x w l) = [⟨x, w⟩] := by
  unfold Encoding.order
  split <;> rfl

theorem local_direct : ∀ s ∈ Encoding.direct settings x w l, s.Local x := by
  unfold Encoding.direct
  split <;> simp [Local]

theorem local_order : ∀ s ∈ Encoding.order settings x w l, s.Local x := by
  unfold Encoding.order
  split <;> simp [Local]

end Keys

/-- The steps write in scope and enter each key of one variable once. -/
structure Fits (x : String) (count : Nat) (U : List Step) : Prop where
  inScope : Scoped count U
  localTo : ∀ s ∈ U, s.Local x
  direct : (directKeys U).Nodup
  order : (orderKeys U).Nodup

end Step

open Step Encoding

/-! ## Shapes -/

theorem inScope_next (count : Nat) : InScope (count + 1) [Literal.ofVariable (count + 1)] :=
  fun hlim => by simpa using known_next count hlim

section Channel

variable {settings : Settings} {x : String} {count : Nat} {previous : Literal} {value : Word}
  {values : List Word}

theorem tieSteps_scoped (h : InScope count [previous]) :
    Step.Scoped count (tieSteps settings x count previous value) := by
  have hnext := inScope_next count
  have hsingle := inScope_next (count + 1)
  have hp := h.mono (Nat.le_succ count)
  have hp' := h.mono (Nat.le_add_right count 2)
  have hnext' := hnext.mono (Nat.le_succ _)
  simp only [InScope, List.forall_mem_singleton] at hnext hsingle hp hp' hnext'
  simp only [tieSteps, Step.Scoped, clause, emissions_append, emissions_emit, emissions_order,
    emissions_direct, List.cons_append, List.nil_append, emissions_nil, Emission.Scoped]
  refine ⟨fun hlim => ?_, fun hlim => ?_, fun hlim => ?_, fun hlim => ?_, trivial⟩
  · simp [(hp hlim).neg, hnext hlim]
  · simp [hp' hlim, (hnext' hlim).neg, hsingle hlim]
  · simp [(hsingle hlim).neg, hnext' hlim]
  · simp [(hsingle hlim).neg, (hp' hlim).neg]

theorem channelFrom_scoped (h : InScope count [previous]) :
    Step.Scoped count (channelFrom settings x count previous values).1 ∧
      InScope (count + freshCount (channelFrom settings x count previous values).1)
        (channelFrom settings x count previous values).2 := by
  induction values generalizing count previous with
  | nil => exact ⟨trivial, fun _ => by simp [channelFrom]⟩
  | cons value rest ih =>
    cases rest with
    | nil =>
      -- the last value is the opposite of the literal before it
      have hscoped : Step.Scoped count (direct settings x value (-previous)) := by
        rw [Step.Scoped, emissions_direct]
        trivial
      refine ⟨hscoped, fun hlim => ?_⟩
      simp only [channelFrom, freshCount_direct, Nat.add_zero, List.forall_mem_singleton] at hlim ⊢
      exact (h hlim previous List.mem_cons_self).neg
    | cons next rest =>
      obtain ⟨hsteps, hsingles⟩ := channelFrom_cons settings x count previous value next rest
      have hnext : InScope (count + 2) [Literal.ofVariable (count + 1)] :=
        (inScope_next count).mono (Nat.le_succ _)
      obtain ⟨hrest, hliterals⟩ := ih hnext
      rw [hsteps, hsingles, scoped_append, freshCount_append, freshCount_tieSteps]
      refine ⟨⟨tieSteps_scoped h, hrest⟩, fun hlim => ?_⟩
      rw [← Nat.add_assoc] at hlim ⊢
      refine List.forall_mem_cons.mpr ⟨?_, hliterals hlim⟩
      exact (inScope_next (count + 1)).mono (Nat.le_add_right _ _) hlim _ List.mem_cons_self

theorem channelFrom_keys :
    directKeys (channelFrom settings x count previous values).1 = values.map (Key.mk x) ∧
      orderKeys (channelFrom settings x count previous values).1 =
        values.dropLast.map (Key.mk x) := by
  induction values generalizing count previous with
  | nil => exact ⟨rfl, rfl⟩
  | cons value rest ih =>
    cases rest with
    | nil => exact ⟨directKeys_direct .., orderKeys_direct ..⟩
    | cons next rest =>
      rw [(channelFrom_cons settings x count previous value next rest).1]
      simp [ih, tieSteps]

theorem channelFrom_local :
    ∀ s ∈ (channelFrom settings x count previous values).1, s.Local x := by
  induction values generalizing count previous with
  | nil => simp [channelFrom]
  | cons value rest ih =>
    cases rest with
    | nil => exact local_direct _ _ _ _
    | cons next rest =>
      rw [(channelFrom_cons settings x count previous value next rest).1]
      refine List.forall_mem_append.mpr ⟨?_, ih⟩
      simp only [tieSteps, clause, List.cons_append, List.append_assoc, List.forall_mem_cons,
        List.forall_mem_append]
      exact ⟨trivial, local_order _ _ _ _, trivial, trivial, local_direct _ _ _ _, by simp [Local]⟩

end Channel

section Bounds

variable {settings : Settings} {x : String} {count : Nat} {previous : Literal} {value : Word}
  {values : List Word}

theorem boundSteps_scoped (h : InScope count [previous]) :
    Step.Scoped count (boundSteps settings x count previous value) := by
  have hnext := inScope_next count
  have hp := h.mono (Nat.le_succ count)
  simp only [InScope, List.forall_mem_singleton] at hnext hp
  simp only [boundSteps, Step.Scoped, clause, emissions_append, emissions_emit, emissions_order,
    List.cons_append, List.nil_append]
  refine ⟨fun hlim => ?_, trivial⟩
  simp [(hp hlim).neg, hnext hlim]

theorem boundsFrom_scoped (h : InScope count [previous]) :
    Step.Scoped count (boundsFrom settings x count previous values) := by
  induction values generalizing count previous with
  | nil => trivial
  | cons value rest ih =>
    cases rest with
    | nil => trivial
    | cons next rest =>
      rw [boundsFrom_cons, scoped_append, freshCount_boundSteps]
      exact ⟨boundSteps_scoped h, ih (inScope_next count)⟩

theorem boundsFrom_keys :
    directKeys (boundsFrom settings x count previous values) = [] ∧
      orderKeys (boundsFrom settings x count previous values) =
        values.dropLast.map (Key.mk x) := by
  induction values generalizing count previous with
  | nil => exact ⟨rfl, rfl⟩
  | cons value rest ih =>
    cases rest with
    | nil => exact ⟨rfl, rfl⟩
    | cons next rest =>
      rw [boundsFrom_cons]
      simp [ih, boundSteps]

theorem boundsFrom_local : ∀ s ∈ boundsFrom settings x count previous values, s.Local x := by
  induction values generalizing count previous with
  | nil => simp [boundsFrom]
  | cons value rest ih =>
    cases rest with
    | nil => simp [boundsFrom, Local]
    | cons next rest =>
      rw [boundsFrom_cons]
      refine List.forall_mem_append.mpr ⟨?_, ih⟩
      simp only [boundSteps, clause, List.cons_append, List.forall_mem_cons,
        List.forall_mem_append]
      exact ⟨trivial, local_order _ _ _ _, by simp [Local]⟩

end Bounds

section Fits

variable {settings : Settings} {x : String} {count : Nat}

theorem nodup_keys {values : List Word} (h : values.Nodup) : (values.map (Key.mk x)).Nodup :=
  h.map fun _ _ heq => (Key.mk.inj heq).2

theorem constant_local (w : Word) : ∀ s ∈ constant settings count x w, s.Local x := by
  simp only [constant, clause, List.cons_append, List.forall_mem_cons, List.forall_mem_append]
  exact ⟨trivial, local_direct _ _ _ _, by simp [Local]⟩

theorem boolean_local (lower upper : Word) (constrained : Bool) :
    ∀ s ∈ boolean settings count x lower upper constrained, s.Local x := by
  simp only [boolean, List.cons_append, List.append_assoc, List.forall_mem_cons,
    List.forall_mem_append]
  refine ⟨trivial, local_direct _ _ _ _, local_direct _ _ _ _, local_order _ _ _ _,
    local_order _ _ _ _, ?_⟩
  cases constrained <;> simp [clause, Local]

theorem hybrid_local (values : List Word) : ∀ s ∈ hybrid settings count x values, s.Local x := by
  cases values with
  | nil => simp [hybrid, clause, Local]
  | cons first rest =>
    rw [hybrid_eq]
    simp only [firstTie, clause, List.cons_append, List.append_assoc, List.forall_mem_cons,
      List.forall_mem_append]
    exact ⟨trivial, local_order _ _ _ _, local_direct _ _ _ _, channelFrom_local, by simp [Local]⟩

theorem orderOnly_local (values : List Word) :
    ∀ s ∈ orderOnly settings count x values, s.Local x := by
  cases values with
  | nil => simp [orderOnly]
  | cons first rest =>
    rw [orderOnly_eq]
    simp only [firstBound, List.cons_append, List.append_assoc, List.forall_mem_cons,
      List.forall_mem_append]
    exact ⟨trivial, local_order _ _ _ _, rfl, by simp, boundsFrom_local⟩

theorem singleSteps_local (terms : List (Word × Literal)) :
    ∀ s ∈ singleSteps settings x terms, s.Local x := by
  intro s hs
  rcases of_mem_singleSteps hs with rfl | ⟨t, -, hs⟩
  · trivial
  · exact local_direct _ _ _ _ s hs

/-- The scheme may break off. -/
theorem directOnly_local (values : List Word) :
    ∀ s ∈ directOnly settings count x values, s.Local x ∨ ∃ r, s = .stop r := by
  rw [directOnly_eq, Plan.steps]
  intro s hs
  rcases List.mem_append.mp hs with hs | hs
  · exact .inl (singleSteps_local _ s hs)
  · rcases List.mem_append.mp hs with hs | hs
    · obtain ⟨e, rfl⟩ := emit_of_mem_map hs
      exact .inl trivial
    · obtain ⟨r, -, rfl⟩ := Option.map_eq_some_iff.mp (Option.mem_toList.mp hs)
      exact .inr ⟨r, rfl⟩

theorem shapeSteps_local (settings : Settings) (count : Nat) (v : Variable) (constrained : Bool)
    (shape : Shape) : ∀ s ∈ shapeSteps settings count v constrained shape,
      s.Local v.name ∨ ∃ r, s = .stop r := by
  intro s hs
  cases shape with
  | unsatisfiable => exact .inl (by rw [List.mem_singleton.mp hs]; trivial)
  | constant =>
    simp only [shapeSteps] at hs
    split at hs
    · exact .inl (constant_local _ s hs)
    · simp at hs
  | boolean =>
    simp only [shapeSteps] at hs
    split at hs
    · exact .inl (boolean_local _ _ _ s hs)
    · simp at hs
  | hybrid => exact .inl (hybrid_local _ s hs)
  | direct => exact directOnly_local _ s hs
  | order => exact .inl (orderOnly_local _ s hs)

theorem domain_not_mem_shapeSteps {v : Variable} {constrained : Bool} {shape : Shape} {y : String}
    {d : Domain} : .domain y d ∉ shapeSteps settings count v constrained shape := by
  intro hd
  rcases shapeSteps_local settings count v constrained shape _ hd with h | ⟨r, h⟩
  · exact h
  · simp at h

theorem constant_fits (w : Word) : Fits x count (constant settings count x w) where
  inScope := by
    simp only [constant, Step.Scoped, clause, List.cons_append, emissions_emit, emissions_append,
      emissions_direct, List.nil_append]
    exact ⟨fun hlim => by simpa using known_next count hlim, trivial⟩
  localTo := constant_local w
  direct := by simp [constant]
  order := by simp [constant]

theorem boolean_fits {lower upper : Word} (hne : lower ≠ upper) (constrained : Bool) :
    Fits x count (boolean settings count x lower upper constrained) := by
  have hkeys : [Key.mk x upper, ⟨x, lower⟩].Nodup := by simpa using hne.symm
  exact {
    inScope := by
      cases constrained with
      | true => simp [boolean, Step.Scoped, Emission.Scoped]
      | false =>
        simp only [boolean, Step.Scoped, clause, List.cons_append, emissions_emit,
          emissions_append, emissions_direct, emissions_order, List.nil_append]
        refine ⟨fun hlim => ?_, trivial⟩
        simp [known_next count hlim, (known_next count hlim).neg]
    localTo := boolean_local lower upper constrained
    direct := by cases constrained <;> simpa [boolean] using hkeys
    order := by cases constrained <;> simpa [boolean] using hkeys }

theorem nodup_cons_dropLast {first : Word} {rest : List Word} (h : (first :: rest).Nodup) :
    (first :: rest.dropLast).Nodup :=
  h.sublist ((List.dropLast_sublist rest).cons_cons first)

theorem hybrid_fits {first : Word} {rest : List Word} (hnodup : (first :: rest).Nodup) :
    Fits x count (hybrid settings count x (first :: rest)) := by
  have hlocal := @hybrid_local settings x count (first :: rest)
  rw [hybrid_eq] at hlocal ⊢
  have hfirst : freshCount (firstTie settings x count first) = 1 := by simp [firstTie]
  obtain ⟨hsteps, hsingles⟩ :=
    @channelFrom_scoped settings x (count + 1) _ rest (inScope_next count)
  exact {
    inScope := by
      rw [scoped_append, scoped_append, hfirst, freshCount_append, hfirst, ← Nat.add_assoc]
      refine ⟨⟨?_, hsteps⟩, fun hlim => ?_, trivial⟩
      · simp [firstTie, Step.Scoped, Emission.Scoped]
      · refine Clause.known_cons.mpr ⟨?_, hsingles hlim⟩
        exact (inScope_next count).mono (Nat.le_add_right _ _) hlim _ List.mem_cons_self
    localTo := hlocal
    direct := by simpa [firstTie, channelFrom_keys] using nodup_keys (x := x) hnodup
    order := by
      simpa [firstTie, channelFrom_keys] using nodup_keys (x := x) (nodup_cons_dropLast hnodup) }

theorem orderOnly_fits {first : Word} {rest : List Word} (hnodup : (first :: rest).Nodup) :
    Fits x count (orderOnly settings count x (first :: rest)) := by
  have hlocal := @orderOnly_local settings x count (first :: rest)
  rw [orderOnly_eq] at hlocal ⊢
  have hfirst : freshCount (firstBound settings x count first) = 1 := by simp [firstBound]
  exact {
    inScope := by
      rw [scoped_append, hfirst]
      refine ⟨?_, boundsFrom_scoped (inScope_next count)⟩
      simp only [firstBound, Step.Scoped, List.cons_append, emissions_emit, emissions_append,
        emissions_order, List.nil_append]
      trivial
    localTo := hlocal
    direct := by simp [firstBound, boundsFrom_keys]
    order := by
      simpa [firstBound, boundsFrom_keys] using nodup_keys (x := x) (nodup_cons_dropLast hnodup) }

theorem singleSteps_keys (terms : List (Word × Literal)) :
    directKeys (singleSteps settings x terms) = (terms.map Prod.fst).map (Key.mk x) ∧
      orderKeys (singleSteps settings x terms) = [] := by
  induction terms with
  | nil => exact ⟨rfl, rfl⟩
  | cons term rest ih =>
    rw [singleSteps, List.flatMap_cons, ← singleSteps]
    simp [ih]

theorem Plan.keys_steps (plan : Plan) : directKeys plan.steps = [] ∧ orderKeys plan.steps = [] := by
  cases hstop : plan.stop <;> simp [Plan.steps, hstop, directKeys, orderKeys]

theorem map_fst_singleTerms (count : Nat) (values : List Word) :
    (singleTerms count values).map Prod.fst = values := by
  rw [singleTerms, List.map_fst_zip (by simp)]

theorem directOnly_fits (hvalid : settings.validate = .ok ())
    (hscheme : settings.scheme ∈ Scheme.all) {values : List Word} (hnodup : values.Nodup) :
    Fits x count (directOnly settings count x values) := by
  have hsized := Settings.sized_of_validate hvalid
  have hstop := Cardinality.encode_stop hsized hscheme (count + values.length) true
    (Emission.literalsFrom count values.length)
  have hscoped := Cardinality.encode_scoped hsized settings.scheme true
    (Emission.inScope_literalsFrom count values.length)
  rw [directOnly_eq]
  generalize Cardinality.encode settings settings.scheme (count + values.length) true
    (Emission.literalsFrom count values.length) = plan at hstop hscoped
  -- the scheme does not break off, so its plan has no step that stops
  have hsteps : plan.steps = plan.emissions.map Step.emit := by simp [Plan.steps, hstop]
  obtain ⟨hdirect, horder⟩ := @singleSteps_keys settings x (singleTerms count values)
  exact {
    inScope := by
      have hcount : freshCount (singleSteps settings x (singleTerms count values)) =
          values.length := by simp [freshCount]
      rw [scoped_append, hcount, Step.Scoped, Step.Scoped, emissions_singleSteps,
        Plan.emissions_steps]
      exact ⟨Emission.scoped_allocate _ _, hscoped⟩
    localTo := by
      rw [hsteps]
      refine List.forall_mem_append.mpr ⟨singleSteps_local _, fun s hs => ?_⟩
      obtain ⟨e, rfl⟩ := emit_of_mem_map hs
      trivial
    direct := by
      rw [directKeys_append, hdirect, map_fst_singleTerms, plan.keys_steps.1, List.append_nil]
      exact nodup_keys hnodup
    order := by
      rw [orderKeys_append, horder, plan.keys_steps.2]
      exact List.nodup_nil }

theorem shapeSteps_fits (hvalid : settings.validate = .ok ())
    (hscheme : settings.scheme ∈ Scheme.all) (v : Variable) (constrained : Bool)
    (needs : Representation) :
    Fits v.name count (shapeSteps settings count v constrained
      (Shape.choose settings v.domain.size needs)) := by
  have hnodup := v.domain.values_nodup
  -- the cases are those of the choice of a shape
  by_cases h0 : v.domain.size = 0
  · simp only [Shape.choose, h0, if_true, shapeSteps]
    refine ⟨⟨fun _ => ?_, trivial⟩, by simp [clause, Local], by simp, by simp⟩
    simp [Literal.known_never]
  by_cases h1 : v.domain.size = 1
  · obtain ⟨w, hb, -⟩ := Domain.values_of_size_one h1
    simp only [Shape.choose, h1, if_true, shapeSteps, hb]
    exact constant_fits w
  by_cases h2 : v.domain.size = 2
  · obtain ⟨lower, upper, hlt, hb, -⟩ := Domain.values_of_size_two h2
    simp only [Shape.choose, h2, if_true, shapeSteps, hb]
    refine boolean_fits ?_ constrained
    rintro rfl
    exact not_lt_self lower hlt
  obtain ⟨first, rest, hv, -⟩ := values_eq_cons (Domain.three_le_length h0 h1 h2)
  simp only [Shape.choose, h0, h1, h2, if_false]
  split_ifs with hboth hdirect
  · simp only [shapeSteps, hv] at hnodup ⊢
    exact hybrid_fits hnodup
  · exact directOnly_fits hvalid hscheme hnodup
  · simp only [shapeSteps, hv] at hnodup ⊢
    exact orderOnly_fits hnodup

theorem shapeSteps_inside (settings : Settings) (count : Nat) (v : Variable) (constrained : Bool)
    (needs : Representation) :
    directKeys (shapeSteps settings count v constrained
      (Shape.choose settings v.domain.size needs)) ⊆ v.domain.values.map (Key.mk v.name) ∧
    orderKeys (shapeSteps settings count v constrained
      (Shape.choose settings v.domain.size needs)) ⊆ v.domain.values.map (Key.mk v.name) := by
  by_cases h0 : v.domain.size = 0
  · simp [Shape.choose, h0, shapeSteps]
  by_cases h1 : v.domain.size = 1
  · obtain ⟨w, hb, hw⟩ := Domain.values_of_size_one h1
    simp [Shape.choose, h1, shapeSteps, hb, hw, constant]
  by_cases h2 : v.domain.size = 2
  · obtain ⟨lower, upper, -, hb, hvalues⟩ := Domain.values_of_size_two h2
    cases constrained <;> simp [Shape.choose, h2, shapeSteps, hb, hvalues, boolean]
  obtain ⟨first, rest, hv, -⟩ := values_eq_cons (Domain.three_le_length h0 h1 h2)
  have hbut : (rest.map (Key.mk v.name)).dropLast ⊆ ⟨v.name, first⟩ :: rest.map (Key.mk v.name) :=
    List.subset_cons_of_subset _ (List.dropLast_subset _)
  simp only [Shape.choose, h0, h1, h2, if_false]
  split_ifs with hboth hdirect
  · simp [shapeSteps, hv, hybrid_eq, firstTie, channelFrom_keys, hbut]
  · simp [shapeSteps, directOnly_eq, Plan.keys_steps, singleSteps_keys, map_fst_singleTerms]
  · simp [shapeSteps, hv, orderOnly_eq, firstBound, boundsFrom_keys, hbut]

/-- The steps of the shape that is chosen enter literals of the kinds that are needed, unless the
domain answers without them. -/
theorem shapeSteps_serves (settings : Settings) (count : Nat) (v : Variable) (constrained : Bool)
    (needs : Representation) (h0 : v.domain.size ≠ 0) :
    (needs.direct = true → ∃ w, ⟨v.name, w⟩ ∈ directKeys (shapeSteps settings count v constrained
      (Shape.choose settings v.domain.size needs))) ∧
    (needs.order = true → v.domain.size ≠ 1 → ∃ w, ⟨v.name, w⟩ ∈ orderKeys
      (shapeSteps settings count v constrained (Shape.choose settings v.domain.size needs))) := by
  by_cases h1 : v.domain.size = 1
  · obtain ⟨w, hb, -⟩ := Domain.values_of_size_one h1
    simp only [Shape.choose, h1, if_true, shapeSteps, hb]
    exact ⟨fun _ => ⟨w, by simp [constant]⟩, fun _ h => absurd rfl h⟩
  by_cases h2 : v.domain.size = 2
  · obtain ⟨lower, upper, -, hb, -⟩ := Domain.values_of_size_two h2
    simp only [Shape.choose, h2, if_true, shapeSteps, hb]
    exact ⟨fun _ => ⟨upper, by simp [boolean]⟩, fun _ _ => ⟨upper, by simp [boolean]⟩⟩
  obtain ⟨first, rest, hv, -⟩ := values_eq_cons (Domain.three_le_length h0 h1 h2)
  simp only [Shape.choose, h0, h1, h2, if_false]
  split_ifs with hboth hdirect
  · simp only [shapeSteps, hv, hybrid_eq]
    exact ⟨fun _ => ⟨first, by simp [firstTie]⟩, fun _ _ => ⟨first, by simp [firstTie]⟩⟩
  · -- with both kinds needed the shape would have been hybrid
    refine ⟨fun _ => ⟨first, ?_⟩, fun horder => ?_⟩
    · simp only [shapeSteps, hv, directOnly_eq, directKeys_append, singleSteps_keys,
        map_fst_singleTerms]
      simp
    · simp_all [Representation.has, Representation.both, Representation.directOnly]
  · refine ⟨fun hneed => ?_, fun _ _ => ⟨first, ?_⟩⟩
    · simp_all [Representation.has, Representation.both, Representation.directOnly]
    · simp only [shapeSteps, hv, orderOnly_eq]
      simp [firstBound]

end Fits

/-! ## Constraints -/

namespace Constraint

/-- A counting rule with a reifying variable, for which there is no encoding. -/
def CountsReified (c : Constraint) : Prop :=
  (c.rule = .atMostOne ∨ c.rule = .exactlyOne) ∧ c.reify.isSome = true

theorem rule_cases {c : Constraint} (h : c.validate = .ok ()) :
    (∃ test, c.rule = .relation (some test)) ∨ (∃ function, c.rule = .functional (some function)) ∨
    ((c.rule = .atMost ∨ c.rule = .atLeast) ∧ ∃ o, c.operands = [o]) ∨
    (c.rule = .atMostOne ∨ c.rule = .exactlyOne) ∨ c.rule = .disjunction := by
  unfold validate at h
  cases hrule : c.rule with
  | relation test => cases test <;> simp_all
  | functional function => cases function <;> simp_all
  | unknown tag => simp_all
  | atMost => simpa [hrule, List.length_eq_one_iff] using h
  | atLeast => simpa [hrule, List.length_eq_one_iff] using h
  | _ => simp

theorem mem_addNeed {table : Table String Representation} {name x : String}
    {r s : Representation} (h : (x, s) ∈ addNeed table name r) :
    x = name ∨ ∃ s', (x, s') ∈ table := by
  have hkey := List.mem_map_of_mem (f := Prod.fst) h
  rw [addNeed, Table.keys_set] at hkey
  split at hkey
  · obtain ⟨⟨y, s'⟩, hmem, rfl⟩ := List.mem_map.mp hkey
    exact .inr ⟨s', hmem⟩
  · rcases List.mem_append.mp hkey with hkey | hkey
    · obtain ⟨⟨y, s'⟩, hmem, rfl⟩ := List.mem_map.mp hkey
      exact .inr ⟨s', hmem⟩
    · exact .inl (List.mem_singleton.mp hkey)

theorem mem_foldl_addNeed {names : List String} {x : String} {r s : Representation}
    {table : Table String Representation}
    (h : (x, s) ∈ names.foldl (fun table name => addNeed table name r) table) :
    x ∈ names ∨ ∃ s', (x, s') ∈ table := by
  induction names generalizing table s with
  | nil => exact .inr ⟨s, h⟩
  | cons name rest ih =>
    rcases ih h with hx | ⟨s', hx⟩
    · exact .inl (List.mem_cons_of_mem _ hx)
    · rcases mem_addNeed hx with rfl | hx
      · exact .inl List.mem_cons_self
      · exact .inr hx

theorem mem_variableNames_of_needs {c : Constraint} {x : String} {r : Representation}
    (h : (x, r) ∈ c.needs) : x ∈ c.variableNames := by
  have hoperands : ∀ s, (x, s) ∈ c.operandNeeds → Operand.var x ∈ c.operands := by
    intro s hs
    have hx := (mem_foldl_addNeed hs).resolve_right (by simp)
    obtain ⟨o, ho, hname⟩ := List.mem_filterMap.mp hx
    cases o with
    | const w => simp [Operand.name?] at hname
    | var y => rwa [← Option.some_inj.mp hname]
  rw [needs_eq] at h
  rw [mem_variableNames]
  cases hr : c.reify with
  | none =>
    rw [hr] at h
    exact .inl (hoperands r h)
  | some y =>
    rw [hr] at h
    rcases mem_addNeed h with rfl | ⟨s, hs⟩
    · exact .inr rfl
    · exact .inl (hoperands s hs)

theorem needs_order {c : Constraint} {x : String} (hvalues : c.readsValues = false)
    (hoperands : c.operands = [.var x]) :
    ∃ r, c.needs.lookup x = some r ∧ r.order = true := by
  have hneeds : c.operandNeeds = [(x, .orderOnly)] := by
    rw [operandNeeds, hvalues, hoperands]
    rfl
  rw [needs_eq, hneeds]
  cases c.reify with
  | none => exact ⟨.orderOnly, by simp, rfl⟩
  | some y =>
    simp only [Option.elim, addNeed, Table.lookup_set]
    by_cases hyx : y = x
    · subst hyx
      exact ⟨Representation.orderOnly.union .directOnly, by simp, rfl⟩
    · exact ⟨.orderOnly, by simp [hyx], rfl⟩

end Constraint

namespace Encoding

section Plans

variable {settings : Settings} {catalog : Catalog} {m : Mapping} {T : List Step} {c : Constraint}

/-- The scheme in use is one of the two that are set. -/
theorem schemeFor_mem (hscheme : settings.scheme ∈ Scheme.all)
    (hfallback : settings.fallback ∈ Scheme.all) (eligible : Bool) :
    settings.schemeFor eligible ∈ Scheme.all := by
  unfold Settings.schemeFor
  split
  · exact hfallback
  · exact hscheme

theorem exists_orderOf (hR : Ready catalog m T) (hcheck : checkConstraint catalog m c = .ok ())
    (hvalues : c.readsValues = false) {o : Operand} (hoperands : c.operands = [o]) (w : Word) :
    ∃ l, orderOf m w o = .ok l := by
  cases o with
  | const u => exact ⟨_, rfl⟩
  | var x =>
    obtain ⟨r, hr, horder⟩ := Constraint.needs_order hvalues hoperands
    have hhas := (checkConstraint_eq_ok.mp hcheck).2.2 x r (Table.mem_of_lookup hr)
    simp only [Mapping.has, Representation.has, horder, Bool.not_true, Bool.or_false,
      Bool.and_eq_true] at hhas
    exact Mapping.exists_orderLiteral hR.lists hR.represented hhas.2 w

/-- The plan of a constraint comes to its end, unless it counts and is reified. -/
theorem constraintPlan_stop (hsettings : settings.validate = .ok ())
    (hscheme : settings.scheme ∈ Scheme.all) (hfallback : settings.fallback ∈ Scheme.all)
    (hR : Ready catalog m T) (hcheck : checkConstraint catalog m c = .ok ()) (hfed : c.Fed)
    (hcounts : ¬ c.CountsReified) (count : Nat) :
    (constraintPlan settings catalog m count c).stop = none := by
  obtain ⟨hvalid, -⟩ := checkConstraint_eq_ok.mp hcheck
  rcases Constraint.rule_cases hvalid with ⟨test, hrule⟩ | ⟨function, hrule⟩ |
    ⟨hrule, o, hoperands⟩ | hrule | hrule
  · have harity : ¬ c.operands.length < test.arity := Nat.not_lt.mpr (hfed test hrule)
    simp [constraintPlan, hrule, relationPlan, isStarved, harity, clausePlan]
  · simp [constraintPlan, hrule, clausePlan]
  · have hvalues : c.readsValues = false := by
      rcases hrule with hrule | hrule <;> simp [Constraint.readsValues, hrule]
    -- either bound asks for an order literal of the operand
    obtain ⟨l, hl⟩ := exists_orderOf hR hcheck hvalues hoperands c.threshold
    obtain ⟨k, hk⟩ := exists_orderOf hR hcheck hvalues hoperands (c.threshold - 1)
    rcases hrule with hrule | hrule
    · simp [constraintPlan, hrule, hoperands, hl, equivalentPlan, clausePlan]
    · simp only [constraintPlan, hrule, hoperands, hk, Except.map, equivalentPlan, clausePlan]
      split <;> rfl
  · have hreify : c.reify.isSome = false := Bool.eq_false_iff.mpr fun h => hcounts ⟨hrule, h⟩
    rcases hrule with hrule | hrule
    all_goals
      simp only [constraintPlan, hrule, hreify, Bool.false_eq_true, if_false]
      exact Cardinality.encode_stop (Settings.sized_of_validate hsettings)
        (schemeFor_mem hscheme hfallback _) _ _ _
  · simp [constraintPlan, hrule, clausePlan]

/-- A counting rule that is reified is refused before anything is written. -/
theorem constraintPlan_refuses (h : c.CountsReified) (count : Nat) :
    constraintPlan settings catalog m count c =
      { emissions := [], stop := some (.fault (.unsupported (.reified c.rule.text))) } := by
  obtain ⟨hrule | hrule, hreify⟩ := h
  · simp [constraintPlan, hrule, hreify]
  · simp [constraintPlan, hrule, hreify]

theorem equivalentPlan_scoped {count : Nat} {aux : Literal} {found : Except Misuse Literal}
    (haux : count < Literal.limit → aux.Known count)
    (hfound : count < Literal.limit → ∀ l, found = .ok l → l.Known count) :
    Emission.Scoped count (equivalentPlan aux found).emissions := by
  cases found with
  | error misuse => trivial
  | ok l => exact Emission.scoped_clauses fun hlim =>
      known_equivalent (haux hlim) (hfound hlim l rfl)

/-- The clauses of a constraint are in scope, whether or not it passes its checks. -/
theorem constraintPlan_scoped (hsettings : settings.validate = .ok ()) (catalog : Catalog)
    {count : Nat} (hm : count < Literal.limit → m.Known count) (c : Constraint) :
    Emission.Scoped count (constraintPlan settings catalog m count c).emissions := by
  have haux : count < Literal.limit → (auxOf m c).Known count :=
    fun hlim => auxOf_known (hm hlim) c
  have hones : InScope count (c.operands.map (directOf m 1)) :=
    fun hlim => known_map_directOf (hm hlim) 1 c.operands
  -- both counting rules are encoded alike
  have hcounting : ∀ e, Emission.Scoped count (if c.reify.isSome then
      ({ emissions := [], stop := some (.fault (.unsupported (.reified c.rule.text))) } : Plan)
      else Cardinality.encode settings (settings.schemeFor (isEligible catalog c)) count e
        (c.operands.map (directOf m 1))).emissions := by
    intro e
    split
    · trivial
    · exact Cardinality.encode_scoped (Settings.sized_of_validate hsettings) _ _ hones
  rw [auxOf] at haux
  unfold constraintPlan
  dsimp only
  split
  · unfold relationPlan
    split
    · trivial
    · exact Emission.scoped_clauses fun hlim => known_relationClauses (hm hlim) (haux hlim)
  · exact Emission.scoped_clauses fun hlim => known_functionClauses (hm hlim) (haux hlim)
  · exact equivalentPlan_scoped haux fun hlim l hl => orderOf_known (hm hlim) hl
  · split
    · exact Emission.scoped_clauses fun hlim =>
        known_equivalent (haux hlim) (Literal.known_always _)
    · next operand _ _ _ _ =>
      refine equivalentPlan_scoped haux fun hlim l hl => ?_
      cases hfound : orderOf m (c.threshold - 1) operand with
      | error misuse => simp [hfound, Except.map] at hl
      | ok l' =>
        rw [hfound] at hl
        obtain rfl := Except.ok.inj hl
        exact (orderOf_known (hm hlim) hfound).neg
  · exact hcounting _
  · exact hcounting _
  · exact Emission.scoped_clauses fun hlim => known_disjunction (haux hlim) (hones hlim)
  · trivial

end Plans

end Encoding

end Clausify
