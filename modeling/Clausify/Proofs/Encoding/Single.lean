import Mathlib
import Clausify.Proofs.Encoding.Stairs

/-!
The shapes without a staircase are blocks: no value at all, a single value on a literal that must
hold, two values on one variable, and single-value literals under a cardinality scheme that keeps
exactly one of them true.
-/

namespace Clausify

open Step Encoding

section Entries

variable {settings : Settings} {x : String} {w : Word} {l : Literal}

theorem mem_direct : Step.direct ⟨x, w⟩ l ∈ direct settings x w l := List.mem_cons_self

theorem mem_order : Step.order ⟨x, w⟩ l ∈ order settings x w l := List.mem_cons_self

theorem bound_not_mem_direct {t : OrderTable} {k : Key} {m : Literal} :
    Step.bound t k m ∉ direct settings x w l := by
  unfold Encoding.direct
  split <;> simp

theorem bound_not_mem_order {t : OrderTable} {k : Key} {m : Literal} :
    Step.bound t k m ∉ order settings x w l := by
  unfold Encoding.order
  split <;> simp

theorem direct_not_mem_order {k : Key} {m : Literal} :
    Step.direct k m ∉ order settings x w l := by
  unfold Encoding.order
  split <;> simp

theorem order_not_mem_direct {k : Key} {m : Literal} :
    Step.order k m ∉ direct settings x w l := by
  unfold Encoding.direct
  split <;> simp

end Entries

/-! ## No value, one value, two values -/

theorem unsatisfiable_block (x : String) (count : Nat) :
    Block x [] count [clause [.never]] where
  owned := by simp
  known := by simp [Literal.known_never]
  sound v hv := by simp at hv
  complete := by simp
  unique := by simp [clause, Step.freshCount, Emission.freshCount]
  decodes := by simp
  distinct := by simp [clause]
  direct := by simp
  order := by simp

section Constant

variable {settings : Settings} {x : String} {count : Nat} {w : Word}

theorem clausesOf_constant :
    clausesOf (constant settings count x w) = [[Literal.ofVariable (count + 1)]] := by
  simp [constant]

theorem freshCount_constant : freshCount (constant settings count x w) = 1 := by simp [constant]

theorem reads_constant {v : Valuation} {u : Word} :
    Reads (constant settings count x w) v (fun _ => u) ↔
      ((Literal.ofVariable (count + 1)).holds v = true ↔ u = w) := by
  simp [constant]

theorem mem_constant :
    Step.direct ⟨x, w⟩ (Literal.ofVariable (count + 1)) ∈ constant settings count x w := by
  simp [constant, mem_direct]

theorem constant_owned (hlim : count + 1 < Literal.limit) :
    ∀ s ∈ constant settings count x w, s.Owned x count (count + 1) := by
  simp only [constant, List.cons_append, List.forall_mem_cons, List.forall_mem_append, owned_emit,
    owned_clause, true_and]
  exact ⟨owned_direct (lt_var_next count hlim) (Literal.isConstant_ofVariable hlim)
    (known_next count hlim), by simp⟩

theorem constant_block (hlim : count + 1 < Literal.limit) :
    Block x [w] count (constant settings count x w) where
  owned := by
    rw [freshCount_constant]
    exact constant_owned hlim
  known := by
    rw [freshCount_constant, clausesOf_constant]
    simp [known_next count hlim]
  sound v hv := by
    refine ⟨w, List.mem_singleton_self w, reads_constant.mpr ?_⟩
    simpa [clausesOf_constant] using hv
  complete v u hu := by
    -- the one literal can be made true
    obtain ⟨t, ha, ht⟩ := v.exists_succ count true
    rw [← holds_next count hlim t] at ht
    refine ⟨t, ha, by simp [clausesOf_constant, ht], reads_constant.mpr ?_⟩
    simp [ht, List.mem_singleton.mp hu]
  unique v u y _ _ hv hu ha := by
    rw [reads_constant, holds_next count hlim] at hv hu
    rw [freshCount_constant]
    exact ha.succ (by rw [Bool.eq_iff_iff, hv, hu])
  decodes y hy := by
    rw [List.mem_singleton.mp hy]
    exact ⟨_, .inl mem_constant⟩
  distinct t k k' l h := by
    simp [constant, clause, bound_not_mem_direct] at h
  direct k l _ y hy := by
    rw [List.mem_singleton.mp hy]
    exact ⟨_, mem_constant⟩
  order k l h := by
    simp [constant, clause, order_not_mem_direct] at h

end Constant

section Boolean

variable {settings : Settings} {x : String} {count : Nat} {lower upper w : Word}
  {constrained : Bool} {v : Valuation}

theorem freshCount_boolean : freshCount (boolean settings count x lower upper constrained) = 1 := by
  cases constrained <;> simp [boolean]

theorem satisfies_boolean (hlim : count + 1 < Literal.limit) (v : Valuation) :
    v.Satisfies (clausesOf (boolean settings count x lower upper constrained)) := by
  have hk := known_next count hlim
  cases constrained with
  | true => simp [boolean]
  | false =>
    cases h : (Literal.ofVariable (count + 1)).holds v <;> simp [boolean, h, hk.holds_neg]

theorem holds_of_reads_boolean
    (h : Reads (boolean settings count x lower upper constrained) v fun _ => w) :
    (Literal.ofVariable (count + 1)).holds v = true ↔ w = upper :=
  h _ (by simp [boolean, mem_direct] : Step.direct ⟨x, upper⟩ (Literal.ofVariable (count + 1)) ∈ _)

theorem reads_boolean (hlt : lower < upper) (hlim : count + 1 < Literal.limit)
    (hw : w ∈ [lower, upper]) (h : (Literal.ofVariable (count + 1)).holds v = decide (w = upper)) :
    Reads (boolean settings count x lower upper constrained) v fun _ => w := by
  have hk := known_next count hlim
  have hne : lower ≠ upper := by
    rintro rfl
    exact not_lt_self lower hlt
  rcases List.mem_pair.mp hw with rfl | rfl
  · cases constrained <;> simp [boolean, hk.holds_neg, h, hne, Int64.le_of_lt hlt]
  · cases constrained <;> simp [boolean, hk.holds_neg, h, hne.symm, hlt]

theorem boolean_direct (hw : w ∈ [lower, upper]) :
    ∃ l, Step.direct ⟨x, w⟩ l ∈ boolean settings count x lower upper constrained := by
  rcases List.mem_pair.mp hw with rfl | rfl
  · exact ⟨-Literal.ofVariable (count + 1), by simp [boolean, mem_direct]⟩
  · exact ⟨Literal.ofVariable (count + 1), by simp [boolean, mem_direct]⟩

theorem boolean_owned (hlim : count + 1 < Literal.limit) :
    ∀ s ∈ boolean settings count x lower upper constrained, s.Owned x count (count + 1) := by
  have hk := known_next count hlim
  simp only [boolean, List.cons_append, List.append_assoc, List.forall_mem_cons,
    List.forall_mem_append, owned_emit, true_and]
  refine ⟨owned_direct (lt_var_next count hlim) (Literal.isConstant_ofVariable hlim) hk,
    owned_direct ?_ ?_ hk.neg, owned_order (Literal.known_always _), owned_order hk.neg, ?_⟩
  · rw [Literal.var_neg]
    exact lt_var_next count hlim
  · rw [Literal.isConstant_neg]
    exact Literal.isConstant_ofVariable hlim
  · cases constrained <;> simp

theorem boolean_block (hlt : lower < upper) (hlim : count + 1 < Literal.limit) :
    Block x [lower, upper] count (boolean settings count x lower upper constrained) where
  owned := by
    rw [freshCount_boolean]
    exact boolean_owned hlim
  known := by
    have hk := known_next count hlim
    rw [freshCount_boolean]
    cases constrained <;> simp [boolean, hk, hk.neg]
  sound v _ := by
    -- one variable for two values: it holds at the upper and fails at the lower one
    cases h : (Literal.ofVariable (count + 1)).holds v with
    | true => exact ⟨upper, by simp, reads_boolean hlt hlim (by simp) (by simp [h])⟩
    | false =>
      refine ⟨lower, by simp, reads_boolean hlt hlim (by simp) ?_⟩
      rw [h, eq_comm, decide_eq_false_iff_not]
      rintro rfl
      exact not_lt_self lower hlt
  complete v w hw := by
    obtain ⟨u, ha, hu⟩ := v.exists_succ count (decide (w = upper))
    rw [← holds_next count hlim u] at hu
    exact ⟨u, ha, satisfies_boolean hlim u, reads_boolean hlt hlim hw hu⟩
  unique v u w _ _ hv hu ha := by
    have hv := holds_of_reads_boolean hv
    have hu := holds_of_reads_boolean hu
    rw [holds_next count hlim] at hv hu
    rw [freshCount_boolean]
    exact ha.succ (by rw [Bool.eq_iff_iff, hv, hu])
  decodes w hw := by
    obtain ⟨l, hl⟩ := boolean_direct hw
    exact ⟨l, .inl hl⟩
  distinct t k k' l h := by
    cases constrained <;> simp [boolean, clause, bound_not_mem_direct, bound_not_mem_order] at h
  direct _ _ _ _ hw := boolean_direct hw
  order k l _ w hw _ := by
    rcases List.mem_pair.mp hw with rfl | rfl
    · exact ⟨-Literal.ofVariable (count + 1), by simp [boolean, mem_order]⟩
    · exact ⟨.always, by simp [boolean, mem_order]⟩

end Boolean

/-! ## Single-value literals alone -/

/-- The steps that allocate the literals of single values. -/
def singleSteps (settings : Settings) (x : String) (terms : List (Word × Literal)) : List Step :=
  terms.flatMap fun (value, literal) => .emit .fresh :: direct settings x value literal

section Single

variable {settings : Settings} {x : String} {terms : List (Word × Literal)}

@[simp] theorem emissions_singleSteps :
    emissions (singleSteps settings x terms) = Emission.allocate terms.length := by
  induction terms with
  | nil => rfl
  | cons term rest ih =>
    rw [singleSteps, List.flatMap_cons, emissions_append, ← singleSteps, ih, emissions_emit,
      emissions_direct]
    rfl

theorem reads_singleSteps {v : Valuation} {w : Word} :
    Reads (singleSteps settings x terms) v (fun _ => w) ↔
      ∀ t ∈ terms, (t.2.holds v = true ↔ w = t.1) := by
  induction terms with
  | nil => simp [singleSteps]
  | cons term rest ih =>
    rw [singleSteps, List.flatMap_cons, reads_append, ← singleSteps, ih, List.forall_mem_cons,
      reads_emit, reads_direct]

theorem mem_singleSteps {t : Word × Literal} (h : t ∈ terms) :
    Step.direct ⟨x, t.1⟩ t.2 ∈ singleSteps settings x terms :=
  List.mem_flatMap.mpr ⟨t, h, List.mem_cons_of_mem _ mem_direct⟩

theorem of_mem_singleSteps {s : Step} (h : s ∈ singleSteps settings x terms) :
    s = .emit .fresh ∨ ∃ t ∈ terms, s ∈ direct settings x t.1 t.2 := by
  obtain ⟨t, ht, hs⟩ := List.mem_flatMap.mp h
  rcases List.mem_cons.mp hs with rfl | hs
  · exact .inl rfl
  · exact .inr ⟨t, ht, hs⟩

end Single

/-- The values with the literals of the variables that follow `count`. -/
def singleTerms (count : Nat) (values : List Word) : List (Word × Literal) :=
  values.zip (Emission.literalsFrom count values.length)

@[simp] theorem length_singleTerms (count : Nat) (values : List Word) :
    (singleTerms count values).length = values.length := by simp [singleTerms]

theorem mem_singleTerms {count : Nat} {values : List Word} {t : Word × Literal} :
    t ∈ singleTerms count values ↔
      ∃ i, ∃ h : i < values.length, t = (values[i], Literal.ofVariable (count + i + 1)) := by
  rw [List.mem_iff_getElem]
  constructor
  · rintro ⟨i, h, rfl⟩
    exact ⟨i, by simpa using h, by simp [singleTerms]⟩
  · rintro ⟨i, h, rfl⟩
    exact ⟨i, by simpa using h, by simp [singleTerms]⟩

theorem Plan.emissions_steps (plan : Plan) : Step.emissions plan.steps = plan.emissions := by
  rw [Plan.steps, Step.emissions_append, Step.emissions_map_emit]
  cases plan.stop with
  | none => simp
  | some stop => simp [Step.emissions, Step.emission?]

theorem Plan.steps_of_no_stop {plan : Plan} (h : ∀ r, Step.stop r ∉ plan.steps) :
    plan.stop = none ∧ plan.steps = plan.emissions.map Step.emit := by
  cases hs : plan.stop with
  | none => simp [Plan.steps, hs]
  | some stop => exact absurd (by simp [Plan.steps, hs]) (h stop)

theorem emit_of_mem_map {es : List Emission} {s : Step} (h : s ∈ es.map Step.emit) :
    ∃ e, s = .emit e := by
  obtain ⟨e, -, rfl⟩ := List.mem_map.mp h
  exact ⟨e, rfl⟩

theorem directOnly_eq (settings : Settings) (count : Nat) (x : String) (values : List Word) :
    directOnly settings count x values = singleSteps settings x (singleTerms count values) ++
      (Cardinality.encode settings settings.scheme (count + values.length) true
        (Emission.literalsFrom count values.length)).steps := rfl

theorem meets_of_reads {count : Nat} {values : List Word} {v : Valuation} {w : Word}
    (hlim : count + values.length < Literal.limit) (hnodup : values.Nodup) (hw : w ∈ values)
    (h : ∀ i, (hi : i < values.length) → (v (count + i + 1) = true ↔ w = values[i])) :
    Cardinality.Meets true (Emission.literalsFrom count values.length) v := by
  obtain ⟨j, hj, rfl⟩ := List.getElem_of_mem hw
  constructor
  · rw [Cardinality.trues_literalsFrom_le_one_iff hlim]
    intro i k hi hk hvi hvk
    rw [h i hi, hnodup.getElem_inj_iff] at hvi
    rw [h k hk, hnodup.getElem_inj_iff] at hvk
    omega
  · intro _
    rw [Cardinality.trues_pos_iff]
    refine ⟨_, Emission.mem_literalsFrom.mpr ⟨j, hj, rfl⟩, ?_⟩
    rw [Literal.holds_ofVariable (by omega) (by omega)]
    exact (h j hj).mpr rfl

theorem reads_of_meets {count : Nat} {values : List Word} {v : Valuation}
    (hlim : count + values.length < Literal.limit) (hnodup : values.Nodup)
    (h : Cardinality.Meets true (Emission.literalsFrom count values.length) v) :
    ∃ w ∈ values, ∀ i, (hi : i < values.length) →
      (v (count + i + 1) = true ↔ w = values[i]) := by
  obtain ⟨hle, hge⟩ := h
  obtain ⟨l, hl, hlv⟩ := Cardinality.trues_pos_iff.mp (hge rfl)
  obtain ⟨j, hj, rfl⟩ := Emission.mem_literalsFrom.mp hl
  rw [Literal.holds_ofVariable (by omega) (by omega)] at hlv
  rw [Cardinality.trues_literalsFrom_le_one_iff hlim] at hle
  refine ⟨values[j], List.getElem_mem hj, fun i hi => ?_⟩
  rw [hnodup.getElem_inj_iff]
  constructor
  · intro hvi
    exact hle j i hj hi hlv hvi
  · rintro rfl
    exact hlv

theorem reads_singleTerms {settings : Settings} {x : String} {count : Nat} {values : List Word}
    {v : Valuation} {w : Word} (hlim : count + values.length < Literal.limit) :
    Reads (singleSteps settings x (singleTerms count values)) v (fun _ => w) ↔
      ∀ i, (hi : i < values.length) → (v (count + i + 1) = true ↔ w = values[i]) := by
  rw [reads_singleSteps]
  constructor
  · intro h i hi
    have := h _ (mem_singleTerms.mpr ⟨i, hi, rfl⟩)
    rwa [Literal.holds_ofVariable (by omega) (by omega)] at this
  · intro h t ht
    obtain ⟨i, hi, rfl⟩ := mem_singleTerms.mp ht
    rw [Literal.holds_ofVariable (by omega) (by omega)]
    exact h i hi

theorem singleTerms_owned {settings : Settings} {x : String} {count n : Nat} {values : List Word}
    (hlim : count + values.length < Literal.limit) (hn : count + values.length ≤ n) :
    ∀ s ∈ singleSteps settings x (singleTerms count values), s.Owned x count n := by
  intro s hs
  rcases of_mem_singleSteps hs with rfl | ⟨t, ht, hs⟩
  · trivial
  · obtain ⟨i, hi, rfl⟩ := mem_singleTerms.mp ht
    have hi' : count + i + 1 < Literal.limit := by omega
    refine owned_direct ?_ (Literal.isConstant_ofVariable hi') ?_ s hs
    · rw [Literal.var_ofVariable hi']
      omega
    · exact Literal.known_ofVariable (by omega) (by omega) hi'

theorem exists_single_valuation (v : Valuation) (count : Nat) (values : List Word) (w : Word) :
    ∃ b : Valuation, v.Agree count b ∧
      ∀ i, (hi : i < values.length) → (b (count + i + 1) = true ↔ w = values[i]) := by
  obtain ⟨b, ha, hb⟩ := v.exists_extend count fun i => decide (values[i]? = some w)
  refine ⟨b, ha, ?_⟩
  intro i hi
  rw [hb, decide_eq_true_eq, List.getElem?_eq_getElem hi, Option.some_inj, eq_comm]

theorem agree_of_single_valuation {count : Nat} {values : List Word} {v u : Valuation} {w : Word}
    (ha : v.Agree count u)
    (hv : ∀ i, (hi : i < values.length) → (v (count + i + 1) = true ↔ w = values[i]))
    (hu : ∀ i, (hi : i < values.length) → (u (count + i + 1) = true ↔ w = values[i])) :
    v.Agree (count + values.length) u := by
  apply ha.add
  intro i hi
  rw [Bool.eq_iff_iff, hv i hi, hu i hi]

/-! ### The literals and the scheme over them -/

section Scheme

variable {settings : Settings} {x : String} {count : Nat} {values : List Word}
  {es : List Emission}

theorem entry_of_mem_directOnly {terms : List (Word × Literal)} {s : Step}
    (h : s ∈ singleSteps settings x terms ++ es.map Step.emit) :
    (∃ e, s = .emit e) ∨ ∃ w l, s ∈ direct settings x w l := by
  rcases List.mem_append.mp h with h | h
  · rcases of_mem_singleSteps h with rfl | ⟨t, -, h⟩
    · exact .inl ⟨_, rfl⟩
    · exact .inr ⟨t.1, t.2, h⟩
  · exact .inl (emit_of_mem_map h)

theorem clausesOf_singles :
    clausesOf (singleSteps settings x (singleTerms count values) ++ es.map Step.emit) =
      Emission.clausesOf es := by
  simp [clausesOf]

theorem freshCount_singles :
    freshCount (singleSteps settings x (singleTerms count values) ++ es.map Step.emit) =
      values.length + Emission.freshCount es := by
  simp [freshCount]

theorem reads_singles {v : Valuation} {w : Word} (hn : count + values.length < Literal.limit) :
    Reads (singleSteps settings x (singleTerms count values) ++ es.map Step.emit) v (fun _ => w) ↔
      ∀ i, (hi : i < values.length) → (v (count + i + 1) = true ↔ w = values[i]) := by
  rw [reads_append, reads_singleTerms hn, and_iff_left reads_emissions]

theorem direct_mem_singles {w : Word} (hw : w ∈ values) :
    ∃ l, Step.direct ⟨x, w⟩ l ∈
      singleSteps settings x (singleTerms count values) ++ es.map Step.emit := by
  obtain ⟨i, hi, rfl⟩ := List.getElem_of_mem hw
  exact ⟨_, List.mem_append_left _ (mem_singleSteps (mem_singleTerms.mpr ⟨i, hi, rfl⟩))⟩

/-- Single-value literals form a block with anything that keeps exactly one of them true and settles
what it allocates. -/
theorem singles_block (hnodup : values.Nodup) (hn : count + values.length < Literal.limit)
    (hasserts : Emission.Asserts (count + values.length) es
      (Cardinality.Meets true (Emission.literalsFrom count values.length)))
    (hfixes : Emission.Fixes (count + values.length) es fun _ => True) :
    Block x values count
      (singleSteps settings x (singleTerms count values) ++ es.map Step.emit) where
  owned := by
    rw [freshCount_singles, List.forall_mem_append]
    refine ⟨singleTerms_owned hn (by omega), fun s hs => ?_⟩
    obtain ⟨e, rfl⟩ := emit_of_mem_map hs
    trivial
  known := by
    rw [clausesOf_singles, freshCount_singles, ← Nat.add_assoc]
    exact hasserts.known
  sound v hv := by
    rw [clausesOf_singles] at hv
    obtain ⟨w, hw, h⟩ := reads_of_meets hn hnodup (hasserts.sound v hv)
    exact ⟨w, hw, (reads_singles hn).mpr h⟩
  complete v w hw := by
    -- the literals are set for the value, then what the scheme allocates
    obtain ⟨b, hvb, hb⟩ := exists_single_valuation v count values w
    obtain ⟨u, ha, hu⟩ := hasserts.complete b (meets_of_reads hn hnodup hw hb)
    refine ⟨u, hvb.trans (ha.mono (Nat.le_add_right _ _)), by rwa [clausesOf_singles],
      (reads_singles hn).mpr fun i hi => ?_⟩
    rw [← ha _ (by omega) (by omega)]
    exact hb i hi
  unique v u w hv hu hrv hru ha := by
    rw [clausesOf_singles] at hv hu
    rw [reads_singles hn] at hrv hru
    rw [freshCount_singles, ← Nat.add_assoc]
    exact hfixes v u trivial hv hu (agree_of_single_valuation ha hrv hru)
  decodes w hw := by
    obtain ⟨l, hl⟩ := direct_mem_singles hw
    exact ⟨l, .inl hl⟩
  distinct t k k' l h := by
    rcases entry_of_mem_directOnly h with ⟨e, he⟩ | ⟨w, m, hdirect⟩
    · simp at he
    · exact absurd hdirect bound_not_mem_direct
  direct _ _ _ _ hw := direct_mem_singles hw
  order k l h := by
    rcases entry_of_mem_directOnly h with ⟨e, he⟩ | ⟨w, m, hdirect⟩
    · simp at he
    · exact absurd hdirect order_not_mem_direct

theorem directOnly_block (hnodup : values.Nodup)
    (hstop : ∀ r, Step.stop r ∉ directOnly settings count x values)
    (hlim : count + freshCount (directOnly settings count x values) < Literal.limit) :
    Block x values count (directOnly settings count x values) := by
  rw [directOnly_eq] at hstop hlim ⊢
  obtain ⟨hnone, hsteps⟩ :=
    Plan.steps_of_no_stop fun r hr => hstop r (List.mem_append_right _ hr)
  rw [hsteps] at hlim ⊢
  rw [freshCount_singles, ← Nat.add_assoc] at hlim
  have hn : count + values.length < Literal.limit := by omega
  have hliterals := Emission.known_literalsFrom hn
  apply singles_block hnodup hn
  · exact Cardinality.encode_asserts hliterals hnone hlim
  · exact Cardinality.encode_fixes hliterals (.inl rfl) hnone hlim

end Scheme

end Clausify
