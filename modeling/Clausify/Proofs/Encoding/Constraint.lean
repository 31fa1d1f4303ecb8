import Mathlib
import Clausify.Proofs.Table
import Clausify.Proofs.Relation.Check
import Clausify.Proofs.Encoding.Clauses
import Clausify.Proofs.Encoding.Listing
import Clausify.Proofs.Encoding.Faithful

/-!
The clauses of a constraint tell it. Over represented variables a literal looked up in the mapping
means what it is looked up for (`holds_directLiteral`, `orderLiteral_ok`), so the terms of an
operand speak of its value. Main statements: the plan of a constraint that passes its checks, when
it comes to its end, says of the values that are read exactly that the constraint holds
(`constraintPlan_tells`), for every rule, reified or not; and then the rule is true or false of
these values, so the constraint can be checked on them (`constraintSteps_tells`).
-/

namespace Clausify

open Step

namespace Mapping

variable {m : Mapping} {T : List Step} {n : Nat} {x : String} {w : Word} {l : Literal}
  {v : Valuation} {a : String → Word}

/-- The literals that can be looked up are known. -/
structure Known (n : Nat) (m : Mapping) : Prop where
  direct : ∀ (k : Key) (l : Literal), m.direct[k]? = some l → l.Known n
  order : ∀ (k : Key) (l : Literal), m.order[k]? = some l → l.Known n

theorem Known.mono {n' : Nat} (h : m.Known n) (hn : n ≤ n') : m.Known n' :=
  ⟨fun k l hl => (h.direct k l hl).mono hn, fun k l hl => (h.order k l hl).mono hn⟩

theorem Lists.known (hm : m.Lists T) (hT : Represented T) : m.Known (freshCount T) :=
  ⟨fun k l hl => (hT.known k l (.inl ((hm.direct k l).mp hl))).2,
    fun k l hl => hT.knownOrder k l ((hm.order k l).mp hl)⟩

theorem directLiteral_known (hm : m.Known n) (x : String) (w : Word) :
    (m.directLiteral x w).Known n := by
  rw [directLiteral]
  cases h : m.direct[(⟨x, w⟩ : Key)]? with
  | none => exact Literal.known_never _
  | some l => exact hm.direct _ l h

theorem orderLiteral_known (hm : m.Known n) (h : m.orderLiteral x w = .ok l) : l.Known n := by
  simp only [orderLiteral] at h
  split at h
  · next l' hl' =>
    obtain rfl := Except.ok.inj h
    exact hm.order _ _ hl'
  split at h
  · simp at h
  split at h
  · obtain rfl := Except.ok.inj h
    exact Literal.known_never _
  split_ifs at h
  · obtain rfl := Except.ok.inj h
    exact Literal.known_never _
  · obtain rfl := Except.ok.inj h
    exact Literal.known_always _
  split at h
  · next l' hl' =>
    obtain rfl := Except.ok.inj h
    exact hm.order _ _ hl'
  · simp at h

theorem exists_direct (hm : m.Lists T) (hT : Represented T)
    (hx : (m.representation x).direct = true) :
    ∃ d, .domain x d ∈ T ∧ ∀ w ∈ d, ∃ l, m.direct[(⟨x, w⟩ : Key)]? = some l := by
  rcases hm.hasDirect x hx with ⟨k, l, rfl, hk⟩ | ⟨d, hd, h0⟩
  · obtain ⟨d, hd⟩ := hT.mapped k l (.inl (.inl hk))
    refine ⟨d, hd, fun w hw => ?_⟩
    obtain ⟨l', hl'⟩ := hT.direct _ d hd k l rfl hk w hw
    exact ⟨l', (hm.direct _ l').mpr hl'⟩
  · refine ⟨d, hd, fun w hw => ?_⟩
    rw [← Domain.mem_values, Domain.values_of_size_zero h0] at hw
    simp at hw

/-- The single-value literal of a variable that has such literals holds at the value that is read
off its own literals. -/
theorem holds_directLiteral_at {u : Word} (hm : m.Lists T) (hT : Represented T)
    (hx : (m.representation x).direct = true) (hr : ReadsAt T v x u)
    (hu : ∀ d, .domain x d ∈ T → u ∈ d) : (m.directLiteral x w).holds v = true ↔ u = w := by
  rw [directLiteral]
  cases h : m.direct[(⟨x, w⟩ : Key)]? with
  | some l => exact hr _ ((hm.direct _ l).mp h) rfl
  | none =>
    have hne : u ≠ w := by
      rintro rfl
      obtain ⟨d, hd, hentry⟩ := exists_direct hm hT hx
      obtain ⟨l, hl⟩ := hentry _ (hu d hd)
      simp [hl] at h
    simp [hne]

theorem holds_directLiteral (hm : m.Lists T) (hT : Represented T)
    (hx : (m.representation x).direct = true) (hr : Reads T v a) (ha : InDomains T a) :
    (m.directLiteral x w).holds v = true ↔ a x = w :=
  holds_directLiteral_at hm hT hx (hr.at x) (ha x)

/-- An order literal that is found holds at the values up to the one asked for, also in gaps and
beyond the bounds of the domain. -/
theorem holds_orderLiteral_at {u : Word} (hm : m.Lists T) (h : m.orderLiteral x w = .ok l)
    (hr : ReadsAt T v x u) (hu : ∀ d, .domain x d ∈ T → u ∈ d) : l.holds v = true ↔ u ≤ w := by
  simp only [orderLiteral] at h
  split at h
  · next l' hl' =>
    obtain rfl := Except.ok.inj h
    exact hr _ ((hm.order _ l').mp hl') rfl
  · split at h
    · simp at h
    next d hd =>
    have hmem := hu d ((hm.domains x d).mp hd)
    split at h
    -- an empty domain has no value to be read
    · next hb =>
      obtain rfl := Except.ok.inj h
      rw [← Domain.mem_values, Domain.bounds?_eq_none.mp hb] at hmem
      simp at hmem
    · next lower upper hb =>
      obtain ⟨hlower, -, hall⟩ := Domain.bounds?_spec hb
      obtain ⟨hleast, hgreatest⟩ := hall _ hmem
      split_ifs at h with hlow hup
      · obtain rfl := Except.ok.inj h
        rw [Int64.lt_iff_toInt_lt] at hlow
        rw [Int64.le_iff_toInt_le] at hleast
        simp only [Literal.holds_never, Bool.false_eq_true, false_iff, Int64.le_iff_toInt_le]
        omega
      · obtain rfl := Except.ok.inj h
        simpa using Int64.le_trans hgreatest hup
      -- between the bounds, no value lies above the floor and up to `w`
      · obtain ⟨f, hf, -, hfw, hfloor⟩ := Domain.floor?_spec hlower (Int64.not_lt.mp hlow)
        rw [hf, Option.getD_some] at h
        split at h
        · next l' hl' =>
          obtain rfl := Except.ok.inj h
          have hentry := (hm.order _ l').mp hl'
          exact (hr _ hentry rfl).trans ⟨fun hle => Int64.le_trans hle hfw, hfloor _ hmem⟩
        · simp at h

theorem orderLiteral_ok (hm : m.Lists T) (hT : Represented T) (h : m.orderLiteral x w = .ok l) :
    l.Known (freshCount T) ∧
      ∀ v a, Reads T v a → InDomains T a → (l.holds v = true ↔ a x ≤ w) :=
  ⟨orderLiteral_known (hm.known hT) h,
    fun _ _ hr ha => holds_orderLiteral_at hm h (hr.at x) (ha x)⟩

theorem exists_orderLiteral (hm : m.Lists T) (hT : Represented T)
    (hx : (m.representation x).order = true) (w : Word) : ∃ l, m.orderLiteral x w = .ok l := by
  -- either all values below the largest have entries, or nothing lies between the bounds
  obtain ⟨d, hd, hentry⟩ : ∃ d, .domain x d ∈ T ∧
      ∀ lower upper, d.bounds? = some (lower, upper) → ∀ f ∈ d, lower ≤ w → w < upper → f ≤ w →
        ∃ l, .order ⟨x, f⟩ l ∈ T := by
    rcases hm.hasOrder x hx with ⟨k, l, rfl, hk⟩ | ⟨d, hd, hsize⟩
    · obtain ⟨d, hd⟩ := hT.mapped k l (.inr hk)
      refine ⟨d, hd, fun lower upper hb f hf _ hup hfw => ?_⟩
      refine hT.order _ d hd k l rfl hk f hf ⟨upper, (Domain.bounds?_spec hb).2.1, ?_⟩
      exact Int64.lt_of_le_of_lt hfw hup
    · refine ⟨d, hd, fun lower upper hb f hf hlow hup _ => ?_⟩
      have hequal : lower = upper := by
        rcases hsize with h0 | h1
        · rw [Domain.bounds?_eq_none.mpr (Domain.values_of_size_zero h0)] at hb
          simp at hb
        · obtain ⟨u, hu, -⟩ := Domain.values_of_size_one h1
          rw [hu] at hb
          obtain ⟨rfl, rfl⟩ := Prod.mk.inj (Option.some_inj.mp hb)
          rfl
      rw [hequal] at hlow
      exact absurd hup (Int64.not_lt.mpr hlow)
  unfold orderLiteral
  split
  · exact ⟨_, rfl⟩
  · rw [(hm.domains x d).mpr hd]
    dsimp only
    split
    · exact ⟨_, rfl⟩
    · next lower upper hb =>
      split_ifs with hlow hup
      · exact ⟨_, rfl⟩
      · exact ⟨_, rfl⟩
      · obtain ⟨f, hf, hfd, hfw, -⟩ :=
          Domain.floor?_spec (Domain.bounds?_spec hb).1 (Int64.not_lt.mp hlow)
        obtain ⟨l, hl⟩ := hentry lower upper hb f hfd (Int64.not_lt.mp hlow)
          (Int64.not_le.mp hup) hfw
        rw [hf, Option.getD_some, (hm.order _ l).mpr hl]
        exact ⟨_, rfl⟩

end Mapping

/-! ## What a constraint asks for -/

namespace Constraint

def addNeed (table : Table String Representation) (name : String) (r : Representation) :
    Table String Representation :=
  Table.set name (((table.lookup name).getD {}).union r) table

/-- The table has single-value literals among the needs of a variable. -/
def NeedsDirect (table : Table String Representation) (x : String) : Prop :=
  ∃ r, table.lookup x = some r ∧ r.direct = true

theorem needsDirect_addNeed {table : Table String Representation} {x y : String}
    {r : Representation} (h : NeedsDirect table x ∨ (x = y ∧ r.direct = true)) :
    NeedsDirect (addNeed table y r) x := by
  by_cases hxy : y = x
  · subst hxy
    refine ⟨_, by rw [addNeed, Table.lookup_set, if_pos rfl], ?_⟩
    rcases h with ⟨s, hs, hd⟩ | ⟨-, hd⟩
    · simp [Representation.union, hs, hd]
    · simp [Representation.union, hd]
  · rcases h with ⟨s, hs, hd⟩ | ⟨heq, -⟩
    · exact ⟨s, by rw [addNeed, Table.lookup_set, if_neg hxy, hs], hd⟩
    · exact absurd heq.symm hxy

theorem needsDirect_foldl {names : List String} {x : String} {r : Representation}
    {table : Table String Representation} (hr : r.direct = true)
    (h : NeedsDirect table x ∨ x ∈ names) :
    NeedsDirect (names.foldl (fun table name => addNeed table name r) table) x := by
  induction names generalizing table with
  | nil => simpa using h
  | cons name rest ih =>
    rw [List.foldl_cons]
    refine ih ?_
    rcases h with h | h
    · exact .inl (needsDirect_addNeed (.inl h))
    · rcases List.mem_cons.mp h with rfl | h
      · exact .inl (needsDirect_addNeed (.inr ⟨rfl, hr⟩))
      · exact .inr h

/-- Whether the rule reads single-value literals of its operands. -/
def readsValues (c : Constraint) : Bool :=
  match c.rule with
  | .atMost | .atLeast => false
  | _ => true

def operandNeeds (c : Constraint) : Table String Representation :=
  (c.operands.filterMap Operand.name?).foldl (fun table name => addNeed table name
    (if c.readsValues then .directOnly else .orderOnly)) []

theorem needs_eq (c : Constraint) : c.needs =
    c.reify.elim c.operandNeeds fun name => addNeed c.operandNeeds name .directOnly := by
  unfold needs operandNeeds readsValues
  cases c.reify <;> cases c.rule <;> rfl

theorem needs_direct {c : Constraint} {x : String}
    (h : (c.readsValues = true ∧ Operand.var x ∈ c.operands) ∨ c.reify = some x) :
    NeedsDirect c.needs x := by
  have hdirect : c.readsValues = true → Operand.var x ∈ c.operands →
      NeedsDirect c.operandNeeds x := by
    intro hv hx
    rw [operandNeeds, hv]
    exact needsDirect_foldl rfl (.inr (List.mem_filterMap.mpr ⟨_, hx, rfl⟩))
  rw [needs_eq]
  cases hr : c.reify with
  | none =>
    rcases h with h | h
    · exact hdirect h.1 h.2
    · simp [hr] at h
  | some y =>
    rcases h with h | h
    · exact needsDirect_addNeed (.inl (hdirect h.1 h.2))
    · rw [hr, Option.some_inj] at h
      exact needsDirect_addNeed (.inr ⟨h.symm, rfl⟩)

end Constraint

namespace Encoding

/-- The mapping lists steps that represent every variable of the catalog. -/
structure Ready (catalog : Catalog) (m : Mapping) (T : List Step) : Prop where
  lists : m.Lists T
  represented : Represented T
  declared : ∀ x, catalog.isKnown x = true → ∃ d, catalog.domain? x = some d ∧ .domain x d ∈ T

theorem Ready.known {catalog : Catalog} {m : Mapping} {T : List Step}
    (hR : Ready catalog m T) : m.Known (freshCount T) := hR.lists.known hR.represented

/-- What is known of a constraint that passes its checks. -/
structure Checked (catalog : Catalog) (m : Mapping) (c : Constraint) : Prop where
  valid : c.validate = .ok ()
  known : ∀ x, Operand.var x ∈ c.operands → catalog.isKnown x = true
  direct : ∀ x, (c.readsValues = true ∧ Operand.var x ∈ c.operands) ∨ c.reify = some x →
    (m.representation x).direct = true

/-- A constraint passes its checks when it is valid, its variables are declared, and they have the
literals it needs. -/
theorem checkConstraint_eq_ok {catalog : Catalog} {m : Mapping} {c : Constraint} :
    checkConstraint catalog m c = .ok () ↔ c.validate = .ok () ∧ undeclared? catalog c = none ∧
      ∀ x r, (x, r) ∈ c.needs → m.has x r = true := by
  unfold checkConstraint
  cases c.validate with
  | error fault => simp
  | ok u =>
    cases undeclared? catalog c with
    | some name => simp
    | none =>
      dsimp only
      split
      · next name r hfind =>
        have hlacks : m.has name r = false := by simpa using List.find?_some hfind
        refine iff_of_false (by simp) fun h => ?_
        rw [h.2.2 name r (List.mem_of_find?_eq_some hfind)] at hlacks
        simp at hlacks
      · next hfind =>
        refine iff_of_true rfl ⟨rfl, rfl, fun x r hmem => ?_⟩
        simpa using List.find?_eq_none.mp hfind (x, r) hmem

theorem checked_of_ok {catalog : Catalog} {m : Mapping} {c : Constraint}
    (h : checkConstraint catalog m c = .ok ()) : Checked catalog m c := by
  obtain ⟨hvalid, hknown, hneeds⟩ := checkConstraint_eq_ok.mp h
  refine ⟨hvalid, fun x hx => ?_, fun x hx => ?_⟩
  · rw [undeclared?, List.find?_eq_none] at hknown
    simpa using hknown x (Constraint.mem_variableNames.mpr (.inl hx))
  · obtain ⟨r, hr, hd⟩ := Constraint.needs_direct hx
    have hhas := hneeds x r (Table.mem_of_lookup hr)
    simp only [Mapping.has, Representation.has, hd, Bool.not_true, Bool.or_false,
      Bool.and_eq_true] at hhas
    exact hhas.1

/-! ## Literals and terms of operands -/

section Operands

variable {catalog : Catalog} {m : Mapping} {T : List Step} {n : Nat} {c : Constraint}
  {v : Valuation} {a : String → Word}

theorem directOf_known (hm : m.Known n) (w : Word) (o : Operand) : (directOf m w o).Known n := by
  cases o with
  | const u =>
    simp only [directOf]
    split
    · exact Literal.known_always _
    · exact Literal.known_never _
  | var x => exact Mapping.directLiteral_known hm x w

theorem orderOf_known (hm : m.Known n) {o : Operand} {w : Word} {l : Literal}
    (h : orderOf m w o = .ok l) : l.Known n := by
  cases o with
  | const u =>
    obtain rfl := Except.ok.inj h
    split
    · exact Literal.known_always _
    · exact Literal.known_never _
  | var x => exact Mapping.orderLiteral_known hm h

theorem holds_directOf (hR : Ready catalog m T) {o : Operand}
    (ho : ∀ x, o = .var x → (m.representation x).direct = true) (hr : Reads T v a)
    (ha : InDomains T a) (w : Word) : (directOf m w o).holds v = true ↔ o.valueIn a = w := by
  cases o with
  | const u =>
    simp only [directOf, Operand.valueIn]
    split <;> simp [*]
  | var x => exact Mapping.holds_directLiteral hR.lists hR.represented (ho x rfl) hr ha

theorem orderOf_ok (hR : Ready catalog m T) {o : Operand} {w : Word} {l : Literal}
    (h : orderOf m w o = .ok l) :
    l.Known (freshCount T) ∧
      ∀ v a, Reads T v a → InDomains T a → (l.holds v = true ↔ o.valueIn a ≤ w) := by
  refine ⟨orderOf_known hR.known h, fun v a hr ha => ?_⟩
  cases o with
  | const u =>
    obtain rfl := Except.ok.inj h
    by_cases hle : u ≤ w <;> simp [Operand.valueIn, hle]
  | var x => exact (Mapping.orderLiteral_ok hR.lists hR.represented h).2 v a hr ha

theorem terms_known (hm : m.Known n) (o : Operand) :
    ∀ t ∈ terms catalog m o, t.2.Known n := by
  intro t ht
  obtain ⟨w, -, rfl⟩ := List.mem_map.mp ht
  exact directOf_known hm w o

theorem known_map_terms (hm : m.Known n) (operands : List Operand) :
    ∀ ts ∈ operands.map (terms catalog m), ∀ t ∈ ts, t.2.Known n := by
  intro ts hts
  obtain ⟨o, -, rfl⟩ := List.mem_map.mp hts
  exact terms_known hm o

theorem known_map_directOf (hm : m.Known n) (w : Word) (operands : List Operand) :
    ∀ l ∈ operands.map (directOf m w), l.Known n := by
  intro l hl
  obtain ⟨o, -, rfl⟩ := List.mem_map.mp hl
  exact directOf_known hm w o

/-- The terms of a declared operand speak of its value. -/
theorem terms_speaks (hR : Ready catalog m T) {o : Operand}
    (hknown : ∀ x, o = .var x → catalog.isKnown x = true)
    (ho : ∀ x, o = .var x → (m.representation x).direct = true) (hr : Reads T v a)
    (ha : InDomains T a) : Speaks v (terms catalog m o) (o.valueIn a) := by
  constructor
  · intro t ht
    obtain ⟨w, -, rfl⟩ := List.mem_map.mp ht
    rw [holds_directOf hR ho hr ha, eq_comm]
  · cases o with
    | const u => exact ⟨_, List.mem_map_of_mem (List.mem_singleton_self u), rfl⟩
    | var x =>
      obtain ⟨d, hd, hmem⟩ := hR.declared x (hknown x rfl)
      refine ⟨_, List.mem_map_of_mem (a := a x) ?_, rfl⟩
      simp only [hd, Option.map_some, Option.getD_some]
      exact Domain.mem_values.mpr (ha x d hmem)

/-- The literal that stands for the reifying variable, or for truth. -/
def auxOf (m : Mapping) (c : Constraint) : Literal :=
  (c.reify.map fun name => m.directLiteral name 1).getD .always

theorem auxOf_known (hm : m.Known n) (c : Constraint) : (auxOf m c).Known n := by
  rw [auxOf]
  cases c.reify with
  | none => exact Literal.known_always _
  | some x => exact Mapping.directLiteral_known hm x 1

theorem holds_auxOf (hR : Ready catalog m T) (hc : Checked catalog m c) (hr : Reads T v a)
    (ha : InDomains T a) : (auxOf m c).holds v = c.verdict a := by
  rw [auxOf, Constraint.verdict]
  cases h : c.reify with
  | none => simp
  | some x =>
    rw [Bool.eq_iff_iff, decide_eq_true_eq]
    exact Mapping.holds_directLiteral hR.lists hR.represented (hc.direct x (.inr h)) hr ha

theorem Checked.speaks (hc : Checked catalog m c) (hR : Ready catalog m T)
    (hv : c.readsValues = true) (hr : Reads T v a) (ha : InDomains T a) :
    ∀ o ∈ c.operands, Speaks v (terms catalog m o) (o.valueIn a) := by
  intro o ho
  refine terms_speaks hR ?_ ?_ hr ha
  · rintro x rfl
    exact hc.known x ho
  · rintro x rfl
    exact hc.direct x (.inl ⟨hv, ho⟩)

theorem forall₂_speaks {operands : List Operand}
    (h : ∀ o ∈ operands, Speaks v (terms catalog m o) (o.valueIn a)) :
    List.Forall₂ (Speaks v) (operands.map (terms catalog m))
      (operands.map (Operand.valueIn a)) := by
  induction operands with
  | nil => exact .nil
  | cons o rest ih =>
    rw [List.forall_mem_cons] at h
    exact .cons h.1 (ih h.2)

theorem trues_directOf (hR : Ready catalog m T) (hc : Checked catalog m c)
    (hv : c.readsValues = true) (hr : Reads T v a) (ha : InDomains T a) :
    Cardinality.trues v (c.operands.map (directOf m 1)) =
      Constraint.ones (c.operands.map (Operand.valueIn a)) := by
  rw [Cardinality.trues, Constraint.ones, List.countP_map, List.countP_map]
  refine List.countP_congr fun o ho => ?_
  rw [Function.comp_apply, Function.comp_apply, decide_eq_true_eq]
  refine holds_directOf hR ?_ hr ha 1
  rintro x rfl
  exact hc.direct x (.inl ⟨hv, ho⟩)

end Operands

/-! ## Rules -/

/-- The plan says of the values that are read that the constraint holds and, where that is asked
for, determines the variables it allocates. -/
def Tells (determined : Prop) (T : List Step) (plan : Plan) (c : Constraint) : Prop :=
  ∃ P, Emission.Asserts (freshCount T) plan.emissions P ∧
    (determined → Emission.Fixes (freshCount T) plan.emissions fun _ => True) ∧
    ∀ v a, Reads T v a → InDomains T a → (P v ↔ c.Holds a)

theorem tells_clauses {determined : Prop} {T : List Step} {cs : List Clause} {c : Constraint}
    (hk : ∀ d ∈ cs, d.Known (freshCount T))
    (h : ∀ v a, Reads T v a → InDomains T a → (v.Satisfies cs ↔ c.Holds a)) :
    Tells determined T (clausePlan cs) c :=
  ⟨_, Emission.asserts_clauses hk fun _ => Iff.rfl, fun _ => Emission.fixes_clauses _ _ _, h⟩

section Rules

variable {determined : Prop} {catalog : Catalog} {m : Mapping} {T : List Step} {n : Nat}
  {c : Constraint}

/-- The clauses of a relation give `aux` the truth of the test. -/
theorem satisfies_relationClauses {v : Valuation} {a : String → Word} {aux : Literal}
    {test : List Word → Bool} (hR : Ready catalog m T) (haux : aux.Known (freshCount T))
    (hs : ∀ o ∈ c.operands, Speaks v (terms catalog m o) (o.valueIn a)) :
    v.Satisfies (relationClauses catalog m c test aux) ↔
      aux.holds v = test (c.operands.map (Operand.valueIn a)) := by
  have hconflicts : v.Satisfies (conflicts test aux (c.operands.map (terms catalog m))) ↔
      aux.holds v = test (c.operands.map (Operand.valueIn a)) := by
    exact satisfies_conflicts haux (known_map_terms hR.known _) (forall₂_speaks hs)
  unfold relationClauses
  split
  · exact hconflicts
  · next x y heq _ =>
    rw [heq] at hs ⊢
    exact satisfies_supports haux (terms_known hR.known _) (terms_known hR.known _)
      (hs (.var x) (by simp)) (hs (.var y) (by simp))
  · next x y third heq _ _ =>
    rw [heq] at hs ⊢
    exact satisfies_supports haux (terms_known hR.known _) (terms_known hR.known _)
      (hs x (by simp)) (hs y (by simp))
  · exact hconflicts

theorem known_relationClauses {aux : Literal} {test : List Word → Bool} (hm : m.Known n)
    (haux : aux.Known n) : ∀ d ∈ relationClauses catalog m c test aux, d.Known n := by
  have hconflicts : ∀ d ∈ conflicts test aux (c.operands.map (terms catalog m)), d.Known n :=
    known_conflictsFrom haux (known_map_terms hm _) (by simp)
  unfold relationClauses
  split
  · exact hconflicts
  · exact known_supports haux (terms_known hm _) (terms_known hm _)
  · exact known_supports haux (terms_known hm _) (terms_known hm _)
  · exact hconflicts

theorem known_functionClauses {aux : Literal} {function : Word → Word → Option Word}
    (hm : m.Known n) (haux : aux.Known n) :
    ∀ d ∈ functionClauses catalog m c function aux, d.Known n := by
  unfold functionClauses
  split
  · exact known_supports haux (terms_known hm _) (terms_known hm _)
  · exact known_results (terms_known hm _) (terms_known hm _)
      fun w => Mapping.directLiteral_known hm _ w
  · exact known_conflictsFrom haux (known_map_terms hm _) (by simp)

/-- Where every operand has a value, a test that is not refused has all the values it reads. -/
theorem arity_le_of_relationPlan {test : Test} {aux : Literal} {v : Valuation}
    {a : String → Word} (hR : Ready catalog m T) (hc : Checked catalog m c)
    (hrule : c.rule = .relation (some test))
    (hstop : (relationPlan catalog m c test aux).stop = none) (hr : Reads T v a)
    (ha : InDomains T a) : test.arity ≤ c.operands.length := by
  by_contra hlt
  have hs := hc.speaks hR (by simp [Constraint.readsValues, hrule]) hr ha
  have hstarved : isStarved catalog m test c.operands = true := by
    simp only [isStarved, Nat.not_le.mp hlt, decide_true, Bool.true_and, List.all_eq_true,
      Bool.not_eq_true', List.isEmpty_eq_false_iff]
    intro o ho
    obtain ⟨-, t, ht, -⟩ := hs o ho
    exact List.ne_nil_of_mem ht
  rw [relationPlan, if_pos hstarved] at hstop
  simp at hstop

theorem relationPlan_tells {test : Test} (hR : Ready catalog m T) (hc : Checked catalog m c)
    (hrule : c.rule = .relation (some test))
    (hstop : (relationPlan catalog m c test (auxOf m c)).stop = none) :
    Tells determined T (relationPlan catalog m c test (auxOf m c)) c := by
  have haux := auxOf_known hR.known c
  have hvalues : c.readsValues = true := by simp [Constraint.readsValues, hrule]
  have harity := fun v a => arity_le_of_relationPlan (v := v) (a := a) hR hc hrule hstop
  simp only [relationPlan] at hstop ⊢
  split at hstop
  · simp at hstop
  next hfed =>
  rw [if_neg hfed]
  refine tells_clauses (known_relationClauses hR.known haux) fun v a hr ha => ?_
  have hs := hc.speaks hR hvalues hr ha
  rw [satisfies_relationClauses hR haux hs, holds_auxOf hR hc hr ha, eq_comm]
  simp [Constraint.Holds, Constraint.satisfied, hrule, Nat.not_lt.mpr (harity v a hr ha)]

theorem length_of_functional {function : Word → Word → Option Word} (hvalid : c.validate = .ok ())
    (hrule : c.rule = .functional (some function)) : c.operands.length = 3 := by
  simp only [Constraint.validate, hrule] at hvalid
  split at hvalid
  · simp at hvalid
  · next h => simpa using h

theorem satisfied_functional {function : Word → Word → Option Word} {x y z : Word}
    (hrule : c.rule = .functional (some function)) :
    c.satisfied [x, y, z] = .ok (isResult function [x, y, z]) := by
  simp only [Constraint.satisfied, hrule, isResult]
  cases h : function x y <;> simp

theorem holds_result {v : Valuation} {a : String → Word} {z : String}
    (hR : Ready catalog m T) (hz : (m.representation z).direct = true) (hr : Reads T v a)
    (ha : InDomains T a) (o : Option Word) :
    ((o.map fun k => m.directLiteral z k).getD .never).holds v = true ↔ o = some (a z) := by
  cases o with
  | none => simp
  | some w =>
    simp only [Option.map_some, Option.getD_some, Option.some_inj]
    rw [Mapping.holds_directLiteral hR.lists hR.represented hz hr ha, eq_comm]

theorem functional_tells {function : Word → Word → Option Word} (hR : Ready catalog m T)
    (hc : Checked catalog m c) (hrule : c.rule = .functional (some function)) :
    Tells determined T (clausePlan (functionClauses catalog m c function (auxOf m c))) c := by
  have haux := auxOf_known hR.known c
  have hvalues : c.readsValues = true := by simp [Constraint.readsValues, hrule]
  have hlength := length_of_functional hc.valid hrule
  have hknown : ∀ o, ∀ t ∈ terms catalog m o, t.2.Known (freshCount T) := terms_known hR.known
  -- a constraint that is posted is encoded with a literal that always holds
  have hconst : c.reify = none → ∀ v, (auxOf m c).holds v = true := by
    intro hnone v
    simp [auxOf, hnone]
  have hverdict : c.reify = none → ∀ a, c.verdict a = true := by
    intro hnone a
    simp [Constraint.verdict, hnone]
  refine tells_clauses (known_functionClauses hR.known haux) fun v a hr ha => ?_
  have hs := hc.speaks hR hvalues hr ha
  unfold functionClauses
  split
  · next x y third hops hnone =>
    rw [hops] at hs
    rw [satisfies_supports haux (hknown _) (hknown _) (hs x (by simp)) (hs y (by simp)),
      hconst hnone, Constraint.Holds, hops, hverdict hnone, eq_comm]
    simp [satisfied_functional hrule, Operand.valueIn]
  · next x y z hops hnone =>
    have hz : (m.representation z).direct = true :=
      hc.direct z (.inl ⟨hvalues, by simp [hops]⟩)
    rw [hops] at hs
    rw [satisfies_results (hknown _) (hknown _) (hs x (by simp)) (hs y (by simp)),
      holds_result hR hz hr ha, Constraint.Holds, hops, hverdict hnone]
    simp [satisfied_functional hrule, isResult, Operand.valueIn]
  · obtain ⟨x, y, z, hops⟩ := List.length_eq_three.mp hlength
    rw [satisfies_conflicts haux (known_map_terms hR.known _) (forall₂_speaks hs),
      holds_auxOf hR hc hr ha, eq_comm]
    simp [Constraint.Holds, hops, satisfied_functional hrule]

theorem equivalentPlan_tells {found : Except Misuse Literal} {Q : (String → Word) → Bool}
    (hR : Ready catalog m T) (hc : Checked catalog m c)
    (hstop : (equivalentPlan (auxOf m c) found).stop = none)
    (hfound : ∀ l, found = .ok l → l.Known (freshCount T) ∧
      ∀ v a, Reads T v a → InDomains T a → l.holds v = Q a)
    (hQ : ∀ a, c.Holds a ↔ Q a = c.verdict a) :
    Tells determined T (equivalentPlan (auxOf m c) found) c := by
  have haux := auxOf_known hR.known c
  cases h : found with
  | error misuse => simp [equivalentPlan, h] at hstop
  | ok l =>
    obtain ⟨hl, hmeans⟩ := hfound l h
    refine tells_clauses (known_equivalent haux hl) fun v a hr ha => ?_
    rw [satisfies_equivalent haux hl, holds_auxOf hR hc hr ha, hmeans v a hr ha, hQ, eq_comm]

theorem toInt_pred {w : Word} (h : w ≠ Word.least) : (w - 1).toInt = w.toInt - 1 := by
  have hne : w.toInt ≠ -9223372036854775808 := fun e => h (Int64.toInt_inj.mp e)
  have hbounds := Interval.toInt_bounds w
  rw [Int64.toInt_sub, Int64.toInt_one]
  exact Int.bmod_eq_of_le (by omega) (by omega)

theorem bound_tells {o : Operand} {rest : List Operand} (hR : Ready catalog m T)
    (hc : Checked catalog m c) (hops : c.operands = o :: rest) :
    (c.rule = .atMost →
      (equivalentPlan (auxOf m c) (orderOf m c.threshold o)).stop = none →
      Tells determined T (equivalentPlan (auxOf m c) (orderOf m c.threshold o)) c) ∧
    (c.rule = .atLeast → c.threshold ≠ Word.least →
      (equivalentPlan (auxOf m c)
        ((orderOf m (c.threshold - 1) o).map Literal.negate)).stop = none →
      Tells determined T (equivalentPlan (auxOf m c)
        ((orderOf m (c.threshold - 1) o).map Literal.negate)) c) ∧
    (c.rule = .atLeast → c.threshold = Word.least →
      Tells determined T (clausePlan (equivalent (auxOf m c) .always)) c) := by
  refine ⟨fun hrule hstop => ?_, fun hrule hne hstop => ?_, fun hrule heq => ?_⟩
  · refine equivalentPlan_tells (Q := fun a => decide (o.valueIn a ≤ c.threshold)) hR hc hstop ?_ ?_
    · intro l hl
      obtain ⟨hk, hmeans⟩ := orderOf_ok hR hl
      exact ⟨hk, fun v a hr ha => by rw [Bool.eq_iff_iff, hmeans v a hr ha, decide_eq_true_eq]⟩
    · intro a
      simp [Constraint.Holds, Constraint.satisfied, hrule, hops]
  · refine equivalentPlan_tells (Q := fun a => decide (c.threshold ≤ o.valueIn a)) hR hc hstop ?_ ?_
    · intro l hl
      cases hfound : orderOf m (c.threshold - 1) o with
      | error misuse => simp [hfound, Except.map] at hl
      | ok l' =>
        rw [hfound] at hl
        obtain rfl := Except.ok.inj hl
        obtain ⟨hk, hmeans⟩ := orderOf_ok hR hfound
        refine ⟨hk.neg, fun v a hr ha => ?_⟩
        show (-l').holds v = _
        -- "at least `t`" is the opposite of "at most `t - 1`", which wraps at the least word only
        have hiff := hmeans v a hr ha
        rw [Int64.le_iff_toInt_le, toInt_pred hne] at hiff
        rw [hk.holds_neg, Bool.eq_iff_iff, Bool.not_eq_true', ← Bool.not_eq_true, hiff,
          decide_eq_true_eq, Int64.le_iff_toInt_le]
        omega
    · intro a
      simp [Constraint.Holds, Constraint.satisfied, hrule, hops]
  -- there is no word below the least one, so nothing is looked up
  · have hle : ∀ w : Word, c.threshold ≤ w := by
      intro w
      have := (Interval.toInt_bounds w).1
      rw [heq, Int64.le_iff_toInt_le]
      exact this
    have haux := auxOf_known hR.known c
    refine tells_clauses (known_equivalent haux (Literal.known_always _)) fun v a hr ha => ?_
    rw [satisfies_equivalent haux (Literal.known_always _), holds_auxOf hR hc hr ha, eq_comm]
    simp [Constraint.Holds, Constraint.satisfied, hrule, hops, hle]

theorem counting_tells {settings : Settings} {scheme : Scheme} {e : Bool}
    (hdet : determined → settings.auxNonFunctional = false) (hR : Ready catalog m T)
    (hc : Checked catalog m c) (hrule : c.rule = if e then .exactlyOne else .atMostOne)
    (hreify : c.reify = none)
    (hstop : (Cardinality.encode settings scheme (freshCount T) e
      (c.operands.map (directOf m 1))).stop = none)
    (hlim : freshCount T + Emission.freshCount (Cardinality.encode settings scheme (freshCount T) e
      (c.operands.map (directOf m 1))).emissions < Literal.limit) :
    Tells determined T (Cardinality.encode settings scheme (freshCount T) e
      (c.operands.map (directOf m 1))) c := by
  have hk := known_map_directOf hR.known 1 c.operands
  have hvalues : c.readsValues = true := by
    cases e <;> simp [Constraint.readsValues, hrule]
  refine ⟨_, Cardinality.encode_asserts hk hstop hlim,
    fun hd => Cardinality.encode_fixes hk (.inr (hdet hd)) hstop hlim, fun v a hr ha => ?_⟩
  rw [Cardinality.Meets, trues_directOf hR hc hvalues hr ha]
  cases e with
  | true =>
    simp only [Constraint.Holds, Constraint.satisfied, hrule, Constraint.verdict, hreify,
      if_true, forall_const, Except.ok.injEq, decide_eq_true_eq]
    omega
  | false =>
    simp [Constraint.Holds, Constraint.satisfied, hrule, Constraint.verdict, hreify]

theorem disjunction_tells (hR : Ready catalog m T) (hc : Checked catalog m c)
    (hrule : c.rule = .disjunction) :
    Tells determined T
      (clausePlan (disjunction (auxOf m c) (c.operands.map (directOf m 1)))) c := by
  have haux := auxOf_known hR.known c
  have hk := known_map_directOf hR.known 1 c.operands
  have hvalues : c.readsValues = true := by simp [Constraint.readsValues, hrule]
  refine tells_clauses (known_disjunction haux hk) fun v a hr ha => ?_
  rw [satisfies_disjunction haux hk, holds_auxOf hR hc hr ha,
    trues_directOf hR hc hvalues hr ha]
  simp [Constraint.Holds, Constraint.satisfied, hrule, eq_comm]

end Rules

/-- The plan of a constraint that passes its checks and comes to its end tells the constraint. -/
theorem constraintPlan_tells {determined : Prop} {settings : Settings} {catalog : Catalog}
    {m : Mapping} {T : List Step} {c : Constraint}
    (hdet : determined → settings.auxNonFunctional = false) (hR : Ready catalog m T)
    (hc : Checked catalog m c)
    (hstop : (constraintPlan settings catalog m (freshCount T) c).stop = none)
    (hlim : freshCount T +
      Emission.freshCount (constraintPlan settings catalog m (freshCount T) c).emissions <
        Literal.limit) :
    Tells determined T (constraintPlan settings catalog m (freshCount T) c) c := by
  simp only [constraintPlan] at hstop hlim ⊢
  split at hstop
  · next test hrule => exact relationPlan_tells hR hc hrule hstop
  · next function hrule => exact functional_tells hR hc hrule
  · next o rest hrule hops => exact (bound_tells hR hc hops).1 hrule hstop
  · next o rest hrule hops =>
    -- below the least word there is no bound to look up
    split at hstop
    · next heq =>
      rw [if_pos heq]
      exact (bound_tells hR hc hops).2.2 hrule heq
    · next hne =>
      rw [if_neg hne]
      exact (bound_tells hR hc hops).2.1 hrule hne hstop
  · next hrule =>
    split at hstop
    -- reified counts have a plan that stops
    · simp at hstop
    next hreify =>
    simp only [hrule, hreify] at hstop hlim ⊢
    exact counting_tells (e := false) hdet hR hc hrule (by simpa using hreify) hstop hlim
  · next hrule =>
    split at hstop
    · simp at hstop
    next hreify =>
    simp only [hrule, hreify] at hstop hlim ⊢
    exact counting_tells (e := true) hdet hR hc hrule (by simpa using hreify) hstop hlim
  · next hrule => exact disjunction_tells hR hc hrule
  · simp at hstop

/-- Where a plan comes to its end, the rule is true or false of the values that are read. -/
theorem exists_satisfied {settings : Settings} {catalog : Catalog} {m : Mapping} {T : List Step}
    {c : Constraint} {count : Nat} {v : Valuation} {a : String → Word} (hR : Ready catalog m T)
    (hc : Checked catalog m c) (hstop : (constraintPlan settings catalog m count c).stop = none)
    (hr : Reads T v a) (ha : InDomains T a) :
    ∃ b, c.satisfied (c.operands.map (Operand.valueIn a)) = .ok b := by
  have hfed : c.Fed := by
    intro test hrule
    simp only [constraintPlan, hrule] at hstop
    exact arity_le_of_relationPlan hR hc hrule hstop hr ha
  exact Constraint.exists_satisfied hc.valid hfed (List.length_map (Operand.valueIn a))

/-- The steps of a constraint that none of them refuses tell it, and it can be checked on all
values that are read. -/
theorem constraintSteps_tells {determined : Prop} {settings : Settings} {catalog : Catalog}
    {m : Mapping} {T U : List Step} {c : Constraint}
    (hdet : determined → settings.auxNonFunctional = false) (hR : Ready catalog m T)
    (hU : U = constraintSteps settings catalog m (freshCount T) c) (hgo : ∀ r, .stop r ∉ U)
    (hlim : freshCount (T ++ U) < Literal.limit) :
    Tells determined T { emissions := Step.emissions U } c ∧ Checked catalog m c ∧
      ∀ v a, Reads T v a → InDomains T a →
        ∃ b, c.satisfied (c.operands.map (Operand.valueIn a)) = .ok b := by
  unfold constraintSteps at hU
  split at hU
  · next fault _ => exact absurd (by simp [hU]) (hgo (.fault fault))
  next hcheck =>
  have hc := checked_of_ok hcheck
  obtain ⟨plan, hplan⟩ : ∃ plan, plan = constraintPlan settings catalog m (freshCount T) c :=
    ⟨_, rfl⟩
  rw [← hplan] at hU
  -- no step stops, so the checks have passed and the plan comes to its end
  have hnone : plan.stop = none :=
    (Plan.steps_of_no_stop fun r hr => hgo r (by rw [hU]; simp [hr])).1
  have hemissions : Step.emissions U = plan.emissions := by
    rw [hU, ← plan.emissions_steps]
    rfl
  rw [freshCount_append, freshCount.eq_def U, hemissions, hplan] at hlim
  rw [hplan] at hnone
  rw [hemissions, hplan]
  exact ⟨constraintPlan_tells hdet hR hc hnone hlim, hc,
    fun v a hr ha => exists_satisfied hR hc hnone hr ha⟩

end Encoding

end Clausify
