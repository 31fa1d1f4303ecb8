import Mathlib
import Clausify.Cardinality
import Clausify.Proofs.Cardinality.Count

/-!
The ladder scheme counts to one. A rung that holds closes all literals above it, so two positions
never hold together; where exactly one position holds, every rung holds from that position on and
fails before it, which leaves the rungs no choice.

Main statements: `ladder_asserts` and `ladder_fixes`. Both rest on the three lemmas on `climb`,
which are inductions along the list of literals with the rung below as the state.
-/

namespace Clausify.Cardinality

open Emission

/-- The rungs above `below` hold exactly when `below` or a literal up to their position does. -/
def Climbed (v : Valuation) (below : Literal) (ls rs : List Literal) : Prop :=
  ∀ i, (h : i < rs.length) →
    rs[i].holds v = (below.holds v || decide (1 ≤ trues v (ls.take (i + 1))))

theorem over_chain {P : Literal → Prop} (hneg : ∀ l, P l → P (-l)) {rs : List Literal}
    (h : ∀ r ∈ rs, P r) : ∀ c ∈ chain rs, ∀ l ∈ c, P l := by
  induction rs with
  | nil => simp [chain]
  | cons r rest ih =>
    cases rest with
    | nil => simp [chain]
    | cons s rest =>
      simp only [List.forall_mem_cons] at h ih
      simp only [chain, List.forall_mem_cons]
      exact ⟨⟨hneg r h.1, h.2.1, by simp⟩, ih h.2⟩

theorem known_chain {n : Nat} {rs : List Literal} (hk : ∀ r ∈ rs, r.Known n) :
    ∀ c ∈ chain rs, c.Known n :=
  over_chain (P := Literal.Known n) (fun _ => .neg) hk

theorem over_climb {P : Literal → Prop} (hneg : ∀ l, P l → P (-l)) {ls rs : List Literal}
    (hl : ∀ l ∈ ls, P l) (hr : ∀ r ∈ rs, P r) : ∀ c ∈ climb ls rs, ∀ l ∈ c, P l := by
  induction ls generalizing rs with
  | nil => cases rs <;> simp [climb]
  | cons l rest ih =>
    rw [List.forall_mem_cons] at hl
    match rs, hr with
    | [], _ => simp [climb]
    | [below], hr =>
      simp only [List.forall_mem_cons] at hr
      simp [climb, hneg l hl.1, hneg below hr.1]
    | below :: own :: rs, hr =>
      simp only [List.forall_mem_cons] at hr
      simp only [climb, List.forall_mem_cons]
      refine ⟨⟨hneg l hl.1, hneg below hr.1, by simp⟩, ⟨hneg l hl.1, hr.2.1, by simp⟩, ?_⟩
      exact ih hl.2 (by simpa using hr.2)

theorem known_climb {n : Nat} {ls rs : List Literal} (hl : ∀ l ∈ ls, l.Known n)
    (hr : ∀ r ∈ rs, r.Known n) : ∀ c ∈ climb ls rs, c.Known n :=
  over_climb (P := Literal.Known n) (fun _ => .neg) hl hr

/-- On a satisfied ladder at most one literal holds, and none above a rung that does. -/
theorem climb_sound {n : Nat} {v : Valuation} {ls rs : List Literal} {below : Literal}
    (hb : below.Known n) (hl : ∀ l ∈ ls, l.Known n) (hr : ∀ r ∈ rs, r.Known n)
    (hlen : rs.length = ls.length - 1) (hchain : v.Satisfies (chain (below :: rs)))
    (hclimb : v.Satisfies (climb ls (below :: rs))) :
    (below.holds v).toNat + trues v ls ≤ 1 := by
  induction ls generalizing below rs with
  | nil => cases below.holds v <;> simp
  | cons l rest ih =>
    rw [List.forall_mem_cons] at hl
    match rs, hr, hlen with
    | [], _, hlen =>
      -- the last literal is only compared with the rung below it
      have hrest : rest = [] := List.eq_nil_of_length_eq_zero (by simp at hlen; omega)
      subst hrest
      simp only [climb, Valuation.satisfies_cons, Clause.holds_cons, hl.1.holds_neg,
        hb.holds_neg] at hclimb
      rw [trues_cons, trues_nil]
      revert hclimb
      cases l.holds v <;> cases below.holds v <;> simp
    | own :: rs, hr, hlen =>
      rw [List.forall_mem_cons] at hr
      simp only [chain, climb, Valuation.satisfies_cons, Clause.holds_cons, Clause.holds_nil,
        Bool.or_false, hb.holds_neg, hl.1.holds_neg] at hchain hclimb
      have hrec := ih hr.1 hl.2 hr.2 (by simp at hlen; omega) hchain.2 hclimb.2.2
      obtain ⟨hc, -⟩ := hchain
      obtain ⟨h1, h2, -⟩ := hclimb
      rw [trues_cons]
      revert hc h1 h2 hrec
      cases l.holds v <;> cases below.holds v <;> cases own.holds v <;> grind

/-- On a satisfied ladder with exactly one literal, every rung is settled. -/
theorem climb_settled {n : Nat} {v : Valuation} {ls rs : List Literal} {below : Literal}
    (hb : below.Known n) (hl : ∀ l ∈ ls, l.Known n) (hr : ∀ r ∈ rs, r.Known n)
    (hlen : rs.length = ls.length - 1) (hchain : v.Satisfies (chain (below :: rs)))
    (hclimb : v.Satisfies (climb ls (below :: rs)))
    (hone : (below.holds v).toNat + trues v ls = 1) : Climbed v below ls rs := by
  induction ls generalizing below rs with
  | nil =>
    have : rs = [] := List.eq_nil_of_length_eq_zero (by simpa using hlen)
    subst this
    intro i h
    simp at h
  | cons l rest ih =>
    rw [List.forall_mem_cons] at hl
    match rs, hr, hlen with
    | [], _, _ => intro i h; simp at h
    | own :: rs, hr, hlen =>
      rw [List.forall_mem_cons] at hr
      simp only [chain, climb, Valuation.satisfies_cons, Clause.holds_cons, Clause.holds_nil,
        Bool.or_false, hb.holds_neg, hl.1.holds_neg] at hchain hclimb
      have hlen' : rs.length = rest.length - 1 := by simp at hlen; omega
      have hrec := climb_sound hr.1 hl.2 hr.2 hlen' hchain.2 hclimb.2.2
      obtain ⟨hc, hchain⟩ := hchain
      obtain ⟨h1, h2, hclimb⟩ := hclimb
      rw [trues_cons] at hone
      -- the next rung holds exactly when the one below or this literal does
      have hown : own.holds v = (below.holds v || l.holds v) := by
        revert hc h1 h2 hrec hone
        cases l.holds v <;> cases below.holds v <;> cases own.holds v <;> grind
      have hone' : (own.holds v).toNat + trues v rest = 1 := by
        rw [hown]
        revert h1 hone
        cases l.holds v <;> cases below.holds v <;> simp
      have hrest := ih hr.1 hl.2 hr.2 hlen' hchain hclimb hone'
      intro i h
      cases i with
      | zero =>
        simp only [List.getElem_cons_zero, hown, List.take_succ_cons, List.take_zero, trues_cons]
        cases l.holds v <;> simp
      | succ i =>
        have := hrest i (Nat.lt_of_succ_lt_succ h)
        simp only [List.getElem_cons_succ, this, hown, List.take_succ_cons, trues_cons]
        cases l.holds v <;> cases below.holds v <;> simp

theorem climb_complete {n : Nat} {v : Valuation} {ls rs : List Literal} {below : Literal}
    (hb : below.Known n) (hl : ∀ l ∈ ls, l.Known n) (hr : ∀ r ∈ rs, r.Known n)
    (hlen : rs.length = ls.length - 1) (hset : Climbed v below ls rs)
    (hone : (below.holds v).toNat + trues v ls ≤ 1) :
    v.Satisfies (chain (below :: rs)) ∧ v.Satisfies (climb ls (below :: rs)) := by
  induction ls generalizing below rs with
  | nil =>
    have : rs = [] := List.eq_nil_of_length_eq_zero (by simpa using hlen)
    subst this
    simp [chain, climb]
  | cons l rest ih =>
    rw [List.forall_mem_cons] at hl
    rw [trues_cons] at hone
    match rs, hr, hlen, hset with
    | [], _, _, _ =>
      refine ⟨by simp [chain], ?_⟩
      simp only [climb, Valuation.satisfies_cons, Clause.holds_cons, Clause.holds_nil,
        Bool.or_false, hb.holds_neg, hl.1.holds_neg, Valuation.satisfies_nil, and_true]
      revert hone
      cases l.holds v <;> cases below.holds v <;> simp
    | own :: rs, hr, hlen, hset =>
      rw [List.forall_mem_cons] at hr
      have hlen' : rs.length = rest.length - 1 := by simp at hlen; omega
      -- the next rung sums up the rung below and the literal beside it
      have hown : own.holds v = (below.holds v || l.holds v) := by
        have := hset 0 (Nat.succ_pos _)
        simp only [List.getElem_cons_zero, List.take_succ_cons, List.take_zero, trues_cons] at this
        rw [this]
        cases l.holds v <;> simp
      have hset' : Climbed v own rest rs := by
        intro i h
        have := hset (i + 1) (Nat.succ_lt_succ h)
        simp only [List.getElem_cons_succ, List.take_succ_cons, trues_cons] at this
        rw [this, hown]
        cases l.holds v <;> cases below.holds v <;> simp
      -- so again at most one holds, counted from the next rung on
      have hone' : (own.holds v).toNat + trues v rest ≤ 1 := by
        rw [hown]
        revert hone
        cases l.holds v <;> cases below.holds v <;> simp
      obtain ⟨hchain, hclimb⟩ := ih hr.1 hl.2 hr.2 hlen' hset' hone'
      simp only [chain, climb, Valuation.satisfies_cons, Clause.holds_cons, Clause.holds_nil,
        Bool.or_false, hb.holds_neg, hl.1.holds_neg, hown]
      refine ⟨⟨?_, hchain⟩, ?_, ?_, hclimb⟩
      · cases below.holds v <;> simp
      · revert hone
        cases l.holds v <;> cases below.holds v <;> simp
      · cases l.holds v <;> simp

/-! ## The scheme -/

theorem ladder_fresh (count : Nat) (e : Bool) (ls : List Literal) :
    freshCount (ladder count e ls) = ls.length - 2 := by
  cases ls with
  | nil => simp [ladder, rungs]
  | cons first rest => simp [ladder, rungs]

/-- A ladder is the chain of its rungs, the climb of the literals after the first and, if asked for,
the clause for one of them. -/
theorem clausesOf_ladder (count : Nat) (e : Bool) (first : Literal) (rest : List Literal) :
    clausesOf (ladder count e (first :: rest)) =
      chain (first :: literalsFrom count (rest.length - 1)) ++
        climb rest (first :: literalsFrom count (rest.length - 1)) ++ someOf e (first :: rest) := by
  simp [ladder, rungs]

theorem known_ladder {count : Nat} {first : Literal} {rest : List Literal}
    (hk : ∀ l ∈ first :: rest, l.Known count)
    (hcount : count + (rest.length - 1) < Literal.limit) :
    first.Known (count + (rest.length - 1)) ∧
      (∀ l ∈ rest, l.Known (count + (rest.length - 1))) ∧
      ∀ r ∈ literalsFrom count (rest.length - 1), r.Known (count + (rest.length - 1)) := by
  have hall : ∀ l ∈ first :: rest, l.Known (count + (rest.length - 1)) :=
    fun l hl => (hk l hl).mono (Nat.le_add_right _ _)
  rw [List.forall_mem_cons] at hall
  exact ⟨hall.1, hall.2, known_literalsFrom hcount⟩

/-- Rungs can be set as a ladder asks for: each when a literal up to its position holds. -/
theorem exists_climbed {count : Nat} {first : Literal} {rest : List Literal}
    (hk : ∀ l ∈ first :: rest, l.Known count)
    (hcount : count + (rest.length - 1) < Literal.limit) (v : Valuation) :
    ∃ u : Valuation, v.Agree count u ∧
      Climbed u first rest (literalsFrom count (rest.length - 1)) := by
  obtain ⟨hf, hrest⟩ := List.forall_mem_cons.mp hk
  obtain ⟨u, ha, hu⟩ := v.exists_extend count
    fun i => first.holds v || decide (1 ≤ trues v (rest.take (i + 1)))
  refine ⟨u, ha, ?_⟩
  intro i hi
  rw [literalsFrom_length] at hi
  rw [literalsFrom_getElem, Literal.holds_ofVariable (by omega) (by omega), hu,
    hf.holds_congr ha, trues_congr (fun l hl => hrest l (List.mem_of_mem_take hl)) ha]

/-- The ladder clauses over at least one literal say that at most, or exactly, one holds. -/
theorem ladder_cons_asserts {count : Nat} {first : Literal} {rest : List Literal}
    (hk : ∀ l ∈ first :: rest, l.Known count) (e : Bool)
    (hcount : count + (rest.length - 1) < Literal.limit) :
    Asserts count (ladder count e (first :: rest)) (Meets e (first :: rest)) := by
  obtain ⟨hf', hrest', hr⟩ := known_ladder hk hcount
  have hlen := literalsFrom_length count (rest.length - 1)
  exact {
    known := by
      intro c hc
      rw [ladder_fresh]
      simp only [clausesOf_ladder, List.mem_append] at hc
      have hrungs : ∀ r ∈ first :: literalsFrom count (rest.length - 1),
          r.Known (count + (rest.length - 1)) := List.forall_mem_cons.mpr ⟨hf', hr⟩
      show c.Known (count + (rest.length - 1))
      rcases hc with (hc | hc) | hc
      · exact known_chain hrungs c hc
      · exact known_climb hrest' hrungs c hc
      · exact known_someOf (List.forall_mem_cons.mpr ⟨hf', hrest'⟩) c hc
    sound := by
      intro v hv
      simp only [clausesOf_ladder, Valuation.satisfies_append] at hv
      obtain ⟨⟨hchain, hclimb⟩, hsome⟩ := hv
      have h1 := climb_sound hf' hrest' hr hlen hchain hclimb
      refine ⟨?_, (satisfies_someOf v).mp hsome⟩
      rw [trues_cons]
      omega
    complete := by
      rintro v ⟨hle, hge⟩
      -- every rung is set to whether some literal up to its height holds
      obtain ⟨u, ha, hset⟩ := exists_climbed hk hcount v
      rw [trues_congr hk ha] at hle hge
      have hone : (first.holds u).toNat + trues u rest ≤ 1 := by
        rw [trues_cons] at hle
        omega
      obtain ⟨hchain, hclimb⟩ := climb_complete hf' hrest' hr hlen hset hone
      refine ⟨u, ha, ?_⟩
      simp only [clausesOf_ladder, Valuation.satisfies_append]
      exact ⟨⟨hchain, hclimb⟩, (satisfies_someOf u).mpr hge⟩ }

/-- The ladder clauses say that at most, or exactly, one literal holds. -/
theorem ladder_asserts {count : Nat} {ls : List Literal} (hk : ∀ l ∈ ls, l.Known count) (e : Bool)
    (hlim : count + freshCount (ladder count e ls) < Literal.limit) :
    Asserts count (ladder count e ls) (Meets e ls) := by
  rw [ladder_fresh] at hlim
  cases ls with
  | nil => exact pairwise_asserts hk e
  | cons first rest => exact ladder_cons_asserts hk e (by simp at hlim; omega)

theorem ladder_fixes {count : Nat} {ls : List Literal} (hk : ∀ l ∈ ls, l.Known count) (e : Bool)
    (hlim : count + freshCount (ladder count e ls) < Literal.limit) :
    Fixes count (ladder count e ls) (fun v => trues v ls = 1) := by
  rw [ladder_fresh] at hlim
  cases ls with
  | nil => exact pairwise_fixes count [] e _
  | cons first rest =>
    have hcount : count + (rest.length - 1) < Literal.limit := by simp at hlim; omega
    obtain ⟨hf', hrest', hr⟩ := known_ladder hk hcount
    have hlen := literalsFrom_length count (rest.length - 1)
    obtain ⟨hf, hrest⟩ := List.forall_mem_cons.mp hk
    intro v u hone hv hu ha
    simp only [clausesOf_ladder, Valuation.satisfies_append] at hv hu
    rw [trues_cons] at hone
    have hsv := climb_settled hf' hrest' hr hlen hv.1.1 hv.1.2 (by omega)
    have hsu := climb_settled hf' hrest' hr hlen hu.1.1 hu.1.2 (by
      rw [← hf.holds_congr ha, ← trues_congr hrest ha]
      omega)
    rw [ladder_fresh]
    show v.Agree (count + (rest.length - 1)) u
    apply ha.add
    intro i hi
    -- a rung depends on the literals up to its height, which agree
    have e1 := hsv i (by omega)
    have e2 := hsu i (by omega)
    rw [literalsFrom_getElem, Literal.holds_ofVariable (by omega) (by omega)] at e1 e2
    rw [e1, e2, hf.holds_congr ha,
      trues_congr (fun l hl => hrest l (List.mem_of_mem_take hl)) ha]

end Clausify.Cardinality
