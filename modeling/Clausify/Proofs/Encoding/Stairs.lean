import Mathlib
import Clausify.Proofs.Encoding.Staircase

/-!
The stairs that are written. A value with literals of both kinds is tied to its neighbours by four
clauses (`tieSteps`), a value with an order literal only by one (`boundSteps`); both are stairs, so
the values after the first form a staircase in either representation (`channelFrom_staircase`,
`boundsFrom_staircase`).
-/

namespace Clausify

open Step Encoding

section Fresh

variable (count : Nat) (h : count + 1 < Literal.limit)

include h

theorem known_next : (Literal.ofVariable (count + 1)).Known (count + 1) :=
  Literal.known_ofVariable (Nat.succ_pos _) (Nat.le_refl _) h

theorem holds_next (v : Valuation) : (Literal.ofVariable (count + 1)).holds v = v (count + 1) :=
  Literal.holds_ofVariable (Nat.succ_pos _) h v

theorem lt_var_next : count < (Literal.ofVariable (count + 1)).var := by
  rw [Literal.var_ofVariable h]
  exact Nat.lt_succ_self _

end Fresh

/-! ## Order literals tied to single-value literals -/

/-- The clauses that tie the literal of a single value to two neighbouring order literals. -/
def tieClauses (previous bound single : Literal) : List Clause :=
  [[-previous, bound], [previous, -bound, single], [-single, bound], [-single, -previous]]

theorem satisfies_tieClauses {n : Nat} {p b s : Literal} (hp : p.Known n) (hb : b.Known n)
    (hs : s.Known n) (v : Valuation) :
    v.Satisfies (tieClauses p b s) ↔
      (p.holds v = true → b.holds v = true) ∧ s.holds v = (b.holds v && !p.holds v) := by
  simp only [tieClauses, Valuation.satisfies_cons, Valuation.satisfies_nil, Clause.holds_cons,
    Clause.holds_nil, hp.holds_neg, hb.holds_neg, hs.holds_neg]
  cases p.holds v <;> cases b.holds v <;> cases s.holds v <;> decide

/-- The steps of a value with both kinds of literals. -/
def tieSteps (settings : Settings) (x : String) (count : Nat) (previous : Literal) (value : Word) :
    List Step :=
  .emit .fresh :: order settings x value (Literal.ofVariable (count + 1)) ++
    clause [-previous, Literal.ofVariable (count + 1)] ::
    .emit .fresh :: direct settings x value (Literal.ofVariable (count + 2)) ++
    [clause [previous, -Literal.ofVariable (count + 1), Literal.ofVariable (count + 2)],
      clause [-Literal.ofVariable (count + 2), Literal.ofVariable (count + 1)],
      clause [-Literal.ofVariable (count + 2), -previous]]

theorem channelFrom_cons (settings : Settings) (x : String) (count : Nat) (previous : Literal)
    (value next : Word) (rest : List Word) :
    (channelFrom settings x count previous (value :: next :: rest)).1 =
      tieSteps settings x count previous value ++
        (channelFrom settings x (count + 2) (Literal.ofVariable (count + 1)) (next :: rest)).1 ∧
    (channelFrom settings x count previous (value :: next :: rest)).2 =
      Literal.ofVariable (count + 2) ::
        (channelFrom settings x (count + 2) (Literal.ofVariable (count + 1)) (next :: rest)).2 := by
  constructor
  · simp [channelFrom, tieSteps]
  · rfl

section Tie

variable {settings : Settings} {x : String} {low count : Nat} {previous : Literal} {value : Word}

@[simp] theorem freshCount_tieSteps :
    freshCount (tieSteps settings x count previous value) = 2 := by simp [tieSteps]

@[simp] theorem clausesOf_tieSteps :
    clausesOf (tieSteps settings x count previous value) =
      tieClauses previous (Literal.ofVariable (count + 1)) (Literal.ofVariable (count + 2)) := by
  simp [tieSteps, tieClauses]

theorem reads_tieSteps {v : Valuation} {w : Word} :
    Reads (tieSteps settings x count previous value) v (fun _ => w) ↔
      ((Literal.ofVariable (count + 1)).holds v = true ↔ w ≤ value) ∧
        ((Literal.ofVariable (count + 2)).holds v = true ↔ w = value) := by
  simp [tieSteps]

theorem owned_tieSteps (hlow : low ≤ count) (hlim : count + 2 < Literal.limit) :
    ∀ s ∈ tieSteps settings x count previous value, s.Owned x low (count + 2) := by
  have hb := (known_next count (by omega)).mono (Nat.le_succ (count + 1))
  have hlow' := Nat.lt_of_le_of_lt (Nat.le_succ_of_le hlow) (lt_var_next (count + 1) hlim)
  simp only [tieSteps, List.cons_append, List.append_assoc, List.forall_mem_cons,
    List.forall_mem_append, owned_emit, owned_clause, true_and]
  exact ⟨owned_order hb, owned_direct hlow' (Literal.isConstant_ofVariable hlim)
    (known_next (count + 1) hlim), by simp⟩

/-- The two fresh variables can be set for every word that `previous` agrees with. -/
theorem exists_tie (hp : previous.Known count) (hlim : count + 2 < Literal.limit) (v : Valuation)
    {w : Word} (hpv : previous.holds v = decide (w < value)) :
    ∃ u : Valuation, v.Agree count u ∧
      (Literal.ofVariable (count + 1)).holds u = decide (w ≤ value) ∧
      (previous.holds u = true → (Literal.ofVariable (count + 1)).holds u = true) ∧
      (Literal.ofVariable (count + 2)).holds u =
        ((Literal.ofVariable (count + 1)).holds u && !previous.holds u) := by
  obtain ⟨u, ha, hu⟩ := v.exists_succ count (decide (w ≤ value))
  obtain ⟨t, ha', ht⟩ := u.exists_succ (count + 1) (decide (w ≤ value) && !decide (w < value))
  have hat : v.Agree count t := ha.trans (ha'.mono (Nat.le_succ _))
  have hbt : (Literal.ofVariable (count + 1)).holds t = decide (w ≤ value) := by
    rw [holds_next count (by omega), ← ha' _ (Nat.succ_pos _) (Nat.le_refl _), hu]
  have hpt : previous.holds t = decide (w < value) := by rw [← hp.holds_congr hat, hpv]
  refine ⟨t, hat, hbt, ?_, ?_⟩
  · rw [hbt, hpt, decide_eq_true_eq, decide_eq_true_eq]
    exact Int64.le_of_lt
  · rw [holds_next (count + 1) hlim, ht, hbt, hpt]

theorem tieSteps_stair (hlow : low ≤ count) (hp : previous.Known count)
    (hlim : count + 2 < Literal.limit) :
    Stair x value low count previous (Literal.ofVariable (count + 1))
      (tieSteps settings x count previous value) := by
  have hs := known_next (count + 1) hlim
  have hb := (known_next count (by omega)).mono (Nat.le_succ (count + 1))
  have hp' : previous.Known (count + 2) := hp.mono (by omega)
  have hsat := satisfies_tieClauses hp' hb hs
  exact {
    owned := by
      rw [freshCount_tieSteps]
      exact owned_tieSteps hlow hlim
    known := by
      rw [clausesOf_tieSteps, freshCount_tieSteps]
      simp [tieClauses, hp'.neg, hp', hb, hb.neg, hs, hs.neg]
    knownBound := by
      rw [freshCount_tieSteps]
      exact hb
    climbs := by
      intro v hv
      rw [clausesOf_tieSteps, hsat] at hv
      exact hv.1
    reads := by
      intro v w hv hpv hbv
      rw [clausesOf_tieSteps, hsat] at hv
      rw [reads_tieSteps, hv.2, hpv, hbv]
      -- not below the value and at most the value: equal to it
      simp only [decide_eq_true_eq, Bool.and_eq_true, Bool.not_eq_true', decide_eq_false_iff_not,
        true_and, Int64.lt_iff_toInt_lt, Int64.le_iff_toInt_le, ← Int64.toInt_inj]
      omega
    complete := by
      intro v w hpv
      obtain ⟨u, ha, hbu, hclimbs, hsingle⟩ := exists_tie hp hlim v hpv
      refine ⟨u, ha, ?_, hbu⟩
      rw [clausesOf_tieSteps, hsat]
      exact ⟨hclimbs, hsingle⟩
    unique := by
      intro v u w hv hu ha
      rw [reads_tieSteps, holds_next count (by omega), holds_next (count + 1) hlim] at hv hu
      rw [freshCount_tieSteps]
      apply Valuation.Agree.succ
      · exact ha.succ (by rw [Bool.eq_iff_iff, hv.1, hu.1])
      · rw [Bool.eq_iff_iff, hv.2, hu.2] }

end Tie

theorem channelFrom_staircase {settings : Settings} {x : String} {low count : Nat}
    {previous : Literal} {values : List Word} (hne : values ≠ [])
    (hinc : values.Pairwise (· < ·)) (hlow : low < previous.var) (hle : low ≤ count)
    (hc : previous.isConstant = false) (hp : previous.Known count)
    (hlim : count + freshCount (channelFrom settings x count previous values).1 <
      Literal.limit) :
    Staircase x values low count previous (channelFrom settings x count previous values).1 := by
  induction values generalizing count previous with
  | nil => exact absurd rfl hne
  | cons value rest ih =>
    cases rest with
    | nil =>
      refine staircase_last hp (emissions_direct _ _ _ _) ?_ fun v w => reads_direct
      exact owned_direct (by rwa [Literal.var_neg]) (by rwa [Literal.isConstant_neg]) hp.neg
    | cons next rest =>
      rw [List.pairwise_cons] at hinc
      rw [(channelFrom_cons settings x count previous value next rest).1] at hlim ⊢
      rw [freshCount_append, freshCount_tieSteps] at hlim
      have hb : count + 1 < Literal.limit := by omega
      refine staircase_step hinc.1 hp (tieSteps_stair hle hp (by omega)) ?_
      rw [freshCount_tieSteps]
      exact ih (by simp) hinc.2 (Nat.lt_of_le_of_lt hle (lt_var_next count hb)) (by omega)
        (Literal.isConstant_ofVariable hb) ((known_next count hb).mono (Nat.le_succ _)) (by omega)

/-! ## Order literals alone -/

/-- A value with one fresh variable is a stair when its literals mean what they have to. -/
theorem stair_one {x : String} {value : Word} {low count : Nat} {previous : Literal}
    {S : List Step} (hp : previous.Known count) (hlim : count + 1 < Literal.limit)
    (hfresh : freshCount S = 1)
    (howned : ∀ s ∈ S, s.Owned x low (count + 1)) (hknown : ∀ c ∈ clausesOf S, c.Known (count + 1))
    (hclauses : ∀ v : Valuation, v.Satisfies (clausesOf S) ↔
      (previous.holds v = true → (Literal.ofVariable (count + 1)).holds v = true))
    (hbound : ∀ v w, Reads S v (fun _ => w) →
      ((Literal.ofVariable (count + 1)).holds v = true ↔ w ≤ value))
    (hreads : ∀ v w, previous.holds v = decide (w < value) →
      (Literal.ofVariable (count + 1)).holds v = decide (w ≤ value) → Reads S v fun _ => w) :
    Stair x value low count previous (Literal.ofVariable (count + 1)) S where
  owned := by rwa [hfresh]
  known := by rwa [hfresh]
  knownBound := by
    rw [hfresh]
    exact known_next count hlim
  climbs v hv := (hclauses v).mp hv
  reads v w _ hpv hbv := hreads v w hpv hbv
  complete v w hpv := by
    obtain ⟨u, ha, hu⟩ := v.exists_succ count (decide (w ≤ value))
    rw [← holds_next count hlim u] at hu
    refine ⟨u, ha, (hclauses u).mpr ?_, hu⟩
    rw [← hp.holds_congr ha, hpv, hu, decide_eq_true_eq, decide_eq_true_eq]
    exact Int64.le_of_lt
  unique v u w hv hu ha := by
    rw [hfresh]
    apply ha.succ
    rw [← holds_next count hlim v, ← holds_next count hlim u, Bool.eq_iff_iff, hbound v w hv,
      hbound u w hu]

/-- The steps of a value with an order literal only. -/
def boundSteps (settings : Settings) (x : String) (count : Nat) (previous : Literal)
    (value : Word) : List Step :=
  .emit .fresh :: order settings x value (Literal.ofVariable (count + 1)) ++
    [clause [-previous, Literal.ofVariable (count + 1)],
      .bound .middle ⟨x, value⟩ (Literal.ofVariable (count + 1))]

theorem boundsFrom_cons (settings : Settings) (x : String) (count : Nat) (previous : Literal)
    (value next : Word) (rest : List Word) :
    boundsFrom settings x count previous (value :: next :: rest) =
      boundSteps settings x count previous value ++
        boundsFrom settings x (count + 1) (Literal.ofVariable (count + 1)) (next :: rest) := by
  simp [boundsFrom, boundSteps]

section Bounds

variable {settings : Settings} {x : String} {low count : Nat} {previous : Literal} {value : Word}

@[simp] theorem freshCount_boundSteps :
    freshCount (boundSteps settings x count previous value) = 1 := by simp [boundSteps]

theorem boundSteps_stair (hlow : low ≤ count) (hp : previous.Known count)
    (hlim : count + 1 < Literal.limit) :
    Stair x value low count previous (Literal.ofVariable (count + 1))
      (boundSteps settings x count previous value) := by
  have hb := known_next count hlim
  have hp' : previous.Known (count + 1) := hp.mono (Nat.le_succ _)
  have hclauses : clausesOf (boundSteps settings x count previous value) =
      [[-previous, Literal.ofVariable (count + 1)]] := by simp [boundSteps]
  refine stair_one hp hlim freshCount_boundSteps ?_ ?_ ?_ ?_ ?_
  · simp only [boundSteps, List.cons_append, List.forall_mem_cons, List.forall_mem_append,
      owned_emit, owned_clause, true_and]
    refine ⟨owned_order hb, ?_, by simp⟩
    exact ⟨rfl, Nat.lt_of_le_of_lt hlow (lt_var_next count hlim),
      Literal.isConstant_ofVariable hlim, hb⟩
  · simp [hclauses, hp'.neg, hb]
  · intro v
    cases hpv : previous.holds v <;> simp [hclauses, hp'.holds_neg, hpv]
  · intro v w
    simp only [boundSteps, List.cons_append, reads_emit, reads_append, reads_order]
    exact And.left
  · intro v w _ hbv
    simp [boundSteps, reads_cons, ReadsIn, clause, hbv]

theorem boundsFrom_staircase {values : List Word} (hne : values ≠ [])
    (hinc : values.Pairwise (· < ·)) (hlow : low < previous.var) (hle : low ≤ count)
    (hc : previous.isConstant = false) (hp : previous.Known count)
    (hlim : count + freshCount (boundsFrom settings x count previous values) < Literal.limit) :
    Staircase x values low count previous (boundsFrom settings x count previous values) := by
  induction values generalizing count previous with
  | nil => exact absurd rfl hne
  | cons value rest ih =>
    cases rest with
    | nil =>
      refine staircase_last hp rfl ?_ fun v w => ?_
      · simp only [boundsFrom, List.forall_mem_singleton]
        exact ⟨rfl, by rwa [Literal.var_neg], by rwa [Literal.isConstant_neg], hp.neg⟩
      · simp [boundsFrom, reads_cons, ReadsIn]
    | cons next rest =>
      rw [List.pairwise_cons] at hinc
      rw [boundsFrom_cons] at hlim ⊢
      rw [freshCount_append, freshCount_boundSteps] at hlim
      have hb : count + 1 < Literal.limit := by omega
      refine staircase_step hinc.1 hp (boundSteps_stair hle hp hb) ?_
      rw [freshCount_boundSteps]
      exact ih (by simp) hinc.2 (Nat.lt_of_le_of_lt hle (lt_var_next count hb)) (by omega)
        (Literal.isConstant_ofVariable hb) (known_next count hb) (by omega)

end Bounds

end Clausify
