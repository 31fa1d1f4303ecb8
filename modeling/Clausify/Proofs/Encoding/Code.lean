import Mathlib
import Clausify.Proofs.Encoding.Constraint
import Clausify.Proofs.Encoding.Decode
import Clausify.Proofs.Encoding.Own
import Clausify.Proofs.Encoding.Separation

/-!
The codes of values. A block writes literals of its own variables only, in its clauses and in its
entries (`Isolated`), so it is satisfied and read through these variables, whatever the others are.
The valuations of them that satisfy the clauses are the codes: each reads one value of the domain,
and each value has one. Main statement: codes and values are in bijection, and under the code of a
value decoding yields it and the literals of all words hold as they have to
(`Enters.exists_code`).
-/

namespace Clausify

/-- What a valuation says of the variables after `low` up to `high`. -/
def Valuation.part (low high : Nat) (u : Valuation) : Set.Ioc low high → Bool :=
  (Set.Ioc low high).domRestrict u

theorem Valuation.part_eq_part_iff {low high : Nat} {v u : Valuation} :
    v.part low high = u.part low high ↔ Set.EqOn v u (Set.Ioc low high) :=
  Set.domRestrict_eq_domRestrict_iff

/-- The truth of a known literal beyond the first `low` variables depends on those after them. -/
theorem Literal.Known.holds_congr_beyond {low high : Nat} {l : Literal} {v u : Valuation}
    (hl : l.Known high) (hlow : low < l.var) (h : Set.EqOn v u (Set.Ioc low high)) :
    l.holds v = l.holds u := by
  cases hc : l.isConstant with
  | true => rcases isConstant_iff.mp hc with rfl | rfl <;> simp
  | false =>
    have hvar : v l.var = u l.var := h ⟨hlow, hl.var_le hc⟩
    rw [holds_of_not_constant hc, holds_of_not_constant hc, hvar]

namespace Step

/-- All literals that are written after the first `count` variables are of later ones. -/
structure Isolated (count : Nat) (B : List Step) : Prop where
  clauses : ∀ c ∈ clausesOf B, ∀ l ∈ c, count < l.var
  entries : ∀ k l, Entry B k l → count < l.var

/-! ## Valuations of a block -/

section Block

variable {x : String} {values : List Word} {count : Nat} {B : List Step} {v u : Valuation}
  {w w' : Word}

/-- A block whose entries are for its values and whose clauses keep to later variables is
isolated: an entry that is a constant has the variable set apart. -/
theorem Block.isolated (h : Block x values count B) (hin : Inside values B)
    (hlim : count < Literal.limit) (hown : ∀ c ∈ clausesOf B, ∀ l ∈ c, count < l.var) :
    Isolated count B := by
  refine ⟨hown, fun k l hk => ?_⟩
  cases hc : l.isConstant with
  | true => rwa [Literal.var_of_isConstant hc]
  | false => exact h.entry_fresh hin hk hc

theorem Block.le_of_reads (h : Block x values count B) (hw : w ∈ values)
    (hr : Reads B v fun _ => w) (hr' : Reads B v fun _ => w') : w' ≤ w := by
  obtain ⟨l, hl | ⟨t, hl⟩⟩ := h.decodes w hw
  · have hholds : l.holds v = true := (hr _ hl).mpr rfl
    exact Int64.le_of_eq ((hr' _ hl).mp hholds)
  · have hread := hr _ hl
    have hread' := hr' _ hl
    cases t with
    | minimum => exact hread'.mp (hread.mpr Int64.le_rfl)
    | middle => exact hread'.mp (hread.mpr Int64.le_rfl)
    | maximum => exact Int64.le_of_eq (hread'.mp (hread.mpr rfl))

theorem Block.eq_of_reads (h : Block x values count B) (hw : w ∈ values) (hw' : w' ∈ values)
    (hr : Reads B v fun _ => w) (hr' : Reads B v fun _ => w') : w = w' :=
  Int64.le_antisymm (h.le_of_reads hw' hr' hr) (h.le_of_reads hw hr hr')

section Isolated

variable (h : Block x values count B) (hB : Isolated count B)

include h hB

theorem Isolated.satisfies_congr
    (hagree : Set.EqOn v u (Set.Ioc count (count + freshCount B))) :
    v.Satisfies (clausesOf B) ↔ u.Satisfies (clausesOf B) := by
  refine forall₂_congr fun c hc => ?_
  have hholds : ∀ l ∈ c, l.holds v = l.holds u := by
    intro l hl
    exact (h.known c hc l hl).holds_congr_beyond (hB.clauses c hc l hl) hagree
  rw [Clause.holds_iff, Clause.holds_iff]
  exact exists_congr fun l => and_congr_right fun hl => by rw [hholds l hl]

theorem Isolated.reads_congr (hagree : Set.EqOn v u (Set.Ioc count (count + freshCount B))) :
    Reads B v (fun _ => w) ↔ Reads B u fun _ => w := by
  refine forall₂_congr fun s hs => readsIn_congr_of_entry ?_ fun _ _ _ => rfl
  rintro k l (rfl | rfl | ⟨t, rfl⟩)
  · have hk : Decodes B k l := .inl hs
    exact (h.fresh hk).2.2.holds_congr_beyond (hB.entries k l (.inl hk)) hagree
  · exact (h.owned _ hs).2.holds_congr_beyond (hB.entries k l (.inr hs)) hagree
  · have hk : Decodes B k l := .inr ⟨t, hs⟩
    exact (h.fresh hk).2.2.holds_congr_beyond (hB.entries k l (.inl hk)) hagree

/-- A value has one code: the variables before the block may be exchanged, and then nothing is left
open. -/
theorem Isolated.eqOn_of_reads (hv : v.Satisfies (clausesOf B)) (hu : u.Satisfies (clausesOf B))
    (hrv : Reads B v fun _ => w) (hru : Reads B u fun _ => w) :
    Set.EqOn v u (Set.Ioc count (count + freshCount B)) := by
  obtain ⟨mixed, hmixed⟩ : ∃ mixed : Valuation, mixed = fun k => if k ≤ count then v k else u k :=
    ⟨_, rfl⟩
  have hbefore : v.Agree count mixed := by
    intro k _ hk
    rw [hmixed]
    exact (if_pos hk).symm
  have hown : Set.EqOn u mixed (Set.Ioc count (count + freshCount B)) := by
    intro k hk
    rw [hmixed]
    exact (if_neg (Nat.not_le.mpr hk.1)).symm
  have hsame := h.unique v mixed w hv ((hB.satisfies_congr h hown).mp hu) hrv
    ((hB.reads_congr h hown).mp hru) hbefore
  intro k hk
  calc v k = mixed k := hsame k (Nat.zero_lt_of_lt hk.1) hk.2
    _ = u k := (hown hk).symm

end Isolated

end Block

end Step

/-! ## Values -/

/-- What the mapping makes of a valuation in which the variable has the value: decoding yields it,
whatever the solution lists of variables that are not between `low` and `high`, and where there are
single-value or order literals, those of all words hold as they have to. -/
structure Mapping.Conveys (m : Mapping) (low high : Nat) (u : Valuation) (x : String) (w : Word) :
    Prop where
  decode : ∀ solution : Solution, solution.Shows low high u →
    (m.decode solution).lookup x = some w
  direct : m.has x .directOnly = true →
    ∀ word, (m.directLiteral x word).holds u = true ↔ word = w
  order : m.has x .orderOnly = true →
    ∀ word, ∃ l, m.orderLiteral x word = .ok l ∧ (l.holds u = true ↔ w ≤ word)

namespace Step

variable {m : Mapping} {T H B : List Step} {x : String} {d : Domain} {u : Valuation} {w : Word}

theorem Enters.owns (hE : Enters x d T H B) (hT : Represented T) :
    Mapping.Owns (T ++ (H ++ B)) x (freshCount T) (freshCount T + freshCount B) := by
  intro k l hk hx
  rcases hE.decodes_iff.mp hk with hk | hk
  · exact absurd hx (hE.var_ne hT (.inl hk))
  · obtain ⟨hlow, hc, hknown⟩ := hE.block.fresh hk
    exact ⟨hlow, hknown.var_le hc⟩

theorem Enters.conveys (hE : Enters x d T H B) (hm : m.Lists (T ++ (H ++ B)))
    (hT : Represented T) (hw : w ∈ d) (hr : Reads B u fun _ => w) :
    m.Conveys (freshCount T) (freshCount T + freshCount B) u x w := by
  have hT' := hT.append_variable hE
  have hread := hE.readsAt hT hr
  have hx : .domain x d ∈ T ++ (H ++ B) := hE.domain_mem_iff.mpr (.inr ⟨rfl, rfl⟩)
  have hdomain : ∀ d', .domain x d' ∈ T ++ (H ++ B) → w ∈ d' := by
    intro d' hd'
    rcases hE.domain_mem_iff.mp hd' with hd' | ⟨-, rfl⟩
    · exact absurd hd' (hE.free d')
    · exact hw
  refine ⟨fun solution hsol => ?_, fun hhas word => ?_, fun hhas word => ?_⟩
  · exact Mapping.lookup_decode_of_shows hm hread (hE.owns hT) hsol hT' hx hw
  · have hdirect : (m.representation x).direct = true := by
      simpa [Mapping.has, Representation.has, Representation.directOnly] using hhas
    rw [Mapping.holds_directLiteral_at hm hT' hdirect hread hdomain, eq_comm]
  · have horder : (m.representation x).order = true := by
      simpa [Mapping.has, Representation.has, Representation.orderOnly] using hhas
    obtain ⟨l, hl⟩ := Mapping.exists_orderLiteral hm hT' horder word
    exact ⟨l, hl, Mapping.holds_orderLiteral_at hm hl hread hdomain⟩

/-- The valuations of a new variable's own variables that satisfy its clauses are in bijection with
the values of its domain, and each of them conveys its value. -/
theorem Enters.exists_code {low high : Nat} (hE : Enters x d T H B)
    (hm : m.Lists (T ++ (H ++ B))) (hT : Represented T) (hB : Isolated (freshCount T) B)
    (hlow : low = freshCount T) (hhigh : high = freshCount T + freshCount B) :
    ∃ code : Word → Set.Ioc low high → Bool,
      Set.BijOn code {w | w ∈ d} (Set.image (Valuation.part low high)
        {u | u.Satisfies (clausesOf B)}) ∧
      ∀ w ∈ d, ∀ u : Valuation, u.part low high = code w →
        u.Satisfies (clausesOf B) ∧ m.Conveys low high u x w := by
  subst hlow hhigh
  have hblock := hE.block
  have hvalues : ∀ {w}, w ∈ d → w ∈ d.values := Domain.mem_values.mpr
  have hpick : ∀ w, ∃ u : Valuation, w ∈ d →
      u.Satisfies (clausesOf B) ∧ Reads B u fun _ => w := by
    intro w
    by_cases hw : w ∈ d
    · obtain ⟨u, -, hsat, hr⟩ := hblock.complete (fun _ => false) w (hvalues hw)
      exact ⟨u, fun _ => ⟨hsat, hr⟩⟩
    · exact ⟨fun _ => false, fun h => absurd h hw⟩
  choose pick hpick using hpick
  -- the part of a valuation that is a code is all that the block looks at
  have hcode : ∀ w ∈ d, ∀ u : Valuation,
      u.part (freshCount T) (freshCount T + freshCount B) = (pick w).part _ _ →
      u.Satisfies (clausesOf B) ∧ Reads B u fun _ => w := by
    intro w hw u hu
    have hagree := Valuation.part_eq_part_iff.mp hu.symm
    obtain ⟨hsat, hr⟩ := hpick w hw
    exact ⟨(hB.satisfies_congr hblock hagree).mp hsat, (hB.reads_congr hblock hagree).mp hr⟩
  refine ⟨fun w => (pick w).part _ _, ⟨?_, ?_, ?_⟩, ?_⟩
  · intro w hw
    exact ⟨pick w, (hpick w hw).1, rfl⟩
  · intro w hw w' hw' heq
    exact hblock.eq_of_reads (hvalues hw) (hvalues hw') (hpick w hw).2 (hcode w' hw' _ heq).2
  · rintro - ⟨u, hu, rfl⟩
    obtain ⟨w, hw, hr⟩ := hblock.sound u hu
    have hwd := Domain.mem_values.mp hw
    refine ⟨w, hwd, Valuation.part_eq_part_iff.mpr ?_⟩
    exact hB.eqOn_of_reads hblock (hpick w hwd).1 hu (hpick w hwd).2 hr
  · intro w hw u hu
    obtain ⟨hsat, hr⟩ := hcode w hw u hu
    exact ⟨hsat, hE.conveys hm hT hw hr⟩

end Step

end Clausify
