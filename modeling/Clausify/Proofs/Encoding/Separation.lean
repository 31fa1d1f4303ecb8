import Mathlib
import Clausify.Proofs.Encoding.Scope

/-!
Literals of different variables are apart. Within a variable literals are shared on purpose: the
first value has one literal in two tables, the last value the negation of a bound, and of two values
one literal serves both. What keeps single values apart is their meaning, not their numbers: a block
can be read as any value of its variable, and the reading of one value gives the literal of another
the opposite truth (`Block.direct_inj`). In the same way an order literal of a block cannot be
settled by the variables before it, so it is one of the block's own or a constant
(`Block.order_fresh`). So a new variable keeps all entries separate (`Separate.append_variable`).
Main statement: the tables of separate entries are tidy (`Mapping.Lists.tidy`).
-/

namespace Clausify

namespace Step

/-- The literal is entered for the key, for decoding or as an order literal. -/
def Entry (T : List Step) (k : Key) (l : Literal) : Prop := Decodes T k l ∨ .order k l ∈ T

/-- No two values have the same literal, and no two variables have literals of the same
propositional variable. -/
structure Separate (T : List Step) : Prop where
  injective : ∀ k k' l, .direct k l ∈ T → .direct k' l ∈ T → k = k'
  apart : ∀ k k' l l', Entry T k l → Entry T k' l' → l.isConstant = false →
    l'.isConstant = false → l.var = l'.var → k.var = k'.var

theorem not_entry_of_silent {T : List Step} (h : ∀ s ∈ T, s.Silent) {k : Key} {l : Literal} :
    ¬ Entry T k l := by
  rintro ((hk | ⟨t, hk⟩) | hk) <;> exact (h _ hk).elim

theorem separate_of_silent {T : List Step} (h : ∀ s ∈ T, s.Silent) : Separate T where
  injective _ _ _ hk _ := absurd (.inl (.inl hk)) (not_entry_of_silent h)
  apart _ _ _ _ hk _ _ _ _ := absurd hk (not_entry_of_silent h)

/-! ## The entries of a block -/

section Block

variable {x : String} {values : List Word} {count : Nat} {B : List Step} {k k' : Key}
  {l : Literal}

theorem Block.direct_inj (h : Block x values count B) (hk : .direct k l ∈ B)
    (hk' : .direct k' l ∈ B) (hin : k.value ∈ values) : k = k' := by
  obtain ⟨u, -, -, hreads⟩ := h.complete (fun _ => false) k.value hin
  have hholds : l.holds u = true := (hreads _ hk).mpr rfl
  have hvalue : k.value = k'.value := (hreads _ hk').mp hholds
  have hvar : k.var = k'.var := by
    rw [h.var_eq (.inl (.inl hk)), h.var_eq (.inl (.inl hk'))]
  cases k
  cases k'
  simp_all

/-- Some valuation makes a literal false that is not constant. -/
theorem exists_not_holds (hc : l.isConstant = false) : ∃ v : Valuation, l.holds v = false := by
  refine ⟨fun _ => !l.isPositive, ?_⟩
  rw [Literal.holds_of_not_constant hc]
  cases l.isPositive <;> rfl

/-- An order literal of a block is a constant or has a variable of the block. -/
theorem Block.order_fresh (h : Block x values count B) (hk : .order k l ∈ B)
    (hin : k.value ∈ values) (hc : l.isConstant = false) : count < l.var := by
  by_contra hle
  have hknown : l.Known count := by
    rcases (h.owned _ hk).2 with hconst | ⟨hpos, -, hlim⟩
    · simp [hc] at hconst
    · exact .inr ⟨hpos, Nat.not_lt.mp hle, hlim⟩
  -- the variables before the block make the literal false, its own value makes it true
  obtain ⟨v, hv⟩ := exists_not_holds hc
  obtain ⟨u, hagree, -, hreads⟩ := h.complete v k.value hin
  have htrue : l.holds u = true := (hreads _ hk).mpr Int64.le_rfl
  rw [← hknown.holds_congr hagree, hv] at htrue
  simp at htrue

/-- Literals are entered for values in the list. -/
def Inside (values : List Word) (B : List Step) : Prop :=
  ∀ k l, .direct k l ∈ B ∨ .order k l ∈ B → k.value ∈ values

theorem Block.entry_fresh (h : Block x values count B) (hin : Inside values B)
    (hk : Entry B k l) (hc : l.isConstant = false) : count < l.var := by
  rcases hk with hk | hk
  · exact (h.fresh hk).1
  · exact h.order_fresh hk (hin k l (.inr hk)) hc

end Block

theorem inside_shapeSteps (settings : Settings) (count : Nat) (v : Variable) (constrained : Bool)
    (needs : Representation) : Inside v.domain.values (Encoding.shapeSteps settings count v
      constrained (Shape.choose settings v.domain.size needs)) := by
  obtain ⟨hdirect, horder⟩ := shapeSteps_inside settings count v constrained needs
  intro k l hk
  have hmem : k ∈ v.domain.values.map (Key.mk v.name) := by
    rcases hk with hk | hk
    · exact hdirect (mem_directKeys.mpr ⟨l, hk⟩)
    · exact horder (mem_orderKeys.mpr ⟨l, hk⟩)
  obtain ⟨w, hw, rfl⟩ := List.mem_map.mp hmem
  exact hw

/-! ## One more variable -/

section Append

variable {T H B : List Step} {x : String} {d : Domain} {k : Key} {l : Literal}

theorem Represented.var_entry (hT : Represented T) (hk : Entry T k l)
    (hc : l.isConstant = false) : 0 < l.var ∧ l.var ≤ freshCount T := by
  have hknown : l.Known (freshCount T) := by
    rcases hk with hk | hk
    · exact (hT.known k l hk).2
    · exact hT.knownOrder k l hk
  exact ⟨hknown.var_pos, hknown.var_le hc⟩

theorem Enters.entry_iff (h : Enters x d T H B) :
    Entry (T ++ (H ++ B)) k l ↔ Entry T k l ∨ Entry B k l := by
  rw [Entry, h.decodes_iff, h.entry_mem_iff id (by simp), Entry, Entry]
  exact or_or_or_comm

/-- A new variable keeps the entries separate: its literals are of variables allocated for it, and
those of the others were allocated before. -/
theorem Separate.append_variable (hS : Separate T) (hT : Represented T) (h : Enters x d T H B)
    (hin : Inside d.values B) : Separate (T ++ (H ++ B)) := by
  -- old literals are at most the count, new ones above it
  have hold : ∀ {k l}, Entry T k l → l.isConstant = false → l.var ≤ freshCount T :=
    fun hk hc => (hT.var_entry hk hc).2
  have hnew : ∀ {k l}, Entry B k l → l.isConstant = false → freshCount T < l.var :=
    fun hk hc => h.block.entry_fresh hin hk hc
  constructor
  · intro k k' l hk hk'
    rw [h.entry_mem_iff id (by simp)] at hk hk'
    rcases hk with hk | hk <;> rcases hk' with hk' | hk'
    · exact hS.injective k k' l hk hk'
    · have hc := (hT.known k l (.inl hk)).1
      have := hold (.inl (.inl hk)) hc
      have := hnew (.inl (.inl hk')) hc
      omega
    · have hc := (hT.known k' l (.inl hk')).1
      have := hold (.inl (.inl hk')) hc
      have := hnew (.inl (.inl hk)) hc
      omega
    · exact h.block.direct_inj hk hk' (hin k l (.inl hk))
  · intro k k' l l' hk hk' hc hc' hvar
    rw [h.entry_iff] at hk hk'
    rcases hk with hk | hk <;> rcases hk' with hk' | hk'
    · exact hS.apart k k' l l' hk hk' hc hc' hvar
    · have := hold hk hc
      have := hnew hk' hc'
      omega
    · have := hold hk' hc'
      have := hnew hk hc
      omega
    · rw [h.block.var_eq hk, h.block.var_eq hk']

end Append

end Step

/-! ## Tables -/

namespace Mapping

/-- The literal stands in a table under or beside the key. -/
def Holds (m : Mapping) (k : Key) (l : Literal) : Prop :=
  m.direct[k]? = some l ∨ m.order[k]? = some l ∨ m.decoding[l]? = some k ∨
    ∃ t, (m.boundTable t)[l]? = some k

/-- Single-value literals are decoded to the pair they were entered for, no literal serves two
pairs, no propositional variable two variables, and all of them are among the first `count`. -/
structure Tidy (count : Nat) (m : Mapping) : Prop where
  lookup : ∀ x d w, m.domains[x]? = some d → m.has x .directOnly = true → w ∈ d →
    m.lookup (m.directLiteral x w) = some ⟨x, w⟩
  injective : ∀ (k k' : Key) (l : Literal), m.direct[k]? = some l → m.direct[k']? = some l → k = k'
  apart : ∀ k k' l l', m.Holds k l → m.Holds k' l' → l.isConstant = false →
    l'.isConstant = false → k.var ≠ k'.var → l.var ≠ l'.var
  allocated : ∀ k l, m.Holds k l → l.isConstant = false → 0 < l.var ∧ l.var ≤ count

theorem Tidy.mono {m : Mapping} {count count' : Nat} (h : m.Tidy count) (hle : count ≤ count') :
    m.Tidy count' :=
  ⟨h.lookup, h.injective, h.apart, fun k l hk hc =>
    ⟨(h.allocated k l hk hc).1, Nat.le_trans (h.allocated k l hk hc).2 hle⟩⟩

variable {m : Mapping} {T : List Step}

theorem Lists.entry (hm : m.Lists T) {k : Key} {l : Literal} (h : m.Holds k l) :
    Step.Entry T k l := by
  rcases h with h | h | h | ⟨t, h⟩
  · exact .inl (.inl ((hm.direct k l).mp h))
  · exact .inr ((hm.order k l).mp h)
  · exact .inl (.inl (hm.decoding l k h))
  · exact .inl (.inr ⟨t, hm.bound t l k h⟩)

/-- The literal of a value is decoded to the value, since no other value has it. -/
theorem Lists.lookup_directLiteral (hm : m.Lists T) (hT : Step.Represented T)
    (hS : Step.Separate T) {x : String} {d : Domain} {w : Word} (hd : m.domains[x]? = some d)
    (hx : (m.representation x).direct = true) (hw : w ∈ d) :
    m.lookup (m.directLiteral x w) = some ⟨x, w⟩ := by
  obtain ⟨d', hd', hentry⟩ := exists_direct hm hT hx
  rw [← hm.domains, hd, Option.some_inj] at hd'
  obtain ⟨l, hl⟩ := hentry w (hd' ▸ hw)
  have hmem := (hm.direct _ l).mp hl
  obtain ⟨k, hk⟩ := hm.decoded _ l hmem (hT.known _ l (.inl hmem)).1
  rw [directLiteral, hl, Option.getD_some, lookup, hk, hS.injective k _ l (hm.decoding l k hk) hmem]

theorem Lists.tidy (hm : m.Lists T) (hT : Step.Represented T) (hS : Step.Separate T) :
    m.Tidy (Step.freshCount T) where
  lookup x d w hd hx hw := by
    refine hm.lookup_directLiteral hT hS hd ?_ hw
    simpa [has, Representation.has, Representation.directOnly] using hx
  injective k k' l hk hk' := hS.injective k k' l ((hm.direct k l).mp hk) ((hm.direct k' l).mp hk')
  apart k k' l l' hk hk' hc hc' hne hvar :=
    hne (hS.apart k k' l l' (hm.entry hk) (hm.entry hk') hc hc' hvar)
  allocated k l hk hc := hT.var_entry (hm.entry hk) hc

end Mapping

end Clausify
