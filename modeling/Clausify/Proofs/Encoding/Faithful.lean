import Mathlib
import Clausify.Proofs.Domain.Members
import Clausify.Proofs.Encoding.Shape

/-!
Encodings built step by step. The steps taken so far represent variables when each of them has its
block (`Represented`), and they are faithful to a set of assignments when the valuations that
satisfy the clauses read exactly these assignments off the steps (`Faithful`). The steps of a new
variable keep both and add the values of its domain (`Represented.append_variable`,
`Faithful.append_variable`); clauses that say something about the values that are read cut the set
of assignments down to it (`Faithful.append_asserts`).
-/

namespace Clausify.Step

/-- The literal is entered for decoding the key. -/
def Decodes (T : List Step) (k : Key) (l : Literal) : Prop :=
  .direct k l ∈ T ∨ ∃ t, .bound t k l ∈ T

/-- Every variable that is entered has a value of its domain. -/
def InDomains (T : List Step) (a : String → Word) : Prop := ∀ x d, .domain x d ∈ T → a x ∈ d

/-- Every variable that is entered has literals of its own from which its value can be told. -/
structure Represented (T : List Step) : Prop where
  known : ∀ k l, Decodes T k l → l.isConstant = false ∧ l.Known (freshCount T)
  knownOrder : ∀ k l, .order k l ∈ T → l.Known (freshCount T)
  mapped : ∀ k l, Decodes T k l ∨ .order k l ∈ T → ∃ d, .domain k.var d ∈ T
  owner : ∀ k k' l, Decodes T k l → Decodes T k' l → k.var = k'.var
  decodes : ∀ x d, .domain x d ∈ T → ∀ w ∈ d, ∃ l, Decodes T ⟨x, w⟩ l
  distinct : ∀ t k k' l, .bound t k l ∈ T → .bound t k' l ∈ T → k = k'
  direct : ∀ x d, .domain x d ∈ T → ∀ k l, k.var = x → .direct k l ∈ T →
    ∀ w ∈ d, ∃ m, .direct ⟨x, w⟩ m ∈ T
  order : ∀ x d, .domain x d ∈ T → ∀ k l, k.var = x → .order k l ∈ T →
    ∀ w ∈ d, (∃ u ∈ d, w < u) → ∃ m, .order ⟨x, w⟩ m ∈ T

theorem represented_nil : Represented [] := by
  constructor <;> simp [Decodes]

section Append

variable {T U : List Step}

theorem Decodes.append_left {k : Key} {l : Literal} (h : Decodes T k l) : Decodes (T ++ U) k l :=
  h.imp (List.mem_append_left _) fun ⟨t, ht⟩ => ⟨t, List.mem_append_left _ ht⟩

theorem Decodes.append_right {k : Key} {l : Literal} (h : Decodes U k l) : Decodes (T ++ U) k l :=
  h.imp (List.mem_append_right _) fun ⟨t, ht⟩ => ⟨t, List.mem_append_right _ ht⟩

theorem decodes_append {k : Key} {l : Literal} :
    Decodes (T ++ U) k l ↔ Decodes T k l ∨ Decodes U k l := by
  refine ⟨?_, fun h => h.elim Decodes.append_left Decodes.append_right⟩
  rintro (h | ⟨t, h⟩)
  · exact (List.mem_append.mp h).imp .inl .inl
  · exact (List.mem_append.mp h).imp (fun h => .inr ⟨t, h⟩) fun h => .inr ⟨t, h⟩

theorem mem_append_silent (hU : ∀ s ∈ U, s.Silent) {s : Step} (hs : ¬ s.Silent) :
    s ∈ T ++ U ↔ s ∈ T := by
  rw [List.mem_append]
  exact or_iff_left fun h => hs (hU s h)

theorem decodes_append_silent (hU : ∀ s ∈ U, s.Silent) {k : Key} {l : Literal} :
    Decodes (T ++ U) k l ↔ Decodes T k l := by
  simp only [Decodes]
  rw [mem_append_silent hU id]
  refine or_congr_right (exists_congr fun t => ?_)
  rw [mem_append_silent hU id]

theorem freshCount_le_append : freshCount T ≤ freshCount (T ++ U) := by
  rw [freshCount_append]
  exact Nat.le_add_right _ _

theorem Represented.append_silent (h : Represented T) (hU : ∀ s ∈ U, s.Silent) :
    Represented (T ++ U) where
  known k l hk := by
    rw [decodes_append_silent hU] at hk
    exact ⟨(h.known k l hk).1, (h.known k l hk).2.mono freshCount_le_append⟩
  knownOrder k l hk := by
    rw [mem_append_silent hU id] at hk
    exact (h.knownOrder k l hk).mono freshCount_le_append
  mapped k l hk := by
    rw [decodes_append_silent hU, mem_append_silent hU id] at hk
    obtain ⟨d, hd⟩ := h.mapped k l hk
    exact ⟨d, List.mem_append_left _ hd⟩
  owner k k' l hk hk' := by
    rw [decodes_append_silent hU] at hk hk'
    exact h.owner k k' l hk hk'
  decodes x d hd w hw := by
    rw [mem_append_silent hU id] at hd
    obtain ⟨l, hl⟩ := h.decodes x d hd w hw
    exact ⟨l, hl.append_left⟩
  distinct t k k' l hk hk' := by
    rw [mem_append_silent hU id] at hk hk'
    exact h.distinct t k k' l hk hk'
  direct x d hd k l hk hl w hw := by
    rw [mem_append_silent hU id] at hd hl
    obtain ⟨m, hm⟩ := h.direct x d hd k l hk hl w hw
    exact ⟨m, List.mem_append_left _ hm⟩
  order x d hd k l hk hl w hw hu := by
    rw [mem_append_silent hU id] at hd hl
    obtain ⟨m, hm⟩ := h.order x d hd k l hk hl w hw hu
    exact ⟨m, List.mem_append_left _ hm⟩

end Append

/-- Steps that allocate variables and write nothing. -/
def spare (n : Nat) : List Step := (Emission.allocate n).map .emit

theorem silent_spare (n : Nat) : ∀ s ∈ spare n, s.Silent := by
  intro s hs
  obtain ⟨emission, -, rfl⟩ := List.mem_map.mp hs
  trivial

@[simp] theorem freshCount_spare (n : Nat) : freshCount (spare n) = n := by
  rw [spare, freshCount, emissions_map_emit, Emission.freshCount_allocate]

@[simp] theorem clausesOf_spare (n : Nat) : clausesOf (spare n) = [] := by
  rw [spare, clausesOf, emissions_map_emit, Emission.clausesOf_allocate]

/-! ## The entries of a block -/

section Block

variable {x : String} {values : List Word} {count : Nat} {B : List Step}

theorem Block.var_eq (h : Block x values count B) {k : Key} {l : Literal}
    (hk : Decodes B k l ∨ .order k l ∈ B) : k.var = x := by
  rcases hk with (hk | ⟨t, hk⟩) | hk <;> exact (h.owned _ hk).1

theorem Block.fresh (h : Block x values count B) {k : Key} {l : Literal} (hk : Decodes B k l) :
    count < l.var ∧ l.isConstant = false ∧ l.Known (count + freshCount B) := by
  rcases hk with hk | ⟨t, hk⟩ <;> exact (h.owned _ hk).2

theorem Block.domain_not_mem (h : Block x values count B) (y : String) (d : Domain) :
    .domain y d ∉ B := fun hmem => h.owned _ hmem

theorem Block.reads_iff (h : Block x values count B) {v : Valuation} {a : String → Word} {w : Word}
    (ha : a x = w) : Reads B v a ↔ Reads B v fun _ => w :=
  forall₂_congr fun s hs => (h.owned s hs).readsIn_value ha

end Block

/-! ## One more variable -/

section Variable

variable {T H B : List Step} {x : String} {d : Domain}

/-- The entry of a variable, with comments around it, and its block. -/
structure Enters (x : String) (d : Domain) (T H B : List Step) : Prop where
  free : ∀ d', .domain x d' ∉ T
  entry : .domain x d ∈ H
  only : ∀ s ∈ H, s = .domain x d ∨ s.Silent
  quiet : emissions H = []
  block : Block x d.values (freshCount T) B

theorem Enters.freshCount_eq (h : Enters x d T H B) :
    Step.freshCount (T ++ (H ++ B)) = Step.freshCount T + Step.freshCount B := by
  simp [Step.freshCount, h.quiet]

theorem Enters.clausesOf_eq (h : Enters x d T H B) :
    Step.clausesOf (T ++ (H ++ B)) = Step.clausesOf T ++ Step.clausesOf B := by
  simp [Step.clausesOf, h.quiet]

theorem Enters.domain_mem_iff (h : Enters x d T H B) {y : String} {d' : Domain} :
    .domain y d' ∈ T ++ (H ++ B) ↔ .domain y d' ∈ T ∨ (y = x ∧ d' = d) := by
  simp only [List.mem_append, h.block.domain_not_mem, or_false]
  refine or_congr_right ⟨fun hmem => ?_, ?_⟩
  · rcases h.only _ hmem with heq | hs
    · simpa using heq
    · exact hs.elim
  · rintro ⟨rfl, rfl⟩
    exact h.entry

theorem Enters.entry_mem_iff (h : Enters x d T H B) {s : Step} (hs : ¬ s.Silent)
    (hd : ∀ y d', s ≠ .domain y d') : s ∈ T ++ (H ++ B) ↔ s ∈ T ∨ s ∈ B := by
  have hH : s ∉ H := by
    intro hmem
    rcases h.only s hmem with heq | hs'
    · exact hd x d heq
    · exact hs hs'
  simp [List.mem_append, hH]

theorem Enters.decodes_iff (h : Enters x d T H B) {k : Key} {l : Literal} :
    Decodes (T ++ (H ++ B)) k l ↔ Decodes T k l ∨ Decodes B k l := by
  have hH : ¬ Decodes H k l := by
    rintro (hmem | ⟨t, hmem⟩) <;> rcases h.only _ hmem with heq | hs'
    · simp at heq
    · exact hs'
    · simp at heq
    · exact hs'
  rw [decodes_append, decodes_append]
  simp [hH]

theorem Enters.var_ne (h : Enters x d T H B) (hT : Represented T) {k : Key} {l : Literal}
    (hk : Decodes T k l ∨ .order k l ∈ T) : k.var ≠ x := by
  rintro rfl
  obtain ⟨d', hd'⟩ := hT.mapped k l hk
  exact h.free d' hd'

theorem Enters.mem_block (h : Enters x d T H B) (hT : Represented T) {k : Key} {l : Literal}
    (hk : k.var = x) : (.direct k l ∈ T ++ (H ++ B) → .direct k l ∈ B) ∧
      (.order k l ∈ T ++ (H ++ B) → .order k l ∈ B) := by
  constructor
  · intro hmem
    rcases (h.entry_mem_iff id (by simp)).mp hmem with hmem | hmem
    · exact absurd hk (h.var_ne hT (.inl (.inl hmem)))
    · exact hmem
  · intro hmem
    rcases (h.entry_mem_iff id (by simp)).mp hmem with hmem | hmem
    · exact absurd hk (h.var_ne hT (.inr hmem))
    · exact hmem

theorem Enters.mem_old (h : Enters x d T H B) {k : Key} {l : Literal} {d' : Domain}
    (hd' : .domain k.var d' ∈ T) : (.direct k l ∈ T ++ (H ++ B) → .direct k l ∈ T) ∧
      (.order k l ∈ T ++ (H ++ B) → .order k l ∈ T) := by
  constructor
  · intro hmem
    refine ((h.entry_mem_iff id (by simp)).mp hmem).resolve_right fun hB => ?_
    rw [h.block.var_eq (.inl (.inl hB))] at hd'
    exact h.free d' hd'
  · intro hmem
    refine ((h.entry_mem_iff id (by simp)).mp hmem).resolve_right fun hB => ?_
    rw [h.block.var_eq (.inr hB)] at hd'
    exact h.free d' hd'

/-- A literal by which an old variable is decoded is not fresh, so the block decodes by another. -/
theorem Enters.apart (h : Enters x d T H B) (hT : Represented T) {k k' : Key} {l : Literal}
    (hk : Decodes T k l) : ¬ Decodes B k' l := by
  intro hk'
  obtain ⟨hconst, hknown⟩ := hT.known k l hk
  have hold : l.var ≤ Step.freshCount T := hknown.var_le hconst
  have hnew : Step.freshCount T < l.var := (h.block.fresh hk').1
  omega

theorem Represented.append_variable (hT : Represented T) (h : Enters x d T H B) :
    Represented (T ++ (H ++ B)) where
  known k l hk := by
    rcases h.decodes_iff.mp hk with hk | hk
    · exact ⟨(hT.known k l hk).1, (hT.known k l hk).2.mono freshCount_le_append⟩
    · obtain ⟨-, hconst, hknown⟩ := h.block.fresh hk
      rw [h.freshCount_eq]
      exact ⟨hconst, hknown⟩
  knownOrder k l hk := by
    rcases (h.entry_mem_iff id (by simp)).mp hk with hk | hk
    · exact (hT.knownOrder k l hk).mono freshCount_le_append
    · rw [h.freshCount_eq]
      exact (h.block.owned _ hk).2
  mapped k l hk := by
    have hcase : (Decodes T k l ∨ .order k l ∈ T) ∨ (Decodes B k l ∨ .order k l ∈ B) := by
      rw [h.decodes_iff, h.entry_mem_iff id (by simp)] at hk
      tauto
    rcases hcase with hk | hk
    · obtain ⟨d', hd'⟩ := hT.mapped k l hk
      exact ⟨d', List.mem_append_left _ hd'⟩
    · exact ⟨d, h.domain_mem_iff.mpr (.inr ⟨h.block.var_eq hk, rfl⟩)⟩
  owner k k' l hk hk' := by
    -- the block has literals of its own, so no literal is entered on both sides
    rcases h.decodes_iff.mp hk with hk | hk <;> rcases h.decodes_iff.mp hk' with hk' | hk'
    · exact hT.owner k k' l hk hk'
    · exact absurd hk' (h.apart hT hk)
    · exact absurd hk (h.apart hT hk')
    · rw [h.block.var_eq (.inl hk), h.block.var_eq (.inl hk')]
  decodes y d' hd' w hw := by
    rcases h.domain_mem_iff.mp hd' with hd' | ⟨rfl, rfl⟩
    · obtain ⟨l, hl⟩ := hT.decodes y d' hd' w hw
      exact ⟨l, hl.append_left⟩
    · obtain ⟨l, hl⟩ := h.block.decodes w (Domain.mem_values.mpr hw)
      exact ⟨l, h.decodes_iff.mpr (.inr hl)⟩
  distinct t k k' l hk hk' := by
    rw [h.entry_mem_iff id (by simp)] at hk hk'
    rcases hk with hk | hk <;> rcases hk' with hk' | hk'
    · exact hT.distinct t k k' l hk hk'
    · exact absurd (.inr ⟨t, hk'⟩) (h.apart hT (.inr ⟨t, hk⟩))
    · exact absurd (.inr ⟨t, hk⟩) (h.apart hT (.inr ⟨t, hk'⟩))
    · exact h.block.distinct t k k' l hk hk'
  direct y d' hd' k l hk hl w hw := by
    subst hk
    -- a declared variable has its entries among the old steps or in the block
    rcases h.domain_mem_iff.mp hd' with hd' | ⟨hx, rfl⟩
    · obtain ⟨m, hm⟩ := hT.direct _ d' hd' k l rfl ((h.mem_old hd').1 hl) w hw
      exact ⟨m, List.mem_append_left _ hm⟩
    · obtain ⟨m, hm⟩ := h.block.direct k l ((h.mem_block hT hx).1 hl) w (Domain.mem_values.mpr hw)
      rw [hx]
      exact ⟨m, List.mem_append_right _ (List.mem_append_right _ hm)⟩
  order y d' hd' k l hk hl w hw hu := by
    subst hk
    rcases h.domain_mem_iff.mp hd' with hd' | ⟨hx, rfl⟩
    · obtain ⟨m, hm⟩ := hT.order _ d' hd' k l rfl ((h.mem_old hd').2 hl) w hw hu
      exact ⟨m, List.mem_append_left _ hm⟩
    · obtain ⟨u, hu, hlt⟩ := hu
      obtain ⟨m, hm⟩ := h.block.order k l ((h.mem_block hT hx).2 hl) w (Domain.mem_values.mpr hw)
        ⟨u, Domain.mem_values.mpr hu, hlt⟩
      rw [hx]
      exact ⟨m, List.mem_append_right _ (List.mem_append_right _ hm)⟩

end Variable

/-! ## Reading and satisfying -/

section Reads

variable {T : List Step} {v u : Valuation} {a b : String → Word}

theorem readsIn_congr_of_entry {s : Step}
    (hv : ∀ k l, s = .direct k l ∨ s = .order k l ∨ (∃ t, s = .bound t k l) →
      l.holds v = l.holds u)
    (hab : ∀ k l, s = .direct k l ∨ s = .order k l ∨ (∃ t, s = .bound t k l) →
      a k.var = b k.var) : s.ReadsIn v a ↔ s.ReadsIn u b := by
  cases s with
  | direct k l => simp only [ReadsIn, hv k l (.inl rfl), hab k l (.inl rfl)]
  | order k l => simp only [ReadsIn, hv k l (.inr (.inl rfl)), hab k l (.inr (.inl rfl))]
  | bound t k l =>
    cases t <;>
      simp only [ReadsIn, hv k l (.inr (.inr ⟨_, rfl⟩)), hab k l (.inr (.inr ⟨_, rfl⟩))]
  | _ => rfl

/-- What is read off represented variables depends on their literals and values only. -/
theorem Represented.reads_congr (hT : Represented T) (hv : v.Agree (freshCount T) u)
    (hab : ∀ x d, .domain x d ∈ T → a x = b x) : Reads T v a ↔ Reads T u b := by
  refine forall₂_congr fun s hs => readsIn_congr_of_entry ?_ ?_
  · rintro k l (rfl | rfl | ⟨t, rfl⟩)
    · exact (hT.known k l (.inl hs)).2.holds_congr hv
    · exact (hT.knownOrder k l hs).holds_congr hv
    · exact (hT.known k l (.inr ⟨t, hs⟩)).2.holds_congr hv
  · intro k l hcase
    have hentry : Decodes T k l ∨ .order k l ∈ T := by
      rcases hcase with rfl | rfl | ⟨t, rfl⟩
      · exact .inl (.inl hs)
      · exact .inr hs
      · exact .inl (.inr ⟨t, hs⟩)
    obtain ⟨d, hd⟩ := hT.mapped k l hentry
    exact hab k.var d hd

/-- The step enters a literal of the variable. -/
def About (x : String) : Step → Prop
  | .direct k _ | .order k _ | .bound _ k _ => k.var = x
  | _ => False

/-- The valuation reads the value of one variable off the steps. -/
def ReadsAt (T : List Step) (v : Valuation) (x : String) (w : Word) : Prop :=
  ∀ s ∈ T, s.About x → s.ReadsIn v fun _ => w

theorem Reads.at (h : Reads T v a) (x : String) : ReadsAt T v x (a x) := by
  intro s hs hx
  refine (readsIn_congr_of_entry (fun _ _ _ => rfl) ?_).mp (h s hs)
  rintro k l (rfl | rfl | ⟨t, rfl⟩) <;> rw [show k.var = x from hx]

theorem Enters.readsAt {x : String} {d : Domain} {H B : List Step} (h : Enters x d T H B)
    (hT : Represented T) {w : Word} (hr : Reads B v fun _ => w) :
    ReadsAt (T ++ (H ++ B)) v x w := by
  intro s hs hx
  rcases List.mem_append.mp hs with hs | hs
  · -- no old step is about it
    cases s with
    | direct k l => exact absurd hx (h.var_ne hT (.inl (.inl hs)))
    | order k l => exact absurd hx (h.var_ne hT (.inr hs))
    | bound t k l => exact absurd hx (h.var_ne hT (.inl (.inr ⟨t, hs⟩)))
    | _ => exact hx.elim
  rcases List.mem_append.mp hs with hs | hs
  · rcases h.only s hs with rfl | hsilent
    · exact hx.elim
    · exact hsilent.readsIn v _
  · exact hr s hs

end Reads

/-- The valuations that satisfy the clauses read exactly the assignments in the set and, where
auxiliary variables are to be determined, only one of them reads each. -/
structure Faithful (determined : Prop) (T : List Step) (S : (String → Word) → Prop) : Prop where
  known : ∀ c ∈ clausesOf T, c.Known (freshCount T)
  sound : ∀ v : Valuation, v.Satisfies (clausesOf T) → ∃ a, S a ∧ Reads T v a
  complete : ∀ a, S a → ∃ v : Valuation, v.Satisfies (clausesOf T) ∧ Reads T v a
  unique : determined → ∀ (v u : Valuation) (a : String → Word), v.Satisfies (clausesOf T) →
    u.Satisfies (clausesOf T) → Reads T v a → Reads T u a → v.Agree (freshCount T) u

theorem faithful_nil (determined : Prop) : Faithful determined [] (InDomains []) where
  known := by simp
  sound v _ := ⟨fun _ => 0, by simp [InDomains], reads_nil⟩
  complete a _ := ⟨fun _ => false, by simp, reads_nil⟩
  unique _ v u a _ _ _ _ := by
    intro k h0 hk
    simp only [freshCount_nil, Nat.le_zero] at hk
    omega

section Steps

variable {determined : Prop} {T : List Step} {S : (String → Word) → Prop}

theorem Faithful.congr {S' : (String → Word) → Prop} (h : Faithful determined T S)
    (hS : ∀ a, S a ↔ S' a) : Faithful determined T S' where
  known := h.known
  sound v hv := by
    obtain ⟨a, ha, hr⟩ := h.sound v hv
    exact ⟨a, (hS a).mp ha, hr⟩
  complete a ha := h.complete a ((hS a).mpr ha)
  unique := h.unique

theorem Enters.inDomains_iff {x : String} {d : Domain} {H B : List Step} (h : Enters x d T H B)
    {a : String → Word} : InDomains (T ++ (H ++ B)) a ↔ InDomains T a ∧ a x ∈ d := by
  simp only [InDomains, h.domain_mem_iff]
  constructor
  · intro hall
    exact ⟨fun y d' hd' => hall y d' (.inl hd'), hall x d (.inr ⟨rfl, rfl⟩)⟩
  · rintro ⟨hold, hx⟩ y d' (hd' | ⟨rfl, rfl⟩)
    · exact hold y d' hd'
    · exact hx

theorem Enters.reads_iff {x : String} {d : Domain} {H B : List Step} (h : Enters x d T H B)
    {v : Valuation} {a : String → Word} {w : Word} (ha : a x = w) :
    Reads (T ++ (H ++ B)) v a ↔ Reads T v a ∧ Reads B v fun _ => w := by
  have hH : Reads H v a := by
    intro s hs
    rcases h.only s hs with rfl | hsilent
    · trivial
    · exact hsilent.readsIn v a
  rw [reads_append, reads_append, h.block.reads_iff ha]
  exact and_congr_right fun _ => and_iff_right hH

/-- With a value that is read off the block of a new variable, the values that are read off the old
steps are read off all of them. -/
theorem Enters.reads_update {x : String} {d : Domain} {H B : List Step} (h : Enters x d T H B)
    (hT : Represented T) {v : Valuation} {a : String → Word} {w : Word} (ha : InDomains T a)
    (hra : Reads T v a) (hw : w ∈ d) (hrw : Reads B v fun _ => w) :
    InDomains (T ++ (H ++ B)) (Function.update a x w) ∧
      Reads (T ++ (H ++ B)) v (Function.update a x w) := by
  have hx : Function.update a x w x = w := Function.update_self ..
  have hother : ∀ y d', .domain y d' ∈ T → a y = Function.update a x w y := by
    intro y d' hd'
    refine (Function.update_of_ne ?_ _ _).symm
    rintro rfl
    exact h.free d' hd'
  refine ⟨h.inDomains_iff.mpr ⟨fun y d' hd' => ?_, ?_⟩, (h.reads_iff hx).mpr ⟨?_, hrw⟩⟩
  · rw [← hother y d' hd']
    exact ha y d' hd'
  · rwa [hx]
  · exact (hT.reads_congr (.refl _ _) hother).mp hra

/-- The steps of a new variable add the values of its domain. -/
theorem Faithful.append_variable {x : String} {d : Domain} {H B : List Step}
    (hF : Faithful determined T (InDomains T)) (hT : Represented T) (h : Enters x d T H B) :
    Faithful determined (T ++ (H ++ B)) (InDomains (T ++ (H ++ B))) where
  known := by
    rw [h.freshCount_eq, h.clausesOf_eq]
    refine List.forall_mem_append.mpr ⟨fun c hc => ?_, h.block.known⟩
    exact (hF.known c hc).mono (Nat.le_add_right _ _)
  sound v hv := by
    rw [h.clausesOf_eq, Valuation.satisfies_append] at hv
    obtain ⟨a, ha, hra⟩ := hF.sound v hv.1
    obtain ⟨w, hw, hrw⟩ := h.block.sound v hv.2
    exact ⟨_, h.reads_update hT ha hra (Domain.mem_values.mp hw) hrw⟩
  complete a ha := by
    rw [h.inDomains_iff] at ha
    obtain ⟨v, hv, hrv⟩ := hF.complete a ha.1
    -- the value of the new variable is put on its own literals
    obtain ⟨u, hau, hu, hru⟩ := h.block.complete v (a x) (Domain.mem_values.mpr ha.2)
    refine ⟨u, ?_, (h.reads_iff rfl).mpr ⟨?_, hru⟩⟩
    · rw [h.clausesOf_eq, Valuation.satisfies_append]
      exact ⟨hv.congr hF.known hau, hu⟩
    · exact (hT.reads_congr hau fun _ _ _ => rfl).mp hrv
  unique hdet v u a hv hu hrv hru := by
    rw [h.clausesOf_eq, Valuation.satisfies_append] at hv hu
    rw [h.reads_iff rfl] at hrv hru
    rw [h.freshCount_eq]
    exact h.block.unique v u (a x) hv.2 hu.2 hrv.2 hru.2
      (hF.unique hdet v u a hv.1 hu.1 hrv.1 hru.1)

theorem reads_append_silent {U : List Step} (hU : ∀ s ∈ U, s.Silent) {v : Valuation}
    {a : String → Word} : Reads (T ++ U) v a ↔ Reads T v a := by
  rw [reads_append]
  exact and_iff_left (reads_of_silent hU v a)

/-- Clauses that say something about the values that are read keep the assignments for which it is
true. -/
theorem Faithful.append_asserts {U : List Step} {P : Valuation → Prop}
    {Q : (String → Word) → Prop} (hF : Faithful determined T S) (hT : Represented T)
    (hU : ∀ s ∈ U, s.Silent) (hasserts : Emission.Asserts (freshCount T) (emissions U) P)
    (hfixes : determined → Emission.Fixes (freshCount T) (emissions U) fun _ => True)
    (hP : ∀ v a, Reads T v a → S a → (P v ↔ Q a)) :
    Faithful determined (T ++ U) (fun a => S a ∧ Q a) where
  known := by
    rw [freshCount_append, clausesOf_append]
    refine List.forall_mem_append.mpr ⟨fun c hc => ?_, hasserts.known⟩
    exact (hF.known c hc).mono (Nat.le_add_right _ _)
  sound v hv := by
    rw [clausesOf_append, Valuation.satisfies_append] at hv
    obtain ⟨a, ha, hra⟩ := hF.sound v hv.1
    exact ⟨a, ⟨ha, (hP v a hra ha).mp (hasserts.sound v hv.2)⟩, (reads_append_silent hU).mpr hra⟩
  complete a hSQ := by
    obtain ⟨ha, hQ⟩ := hSQ
    obtain ⟨v, hv, hrv⟩ := hF.complete a ha
    -- the fresh variables can be set without touching those that the values are read off
    obtain ⟨u, hau, hu⟩ := hasserts.complete v ((hP v a hrv ha).mpr hQ)
    refine ⟨u, ?_, (reads_append_silent hU).mpr ((hT.reads_congr hau fun _ _ _ => rfl).mp hrv)⟩
    rw [clausesOf_append, Valuation.satisfies_append]
    exact ⟨hv.congr hF.known hau, hu⟩
  unique hdet v u a hv hu hrv hru := by
    rw [clausesOf_append, Valuation.satisfies_append] at hv hu
    rw [reads_append_silent hU] at hrv hru
    rw [freshCount_append]
    exact hfixes hdet v u trivial hv.2 hu.2 (hF.unique hdet v u a hv.1 hu.1 hrv hru)

/-- Spare variables change nothing, where they need not be determined. -/
theorem Faithful.append_spare (hF : Faithful determined T S) (hT : Represented T)
    (hdet : ¬ determined) (n : Nat) : Faithful determined (T ++ spare n) S := by
  have hasserts : Emission.Asserts (freshCount T) (emissions (spare n)) fun _ => True := by
    have hnone : Emission.clausesOf (emissions (spare n)) = [] := clausesOf_spare n
    refine ⟨by simp [hnone], fun v _ => trivial, fun v _ => ⟨v, .refl _ _, by simp [hnone]⟩⟩
  refine (hF.append_asserts (Q := fun _ => True) hT (silent_spare n) hasserts
    (fun h => absurd h hdet) fun v a _ _ => Iff.rfl).congr fun a => ?_
  exact and_iff_left trivial

end Steps

end Clausify.Step
