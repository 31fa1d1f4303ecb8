import Mathlib
import Clausify.Proofs.Table
import Clausify.Proofs.Encoding.Listing
import Clausify.Proofs.Encoding.Faithful

/-!
Decoding reads the values back. A total solution lists the literals of the first `n` variables that
hold in a valuation. Decoding sets a variable to the value of each single-value literal in it and
lowers it to the bound of each order literal, and no literal pulls it below the value that the
valuation reads. That is so for each variable by itself, whatever the solution lists of the others
(`lookup_decode_of_shows`). Main statement: every entered variable gets the value that is read, and
no other variable gets one (`lookup_decode`, `lookup_decode_eq_none`).
-/

namespace Clausify

open Step

namespace Solution

/-- The solution lists the literals of the variables `1` to `n` that hold. -/
def Total (n : Nat) (v : Valuation) (solution : Solution) : Prop :=
  ∀ w : Word, w ∈ solution ↔
    0 < (⟨w⟩ : Literal).var ∧ (⟨w⟩ : Literal).var ≤ n ∧ (⟨w⟩ : Literal).holds v = true

/-- Of the variables after `low` up to `high`, the solution lists the literals that hold. -/
def Shows (low high : Nat) (v : Valuation) (solution : Solution) : Prop :=
  ∀ w : Word, low < (⟨w⟩ : Literal).var → (⟨w⟩ : Literal).var ≤ high →
    (w ∈ solution ↔ (⟨w⟩ : Literal).holds v = true)

theorem Total.shows {n : Nat} {v : Valuation} {solution : Solution} (h : solution.Total n v) :
    solution.Shows 0 n v := by
  intro w hpos hle
  rw [h w]
  exact ⟨fun hw => hw.2.2, fun hw => ⟨hpos, hle, hw⟩⟩

end Solution

namespace Mapping

/-- The table has a value of the variable if one of the keys is about it: none below `w`, and `w`
itself where a key has it. -/
structure Collects (x : String) (w : Word) (K : List Key) (values : Assignment) : Prop where
  none : values.lookup x = none ↔ ∀ k ∈ K, k.var ≠ x
  above : ∀ u, values.lookup x = some u → w ≤ u
  exact : ∀ u, values.lookup x = some u → ⟨x, w⟩ ∈ K → u = w

variable {x : String} {w : Word} {K : List Key} {values : Assignment} {k : Key}

theorem collects_nil (x : String) (w : Word) : Collects x w [] [] := by
  constructor <;> simp

theorem Collects.other (h : Collects x w K values) {values' : Assignment} (hk : k.var ≠ x)
    (hget : values'.lookup x = values.lookup x) : Collects x w (K ++ [k]) values' := by
  refine ⟨?_, ?_, ?_⟩
  · rw [hget, h.none, List.forall_mem_append, List.forall_mem_singleton]
    exact (and_iff_left hk).symm
  · rw [hget]
    exact h.above
  · intro u hu hmem
    rw [hget] at hu
    refine h.exact u hu ((List.mem_append.mp hmem).resolve_right fun hlast => hk ?_)
    rw [← List.mem_singleton.mp hlast]

theorem Collects.set (h : Collects x w K values) (hk : k.var = x → k.value = w) :
    Collects x w (K ++ [k]) (Table.set k.var k.value values) := by
  by_cases hx : k.var = x
  · have hget : (Table.set k.var k.value values).lookup x = some w := by
      rw [Table.lookup_set, if_pos hx, hk hx]
    refine ⟨?_, ?_, ?_⟩
    · simp [hx]
    · intro u hu
      rw [hget] at hu
      exact Int64.le_of_eq (Option.some_inj.mp hu)
    · intro u hu _
      rw [hget] at hu
      exact (Option.some_inj.mp hu).symm
  · exact h.other hx (by rw [Table.lookup_set, if_neg hx])

theorem lookup_lowerTo_of_ne {x : String} (hx : k.var ≠ x) :
    (lowerTo values k).lookup x = values.lookup x := by
  simp only [lowerTo]
  cases values.lookup k.var with
  | none => simp [hx]
  | some u =>
    simp only
    split
    · simp [hx]
    · rfl

/-- A variable that is lowered has the bound, or a value below it that it had before. -/
theorem lookup_lowerTo_self (values : Assignment) (k : Key) :
    ∃ w, (lowerTo values k).lookup k.var = some w ∧ w ≤ k.value ∧
      (w = k.value ∨ values.lookup k.var = some w) ∧
      ∀ u, values.lookup k.var = some u → w ≤ u := by
  simp only [lowerTo]
  cases hget : values.lookup k.var with
  | none => exact ⟨k.value, by simp, Int64.le_refl _, .inl rfl, by simp⟩
  | some u =>
    simp only [Option.some_inj, forall_eq']
    split
    · next hlt => exact ⟨k.value, by simp, Int64.le_refl _, .inl rfl, Int64.le_of_lt hlt⟩
    · next hge => exact ⟨u, hget, Int64.not_lt.mp hge, .inr rfl, Int64.le_refl _⟩

theorem nodup_keys_lowerTo (h : (values.map Prod.fst).Nodup) (k : Key) :
    ((lowerTo values k).map Prod.fst).Nodup := by
  simp only [lowerTo]
  split
  · split
    · exact Table.nodup_keys_set h
    · exact h
  · exact Table.nodup_keys_set h

theorem Collects.lowerTo (h : Collects x w K values) (hk : k.var = x → w ≤ k.value) :
    Collects x w (K ++ [k]) (lowerTo values k) := by
  by_cases hx : k.var = x
  swap
  · exact h.other hx (lookup_lowerTo_of_ne hx)
  subst hx
  obtain ⟨u₀, hget, hle, hfrom, hold⟩ := lookup_lowerTo_self values k
  have habove : w ≤ u₀ := by
    rcases hfrom with rfl | hbefore
    · exact hk rfl
    · exact h.above u₀ hbefore
  refine ⟨?_, ?_, ?_⟩
  · simp [hget]
  · intro u hu
    rw [hget] at hu
    rwa [← Option.some_inj.mp hu]
  · intro u hu hmem
    rw [hget] at hu
    obtain rfl := Option.some_inj.mp hu
    refine Int64.le_antisymm ?_ habove
    rcases List.mem_append.mp hmem with hmem | hmem
    · -- the value was reached before, and is not raised
      cases hbefore : values.lookup k.var with
      | none => exact absurd rfl (h.none.mp hbefore ⟨k.var, w⟩ hmem)
      | some u =>
        rw [← h.exact u hbefore hmem]
        exact hold u hbefore
    · have hvalue : w = k.value := congrArg Key.value (List.mem_singleton.mp hmem)
      rw [hvalue]
      exact hle

theorem Collects.foldl {f : Assignment → Key → Assignment} {L : List Key}
    (h : Collects x w K values)
    (hf : ∀ k ∈ L, ∀ K values, Collects x w K values → Collects x w (K ++ [k]) (f values k)) :
    Collects x w (K ++ L) (L.foldl f values) := by
  induction L generalizing K values with
  | nil => simpa using h
  | cons k rest ih =>
    rw [List.forall_mem_cons] at hf
    have := ih (hf.1 K values h) hf.2
    rwa [List.append_assoc, List.singleton_append] at this

/-! ## Solutions -/

section Decode

variable {m : Mapping} {T : List Step} {n low high : Nat} {v : Valuation} {solution : Solution}

/-- All keys that decoding meets. -/
def metKeys (m : Mapping) (solution : Solution) : List Key :=
  trueKeys solution m.decoding ++ trueKeys solution m.minimum ++ trueKeys solution m.middle ++
    trueKeys solution m.maximum

theorem mem_metKeys_bound {t : OrderTable} (h : k ∈ trueKeys solution (m.boundTable t)) :
    k ∈ m.metKeys solution := by
  cases t <;> simp_all [metKeys, boundTable]

theorem decode_collects (hdirect : ∀ k ∈ trueKeys solution m.decoding, k.var = x → k.value = w)
    (hbound : ∀ t, ∀ k ∈ trueKeys solution (m.boundTable t), k.var = x → w ≤ k.value) :
    Collects x w (m.metKeys solution) (m.decode solution) := by
  have hfirst := (collects_nil x w).foldl
    (f := fun values k => Table.set k.var k.value values) fun k hk _ _ h => h.set (hdirect k hk)
  have hlower : ∀ t {K values}, Collects x w K values →
      Collects x w (K ++ trueKeys solution (m.boundTable t))
        ((trueKeys solution (m.boundTable t)).foldl Mapping.lowerTo values) := by
    intro t K values h
    exact h.foldl fun k hk _ _ h => h.lowerTo (hbound t k hk)
  rw [List.nil_append] at hfirst
  exact hlower .maximum (hlower .middle (hlower .minimum hfirst))

theorem nodup_keys_decode (m : Mapping) (solution : Solution) :
    ((m.decode solution).map Prod.fst).Nodup := by
  have hset : ∀ L : List Key, ((L.foldl (fun values k => Table.set k.var k.value values)
      ([] : Assignment)).map Prod.fst).Nodup := by
    intro L
    exact List.foldlRecOn (motive := fun values : Assignment => (values.map Prod.fst).Nodup) L _
      (by simp) fun _ h k _ => Table.nodup_keys_set h
  have hlower : ∀ (L : List Key) (values : Assignment), (values.map Prod.fst).Nodup →
      ((L.foldl Mapping.lowerTo values).map Prod.fst).Nodup := by
    intro L values h
    exact List.foldlRecOn (motive := fun values : Assignment => (values.map Prod.fst).Nodup) L _
      h fun _ h k _ => nodup_keys_lowerTo h k
  exact hlower _ _ (hlower _ _ (hlower _ _ (hset _)))

theorem decodes_of_mem_metKeys (hm : m.Lists T) (hk : k ∈ m.metKeys solution) :
    ∃ l : Literal, l.word ∈ solution ∧ Decodes T k l := by
  simp only [metKeys, List.mem_append] at hk
  rcases hk with ((hk | hk) | hk) | hk <;> obtain ⟨word, hw, hget⟩ := List.mem_filterMap.mp hk
  · exact ⟨⟨word⟩, hw, .inl (hm.decoding _ k hget)⟩
  · exact ⟨⟨word⟩, hw, .inr ⟨_, hm.bound .minimum _ k hget⟩⟩
  · exact ⟨⟨word⟩, hw, .inr ⟨_, hm.bound .middle _ k hget⟩⟩
  · exact ⟨⟨word⟩, hw, .inr ⟨_, hm.bound .maximum _ k hget⟩⟩

/-- The literals that the variable is decoded by have variables after `low` up to `high`. -/
def Owns (T : List Step) (x : String) (low high : Nat) : Prop :=
  ∀ k l, Decodes T k l → k.var = x → low < l.var ∧ l.var ≤ high

theorem owns_of_represented (hT : Represented T) (hn : freshCount T ≤ n) : Owns T x 0 n := by
  intro k l hk _
  obtain ⟨hc, hknown⟩ := hT.known k l hk
  exact ⟨hknown.var_pos, Nat.le_trans (hknown.var_le hc) hn⟩

section Shows

variable (hm : m.Lists T) (hr : ReadsAt T v x w) (howns : Owns T x low high)
  (hsol : solution.Shows low high v)

include hm hr howns hsol

/-- Of the variable, decoding meets keys of its value, and bounds that the value keeps. -/
theorem decode_collects_of_shows : Collects x w (m.metKeys solution) (m.decode solution) := by
  refine decode_collects ?_ ?_
  · intro k hk hx
    obtain ⟨word, hw, hget⟩ := List.mem_filterMap.mp hk
    have hentry := hm.decoding _ k hget
    obtain ⟨hlow, hhigh⟩ := howns k _ (.inl hentry) hx
    exact ((hr _ hentry hx).mp ((hsol word hlow hhigh).mp hw)).symm
  · intro t k hk hx
    obtain ⟨word, hw, hget⟩ := List.mem_filterMap.mp hk
    have hentry := hm.bound t _ k hget
    obtain ⟨hlow, hhigh⟩ := howns k _ (.inr ⟨t, hentry⟩) hx
    have hread := hr _ hentry hx
    have hholds := (hsol word hlow hhigh).mp hw
    cases t with
    | minimum => exact hread.mp hholds
    | middle => exact hread.mp hholds
    | maximum => exact Int64.le_of_eq (hread.mp hholds)

theorem mem_metKeys (hT : Represented T) {d : Domain} (hx : .domain x d ∈ T) (hw : w ∈ d) :
    ⟨x, w⟩ ∈ m.metKeys solution := by
  obtain ⟨l, hl⟩ := hT.decodes x d hx w hw
  obtain ⟨hlow, hhigh⟩ := howns _ l hl rfl
  have hc := (hT.known _ l hl).1
  have hlisted := (hsol l.word hlow hhigh).mpr
  rcases hl with hl | ⟨t, hl⟩
  · have htrue : l.holds v = true := (hr _ hl rfl).mpr rfl
    obtain ⟨k', hk'⟩ := hm.decoded _ l hl hc
    have hmem := hm.decoding l k' hk'
    -- the literal may be listed under a later key, but only under one of equal value
    have hvar : k'.var = x := (hT.owner _ k' l (.inl hl) (.inl hmem)).symm
    have hval : w = k'.value := (hr _ hmem hvar).mp htrue
    have heq : k' = ⟨x, w⟩ := by
      cases k'
      simp only at hvar hval
      rw [hvar, hval]
    rw [← heq]
    simp only [metKeys, List.mem_append]
    exact .inl (.inl (.inl (List.mem_filterMap.mpr ⟨l.word, hlisted htrue, hk'⟩)))
  · have htrue : l.holds v = true := by
      have hread := hr _ hl rfl
      cases t with
      | minimum => exact hread.mpr (Int64.le_refl _)
      | middle => exact hread.mpr (Int64.le_refl _)
      | maximum => exact hread.mpr rfl
    obtain ⟨k', hk'⟩ := hm.bounded t _ l hl
    rw [hT.distinct t _ k' l hl (hm.bound t l k' hk')]
    exact mem_metKeys_bound (List.mem_filterMap.mpr ⟨l.word, hlisted htrue, hk'⟩)

/-- A variable gets the value that is read off its own literals. -/
theorem lookup_decode_of_shows (hT : Represented T) {d : Domain} (hx : .domain x d ∈ T)
    (hw : w ∈ d) : (m.decode solution).lookup x = some w := by
  have hcollects := decode_collects_of_shows hm hr howns hsol
  have hmem := mem_metKeys hm hr howns hsol hT hx hw
  cases hget : (m.decode solution).lookup x with
  | none => exact absurd rfl (hcollects.none.mp hget ⟨x, w⟩ hmem)
  | some u => rw [hcollects.exact u hget hmem]

end Shows

/-- Decoding gives every entered variable the value that is read. -/
theorem lookup_decode {a : String → Word} (hm : m.Lists T) (hT : Represented T) (hr : Reads T v a)
    (ha : InDomains T a) (hn : freshCount T ≤ n) (hsol : solution.Total n v) {d : Domain}
    (hx : .domain x d ∈ T) : (m.decode solution).lookup x = some (a x) :=
  lookup_decode_of_shows hm (hr.at x) (owns_of_represented hT hn) hsol.shows hT hx (ha x d hx)

theorem lookup_decode_eq_none (hm : m.Lists T) (hT : Represented T) (hx : ∀ d, .domain x d ∉ T) :
    (m.decode solution).lookup x = none := by
  have hnone : ∀ k ∈ m.metKeys solution, k.var ≠ x := by
    rintro k hk rfl
    obtain ⟨l, -, hl⟩ := decodes_of_mem_metKeys hm hk
    obtain ⟨d, hd⟩ := hT.mapped k l (.inl hl)
    exact hx d hd
  refine (decode_collects (w := 0) ?_ ?_).none.mpr hnone
  · intro k hk hkx
    exact absurd hkx (hnone k (by simp [metKeys, hk]))
  · intro t k hk hkx
    exact absurd hkx (hnone k (mem_metKeys_bound hk))

end Decode

end Mapping

end Clausify
