import Mathlib
import Clausify.Cardinality
import Clausify.Proofs.Cardinality.Count

/-!
The bimander scheme counts to one. Cutting a list into groups loses no position; within a group
the pairwise clauses count, and two groups that both hold a true literal would have the same code
over the selectors, while the codes of groups differ.

Main statements: `groups_asserts` and `groups_fixes`; the general facts on cut lists
(`chunks_flatten`, `trues_flatten_le_one_iff`) serve the commander scheme too.
-/

namespace Clausify.Cardinality

open Emission

/-! ## Cut lists -/

theorem chunksFrom_flatten {α : Type} {size fuel : Nat} {xs : List α} (hs : 0 < size)
    (hf : xs.length ≤ fuel) : (chunksFrom size fuel xs).flatten = xs := by
  induction fuel generalizing xs with
  | zero =>
    have : xs = [] := List.eq_nil_of_length_eq_zero (by omega)
    simp [chunksFrom, this]
  | succ fuel ih =>
    cases xs with
    | nil => simp [chunksFrom]
    | cons x xs =>
      have hdrop : ((x :: xs).drop size).length ≤ fuel := by
        simp only [List.length_drop, List.length_cons] at hf ⊢
        omega
      simp only [chunksFrom, List.isEmpty_cons, Bool.false_eq_true, if_false, List.flatten_cons,
        ih hdrop, List.take_append_drop]

theorem chunks_flatten {α : Type} {size : Nat} (hs : 0 < size) (xs : List α) :
    (chunks size xs).flatten = xs :=
  chunksFrom_flatten hs (Nat.le_refl _)

theorem mem_of_mem_chunk {α : Type} {size : Nat} {xs g : List α} {x : α} (hs : 0 < size)
    (hg : g ∈ chunks size xs) (hx : x ∈ g) : x ∈ xs := by
  rw [← chunks_flatten hs xs]
  exact List.mem_flatten.mpr ⟨g, hg, hx⟩

theorem trues_flatten (v : Valuation) (gs : List (List Literal)) :
    trues v gs.flatten = (gs.map (trues v)).sum := List.countP_flatten

theorem trues_flatten_cons (v : Valuation) (g : List Literal) (gs : List (List Literal)) :
    trues v (g :: gs).flatten = trues v g + trues v gs.flatten := by simp

theorem trues_le_flatten {v : Valuation} {g : List Literal} {gs : List (List Literal)}
    (h : g ∈ gs) : trues v g ≤ trues v gs.flatten := by
  rw [trues_flatten]
  exact List.le_sum_of_mem (List.mem_map_of_mem h)

/-- At most one position of a cut list holds when at most one does in each piece, and no two
pieces have one. -/
theorem trues_flatten_le_one_iff {v : Valuation} {gs : List (List Literal)} :
    trues v gs.flatten ≤ 1 ↔ (∀ g ∈ gs, trues v g ≤ 1) ∧
      ∀ i j, (hi : i < gs.length) → (hj : j < gs.length) →
        1 ≤ trues v gs[i] → 1 ≤ trues v gs[j] → i = j := by
  rw [trues_flatten, sum_map_le_one_iff]

/-! ## Codes -/

theorem lt_two_pow_bitLength (n : Nat) : n < 2 ^ bitLength n := by
  unfold bitLength
  split
  · next h => simp [h]
  · exact Nat.lt_log2_self

theorem code_inj {n i j : Nat} (hi : i ≤ n) (hj : j ≤ n)
    (h : ∀ bit, bit < bitLength n → i.testBit bit = j.testBit bit) : i = j := by
  have hn := lt_two_pow_bitLength n
  apply Nat.eq_of_testBit_eq
  intro bit
  by_cases hb : bit < bitLength n
  · exact h bit hb
  · have hpow : 2 ^ bitLength n ≤ 2 ^ bit := Nat.pow_le_pow_right (by omega) (by omega)
    rw [Nat.testBit_lt_two_pow (by omega), Nat.testBit_lt_two_pow (by omega)]

/-- The clauses of the codes of all groups. -/
def codes (count width : Nat) (gs : List (List Literal)) : List Clause :=
  gs.zipIdx.flatMap fun (group, i) => selections count width i group

theorem mem_codes {count width : Nat} {gs : List (List Literal)} {c : Clause} :
    c ∈ codes count width gs ↔ ∃ i, ∃ hi : i < gs.length, ∃ bit, bit < width ∧
      ∃ l ∈ gs[i], c = [-l, if i.testBit bit then Literal.ofVariable (count + bit + 1)
        else -Literal.ofVariable (count + bit + 1)] := by
  constructor
  · intro hc
    obtain ⟨⟨g, i⟩, hgi, hc⟩ := List.mem_flatMap.mp hc
    obtain ⟨hi, hg⟩ := List.getElem?_eq_some_iff.mp (List.mem_zipIdx_iff_getElem?.mp hgi)
    simp only at hi hg hc
    subst hg
    obtain ⟨bit, hbit, hc⟩ := List.mem_flatMap.mp hc
    obtain ⟨l, hl, rfl⟩ := List.mem_map.mp hc
    exact ⟨i, hi, bit, List.mem_range.mp hbit, l, hl, rfl⟩
  · rintro ⟨i, hi, bit, hbit, l, hl, rfl⟩
    refine List.mem_flatMap.mpr ⟨(gs[i], i), ?_, ?_⟩
    · exact List.mem_zipIdx_iff_getElem?.mpr (List.getElem?_eq_getElem hi)
    · exact List.mem_flatMap.mpr ⟨bit, List.mem_range.mpr hbit, List.mem_map.mpr ⟨l, hl, rfl⟩⟩

theorem over_codes {P : Literal → Prop} (hneg : ∀ l, P l → P (-l)) {count width : Nat}
    {gs : List (List Literal)} (h : ∀ g ∈ gs, ∀ l ∈ g, P l)
    (hfresh : ∀ k, count < k → k ≤ count + width → P (Literal.ofVariable k)) :
    ∀ c ∈ codes count width gs, ∀ l ∈ c, P l := by
  intro c hc
  obtain ⟨i, hi, bit, hbit, l, hl, rfl⟩ := mem_codes.mp hc
  have hvar := hfresh (count + bit + 1) (by omega) (by omega)
  have hliteral := hneg l (h _ (List.getElem_mem hi) l hl)
  cases i.testBit bit <;> simp [hliteral, hvar, hneg _ hvar]

theorem known_codes {count width : Nat} {gs : List (List Literal)}
    (hk : ∀ g ∈ gs, ∀ l ∈ g, l.Known count) (hlim : count + width < Literal.limit) :
    ∀ c ∈ codes count width gs, c.Known (count + width) :=
  over_codes (P := Literal.Known (count + width)) (fun _ => .neg)
    (fun g hg l hl => (hk g hg l hl).mono (Nat.le_add_right count width))
    fun _ hpos hle => Literal.known_ofVariable (by omega) hle (by omega)

/-- The codes hold where the selectors show the code of every group with a true literal. -/
theorem satisfies_codes {count width : Nat} {gs : List (List Literal)}
    (hk : ∀ g ∈ gs, ∀ l ∈ g, l.Known count) (hlim : count + width < Literal.limit)
    (v : Valuation) :
    v.Satisfies (codes count width gs) ↔
      ∀ i, (hi : i < gs.length) → 1 ≤ trues v gs[i] →
        ∀ bit, bit < width → v (count + bit + 1) = i.testBit bit := by
  constructor
  · intro h i hi ht bit hbit
    obtain ⟨l, hl, hlv⟩ := trues_pos_iff.mp ht
    -- a true literal of the group forces each digit of its code
    have hc := h _ (mem_codes.mpr ⟨i, hi, bit, hbit, l, hl, rfl⟩)
    have hneg := (hk _ (List.getElem_mem hi) l hl).holds_neg v
    have hvar := Literal.holds_ofVariable (show 0 < count + bit + 1 by omega) (by omega) v
    have hvneg := (Literal.known_ofVariable (n := count + bit + 1)
      (show 0 < count + bit + 1 by omega) (by omega) (by omega)).holds_neg v
    cases hb : i.testBit bit <;> simpa [hneg, hlv, hb, hvar, hvneg] using hc
  · intro h c hc
    obtain ⟨i, hi, bit, hbit, l, hl, rfl⟩ := mem_codes.mp hc
    have hneg := (hk _ (List.getElem_mem hi) l hl).holds_neg v
    have hvar := Literal.holds_ofVariable (show 0 < count + bit + 1 by omega) (by omega) v
    have hvneg := (Literal.known_ofVariable (n := count + bit + 1)
      (show 0 < count + bit + 1 by omega) (by omega) (by omega)).holds_neg v
    cases hlv : l.holds v with
    | false => simp [hneg, hlv]
    | true =>
      have hv := h i hi (trues_pos_iff.mpr ⟨l, hl, hlv⟩) bit hbit
      cases hb : i.testBit bit <;> simp [hvar, hvneg, hv, hb]

/-! ## The scheme -/

section Groups

variable {count size : Nat} {ls : List Literal}

theorem groups_fresh (count size : Nat) (ls : List Literal) :
    freshCount (groups count size ls) = bitLength ((chunks size ls).length - 1) := by
  simp [groups]

theorem groups_clauses (count size : Nat) (ls : List Literal) :
    clausesOf (groups count size ls) = (chunks size ls).flatMap pairs ++
      codes count (bitLength ((chunks size ls).length - 1)) (chunks size ls) := by
  simp [groups, codes]

theorem satisfies_flatMap_pairs {n : Nat} {gs : List (List Literal)}
    (hk : ∀ g ∈ gs, ∀ l ∈ g, l.Known n) (v : Valuation) :
    v.Satisfies (gs.flatMap pairs) ↔ ∀ g ∈ gs, trues v g ≤ 1 := by
  rw [Valuation.satisfies_flatMap]
  exact forall₂_congr fun g hg => satisfies_pairs (hk g hg) v

/-- What the clauses of the groups say: no group has two true literals, and the selectors show the
code of every group with one. -/
theorem satisfies_groups (hk : ∀ g ∈ chunks size ls, ∀ l ∈ g, l.Known count)
    (hlim : count + bitLength ((chunks size ls).length - 1) < Literal.limit) (v : Valuation) :
    v.Satisfies (clausesOf (groups count size ls)) ↔
      (∀ g ∈ chunks size ls, trues v g ≤ 1) ∧
        ∀ i, (hi : i < (chunks size ls).length) → 1 ≤ trues v (chunks size ls)[i] →
          ∀ bit, bit < bitLength ((chunks size ls).length - 1) →
            v (count + bit + 1) = i.testBit bit := by
  rw [groups_clauses, Valuation.satisfies_append, satisfies_flatMap_pairs hk,
    satisfies_codes hk hlim]

/-- Where no two groups have a true literal, the selectors can show the code of the one that has. -/
theorem exists_coded {gs : List (List Literal)} (hk : ∀ g ∈ gs, ∀ l ∈ g, l.Known count)
    {v : Valuation}
    (hapart : ∀ i j, (hi : i < gs.length) → (hj : j < gs.length) →
      1 ≤ trues v gs[i] → 1 ≤ trues v gs[j] → i = j) :
    ∃ u : Valuation, v.Agree count u ∧
      ∀ i, (hi : i < gs.length) → 1 ≤ trues u gs[i] →
        ∀ bit, u (count + bit + 1) = i.testBit bit := by
  obtain ⟨u, ha, hu⟩ := v.exists_extend count
    (gs.findIdx fun g => decide (1 ≤ trues v g)).testBit
  refine ⟨u, ha, ?_⟩
  intro i hi hti bit
  rw [← trues_congr (hk _ (List.getElem_mem hi)) ha] at hti
  have hfound : gs.findIdx (fun g => decide (1 ≤ trues v g)) < gs.length :=
    List.findIdx_lt_length_of_exists ⟨_, List.getElem_mem hi, by simpa using hti⟩
  have htrue := List.findIdx_getElem (w := hfound)
  have hsame := hapart _ i hfound hi (by simpa using htrue) hti
  rw [hu, hsame]

theorem known_chunks (hs : 0 < size) (hk : ∀ l ∈ ls, l.Known count) :
    ∀ g ∈ chunks size ls, ∀ l ∈ g, l.Known count :=
  fun _ hg l hl => hk l (mem_of_mem_chunk hs hg hl)

/-- Groups and their codes say that at most one literal holds. -/
theorem groups_asserts (hs : 0 < size) (hk : ∀ l ∈ ls, l.Known count)
    (hlim : count + freshCount (groups count size ls) < Literal.limit) :
    Asserts count (groups count size ls) (fun v => trues v ls ≤ 1) := by
  rw [groups_fresh] at hlim
  have hkg := known_chunks hs hk
  have hflat := chunks_flatten hs ls
  exact {
    known := by
      intro c hc
      rw [groups_fresh]
      rw [groups_clauses] at hc
      rcases List.mem_append.mp hc with hc | hc
      · obtain ⟨g, hg, hc⟩ := List.mem_flatMap.mp hc
        exact (known_pairs (hkg g hg) c hc).mono (Nat.le_add_right _ _)
      · exact known_codes hkg hlim c hc
    sound := by
      intro v hv
      obtain ⟨heach, hcode⟩ := (satisfies_groups hkg hlim v).mp hv
      rw [← hflat]
      refine trues_flatten_le_one_iff.mpr ⟨heach, ?_⟩
      -- two groups with a true literal have the same code on the selectors
      intro i j hi hj hti htj
      refine code_inj (n := (chunks size ls).length - 1) (by omega) (by omega) ?_
      intro bit hbit
      rw [← hcode i hi hti bit hbit, ← hcode j hj htj bit hbit]
    complete := by
      intro v hv
      rw [← hflat] at hv
      obtain ⟨heach, hapart⟩ := trues_flatten_le_one_iff.mp hv
      obtain ⟨u, ha, hcode⟩ := exists_coded hkg hapart
      refine ⟨u, ha, (satisfies_groups hkg hlim u).mpr ⟨?_, ?_⟩⟩
      · intro g hg
        rw [← trues_congr (hkg g hg) ha]
        exact heach g hg
      · intro i hi hti bit _
        exact hcode i hi hti bit }

theorem groups_fixes (hs : 0 < size) (hk : ∀ l ∈ ls, l.Known count)
    (hlim : count + freshCount (groups count size ls) < Literal.limit) :
    Fixes count (groups count size ls) (fun v => trues v ls = 1) := by
  rw [groups_fresh] at hlim
  have hkg := known_chunks hs hk
  intro v u hone hv hu ha
  obtain ⟨-, hv⟩ := (satisfies_groups hkg hlim v).mp hv
  obtain ⟨-, hu⟩ := (satisfies_groups hkg hlim u).mp hu
  obtain ⟨l, hl, hlv⟩ := trues_pos_iff.mp (Nat.le_of_eq hone.symm)
  rw [← chunks_flatten hs ls] at hl
  obtain ⟨g, hg, hl⟩ := List.mem_flatten.mp hl
  obtain ⟨i, hi, rfl⟩ := List.getElem_of_mem hg
  have htv : 1 ≤ trues v (chunks size ls)[i] := trues_pos_iff.mpr ⟨l, hl, hlv⟩
  have htu : 1 ≤ trues u (chunks size ls)[i] := by
    rwa [← trues_congr (hkg _ (List.getElem_mem hi)) ha]
  rw [groups_fresh]
  apply ha.add
  intro bit hbit
  rw [hv i hi htv bit hbit, hu i hi htu bit hbit]

end Groups

/-- With groups of a positive size the bimander scheme asks for a true literal if exactly one is
wanted, and counts by groups. -/
theorem bimander_emissions {count : Nat} {size : Word} {e : Bool} {ls : List Literal}
    (h : (bimander count size e ls).stop = none) :
    0 < size.toInt.toNat ∧ (bimander count size e ls).emissions =
      clauses (someOf e ls) ++ groups count size.toInt.toNat ls := by
  unfold bimander at h ⊢
  by_cases hs : size < 1
  · simp [hs] at h
  · have hge : (1 : Word).toInt ≤ size.toInt := Int64.le_iff_toInt_le.mp (Int64.not_lt.mp hs)
    rw [Int64.toInt_one] at hge
    simp only [hs, if_false, and_true]
    omega

end Clausify.Cardinality
