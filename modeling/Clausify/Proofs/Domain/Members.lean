import Mathlib
import Clausify.Domain.Basic

/-!
What the queries of a domain answer, in terms of its members. The list of values holds exactly the
members, in strictly increasing order (`mem_values`, `values_increasing`); the size counts them up
to its limit (`toNat_size`); the bounds are the least and the greatest member, and the floor of a
value is the greatest member up to it (`bounds?_spec`, `floor?_spec`).
-/

namespace Clausify

namespace Interval

theorem mem_iff {w : Word} {i : Interval} :
    w ∈ i ↔ i.lower.toInt ≤ w.toInt ∧ w.toInt ≤ i.upper.toInt := by
  rw [← Int64.le_iff_toInt_le, ← Int64.le_iff_toInt_le]
  rfl

theorem toInt_bounds (w : Word) :
    -9223372036854775808 ≤ w.toInt ∧ w.toInt ≤ 9223372036854775807 := by
  have h1 := Int64.le_toInt w
  have h2 := Int64.toInt_lt w
  omega

theorem toInt_offset {i : Interval} {k : Nat} (h : k < i.count) :
    (i.lower + Int64.ofNat k).toInt = i.lower.toInt + k := by
  have hl := toInt_bounds i.lower
  have hu := toInt_bounds i.upper
  have hk : i.lower.toInt + k ≤ i.upper.toInt := by unfold count at h; omega
  have hsize : (Int64.size : Int) = 18446744073709551616 := rfl
  rw [Int64.toInt_add, Int64.toInt_ofNat', Int.add_bmod_bmod]
  exact Int.bmod_eq_of_le (by omega) (by omega)

theorem values_eq (i : Interval) :
    i.values = (List.range i.count).map fun k => i.lower + Int64.ofNat k := by
  rw [values, take, Nat.min_self]

@[simp] theorem length_values (i : Interval) : i.values.length = i.count := by simp [values_eq]

theorem mem_values {w : Word} {i : Interval} : w ∈ i.values ↔ w ∈ i := by
  rw [values_eq, List.mem_map, mem_iff]
  constructor
  · rintro ⟨k, hk, rfl⟩
    rw [List.mem_range] at hk
    rw [toInt_offset hk]
    unfold count at hk
    omega
  · rintro ⟨hl, hu⟩
    have hk : (w.toInt - i.lower.toInt).toNat < i.count := by unfold count; omega
    refine ⟨_, List.mem_range.mpr hk, Int64.toInt_inj.mp ?_⟩
    rw [toInt_offset hk]
    omega

theorem values_increasing (i : Interval) : i.values.Pairwise (· < ·) := by
  rw [values_eq, List.pairwise_map, List.pairwise_iff_getElem]
  intro j k hj hk hjk
  simp only [List.length_range] at hj hk
  rw [Int64.lt_iff_toInt_lt, List.getElem_range, List.getElem_range, toInt_offset hj,
    toInt_offset hk]
  omega

end Interval

namespace Domain

theorem mem_values {w : Word} {d : Domain} : w ∈ d.values ↔ w ∈ d := by
  simp only [values, List.mem_flatMap, Interval.mem_values]
  rfl

instance (w : Word) (d : Domain) : Decidable (w ∈ d) := decidable_of_iff _ mem_values

theorem flatMap_values_increasing {is : List Interval} (h : Interval.Canonical is) :
    (is.flatMap Interval.values).Pairwise (· < ·) := by
  rw [List.pairwise_flatMap]
  refine ⟨fun i _ => i.values_increasing, h.2.imp ?_⟩
  intro i j hij v hv w hw
  rw [Interval.mem_values, Interval.mem_iff] at hv hw
  rw [Int64.lt_iff_toInt_lt]
  omega

theorem values_increasing (d : Domain) : d.values.Pairwise (· < ·) :=
  flatMap_values_increasing d.canonical

theorem values_nodup (d : Domain) : d.values.Nodup :=
  d.values_increasing.imp fun h => by
    rintro rfl
    exact Int64.lt_irrefl h

/-! ## Size -/

/-- The width of an interval as the size adds it up: its count, or zero for the full range. -/
theorem toNat_width (i : Interval) (h : i.lower ≤ i.upper) :
    ((i.upper - i.lower).toUInt64 + 1).toNat = i.count % wordCount := by
  have hle := Int64.le_iff_toInt_le.mp h
  have hl := Interval.toInt_bounds i.lower
  have hu := Interval.toInt_bounds i.upper
  have hdiff : ((i.upper - i.lower).toUInt64.toNat : Int) = i.upper.toInt - i.lower.toInt := by
    show ((i.upper.toBitVec - i.lower.toBitVec).toNat : Int) =
      i.upper.toBitVec.toInt - i.lower.toBitVec.toInt
    have hint : i.lower.toBitVec.toInt ≤ i.upper.toBitVec.toInt := hle
    rw [BitVec.toInt_eq_toNat_cond, BitVec.toInt_eq_toNat_cond] at hint ⊢
    rw [BitVec.toNat_sub]
    omega
  rw [UInt64.toNat_add, UInt64.toNat_one]
  unfold Interval.count wordCount
  omega

/-- The size after some intervals is the number of members, or the limit when there are more. -/
theorem toNat_sizeFrom {size : UInt64} {is : List Interval} (h : ∀ i ∈ is, i.lower ≤ i.upper) :
    (sizeFrom size is).toNat =
      min (size.toNat + (is.flatMap Interval.values).length) (wordCount - 1) := by
  induction is generalizing size with
  | nil =>
    have := size.toNat_lt
    simp only [sizeFrom, List.flatMap_nil, List.length_nil, wordCount]
    omega
  | cons i rest ih =>
    rw [List.forall_mem_cons] at h
    have hwidth := toNat_width i h.1
    have hle := Int64.le_iff_toInt_le.mp h.1
    have hl := Interval.toInt_bounds i.lower
    have hu := Interval.toInt_bounds i.upper
    have hs := size.toNat_lt
    have hlimit : sizeLimit.toNat = 18446744073709551615 := rfl
    have hcount : 1 ≤ i.count ∧ i.count ≤ 18446744073709551616 := by
      unfold Interval.count
      omega
    simp only [sizeFrom, List.flatMap_cons, List.length_append, Interval.length_values]
    -- the width is zero only when it has wrapped, for the interval of all words
    have hzero : ((i.upper - i.lower).toUInt64 + 1 = 0) ↔ i.count = 18446744073709551616 := by
      rw [← UInt64.toNat_inj, hwidth, UInt64.toNat_zero, wordCount]
      omega
    -- a sum below its summand has wrapped
    have hwrap : (size + ((i.upper - i.lower).toUInt64 + 1) < size) ↔
        18446744073709551616 ≤ size.toNat + i.count % wordCount := by
      rw [UInt64.lt_iff_toNat_lt, UInt64.toNat_add, hwidth]
      unfold wordCount
      omega
    split
    · next hstop =>
      simp only [Bool.or_eq_true, decide_eq_true_eq, hzero, hwrap] at hstop
      unfold wordCount at hstop ⊢
      omega
    · next hgo =>
      simp only [Bool.or_eq_true, decide_eq_true_eq, hzero, hwrap, not_or, not_le] at hgo
      rw [ih h.2, UInt64.toNat_add, hwidth]
      unfold wordCount at hgo ⊢
      omega

theorem toNat_size (d : Domain) : d.size.toNat = min d.values.length (wordCount - 1) := by
  rw [size, toNat_sizeFrom d.canonical.1, UInt64.toNat_zero, Nat.zero_add]
  rfl

/-! ## Bounds and floor -/

theorem bounds?_eq_none {d : Domain} : d.bounds? = none ↔ d.values = [] := by
  have hsome : ∀ i ∈ d.intervals, i.values ≠ [] := by
    intro i hi
    rw [← List.length_pos_iff, Interval.length_values]
    have := Int64.le_iff_toInt_le.mp (d.canonical.1 i hi)
    unfold Interval.count
    omega
  rw [bounds?, values, List.flatMap_eq_nil_iff]
  constructor
  · intro h i hi
    exfalso
    have hne : d.intervals ≠ [] := List.ne_nil_of_mem hi
    simp [List.head?_eq_some_head hne, List.getLast?_eq_some_getLast hne] at h
  · intro h
    cases hd : d.intervals with
    | nil => rfl
    | cons i rest =>
      rw [hd] at h hsome
      exact absurd (h i List.mem_cons_self) (hsome i List.mem_cons_self)

theorem bounds?_spec {d : Domain} {lower upper : Word} (h : d.bounds? = some (lower, upper)) :
    lower ∈ d ∧ upper ∈ d ∧ ∀ w ∈ d, lower ≤ w ∧ w ≤ upper := by
  obtain ⟨hwide, hsep⟩ := d.canonical
  simp only [bounds?] at h
  split at h
  · next first last hfirst hlast =>
    simp only [Option.some.injEq, Prod.mk.injEq] at h
    obtain ⟨rfl, rfl⟩ := h
    have hf := List.mem_of_mem_head? hfirst
    have hl := List.mem_of_mem_getLast? hlast
    refine ⟨⟨first, hf, Int64.le_refl _, hwide _ hf⟩, ⟨last, hl, hwide _ hl, Int64.le_refl _⟩, ?_⟩
    rintro w ⟨i, hi, hw⟩
    rw [Interval.mem_iff] at hw
    rw [Int64.le_iff_toInt_le, Int64.le_iff_toInt_le]
    constructor
    -- intervals behind the first one lie above it
    · obtain ⟨rest, hrest⟩ := List.head?_eq_some_iff.mp hfirst
      rw [hrest] at hi hsep
      rcases List.mem_cons.mp hi with rfl | hi
      · exact hw.1
      · have := List.rel_of_pairwise_cons hsep hi
        have := Int64.le_iff_toInt_le.mp (hwide _ hf)
        omega
    -- intervals before the last one lie below it
    · obtain ⟨rest, hrest⟩ := List.getLast?_eq_some_iff.mp hlast
      rw [hrest] at hi hsep
      rcases List.mem_append.mp hi with hi | hi
      · have := (List.pairwise_append.mp hsep).2.2 i hi last (List.mem_singleton_self _)
        have := Int64.le_iff_toInt_le.mp (hwide _ hl)
        omega
      · rw [List.mem_singleton.mp hi] at hw
        exact hw.2
  · simp at h

/-- The floor in the remaining intervals: the greatest member up to the value, or `best`. -/
theorem floorFrom_spec (value : Word) (best : Option Word) {is : List Interval}
    (h : Interval.Canonical is) :
    (floorFrom value best is = best ∧ ∀ i ∈ is, value < i.lower) ∨
      ∃ f, floorFrom value best is = some f ∧ f ≤ value ∧ (∃ i ∈ is, f ∈ i) ∧
        ∀ i ∈ is, ∀ w ∈ i, w ≤ value → w ≤ f := by
  induction is generalizing best with
  | nil => exact .inl ⟨rfl, by simp⟩
  | cons i rest ih =>
    obtain ⟨hwide, hsep⟩ := h
    rw [List.forall_mem_cons] at hwide
    rw [List.pairwise_cons] at hsep
    have hi := Int64.le_iff_toInt_le.mp hwide.1
    simp only [floorFrom]
    split
    · next hlow =>
      refine .inl ⟨rfl, List.forall_mem_cons.mpr ⟨hlow, ?_⟩⟩
      intro j hj
      have := hsep.1 j hj
      rw [Int64.lt_iff_toInt_lt] at hlow ⊢
      omega
    · next hlow =>
      rw [Int64.not_lt, Int64.le_iff_toInt_le] at hlow
      right
      -- the part of the first interval up to the value
      have hmin : min i.upper value ≤ value ∧ min i.upper value ∈ i ∧
          ∀ w ∈ i, w ≤ value → w ≤ min i.upper value := by
        rw [show min i.upper value = if i.upper ≤ value then i.upper else value from rfl]
        simp only [Interval.mem_iff, Int64.le_iff_toInt_le]
        split <;> refine ⟨by omega, by omega, fun w hw hle => by omega⟩
      rcases ih (some (min i.upper value)) ⟨hwide.2, hsep.2⟩ with ⟨heq, hall⟩ | ⟨f, heq, hf⟩
      · refine ⟨_, heq, hmin.1, ⟨i, List.mem_cons_self, hmin.2.1⟩, ?_⟩
        intro j hj w hw hle
        rcases List.mem_cons.mp hj with rfl | hj
        · exact hmin.2.2 w hw hle
        · have := Int64.lt_iff_toInt_lt.mp (hall j hj)
          rw [Int64.le_iff_toInt_le] at hle
          rw [Interval.mem_iff] at hw
          omega
      · obtain ⟨hfv, ⟨j, hj, hfj⟩, hall⟩ := hf
        refine ⟨f, heq, hfv, ⟨j, List.mem_cons_of_mem _ hj, hfj⟩, ?_⟩
        intro k hk w hw hle
        rcases List.mem_cons.mp hk with rfl | hk
        · have := hsep.1 j hj
          rw [Interval.mem_iff] at hw hfj
          rw [Int64.le_iff_toInt_le]
          omega
        · exact hall k hk w hw hle

theorem floor?_spec {d : Domain} {value w : Word} (hw : w ∈ d) (hle : w ≤ value) :
    ∃ f, d.floor? value = some f ∧ f ∈ d ∧ f ≤ value ∧ ∀ u ∈ d, u ≤ value → u ≤ f := by
  rcases floorFrom_spec value none d.canonical with ⟨-, hall⟩ | ⟨f, heq, hf⟩
  · obtain ⟨i, hi, hwi⟩ := hw
    have := Int64.lt_iff_toInt_lt.mp (hall i hi)
    rw [Interval.mem_iff] at hwi
    rw [Int64.le_iff_toInt_le] at hle
    omega
  · refine ⟨f, heq, hf.2.1, hf.1, ?_⟩
    rintro u ⟨i, hi, hui⟩ hle
    exact hf.2.2 i hi u hui hle

/-! ## Small domains -/

theorem size_eq_iff {d : Domain} {n : UInt64} (h : n.toNat < wordCount - 1) :
    d.size = n ↔ d.values.length = n.toNat := by
  rw [← UInt64.toNat_inj, toNat_size]
  omega

theorem values_of_size_zero {d : Domain} (h : d.size = 0) : d.values = [] :=
  List.length_eq_zero_iff.mp ((size_eq_iff (by decide)).mp h)

theorem values_of_size_one {d : Domain} (h : d.size = 1) :
    ∃ w, d.bounds? = some (w, w) ∧ d.values = [w] := by
  obtain ⟨w, hw⟩ := List.length_eq_one_iff.mp ((size_eq_iff (by decide)).mp h)
  cases hb : d.bounds? with
  | none => simp [bounds?_eq_none.mp hb] at hw
  | some bounds =>
    obtain ⟨hl, hu, -⟩ := bounds?_spec hb
    rw [← mem_values, hw, List.mem_singleton] at hl hu
    exact ⟨w, congrArg some (Prod.ext hl hu), hw⟩

theorem values_of_size_two {d : Domain} (h : d.size = 2) :
    ∃ lower upper, lower < upper ∧ d.bounds? = some (lower, upper) ∧ d.values = [lower, upper] := by
  obtain ⟨x, y, hxy⟩ := List.length_eq_two.mp ((size_eq_iff (by decide)).mp h)
  have hlt : x < y := by
    have := d.values_increasing
    rw [hxy] at this
    exact List.rel_of_pairwise_cons this (List.mem_singleton_self y)
  have hle := Int64.le_of_lt hlt
  have hx : x ∈ d := by simp [← mem_values, hxy]
  have hy : y ∈ d := by simp [← mem_values, hxy]
  cases hb : d.bounds? with
  | none => simp [bounds?_eq_none.mp hb] at hxy
  | some bounds =>
    obtain ⟨hl, hu, hall⟩ := bounds?_spec hb
    rw [← mem_values, hxy, List.mem_pair] at hl hu
    -- the bounds are members that enclose both members
    have hlx : bounds.1 = x := by
      rcases hl with hl | hl
      · exact hl
      · exact Int64.le_antisymm (hall x hx).1 (by rw [hl]; exact hle)
    have huy : bounds.2 = y := by
      rcases hu with hu | hu
      · exact Int64.le_antisymm (by rw [hu]; exact hle) (hall y hy).2
      · exact hu
    exact ⟨x, y, hlt, congrArg some (Prod.ext hlx huy), hxy⟩

theorem three_le_length {d : Domain} (h0 : d.size ≠ 0) (h1 : d.size ≠ 1) (h2 : d.size ≠ 2) :
    3 ≤ d.values.length := by
  rw [Ne, size_eq_iff (by decide)] at h0 h1 h2
  have : (0 : UInt64).toNat = 0 ∧ (1 : UInt64).toNat = 1 ∧ (2 : UInt64).toNat = 2 := by decide
  omega

end Domain

end Clausify
