import Mathlib
import Clausify.Proofs.Domain.Members

/-!
The normal form of a list of intervals. A list covers the integers of its intervals
(`Interval.covered`). Sorting by lower bound and merging leaves what is covered as it is
(`covered_mergeSorted`), and two lists in normal form that cover the same integers are equal
(`Canonical.eq_of_covered`): the first interval starts at the least covered integer and ends
before the first one that is missing. Main statement: the normal form of a list is in normal
form, covers what the list covers, and depends on nothing else, neither on the order of the list
nor on the order in which intervals with one lower bound are merged (`normal_form_determined`).
-/

namespace Clausify

namespace Interval

/-- The integers that lie in some interval of a list. -/
def covered (is : List Interval) : Set Int :=
  {z | ∃ i ∈ is, i.lower.toInt ≤ z ∧ z ≤ i.upper.toInt}

variable {i j : Interval} {is js : List Interval} {z : Int}

@[simp] theorem mem_covered_nil : z ∈ covered [] ↔ False := by simp [covered]

@[simp] theorem mem_covered_cons :
    z ∈ covered (i :: is) ↔ (i.lower.toInt ≤ z ∧ z ≤ i.upper.toInt) ∨ z ∈ covered is := by
  simp [covered]

theorem toInt_mem_covered {w : Word} : w.toInt ∈ covered is ↔ ∃ i ∈ is, w ∈ i := by
  simp only [covered, Set.mem_ofPred_eq, mem_iff]

theorem covered_congr (h : ∀ i, i.lower ≤ i.upper → (i ∈ is ↔ i ∈ js)) :
    covered is = covered js := by
  -- an interval with a member is not empty
  have hwide : ∀ (i : Interval) (z : Int), i.lower.toInt ≤ z ∧ z ≤ i.upper.toInt →
      i.lower ≤ i.upper := by
    intro i z hz
    rw [Int64.le_iff_toInt_le]
    omega
  ext z
  constructor
  · rintro ⟨i, hi, hz⟩
    exact ⟨i, (h i (hwide i z hz)).mp hi, hz⟩
  · rintro ⟨i, hi, hz⟩
    exact ⟨i, (h i (hwide i z hz)).mpr hi, hz⟩

/-! ## Lists in normal form -/

theorem Canonical.tail (h : Canonical (i :: is)) : Canonical is :=
  ⟨fun j hj => h.1 j (List.mem_cons_of_mem i hj), (List.pairwise_cons.mp h.2).2⟩

theorem Canonical.head_le (h : Canonical (i :: is)) : i.lower.toInt ≤ i.upper.toInt :=
  Int64.le_iff_toInt_le.mp (h.1 i List.mem_cons_self)

theorem Canonical.lower_mem (h : Canonical (i :: is)) : i.lower.toInt ∈ covered (i :: is) := by
  rw [mem_covered_cons]
  exact .inl ⟨Int.le_refl _, h.head_le⟩

/-- Behind the first interval and the integer after it comes all else that is covered. -/
theorem Canonical.lt_of_mem_tail (h : Canonical (i :: is)) (hz : z ∈ covered is) :
    i.upper.toInt + 1 < z := by
  obtain ⟨j, hj, hjz⟩ := hz
  calc i.upper.toInt + 1 < j.lower.toInt := List.rel_of_pairwise_cons h.2 hj
    _ ≤ z := hjz.1

theorem Canonical.lower_le (h : Canonical (i :: is)) (hz : z ∈ covered (i :: is)) :
    i.lower.toInt ≤ z := by
  rcases mem_covered_cons.mp hz with hz | hz
  · exact hz.1
  · have := h.lt_of_mem_tail hz
    have := h.head_le
    omega

theorem Canonical.succ_upper_not_mem (h : Canonical (i :: is)) :
    i.upper.toInt + 1 ∉ covered (i :: is) := by
  rw [mem_covered_cons]
  rintro (hz | hz)
  · omega
  · exact absurd (h.lt_of_mem_tail hz) (Int.lt_irrefl _)

/-- Of two lists that cover the same, neither first interval ends behind the other's. -/
theorem Canonical.upper_le (hi : Canonical (i :: is))
    (h : covered (i :: is) = covered (j :: js)) (hlower : i.lower = j.lower) :
    j.upper.toInt ≤ i.upper.toInt := by
  by_contra hlt
  -- otherwise the integer after the first interval of `i :: is` is one of `j`
  have hmem : i.upper.toInt + 1 ∈ covered (j :: js) := by
    rw [mem_covered_cons, ← hlower]
    have := hi.head_le
    exact .inl ⟨by omega, by omega⟩
  rw [← h] at hmem
  exact hi.succ_upper_not_mem hmem

theorem Canonical.mem_tail_iff (h : Canonical (i :: is)) :
    z ∈ covered is ↔ z ∈ covered (i :: is) ∧ i.upper.toInt < z := by
  rw [mem_covered_cons]
  constructor
  · intro hz
    have := h.lt_of_mem_tail hz
    exact ⟨.inr hz, by omega⟩
  · rintro ⟨hz | hz, hlt⟩
    · omega
    · exact hz

/-- A list in normal form is determined by the integers it covers. -/
theorem Canonical.eq_of_covered (hi : Canonical is) (hj : Canonical js)
    (h : covered is = covered js) : is = js := by
  induction is generalizing js with
  | nil =>
    cases js with
    | nil => rfl
    | cons j js =>
      have hmem := hj.lower_mem
      rw [← h, mem_covered_nil] at hmem
      exact hmem.elim
  | cons i is ih =>
    cases js with
    | nil =>
      have hmem := hi.lower_mem
      rw [h, mem_covered_nil] at hmem
      exact hmem.elim
    | cons j js =>
      -- the least integer that is covered is the lower bound of both first intervals
      have hlower : i.lower = j.lower := by
        apply Int64.toInt_inj.mp
        apply Int.le_antisymm
        · exact hi.lower_le (h ▸ hj.lower_mem)
        · exact hj.lower_le (h ▸ hi.lower_mem)
      have hupper : i.upper = j.upper := by
        apply Int64.toInt_inj.mp
        apply Int.le_antisymm
        · exact hj.upper_le h.symm hlower.symm
        · exact hi.upper_le h hlower
      -- what is covered behind the first interval is the same again
      have htail : covered is = covered js := by
        ext z
        rw [hi.mem_tail_iff, hj.mem_tail_iff, h, hupper]
      have hfirst : i = j := by
        cases i
        cases j
        simp_all
      rw [hfirst, ih hi.tail hj.tail htail]

end Interval

namespace Domain

open Clausify.Interval (covered mem_covered_cons mem_covered_nil)

variable {current next : Interval} {is : List Interval}

/-! ## Merging -/

theorem toInt_max (v w : Word) : (max v w).toInt = max v.toInt w.toInt := by
  show (if v ≤ w then w else v).toInt = _
  split
  · next h => exact (max_eq_right (Int64.le_iff_toInt_le.mp h)).symm
  · next h =>
    have := Int64.lt_iff_toInt_lt.mp (Int64.not_le.mp h)
    exact (max_eq_left (by omega)).symm

/-- An interval that starts at or behind `current` and is merged into it leaves no gap, also where
`current` reaches the largest value and its successor wraps. -/
theorem touches_of_merged
    (h : (current.upper = Word.greatest || next.lower ≤ current.upper + 1) = true) :
    next.lower.toInt ≤ current.upper.toInt + 1 := by
  by_cases hgreatest : current.upper = Word.greatest
  · have hbound := (Interval.toInt_bounds next.lower).2
    rw [hgreatest, show Word.greatest.toInt = 9223372036854775807 by decide]
    omega
  · simp only [hgreatest, decide_false, Bool.false_or, decide_eq_true_eq] at h
    rw [← toInt_succ hgreatest]
    exact Int64.le_iff_toInt_le.mp h

theorem covered_mergeFrom (hc : current.lower ≤ current.upper) (hne : ∀ i ∈ is, i.lower ≤ i.upper)
    (hs : (current :: is).Pairwise fun j k => j.lower ≤ k.lower) :
    covered (mergeFrom current is) = covered (current :: is) := by
  induction is generalizing current with
  | nil => rfl
  | cons next rest ih =>
    rw [List.forall_mem_cons] at hne
    rw [List.pairwise_cons, List.forall_mem_cons] at hs
    obtain ⟨⟨hstart, hcur⟩, hrest⟩ := hs
    rw [mergeFrom]
    split
    · next hmerge =>
      have htouch := touches_of_merged hmerge
      refine (ih ?_ hne.2 ?_).trans ?_
      · exact Int64.le_trans hc (le_max_left _ _)
      · exact List.pairwise_cons.mpr ⟨hcur, (List.pairwise_cons.mp hrest).2⟩
      · -- the merged interval is the union of the two
        rw [Int64.le_iff_toInt_le] at hc hstart
        have hnext := Int64.le_iff_toInt_le.mp hne.1
        ext z
        simp only [mem_covered_cons, toInt_max, ← or_assoc]
        apply or_congr_left
        omega
    · ext z
      rw [mem_covered_cons, ih hne.1 hne.2 hrest, ← mem_covered_cons]

theorem covered_mergeSorted (hne : ∀ i ∈ is, i.lower ≤ i.upper)
    (hs : is.Pairwise fun j k => j.lower ≤ k.lower) : covered (mergeSorted is) = covered is := by
  cases is with
  | nil => rfl
  | cons first rest =>
    rw [List.forall_mem_cons] at hne
    exact covered_mergeFrom hne.1 hne.2 hs

theorem mem_filter_nonempty {i : Interval} :
    i ∈ is.filter (fun i => !i.isEmpty) ↔ i ∈ is ∧ i.lower ≤ i.upper := by
  rw [List.mem_filter]
  simp [Interval.isEmpty]

/-- Empty intervals, the order of the list and repetitions do not matter for what is covered. -/
theorem covered_of_same_nonempty {js : List Interval}
    (h : ∀ i, i ∈ js ↔ i ∈ is ∧ i.lower ≤ i.upper) : covered js = covered is := by
  apply Interval.covered_congr
  intro i hwide
  rw [h, and_iff_left hwide]

theorem covered_normalise (is : List Interval) : covered (normalise is) = covered is :=
  calc covered (normalise is)
      = covered (sorted is) :=
        covered_mergeSorted (fun _ hi => (mem_sorted.mp hi).2) (sorted_pairwise is)
    _ = covered is := covered_of_same_nonempty fun _ => mem_sorted

theorem mem_ofIntervals {w : Word} : w ∈ ofIntervals is ↔ ∃ i ∈ is, w ∈ i := by
  show (∃ i ∈ normalise is, w ∈ i) ↔ _
  rw [← Interval.toInt_mem_covered, covered_normalise, Interval.toInt_mem_covered]

theorem mem_ofValues {w : Word} {values : List Word} : w ∈ ofValues values ↔ w ∈ values := by
  rw [ofValues, mem_ofIntervals]
  constructor
  · rintro ⟨i, hi, hw⟩
    obtain ⟨v, hv, rfl⟩ := List.mem_map.mp hi
    rwa [Int64.le_antisymm hw.2 hw.1]
  · intro hw
    exact ⟨⟨w, w⟩, List.mem_map.mpr ⟨w, hw, rfl⟩, Int64.le_refl w, Int64.le_refl w⟩

theorem isBoolean_boolean : boolean.isBoolean = true := by cbv

theorem mem_of_isBoolean {d : Domain} (h : d.isBoolean = true) {w : Word} :
    w ∈ d ↔ w = 0 ∨ w = 1 := by
  have hintervals : d.intervals = [⟨0, 1⟩] := by simpa [isBoolean] using h
  have hconst : (0 : Word).toInt = 0 ∧ (1 : Word).toInt = 1 := by decide
  show (∃ i ∈ d.intervals, w ∈ i) ↔ _
  rw [hintervals]
  simp only [List.mem_singleton, exists_eq_left, Interval.mem_iff, ← Int64.toInt_inj, hconst]
  omega

theorem ofIntervals_eq_iff {is js : List Interval} :
    ofIntervals is = ofIntervals js ↔ covered is = covered js := by
  rw [← covered_normalise is, ← covered_normalise js]
  constructor
  · intro h
    exact congrArg (fun d : Domain => covered d.intervals) h
  · intro h
    have heq : normalise is = normalise js :=
      (normalise_canonical is).eq_of_covered (normalise_canonical js) h
    rw [ofIntervals.eq_1, ofIntervals.eq_1]
    simp only [heq]

/-- The normal form of a list of intervals: no interval is empty, each lies behind the one before it
with an integer between, and they cover what the list covers. Domains of two lists are equal exactly
when the lists cover the same integers, and merging gives the normal form whatever order the
intervals with one lower bound are sorted in. -/
theorem normal_form_determined (is js : List Interval) :
    Interval.Canonical (normalise is) ∧
    covered (normalise is) = covered is ∧
    (ofIntervals is = ofIntervals js ↔ covered is = covered js) ∧
    ∀ sorted : List Interval, sorted.Perm (is.filter fun i => !i.isEmpty) →
      (sorted.Pairwise fun j k => j.lower ≤ k.lower) → mergeSorted sorted = normalise is := by
  refine ⟨normalise_canonical is, covered_normalise is, ofIntervals_eq_iff, ?_⟩
  intro sorted hperm hsorted
  have hne : ∀ i ∈ sorted, i.lower ≤ i.upper := by
    intro i hi
    exact (mem_filter_nonempty.mp (hperm.mem_iff.mp hi)).2
  have hcovered : covered (mergeSorted sorted) = covered (normalise is) :=
    calc covered (mergeSorted sorted) = covered sorted := covered_mergeSorted hne hsorted
      _ = covered is :=
        covered_of_same_nonempty fun _ => hperm.mem_iff.trans mem_filter_nonempty
      _ = covered (normalise is) := (covered_normalise is).symm
  exact (canonical_mergeSorted hne hsorted).eq_of_covered (normalise_canonical is) hcovered

/-- Intervals up to the largest value, one of them empty and two with one lower bound, sorted the
other way round. -/
theorem ceiling_form_determined :
    mergeSorted [⟨3, 4⟩, ⟨5, 6⟩, ⟨5, Word.greatest⟩] =
        normalise [⟨5, Word.greatest⟩, ⟨9, 1⟩, ⟨3, 4⟩, ⟨5, 6⟩] ∧
      ofIntervals [⟨5, Word.greatest⟩, ⟨9, 1⟩, ⟨3, 4⟩, ⟨5, 6⟩] = range 3 Word.greatest := by
  have hform := normal_form_determined [⟨5, Word.greatest⟩, ⟨9, 1⟩, ⟨3, 4⟩, ⟨5, 6⟩]
    [⟨3, Word.greatest⟩]
  refine ⟨hform.2.2.2 _ (by decide) (by decide), hform.2.2.1.mpr ?_⟩
  ext z
  have hconst : (1 : Word).toInt = 1 ∧ (3 : Word).toInt = 3 ∧ (4 : Word).toInt = 4 ∧
      (5 : Word).toInt = 5 ∧ (6 : Word).toInt = 6 ∧ (9 : Word).toInt = 9 ∧
      Word.greatest.toInt = 9223372036854775807 := by decide
  simp only [mem_covered_cons, mem_covered_nil, or_false]
  omega

end Domain

end Clausify
