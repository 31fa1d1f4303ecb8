import Mathlib
import Clausify.Proofs.Domain.Normal

/-!
The queries of a domain all answer for one set. Membership is decided by halving the list of
intervals (`search_eq_true_iff`): the half that is left out lies below or above the value. The
members are also what a walk gives that counts up through each interval and looks for its end before
it takes the next value (`walkFrom_eq`), so no count goes beyond the largest value.

Main statement: a domain made from intervals, from bounds or from values answers every query as the
set of integers that it was made from (`queries_agree`).
-/

namespace Clausify

namespace Interval

variable {is js : List Interval}

theorem Canonical.sublist (h : Canonical js) (hsub : is.Sublist js) : Canonical is :=
  ⟨fun i hi => h.1 i (hsub.subset hi), h.2.sublist hsub⟩

/-- A value behind one interval of a list is in one of those after it, if in any. -/
theorem Canonical.exists_mem_after {below above : List Interval} {middle : Interval} {value : Word}
    (h : Canonical (below ++ middle :: above)) (hvalue : middle.upper < value) :
    (∃ i ∈ below ++ middle :: above, value ∈ i) ↔ ∃ i ∈ above, value ∈ i := by
  have hwide := Int64.le_iff_toInt_le.mp (h.1 middle (by simp))
  rw [Int64.lt_iff_toInt_lt] at hvalue
  constructor
  · rintro ⟨i, hi, hmem⟩
    rw [mem_iff] at hmem
    rcases List.mem_append.mp hi with hi | hi
    · have hbefore := (List.pairwise_append.mp h.2).2.2 i hi middle List.mem_cons_self
      omega
    · rcases List.mem_cons.mp hi with rfl | hi
      · omega
      · exact ⟨i, hi, mem_iff.mpr hmem⟩
  · rintro ⟨i, hi, hmem⟩
    exact ⟨i, by simp [hi], hmem⟩

/-- A value before one interval of a list is in one of those before it, if in any. -/
theorem Canonical.exists_mem_before {below above : List Interval} {middle : Interval} {value : Word}
    (h : Canonical (below ++ middle :: above)) (hvalue : value < middle.lower) :
    (∃ i ∈ below ++ middle :: above, value ∈ i) ↔ ∃ i ∈ below, value ∈ i := by
  have hwide := Int64.le_iff_toInt_le.mp (h.1 middle (by simp))
  rw [Int64.lt_iff_toInt_lt] at hvalue
  constructor
  · rintro ⟨i, hi, hmem⟩
    rcases List.mem_append.mp hi with hi | hi
    · exact ⟨i, hi, hmem⟩
    rw [mem_iff] at hmem
    rcases List.mem_cons.mp hi with rfl | hi
    · omega
    · have hbehind := List.rel_of_pairwise_cons (List.pairwise_append.mp h.2).2.1 hi
      omega
  · rintro ⟨i, hi, hmem⟩
    exact ⟨i, by simp [hi], hmem⟩

/-- Lists with the same members cover the same integers: every integer that is covered is that of a
word. -/
theorem covered_subset (h : ∀ w : Word, (∃ i ∈ is, w ∈ i) → ∃ j ∈ js, w ∈ j) :
    covered is ⊆ covered js := by
  rintro z ⟨i, hi, hz⟩
  have hlower := toInt_bounds i.lower
  have hupper := toInt_bounds i.upper
  have hword : (Int64.ofInt z).toInt = z := Int64.toInt_ofInt_of_le (by omega) (by omega)
  rw [← hword, toInt_mem_covered]
  apply h
  exact ⟨i, hi, mem_iff.mpr (by rwa [hword])⟩

/-! ## Members one after the other -/

theorem values_self (w : Word) : values ⟨w, w⟩ = [w] := by
  have hcount : count ⟨w, w⟩ = 1 := by
    simp only [count]
    omega
  rw [values_eq, hcount]
  show [w + Int64.ofNat 0] = [w]
  simp

theorem toInt_succ_of_lt {lower upper : Word} (h : lower < upper) :
    (lower + 1).toInt = lower.toInt + 1 := by
  apply Domain.toInt_succ
  rintro rfl
  have hbound := (toInt_bounds upper).2
  rw [Int64.lt_iff_toInt_lt, show Word.greatest.toInt = 9223372036854775807 by decide] at h
  omega

/-- Before its end, the members of an interval are its start and those from the next value on. -/
theorem values_step {lower upper : Word} (h : lower < upper) :
    values ⟨lower, upper⟩ = lower :: values ⟨lower + 1, upper⟩ := by
  have hlt := Int64.lt_iff_toInt_lt.mp h
  have hsucc := toInt_succ_of_lt h
  have hcount : count ⟨lower, upper⟩ = count ⟨lower + 1, upper⟩ + 1 := by
    simp only [count, hsucc]
    omega
  rw [values_eq, values_eq, hcount, List.range_succ_eq_map, List.map_cons, List.map_map]
  congr 1
  · show lower + Int64.ofNat 0 = lower
    simp
  · apply List.map_congr_left
    intro k _
    show lower + Int64.ofNat (k + 1) = lower + 1 + Int64.ofNat k
    rw [Int64.ofNat_add, Int64.add_comm (Int64.ofNat k), Int64.add_assoc]
    rfl

theorem take_eq (n : Nat) (i : Interval) : i.take n = i.values.take n := by
  rw [take, values_eq, ← List.map_take, List.take_range]

end Interval

namespace Domain

variable {d : Domain} {v w : Word}

/-! ## Membership by halving -/

/-- Halving finds the interval of a value, if there is one, in as many steps as there are
intervals. -/
theorem search_eq_true_iff (value : Word) {fuel : Nat} {is : List Interval}
    (h : Interval.Canonical is) (hfuel : is.length ≤ fuel) :
    search value fuel is = true ↔ ∃ i ∈ is, value ∈ i := by
  induction fuel generalizing is with
  | zero =>
    obtain rfl := List.eq_nil_of_length_eq_zero (Nat.le_zero.mp hfuel)
    simp [search]
  | succ fuel ih =>
    have hlengths := List.length_drop (i := is.length / 2) (l := is)
    have hsplit := List.take_append_drop (is.length / 2) is
    have hbelow : (is.take (is.length / 2)).length ≤ is.length / 2 := List.length_take_le _ _
    rw [search]
    generalize is.take (is.length / 2) = below at hsplit hbelow ⊢
    cases hdrop : is.drop (is.length / 2) with
    | nil =>
      rw [hdrop, List.length_nil] at hlengths
      obtain rfl := List.eq_nil_of_length_eq_zero (show is.length = 0 by omega)
      simp
    | cons middle above =>
      rw [hdrop] at hsplit
      rw [hdrop, List.length_cons] at hlengths
      rw [← hsplit] at h ⊢
      dsimp only
      split
      · next hlow =>
        -- the value lies behind the middle, and so behind all before it
        have habove : Interval.Canonical above :=
          h.sublist
            ((List.sublist_cons_self middle above).trans (List.sublist_append_right below _))
        rw [h.exists_mem_after hlow]
        exact ih habove (by omega)
      · next hlow =>
        split
        · next hhigh =>
          rw [h.exists_mem_before hhigh]
          exact ih (h.sublist (List.sublist_append_left below _)) (by omega)
        · next hhigh =>
          exact iff_of_true rfl ⟨middle, by simp, Int64.not_lt.mp hhigh, Int64.not_lt.mp hlow⟩

theorem contains_iff : d.contains v = true ↔ v ∈ d :=
  search_eq_true_iff v d.canonical (Nat.le_refl _)

/-! ## Walks -/

theorem takeFrom_eq (n : Nat) (is : List Interval) :
    takeFrom n is = (is.flatMap Interval.values).take n := by
  induction is generalizing n with
  | nil => simp [takeFrom]
  | cons i rest ih =>
    rw [takeFrom, ih, List.flatMap_cons, List.take_append, Interval.take_eq, List.length_take]
    congr 2
    omega

/-- At most `n` values: `value`, the ones after it up to `upper`, and those of the intervals that
remain. The end of an interval is looked for before the next value is taken. -/
def walkFrom : Nat → Word → Word → List Interval → List Word
  | 0, _, _, _ => []
  | n + 1, value, upper, rest =>
    value ::
      if value = upper then
        match rest with
        | [] => []
        | next :: rest => walkFrom n next.lower next.upper rest
      else walkFrom n (value + 1) upper rest

/-- A walk through a whole domain, at most `n` values long. -/
def walk (n : Nat) (d : Domain) : List Word :=
  match d.intervals with
  | [] => []
  | first :: rest => walkFrom n first.lower first.upper rest

theorem walkFrom_eq (n : Nat) {value upper : Word} {rest : List Interval} (h : value ≤ upper)
    (hrest : ∀ i ∈ rest, i.lower ≤ i.upper) :
    walkFrom n value upper rest =
      ((Interval.values ⟨value, upper⟩) ++ rest.flatMap Interval.values).take n := by
  induction n generalizing value upper rest with
  | zero => simp [walkFrom]
  | succ n ih =>
    unfold walkFrom
    split
    · next hend =>
      -- the end of an interval: the walk goes on with the next one
      subst hend
      rw [Interval.values_self, List.singleton_append, List.take_succ_cons]
      congr 1
      cases rest with
      | nil => simp
      | cons next rest =>
        rw [List.forall_mem_cons] at hrest
        exact ih hrest.1 hrest.2
    · next hgo =>
      -- below the upper bound the successor does not wrap
      have hlt : value < upper := Int64.lt_iff_le_and_ne.mpr ⟨h, hgo⟩
      have hnext : value + 1 ≤ upper := by
        rw [Int64.le_iff_toInt_le, Interval.toInt_succ_of_lt hlt]
        exact Int64.lt_iff_toInt_lt.mp hlt
      rw [Interval.values_step hlt, List.cons_append, List.take_succ_cons, ih hnext hrest]

theorem take_eq (n : Nat) (d : Domain) : d.take n = d.values.take n := takeFrom_eq n d.intervals

theorem walk_eq (n : Nat) (d : Domain) : d.walk n = d.values.take n := by
  obtain ⟨hwide, -⟩ := d.canonical
  unfold walk values
  cases hd : d.intervals with
  | nil => simp
  | cons first rest =>
    rw [hd, List.forall_mem_cons] at hwide
    exact walkFrom_eq n hwide.1 hwide.2

/-! ## Floor, bounds and size -/

theorem floor?_eq_none_iff : d.floor? v = none ↔ ∀ w ∈ d, v < w := by
  constructor
  · intro hnone w hw
    by_contra hle
    obtain ⟨f, hf, -⟩ := floor?_spec hw (Int64.not_lt.mp hle)
    simp [hnone] at hf
  · intro hall
    rcases floorFrom_spec v none d.canonical with ⟨hnone, -⟩ | ⟨f, -, hle, hmem, -⟩
    · exact hnone
    · exact absurd (hall f hmem) (Int64.not_lt.mpr hle)

theorem floor?_eq_some_iff {f : Word} :
    d.floor? v = some f ↔ IsGreatest {w | w ∈ d ∧ w ≤ v} f := by
  constructor
  · intro hf
    obtain ⟨w, hw, hle⟩ : ∃ w ∈ d, w ≤ v := by
      by_contra hnone
      push Not at hnone
      have hall : ∀ w ∈ d, v < w := fun w hw => Int64.not_le.mp (hnone w hw)
      simp [floor?_eq_none_iff.mpr hall] at hf
    obtain ⟨g, hg, hmem, hgv, hgreatest⟩ := floor?_spec hw hle
    obtain rfl := Option.some_inj.mp (hg.symm.trans hf)
    exact ⟨⟨hmem, hgv⟩, fun u hu => hgreatest u hu.1 hu.2⟩
  · rintro ⟨⟨hmem, hle⟩, hgreatest⟩
    obtain ⟨g, hg, hgmem, hgv, hg'⟩ := floor?_spec hmem hle
    rw [hg, Int64.le_antisymm (hgreatest ⟨hgmem, hgv⟩) (hg' f hmem hle)]

theorem bounds?_eq_some_iff {lower upper : Word} : d.bounds? = some (lower, upper) ↔
    IsLeast {w | w ∈ d} lower ∧ IsGreatest {w | w ∈ d} upper := by
  constructor
  · intro h
    obtain ⟨hlower, hupper, hall⟩ := bounds?_spec h
    exact ⟨⟨hlower, fun w hw => (hall w hw).1⟩, ⟨hupper, fun w hw => (hall w hw).2⟩⟩
  · rintro ⟨⟨hlower, hleast⟩, ⟨hupper, hgreatest⟩⟩
    cases hb : d.bounds? with
    | none =>
      rw [bounds?_eq_none] at hb
      exact absurd (mem_values.mpr hlower) (by simp [hb])
    | some bounds =>
      obtain ⟨hl, hu, hall⟩ := bounds?_spec hb
      have hfirst := Int64.le_antisymm (hall lower hlower).1 (hleast hl)
      have hlast := Int64.le_antisymm (hgreatest hu) (hall upper hupper).2
      exact congrArg some (Prod.ext hfirst hlast)

theorem values_eq_nil_iff : d.values = [] ↔ {w | w ∈ d} = (∅ : Set Word) := by
  simp only [List.eq_nil_iff_forall_not_mem, mem_values, Set.eq_empty_iff_forall_notMem,
    Set.mem_ofPred_eq]

theorem isEmpty_eq_true_iff : d.isEmpty = true ↔ {w | w ∈ d} = (∅ : Set Word) := by
  rw [← values_eq_nil_iff, ← bounds?_eq_none, isEmpty, bounds?]
  cases d.intervals with
  | nil => simp
  | cons first rest => simp [List.getLast?_cons]

theorem length_values (d : Domain) : d.values.length = {w | w ∈ d}.ncard := by
  have hset : {w | w ∈ d} = (d.values.toFinset : Set Word) := by
    ext w
    simp [mem_values]
  rw [hset, Set.ncard_coe_finset, List.toFinset_card_of_nodup d.values_nodup]

/-! ## Domains and sets -/

theorem intervals_eq_of_mem_iff {d e : Domain} (h : ∀ w, w ∈ d ↔ w ∈ e) :
    d.intervals = e.intervals := by
  apply d.canonical.eq_of_covered e.canonical
  apply Set.Subset.antisymm
  · exact Interval.covered_subset fun w hw => (h w).mp hw
  · exact Interval.covered_subset fun w hw => (h w).mpr hw

theorem isBoolean_eq_true_iff : d.isBoolean = true ↔ {w | w ∈ d} = ({0, 1} : Set Word) := by
  constructor
  · intro h
    ext w
    exact mem_of_isBoolean h
  · intro h
    have hmem : ∀ w, w ∈ d ↔ w ∈ boolean := by
      intro w
      rw [mem_of_isBoolean isBoolean_boolean]
      exact Set.ext_iff.mp h w
    rw [isBoolean, intervals_eq_of_mem_iff hmem]
    exact isBoolean_boolean

/-- Every query answers for the set `S`. -/
structure Answers (d : Domain) (S : Set Word) : Prop where
  contains : ∀ v, d.contains v = true ↔ v ∈ S
  floor_some : ∀ v f, d.floor? v = some f ↔ IsGreatest {w | w ∈ S ∧ w ≤ v} f
  floor_none : ∀ v, d.floor? v = none ↔ ∀ w ∈ S, v < w
  bounds_some : ∀ lower upper,
    d.bounds? = some (lower, upper) ↔ IsLeast S lower ∧ IsGreatest S upper
  bounds_none : d.bounds? = none ↔ S = ∅
  isEmpty : d.isEmpty = true ↔ S = ∅
  size : d.size.toNat = min S.ncard (wordCount - 1)
  isBoolean : d.isBoolean = true ↔ S = {0, 1}
  /-- All members are listed, in increasing order and so each once. -/
  values : d.values.Pairwise (· < ·) ∧ ∀ v, v ∈ d.values ↔ v ∈ S
  /-- The first members of the list can be had without it, also by counting up. -/
  take : ∀ n, d.take n = d.values.take n ∧ d.walk n = d.values.take n

theorem answers_members (d : Domain) : d.Answers {w | w ∈ d} where
  contains _ := contains_iff
  floor_some _ _ := floor?_eq_some_iff
  floor_none _ := floor?_eq_none_iff
  bounds_some _ _ := bounds?_eq_some_iff
  bounds_none := bounds?_eq_none.trans values_eq_nil_iff
  isEmpty := isEmpty_eq_true_iff
  size := by rw [← length_values, toNat_size]
  isBoolean := isBoolean_eq_true_iff
  values := ⟨d.values_increasing, fun _ => mem_values⟩
  take n := ⟨take_eq n d, walk_eq n d⟩

theorem answers_of_mem_iff {S : Set Word} (h : ∀ w, w ∈ d ↔ w ∈ S) : d.Answers S := by
  have hset : {w | w ∈ d} = S := Set.ext h
  exact hset ▸ d.answers_members

/-- A domain answers every query for the set it was made from: the union of intervals in any order,
the values between two bounds, the listed values, or the two truth values. -/
theorem queries_agree :
    (∀ is : List Interval, (ofIntervals is).Answers {w | ∃ i ∈ is, i.lower ≤ w ∧ w ≤ i.upper}) ∧
    (∀ lower upper : Word, (range lower upper).Answers {w | lower ≤ w ∧ w ≤ upper}) ∧
    (∀ values : List Word, (ofValues values).Answers {w | w ∈ values}) ∧
    boolean.Answers {0, 1} := by
  refine ⟨?_, ?_, ?_, ?_⟩
  · intro is
    exact answers_of_mem_iff fun w => mem_ofIntervals
  · intro lower upper
    apply answers_of_mem_iff
    intro w
    rw [range, mem_ofIntervals]
    simp only [List.mem_singleton, exists_eq_left]
    rfl
  · intro values
    exact answers_of_mem_iff fun w => mem_ofValues
  · exact answers_of_mem_iff fun w => mem_of_isBoolean isBoolean_boolean

end Domain

end Clausify
