import Clausify.Number.Numeral
import Clausify.Text.Blank

/-!
Domains: finite sets of 64-bit integers, kept as closed intervals in increasing order with at
least one missing integer between neighbours. The form is part of the type, and
`Domain.ofIntervals` brings any list of intervals into it, so equal sets have equal domains.
Queries read the intervals: membership by bisection, the floor of a value, bounds, the number of
members (saturating at `2 ^ 64 - 1`) and the members in increasing order.
-/

namespace Clausify

/-- The integers from `lower` to `upper`, both included; none when `upper < lower`. -/
structure Interval where
  lower : Word
  upper : Word
  deriving DecidableEq, Repr

namespace Interval

def isEmpty (i : Interval) : Bool := i.upper < i.lower

def Mem (value : Word) (i : Interval) : Prop := i.lower ≤ value ∧ value ≤ i.upper

instance : Membership Word Interval := ⟨fun i value => Mem value i⟩

instance (value : Word) (i : Interval) : Decidable (value ∈ i) :=
  inferInstanceAs (Decidable (i.lower ≤ value ∧ value ≤ i.upper))

def count (i : Interval) : Nat := (i.upper.toInt + 1 - i.lower.toInt).toNat

/-- The least `n` members in increasing order, or all when there are fewer. -/
def take (n : Nat) (i : Interval) : List Word :=
  (List.range (min n i.count)).map fun k => i.lower + Int64.ofNat k

def values (i : Interval) : List Word := i.take i.count

/-- A single value is written as itself, a longer interval with two dots. -/
def text (i : Interval) : String :=
  if i.lower = i.upper then i.lower.text else i.lower.text ++ ".." ++ i.upper.text

/-- Intervals in normal form: none is empty, and each ends below the start of those after it with
at least one integer between. -/
def Canonical (intervals : List Interval) : Prop :=
  (∀ i ∈ intervals, i.lower ≤ i.upper) ∧
    intervals.Pairwise fun i j => i.upper.toInt + 1 < j.lower.toInt

end Interval

def Word.greatest : Word := Int64.maxValue

def Word.least : Word := Int64.minValue

/-- A finite set of values as a list of intervals. -/
structure Domain where
  intervals : List Interval
  canonical : Interval.Canonical intervals
  deriving DecidableEq, Repr

namespace Domain

/-- Merges intervals that overlap or touch `current` into it; the list is sorted by lower bound
and holds no empty interval. Nothing lies above the largest value, so an interval that reaches it
takes in all that follow. -/
def mergeFrom (current : Interval) : List Interval → List Interval
  | [] => [current]
  | next :: rest =>
    if current.upper = Word.greatest || next.lower ≤ current.upper + 1 then
      mergeFrom ⟨current.lower, max current.upper next.upper⟩ rest
    else current :: mergeFrom next rest

/-- The intervals with members, by increasing lower bound. -/
def sorted (intervals : List Interval) : List Interval :=
  (intervals.filter fun i => !i.isEmpty).mergeSort fun i j => i.lower ≤ j.lower

/-- The merged intervals of a list that is sorted by lower bound. -/
def mergeSorted : List Interval → List Interval
  | [] => []
  | first :: rest => mergeFrom first rest

def normalise (intervals : List Interval) : List Interval := mergeSorted (sorted intervals)

theorem mem_sorted {i : Interval} {is : List Interval} :
    i ∈ sorted is ↔ i ∈ is ∧ i.lower ≤ i.upper := by
  simp [sorted, Interval.isEmpty]

theorem sorted_pairwise (is : List Interval) :
    (sorted is).Pairwise fun j k => j.lower ≤ k.lower := by
  have htrans : ∀ i j k : Interval, decide (i.lower ≤ j.lower) = true →
      decide (j.lower ≤ k.lower) = true → decide (i.lower ≤ k.lower) = true := by
    simp only [decide_eq_true_eq]
    exact fun i j k => Int64.le_trans
  have htotal : ∀ i j : Interval,
      (decide (i.lower ≤ j.lower) || decide (j.lower ≤ i.lower)) = true := by
    simp only [Bool.or_eq_true, decide_eq_true_eq]
    exact fun i j => Int64.le_total i.lower j.lower
  have hsorted := List.pairwise_mergeSort htrans htotal (is.filter fun i => !i.isEmpty)
  simpa [sorted] using hsorted

theorem toInt_succ {w : Word} (h : w ≠ Word.greatest) : (w + 1).toInt = w.toInt + 1 := by
  have hlt : w.toInt < 9223372036854775807 := by
    have hle := Int64.toInt_lt w
    have hne : w.toInt ≠ Int64.maxValue.toInt := fun e => h (Int64.toInt_inj.mp e)
    rw [show Int64.maxValue.toInt = 9223372036854775807 by decide] at hne
    omega
  have hge := Int64.le_toInt w
  rw [Int64.toInt_add, Int64.toInt_one]
  exact Int.bmod_eq_of_le (by omega) (by omega)

theorem le_max_left (v w : Word) : v ≤ max v w := by
  show v ≤ if v ≤ w then w else v
  split
  · assumption
  · exact Int64.le_refl v

theorem mergeFrom_canonical {current : Interval} {is : List Interval}
    (hc : current.lower ≤ current.upper) (hne : ∀ i ∈ is, i.lower ≤ i.upper)
    (hs : (current :: is).Pairwise fun j k => j.lower ≤ k.lower) :
    Interval.Canonical (mergeFrom current is) ∧
      ∀ i ∈ mergeFrom current is, current.lower ≤ i.lower := by
  induction is generalizing current with
  | nil => simp [mergeFrom, Interval.Canonical, hc]
  | cons next rest ih =>
    rw [List.pairwise_cons, List.pairwise_cons] at hs
    obtain ⟨hcur, hnext, hrest⟩ := hs
    have hne' : ∀ i ∈ rest, i.lower ≤ i.upper := fun i hi => hne i (List.mem_cons_of_mem _ hi)
    simp only [mergeFrom]
    split
    -- the next interval overlaps or adjoins: the union takes the place of both
    · refine ih ?_ hne' ?_
      · exact Int64.le_trans hc (le_max_left _ _)
      · exact List.pairwise_cons.mpr ⟨fun i hi => hcur i (List.mem_cons_of_mem _ hi), hrest⟩
    · next hgap =>
      simp only [Bool.or_eq_true, decide_eq_true_eq, not_or] at hgap
      -- a gap of at least one integer, since the sum has not wrapped
      have hstart : next.lower.toInt > current.upper.toInt + 1 := by
        rw [← toInt_succ hgap.1]
        exact Int64.lt_iff_toInt_lt.mp (Int64.not_le.mp hgap.2)
      obtain ⟨⟨hwide, hsep⟩, hlow⟩ := ih (hne next List.mem_cons_self) hne'
        (List.pairwise_cons.mpr ⟨hnext, hrest⟩)
      refine ⟨⟨?_, List.pairwise_cons.mpr ⟨?_, hsep⟩⟩, ?_⟩
      · intro i hi
        rcases List.mem_cons.mp hi with rfl | hi
        · exact hc
        · exact hwide i hi
      · intro i hi
        have := Int64.le_iff_toInt_le.mp (hlow i hi)
        omega
      · intro i hi
        rcases List.mem_cons.mp hi with rfl | hi
        · exact Int64.le_refl _
        · exact Int64.le_trans (hcur next List.mem_cons_self) (hlow i hi)

theorem canonical_mergeSorted {is : List Interval} (hne : ∀ i ∈ is, i.lower ≤ i.upper)
    (hs : is.Pairwise fun j k => j.lower ≤ k.lower) : Interval.Canonical (mergeSorted is) := by
  cases is with
  | nil => exact ⟨by simp [mergeSorted], List.Pairwise.nil⟩
  | cons first rest =>
    rw [List.forall_mem_cons] at hne
    exact (mergeFrom_canonical hne.1 hne.2 hs).1

theorem normalise_canonical (intervals : List Interval) :
    Interval.Canonical (normalise intervals) :=
  canonical_mergeSorted (fun _ hi => (mem_sorted.mp hi).2) (sorted_pairwise intervals)

def ofIntervals (intervals : List Interval) : Domain where
  intervals := normalise intervals
  canonical := normalise_canonical intervals

def range (lower upper : Word) : Domain := ofIntervals [⟨lower, upper⟩]

def ofValues (values : List Word) : Domain := ofIntervals (values.map fun v => ⟨v, v⟩)

def boolean : Domain := range 0 1

def Mem (value : Word) (d : Domain) : Prop := ∃ i ∈ d.intervals, value ∈ i

instance : Membership Word Domain := ⟨fun d value => Mem value d⟩

/-- The largest number of members that is told apart. -/
def sizeLimit : UInt64 := 0xffffffffffffffff

/-- Adds the widths of intervals to a size. A width of zero is the full range, and a sum that
wraps exceeds the limit. -/
def sizeFrom (size : UInt64) : List Interval → UInt64
  | [] => size
  | i :: rest =>
    let width := (i.upper - i.lower).toUInt64 + 1
    if width = 0 || size + width < size then sizeLimit else sizeFrom (size + width) rest

/-- The number of members, or `sizeLimit` when there are more. -/
def size (d : Domain) : UInt64 := sizeFrom 0 d.intervals

def isEmpty (d : Domain) : Bool := d.intervals.isEmpty

/-- Whether the members are `0` and `1`. -/
def isBoolean (d : Domain) : Bool := d.intervals == [⟨0, 1⟩]

def bounds? (d : Domain) : Option (Word × Word) :=
  match d.intervals.head?, d.intervals.getLast? with
  | some first, some last => some (first.lower, last.upper)
  | _, _ => none

/-- Looks for the interval that holds a value, halving the list at each of `fuel` steps. -/
def search (value : Word) : Nat → List Interval → Bool
  | 0, _ => false
  | fuel + 1, intervals =>
    match intervals.drop (intervals.length / 2) with
    | [] => false
    | middle :: above =>
      if middle.upper < value then search value fuel above
      else if value < middle.lower then
        search value fuel (intervals.take (intervals.length / 2))
      else true

def contains (d : Domain) (value : Word) : Bool :=
  search value d.intervals.length d.intervals

/-- The largest member up to `value` in the remaining intervals, or `best`. -/
def floorFrom (value : Word) (best : Option Word) : List Interval → Option Word
  | [] => best
  | i :: rest =>
    if value < i.lower then best else floorFrom value (some (min i.upper value)) rest

/-- The largest member that is not greater than a value. -/
def floor? (d : Domain) (value : Word) : Option Word := floorFrom value none d.intervals

/-- The least `n` members of the remaining intervals. -/
def takeFrom : Nat → List Interval → List Word
  | _, [] => []
  | n, i :: rest =>
    let firsts := i.take n
    firsts ++ takeFrom (n - firsts.length) rest

/-- The least `n` members in increasing order, or all when there are fewer. -/
def take (n : Nat) (d : Domain) : List Word := takeFrom n d.intervals

def values (d : Domain) : List Word := d.intervals.flatMap Interval.values

def text (d : Domain) : String :=
  "\x7b" ++ ",".intercalate (d.intervals.map Interval.text) ++ "\x7d"

end Domain

end Clausify
