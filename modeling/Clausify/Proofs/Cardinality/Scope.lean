import Mathlib
import Clausify.Proofs.Cardinality.Scheme

/-!
What the schemes may be relied on for, whatever becomes of the variables they ask for. A variable
is allocated before a clause speaks about it, so every clause is in scope at the point where it is
written, even if there is no room for the rest (`encode_scoped`). And a scheme that is named and
whose sizes are valid comes to its end (`encode_stop`): a cell holds at least two literals, so the
representatives are fewer than the literals and the levels end before the fuel does.
-/

namespace Clausify

/-- The literals are known, provided that there are literals for `count` variables. -/
def Literal.InScope (count : Nat) (ls : List Literal) : Prop :=
  count < limit → ∀ l ∈ ls, l.Known count

theorem Literal.InScope.mono {m n : Nat} {ls : List Literal} (h : InScope m ls) (hmn : m ≤ n) :
    InScope n ls :=
  fun hn l hl => (h (Nat.lt_of_le_of_lt hmn hn) l hl).mono hmn

theorem Literal.InScope.subset {n : Nat} {ls ks : List Literal} (h : InScope n ls)
    (hks : ∀ l ∈ ks, l ∈ ls) : InScope n ks :=
  fun hn l hl => h hn l (hks l hl)

/-- Groups hold at least one literal and parts at least two. -/
def Settings.Sized (settings : Settings) : Prop :=
  1 ≤ settings.bimanderGroupSize ∧ 2 ≤ settings.commanderPartSize

theorem Settings.Sized.toInt {settings : Settings} (h : settings.Sized) :
    1 ≤ settings.bimanderGroupSize.toInt ∧ 2 ≤ settings.commanderPartSize.toInt := by
  obtain ⟨hgroup, hpart⟩ := h
  rw [Int64.le_iff_toInt_le, Int64.toInt_one] at hgroup
  rw [Int64.le_iff_toInt_le, show (2 : Word).toInt = 2 by decide] at hpart
  exact ⟨hgroup, hpart⟩

theorem Settings.sized_of_validate {settings : Settings} (h : settings.validate = .ok ()) :
    settings.Sized := by
  unfold validate at h
  split at h
  · simp at h
  · simp at h
  · split_ifs at h with hfallback hgroup hpart
    exact ⟨Int64.not_lt.mp hgroup, Int64.not_lt.mp hpart⟩

namespace Emission

/-- Every clause speaks about literals that are known where it is written, the variables before it
being allocated. -/
def Scoped : Nat → List Emission → Prop
  | _, [] => True
  | count, .fresh :: es => Scoped (count + 1) es
  | count, .clause c :: es => (count < Literal.limit → c.Known count) ∧ Scoped count es

theorem scoped_append {count : Nat} {es fs : List Emission} :
    Scoped count (es ++ fs) ↔ Scoped count es ∧ Scoped (count + freshCount es) fs := by
  induction es generalizing count with
  | nil => simp [Scoped]
  | cons emission es ih =>
    cases emission with
    | fresh =>
      rw [List.cons_append, Scoped, ih, Scoped, freshCount_fresh, Nat.add_right_comm, Nat.add_assoc]
    | clause c =>
      have hcount : freshCount (.clause c :: es) = freshCount es := by simp [freshCount]
      rw [List.cons_append, Scoped, ih, Scoped, hcount, and_assoc]

theorem scoped_clauses {count : Nat} {cs : List Clause}
    (h : count < Literal.limit → ∀ c ∈ cs, c.Known count) : Scoped count (clauses cs) := by
  induction cs with
  | nil => trivial
  | cons c cs ih =>
    exact ⟨fun hlim => h hlim c List.mem_cons_self,
      ih fun hlim d hd => h hlim d (List.mem_cons_of_mem _ hd)⟩

theorem scoped_allocate (count n : Nat) : Scoped count (allocate n) := by
  induction n generalizing count with
  | zero => trivial
  | succ n ih => exact ih (count + 1)

theorem inScope_literalsFrom (count n : Nat) :
    Literal.InScope (count + n) (literalsFrom count n) :=
  fun hlim => known_literalsFrom hlim

end Emission

namespace Cardinality

open Emission Literal

variable {count : Nat} {e : Bool} {ls : List Literal}

/-! ## Scope -/

theorem scoped_pairs (h : InScope count ls) : Scoped count (clauses (pairs ls)) :=
  scoped_clauses fun hlim => known_pairs (h hlim)

theorem scoped_someOf (e : Bool) (h : InScope count ls) : Scoped count (clauses (someOf e ls)) :=
  scoped_clauses fun hlim => known_someOf (h hlim)

theorem pairwise_scoped (e : Bool) (h : InScope count ls) : Scoped count (pairwise e ls) := by
  refine scoped_clauses fun hlim c hc => ?_
  rcases List.mem_append.mp hc with hc | hc
  · exact known_pairs (h hlim) c hc
  · exact known_someOf (h hlim) c hc

theorem ladder_scoped (e : Bool) (h : InScope count ls) : Scoped count (ladder count e ls) := by
  refine scoped_append.mpr ⟨scoped_allocate _ _, scoped_clauses fun hlim c hc => ?_⟩
  rw [freshCount_allocate] at hlim ⊢
  have hls := h.mono (Nat.le_add_right count _) hlim
  -- every rung is the first literal or one of the variables just allocated
  have hrungs : ∀ r ∈ rungs count ls, r.Known (count + ((rungs count ls).length - 1)) := by
    cases ls with
    | nil => simp [rungs]
    | cons first rest =>
      refine List.forall_mem_cons.mpr ⟨hls first List.mem_cons_self, ?_⟩
      simpa [rungs] using inScope_literalsFrom count (rest.length - 1) (by simpa [rungs] using hlim)
  rcases List.mem_append.mp hc with hc | hc
  · rcases List.mem_append.mp hc with hc | hc
    · exact known_chain hrungs c hc
    · exact known_climb (fun l hl => hls l (List.mem_of_mem_tail hl)) hrungs c hc
  · exact known_someOf hls c hc

theorem grid_scoped (fuel count : Nat) (ls : List Literal) :
    InScope count ls → Scoped count (grid fuel count ls) := by
  refine grid_induction (motive := fun count ls es => InScope count ls → Scoped count es)
    (fun count ls => scoped_pairs) ?_ fuel count ls
  intro count ls p q rows columns hp hq hrows hcolumns h
  have hscope : InScope (count + p + q) (literalsFrom count p ++ literalsFrom (count + p) q) := by
    intro hlim
    exact List.forall_mem_append.mpr (known_rows_columns hlim)
  rw [scoped_append, scoped_append, scoped_append]
  simp only [freshCount_append, freshCount_allocate, freshCount_clauses, Nat.add_zero,
    ← Nat.add_assoc]
  refine ⟨⟨⟨scoped_allocate _ _, scoped_clauses fun hlim => ?_⟩, hrows ?_⟩, hcolumns ?_⟩
  · rw [hq] at hlim ⊢
    exact known_placements (h (by omega)) hp hlim
  · exact hscope.subset fun l hl => List.mem_append_left _ hl
  · exact (hscope.subset fun l hl => List.mem_append_right _ hl).mono (Nat.le_add_right _ _)

theorem groups_scoped {size : Nat} (hsize : 0 < size) (h : InScope count ls) :
    Scoped count (groups count size ls) := by
  have hcells : ∀ hlim : count < limit, ∀ g ∈ chunks size ls, ∀ l ∈ g, l.Known count :=
    fun hlim g hg l hl => h hlim l (mem_of_mem_chunk hsize hg hl)
  refine scoped_append.mpr ⟨scoped_append.mpr ⟨scoped_clauses fun hlim c hc => ?_,
    scoped_allocate _ _⟩, ?_⟩
  · obtain ⟨g, hg, hc⟩ := List.mem_flatMap.mp hc
    exact known_pairs (hcells hlim g hg) c hc
  · simp only [freshCount_append, freshCount_clauses, freshCount_allocate, Nat.zero_add]
    exact scoped_clauses fun hlim => known_codes (hcells (by omega)) hlim

theorem commandCells_scoped (closed : Bool) {cells : List (List Literal)}
    (h : ∀ cell ∈ cells, InScope count cell) :
    Scoped count (commandCells closed count cells).1 ∧
      InScope (count + freshCount (commandCells closed count cells).1)
        (commandCells closed count cells).2 := by
  fun_induction commandCells closed count cells with
  | case1 count => exact ⟨trivial, fun _ => by simp⟩
  | case2 count l rest es reps hrest ih =>
    rw [List.forall_mem_cons] at h
    rw [hrest] at ih
    obtain ⟨hes, hreps⟩ := ih h.2
    refine ⟨hes, fun hlim => List.forall_mem_cons.mpr ⟨?_, hreps hlim⟩⟩
    exact h.1.mono (Nat.le_add_right _ _) hlim l (List.mem_singleton_self l)
  | case3 count cell rest hcell commander es reps hrest ih =>
    rw [List.forall_mem_cons] at h
    rw [hrest] at ih
    -- the cells behind this one start after its representative
    obtain ⟨hes, hreps⟩ := ih fun d hd => (h.2 d hd).mono (Nat.le_succ _)
    have hcommander : count + 1 < limit → commander.Known (count + 1) :=
      Literal.known_ofVariable (Nat.succ_pos _) (Nat.le_refl _)
    simp only [scoped_append, freshCount_append, freshCount_clauses, freshCount_fresh,
      Nat.zero_add]
    refine ⟨⟨⟨scoped_pairs h.1, scoped_clauses fun hlim => ?_⟩, hes⟩, fun hlim => ?_⟩
    · exact known_command (hcommander hlim) (h.1.mono (Nat.le_succ _) hlim)
    · rw [← Nat.add_assoc] at hlim ⊢
      refine List.forall_mem_cons.mpr ⟨(hcommander (by omega)).mono (by omega), hreps hlim⟩

theorem hierarchy_scoped {size : Nat} (hsize : 0 < size) (closed e : Bool) (fuel : Nat)
    (h : InScope count ls) : Scoped count (hierarchy size closed e fuel count ls).emissions := by
  induction fuel generalizing count ls with
  | zero => trivial
  | succ fuel ih =>
    by_cases hshort : ls.length ≤ size
    · simp only [hierarchy, hshort, if_true]
      exact pairwise_scoped e h
    · rw [hierarchy_step hshort]
      have hcells : ∀ cell ∈ chunks size ls, InScope count cell :=
        fun cell hcell => h.subset fun l hl => mem_of_mem_chunk hsize hcell hl
      obtain ⟨hes, hreps⟩ := commandCells_scoped closed hcells
      exact scoped_append.mpr ⟨hes, ih hreps⟩

/-! ## Valid sizes -/

theorem bimander_eq {size : Word} (h : 1 ≤ size.toInt) (count : Nat) (e : Bool)
    (ls : List Literal) : bimander count size e ls =
      { emissions := clauses (someOf e ls) ++ groups count size.toInt.toNat ls } := by
  have hsize : ¬ size < 1 := by
    rw [Int64.lt_iff_toInt_lt, Int64.toInt_one]
    omega
  rw [bimander, if_neg hsize]

theorem commander_eq {size : Word} (h : 1 ≤ size.toInt) (count : Nat) (open' e : Bool)
    (ls : List Literal) : commander count size open' e ls =
      hierarchy size.toInt.toNat (e || !open') e (ls.length + 1) count ls := by
  have hzero : (0 : Word).toInt = 0 := by decide
  have hne : size ≠ 0 := by
    rintro rfl
    omega
  have hpos : ¬ size < 0 := by
    rw [Int64.lt_iff_toInt_lt]
    omega
  by_cases hshort : size.toInt ≥ ls.length
  · have hshort' : ls.length ≤ size.toInt.toNat := by omega
    simp only [commander, hierarchy, hshort, hshort', if_true]
  · simp only [commander, hshort, hne, hpos, if_false]

theorem schemePlan_scoped {settings : Settings} (hsized : settings.Sized)
    (scheme : Scheme) (e : Bool) (h : InScope count ls) :
    Scoped count (schemePlan settings scheme count e ls).emissions := by
  obtain ⟨hgroup, hpart⟩ := hsized.toInt
  cases scheme with
  | pairwise => exact pairwise_scoped e h
  | ladder => exact ladder_scoped e h
  | product =>
    refine scoped_append.mpr ⟨scoped_someOf e h, ?_⟩
    rw [freshCount_clauses]
    exact grid_scoped _ _ _ h
  | bimander =>
    rw [schemePlan, bimander_eq hgroup]
    refine scoped_append.mpr ⟨scoped_someOf e h, ?_⟩
    rw [freshCount_clauses]
    exact groups_scoped (by omega) h
  | commander =>
    rw [schemePlan, commander_eq (Int.le_trans (by decide) hpart)]
    exact hierarchy_scoped (by omega) _ _ _ h
  | other name => trivial

theorem encode_scoped {settings : Settings} (hsized : settings.Sized)
    (scheme : Scheme) (e : Bool) (h : InScope count ls) :
    Scoped count (encode settings scheme count e ls).emissions := by
  rcases encode_cases settings scheme count e ls with ⟨-, heq⟩ | ⟨-, heq⟩ | ⟨-, heq⟩
  · rw [heq]
    exact scoped_someOf e fun _ => by simp
  · have hslack : InScope (count + 1) (ls ++ [Literal.ofVariable (count + 1)]) :=
      fun hlim => known_append_slack (h (by omega)) hlim
    rw [heq]
    exact schemePlan_scoped hsized scheme true hslack
  · rw [heq]
    exact schemePlan_scoped hsized scheme e h

/-! ## The end of a plan -/

/-- Cells of two elements or more are at most half as many as the elements, rounded up. -/
theorem two_mul_length_chunksFrom {α : Type} {size : Nat} (hsize : 2 ≤ size) (fuel : Nat)
    (xs : List α) : 2 * (chunksFrom size fuel xs).length ≤ xs.length + 1 := by
  induction fuel generalizing xs with
  | zero => simp [chunksFrom]
  | succ fuel ih =>
    cases xs with
    | nil => simp [chunksFrom]
    | cons x xs =>
      have hrest := ih ((x :: xs).drop size)
      simp only [List.length_drop, List.length_cons] at hrest
      simp only [chunksFrom, List.isEmpty_cons, Bool.false_eq_true, if_false, List.length_cons]
      omega

theorem length_commandCells (closed : Bool) (count : Nat) (cells : List (List Literal)) :
    (commandCells closed count cells).2.length = cells.length := by
  fun_induction commandCells closed count cells with
  | case1 count => rfl
  | case2 count l rest es reps hrest ih =>
    rw [hrest] at ih
    exact congrArg (· + 1) ih
  | case3 count cell rest hcell commander es reps hrest ih =>
    rw [hrest] at ih
    exact congrArg (· + 1) ih

theorem length_representatives_lt {size : Nat} (hsize : 2 ≤ size) (closed : Bool) (count : Nat)
    (hlong : size < ls.length) :
    (commandCells closed count (chunks size ls)).2.length < ls.length := by
  have hcells := two_mul_length_chunksFrom hsize ls.length ls
  rw [length_commandCells, chunks]
  omega

/-- The levels end before the fuel: each has fewer literals than the one below. -/
theorem hierarchy_stop {size : Nat} (hsize : 2 ≤ size) (closed e : Bool) {fuel : Nat}
    (hfuel : ls.length < fuel) : (hierarchy size closed e fuel count ls).stop = none := by
  induction fuel generalizing count ls with
  | zero => omega
  | succ fuel ih =>
    by_cases hshort : ls.length ≤ size
    · simp only [hierarchy, hshort, if_true]
    · rw [hierarchy_step hshort]
      have hfewer := length_representatives_lt hsize closed count (Nat.not_le.mp hshort)
      exact ih (by omega)

theorem schemePlan_stop {settings : Settings} {scheme : Scheme}
    (hsized : settings.Sized) (hscheme : scheme ∈ Scheme.all) (count : Nat) (e : Bool)
    (ls : List Literal) : (schemePlan settings scheme count e ls).stop = none := by
  obtain ⟨hgroup, hpart⟩ := hsized.toInt
  cases scheme with
  | pairwise => rfl
  | ladder => rfl
  | product => rfl
  | bimander => rw [schemePlan, bimander_eq hgroup]
  | commander =>
    rw [schemePlan, commander_eq (Int.le_trans (by decide) hpart)]
    exact hierarchy_stop (by omega) _ _ (Nat.lt_succ_self _)
  | other name => simp [Scheme.all] at hscheme

/-- Under a scheme that is named and valid sizes, a plan comes to its end. -/
theorem encode_stop {settings : Settings} {scheme : Scheme}
    (hsized : settings.Sized) (hscheme : scheme ∈ Scheme.all) (count : Nat) (e : Bool)
    (ls : List Literal) : (encode settings scheme count e ls).stop = none := by
  rcases encode_cases settings scheme count e ls with ⟨-, heq⟩ | ⟨-, heq⟩ | ⟨-, heq⟩
  · rw [heq]
  · rw [heq]
    exact schemePlan_stop hsized hscheme _ _ _
  · rw [heq]
    exact schemePlan_stop hsized hscheme _ _ _

end Cardinality

end Clausify
