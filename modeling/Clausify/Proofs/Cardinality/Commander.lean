import Mathlib
import Clausify.Cardinality
import Clausify.Proofs.Cardinality.Bimander

/-!
The commander scheme counts to one. A representative holds when its cell has a true literal, and
only then where the scheme is closed; so the representatives have as many true literals as the
cells, and the count is passed up from level to level until the representatives fit one cell.

Main statements: `hierarchy_asserts` and `hierarchy_fixes`, by induction over the levels, from what
one level of cells says (`commandCells_spec`).
-/

namespace Clausify.Cardinality

open Emission

/-- The representative holds when the cell has a true literal and, if closed, only then. -/
def Represents (closed : Bool) (v : Valuation) (cell : List Literal) (r : Literal) : Prop :=
  (1 ≤ trues v cell → r.holds v = true) ∧
    (closed = true → r.holds v = true → 1 ≤ trues v cell)

theorem represents_self (closed : Bool) (v : Valuation) (l : Literal) :
    Represents closed v [l] l := by
  cases h : l.holds v <;> simp [Represents, h]

theorem represents_of_eq {closed : Bool} {v : Valuation} {cell : List Literal} {r : Literal}
    (h : r.holds v = decide (1 ≤ trues v cell)) : Represents closed v cell r := by
  simp [Represents, h]

theorem over_command {P : Literal → Prop} (hneg : ∀ l, P l → P (-l)) {closed : Bool} {r : Literal}
    {cell : List Literal} (hr : P r) (h : ∀ l ∈ cell, P l) :
    ∀ c ∈ command closed r cell, ∀ l ∈ c, P l := by
  intro c hc
  rcases List.mem_append.mp hc with hc | hc
  · obtain ⟨l, hl, rfl⟩ := List.mem_map.mp hc
    simp [hneg l (h l hl), hr]
  · cases closed with
    | false => simp at hc
    | true =>
      simp only [if_true, List.mem_singleton] at hc
      rw [hc]
      exact List.forall_mem_cons.mpr ⟨hneg r hr, h⟩

theorem known_command {n : Nat} {closed : Bool} {r : Literal} {cell : List Literal}
    (hr : r.Known n) (hk : ∀ l ∈ cell, l.Known n) : ∀ c ∈ command closed r cell, c.Known n :=
  over_command (P := Literal.Known n) (fun _ => .neg) hr hk

theorem satisfies_command {n : Nat} {closed : Bool} {r : Literal} {cell : List Literal}
    (hr : r.Known n) (hk : ∀ l ∈ cell, l.Known n) (v : Valuation) :
    v.Satisfies (command closed r cell) ↔ Represents closed v cell r := by
  have hup : v.Satisfies (cell.map fun l => [-l, r]) ↔ (1 ≤ trues v cell → r.holds v = true) := by
    rw [trues_pos_iff]
    constructor
    · rintro h ⟨l, hl, hlv⟩
      simpa [(hk l hl).holds_neg, hlv] using h _ (List.mem_map_of_mem hl)
    · intro h c hc
      obtain ⟨l, hl, rfl⟩ := List.mem_map.mp hc
      cases hlv : l.holds v with
      | false => simp [(hk l hl).holds_neg, hlv]
      | true => simp [h ⟨l, hl, hlv⟩]
  have hdown : v.Satisfies (if closed then [-r :: cell] else []) ↔
      (closed = true → r.holds v = true → 1 ≤ trues v cell) := by
    cases closed with
    | false => simp
    | true =>
      rw [trues_pos_iff]
      cases hrv : r.holds v <;> simp [hr.holds_neg, hrv, Clause.holds_iff]
  rw [command, Valuation.satisfies_append, hup, hdown]
  rfl

/-! ## One level of cells -/

/-- What the emissions of cells say about the cells and their representatives. -/
structure Commands (closed : Bool) (count : Nat) (cells : List (List Literal))
    (es : List Emission) (reps : List Literal) : Prop where
  known : ∀ c ∈ clausesOf es, c.Known (count + freshCount es)
  knownReps : ∀ r ∈ reps, r.Known (count + freshCount es)
  sound : ∀ v : Valuation, v.Satisfies (clausesOf es) →
    List.Forall₂ (fun cell r => trues v cell ≤ 1 ∧ Represents closed v cell r) cells reps
  complete : ∀ v : Valuation, (∀ cell ∈ cells, trues v cell ≤ 1) →
    ∃ u : Valuation, v.Agree count u ∧ u.Satisfies (clausesOf es) ∧
      List.Forall₂ (fun cell r => r.holds u = decide (1 ≤ trues u cell)) cells reps
  fixed : closed = true → Fixes count es (fun _ => True)

theorem commands_single {closed : Bool} {count : Nat} {l : Literal} {cells : List (List Literal)}
    {es : List Emission} {reps : List Literal} (hl : l.Known count)
    (h : Commands closed count cells es reps) :
    Commands closed count ([l] :: cells) es (l :: reps) where
  known := h.known
  knownReps := List.forall_mem_cons.mpr ⟨hl.mono (Nat.le_add_right _ _), h.knownReps⟩
  sound v hv := by
    refine .cons ⟨?_, represents_self closed v l⟩ (h.sound v hv)
    cases hlv : l.holds v <;> simp [hlv]
  complete v hv := by
    rw [List.forall_mem_cons] at hv
    obtain ⟨u, ha, hu, hreps⟩ := h.complete v hv.2
    refine ⟨u, ha, hu, .cons ?_ hreps⟩
    cases hlu : l.holds u <;> simp [hlu]
  fixed := h.fixed

section Cell

variable {closed : Bool} {count : Nat} {cell : List Literal} {r : Literal} {es : List Emission}

theorem satisfies_cell {n : Nat} (hr : r.Known n) (hk : ∀ l ∈ cell, l.Known n) (v : Valuation) :
    v.Satisfies (clausesOf
        (clauses (pairs cell) ++ .fresh :: clauses (command closed r cell) ++ es)) ↔
      (trues v cell ≤ 1 ∧ Represents closed v cell r) ∧ v.Satisfies (clausesOf es) := by
  rw [← satisfies_pairs hk, ← satisfies_command hr hk]
  simp [and_assoc]

theorem freshCount_cell :
    freshCount (clauses (pairs cell) ++ .fresh :: clauses (command closed r cell) ++ es) =
      freshCount es + 1 := by
  simp only [freshCount_append, freshCount_clauses, freshCount_fresh]
  omega

theorem known_cell {n m : Nat} (hr : r.Known n) (hk : ∀ l ∈ cell, l.Known n) (hm : n ≤ m)
    (hes : ∀ c ∈ clausesOf es, c.Known m) :
    ∀ c ∈ clausesOf (clauses (pairs cell) ++ .fresh :: clauses (command closed r cell) ++ es),
      c.Known m := by
  intro c hc
  simp only [clausesOf_append, clausesOf_clauses, clausesOf_fresh, List.mem_append] at hc
  rcases hc with (hc | hc) | hc
  · exact (known_pairs hk c hc).mono hm
  · exact (known_command hr hk c hc).mono hm
  · exact hes c hc

/-- In a closed scheme the literals of a cell settle its representative. -/
theorem Represents.agree {v u : Valuation} (hv : Represents true v cell r)
    (hu : Represents true u cell r) (ht : trues v cell = trues u cell) : r.holds v = r.holds u := by
  rw [Bool.eq_iff_iff]
  rw [Represents, ← ht] at hu
  exact ⟨fun hx => hu.1 (hv.2 rfl hx), fun hx => hv.1 (hu.2 rfl hx)⟩

theorem commands_cell {cells : List (List Literal)} {reps : List Literal}
    (hk : ∀ l ∈ cell, l.Known count) (hkc : ∀ d ∈ cells, ∀ l ∈ d, l.Known count)
    (hlim : count + 1 < Literal.limit) (h : Commands closed (count + 1) cells es reps) :
    Commands closed count (cell :: cells)
      (clauses (pairs cell) ++ .fresh ::
        clauses (command closed (Literal.ofVariable (count + 1)) cell) ++ es)
      (Literal.ofVariable (count + 1) :: reps) := by
  have hr : (Literal.ofVariable (count + 1)).Known (count + 1) :=
    Literal.known_ofVariable (by omega) (Nat.le_refl _) hlim
  have hholds := Literal.holds_ofVariable (show 0 < count + 1 by omega) hlim
  have hk' : ∀ l ∈ cell, l.Known (count + 1) := fun l hl => (hk l hl).mono (Nat.le_succ _)
  have hsize : count + (freshCount es + 1) = count + 1 + freshCount es := by omega
  exact {
    known := by
      rw [freshCount_cell, hsize]
      exact known_cell hr hk' (Nat.le_add_right _ _) h.known
    knownReps := by
      rw [freshCount_cell, hsize]
      exact List.forall_mem_cons.mpr ⟨hr.mono (Nat.le_add_right _ _), h.knownReps⟩
    sound := by
      intro v hv
      obtain ⟨hcell, hes⟩ := (satisfies_cell hr hk' v).mp hv
      exact .cons hcell (h.sound v hes)
    complete := by
      intro v hv
      obtain ⟨hcell, hcells⟩ := List.forall_mem_cons.mp hv
      -- the representative tells whether its cell has a true literal
      obtain ⟨w, haw, hw⟩ := v.exists_succ count (decide (1 ≤ trues v cell))
      obtain ⟨u, ha, hu, hreps⟩ := h.complete w (by
        intro d hd
        rw [← trues_congr (hkc d hd) haw]
        exact hcells d hd)
      have hau : v.Agree count u := haw.trans (ha.mono (Nat.le_succ _))
      rw [trues_congr hk hau] at hcell hw
      have hru : (Literal.ofVariable (count + 1)).holds u = decide (1 ≤ trues u cell) := by
        rw [hholds, ← ha _ (by omega) (Nat.le_refl _), hw]
      refine ⟨u, hau, ?_, .cons hru hreps⟩
      exact (satisfies_cell hr hk' u).mpr ⟨⟨hcell, represents_of_eq hru⟩, hu⟩
    fixed := by
      rintro rfl v u _ hv hu ha
      obtain ⟨⟨-, hrv⟩, hv⟩ := (satisfies_cell hr hk' v).mp hv
      obtain ⟨⟨-, hru⟩, hu⟩ := (satisfies_cell hr hk' u).mp hu
      have hsame := hrv.agree hru (trues_congr hk ha)
      rw [hholds, hholds] at hsame
      rw [freshCount_cell, hsize]
      exact h.fixed rfl v u trivial hv hu (ha.succ hsame) }

end Cell

theorem commandCells_spec (closed : Bool) {count : Nat} {cells : List (List Literal)}
    (hk : ∀ cell ∈ cells, ∀ l ∈ cell, l.Known count)
    (hlim : count + freshCount (commandCells closed count cells).1 < Literal.limit) :
    Commands closed count cells (commandCells closed count cells).1
      (commandCells closed count cells).2 := by
  induction cells generalizing count with
  | nil =>
    exact {
      known := by simp [commandCells]
      knownReps := by simp [commandCells]
      sound := fun v _ => .nil
      complete := fun v _ => ⟨v, .refl _ _, by simp [commandCells], .nil⟩
      fixed := by
        intro _ v u _ _ _ ha
        simpa [commandCells] using ha }
  | cons cell cells ih =>
    rw [List.forall_mem_cons] at hk
    have hk' : ∀ d ∈ cells, ∀ l ∈ d, l.Known (count + 1) :=
      fun d hd l hl => (hk.2 d hd l hl).mono (Nat.le_succ _)
    -- only a cell of one literal needs no representative
    match cell, hk.1, hlim with
    | [l], hl, hlim =>
      simp only [commandCells] at hlim ⊢
      exact commands_single (hl l (by simp)) (ih hk.2 hlim)
    | [], hl, hlim =>
      simp only [commandCells, freshCount_append, freshCount_clauses, freshCount_fresh] at hlim ⊢
      exact commands_cell hl hk.2 (by omega) (ih hk' (by omega))
    | l :: m :: rest, hl, hlim =>
      simp only [commandCells, freshCount_append, freshCount_clauses, freshCount_fresh] at hlim ⊢
      exact commands_cell hl hk.2 (by omega) (ih hk' (by omega))

/-! ## Counting by representatives -/

theorem trues_flatten_le_reps {closed : Bool} {v : Valuation} {cells : List (List Literal)}
    {reps : List Literal}
    (h : List.Forall₂ (fun cell r => trues v cell ≤ 1 ∧ Represents closed v cell r) cells reps) :
    trues v cells.flatten ≤ trues v reps := by
  induction h with
  | nil => simp
  | @cons cell r cells reps h _ ih =>
    rw [trues_flatten_cons, trues_cons]
    by_cases ht : 1 ≤ trues v cell
    · rw [h.2.1 ht, Bool.toNat_true]
      omega
    · omega

theorem trues_flatten_eq_reps {v : Valuation} {cells : List (List Literal)} {reps : List Literal}
    (h : List.Forall₂ (fun cell r => trues v cell ≤ 1 ∧ Represents true v cell r) cells reps) :
    trues v cells.flatten = trues v reps := by
  induction h with
  | nil => simp
  | @cons cell r cells reps h _ ih =>
    rw [trues_flatten_cons, trues_cons, ih]
    cases hr : r.holds v with
    | true =>
      have := h.2.2 rfl hr
      have := h.1
      simp only [Bool.toNat_true]
      omega
    | false =>
      have : ¬ 1 ≤ trues v cell := fun ht => by simp [h.2.1 ht] at hr
      simp only [Bool.toNat_false]
      omega

theorem Represents.of_forall {v : Valuation} {cells : List (List Literal)} {reps : List Literal}
    (hone : ∀ cell ∈ cells, trues v cell ≤ 1)
    (h : List.Forall₂ (fun cell r => r.holds v = decide (1 ≤ trues v cell)) cells reps) :
    List.Forall₂ (fun cell r => trues v cell ≤ 1 ∧ Represents true v cell r) cells reps := by
  induction h with
  | nil => exact .nil
  | cons h _ ih =>
    rw [List.forall_mem_cons] at hone
    exact .cons ⟨hone.1, represents_of_eq h⟩ (ih hone.2)

/-! ## The levels -/

section Levels

variable {size : Nat} {closed e : Bool}

/-- One level: what the level above says of the representatives, both say of the literals. -/
theorem level_above_asserts {count : Nat} {cells : List (List Literal)} {es above : List Emission}
    {reps : List Literal} (he : e = true → closed = true)
    (hk : ∀ l ∈ cells.flatten, l.Known count) (hcells : Commands closed count cells es reps)
    (habove : Asserts (count + freshCount es) above (Meets e reps)) :
    Asserts count (es ++ above) (Meets e cells.flatten) := by
  have hkc : ∀ cell ∈ cells, ∀ l ∈ cell, l.Known count :=
    fun cell hc l hl => hk l (List.mem_flatten.mpr ⟨cell, hc, hl⟩)
  exact {
    known := by
      intro c hc
      rw [clausesOf_append] at hc
      rw [freshCount_append, ← Nat.add_assoc]
      rcases List.mem_append.mp hc with hc | hc
      · exact (hcells.known c hc).mono (by omega)
      · exact habove.known c hc
    sound := by
      intro v hv
      rw [clausesOf_append, Valuation.satisfies_append] at hv
      have hrep := hcells.sound v hv.1
      obtain ⟨hle, hge⟩ := habove.sound v hv.2
      refine ⟨Nat.le_trans (trues_flatten_le_reps hrep) hle, ?_⟩
      intro h
      -- where some literal is asked for the cells are closed, and no count gets lost
      rw [he h] at hrep
      rw [trues_flatten_eq_reps hrep]
      exact hge h
    complete := by
      rintro v ⟨hle, hge⟩
      have hone : ∀ cell ∈ cells, trues v cell ≤ 1 :=
        fun cell hc => Nat.le_trans (trues_le_flatten hc) hle
      obtain ⟨u, ha, hu, hreps⟩ := hcells.complete v hone
      -- the representatives are set so that as many of them hold as literals do
      have heq : trues v cells.flatten = trues u reps := by
        rw [trues_congr hk ha]
        refine trues_flatten_eq_reps (Represents.of_forall ?_ hreps)
        intro cell hc
        rw [← trues_congr (hkc cell hc) ha]
        exact hone cell hc
      obtain ⟨w, ha', hw⟩ := habove.complete u (by rw [Meets, ← heq]; exact ⟨hle, hge⟩)
      refine ⟨w, ha.trans (ha'.mono (by omega)), ?_⟩
      rw [clausesOf_append, Valuation.satisfies_append]
      exact ⟨hu.congr hcells.known ha', hw⟩ }

theorem hierarchy_step {fuel count : Nat} {ls : List Literal} (h : ¬ ls.length ≤ size) :
    hierarchy size closed e (fuel + 1) count ls =
      { emissions := (commandCells closed count (chunks size ls)).1 ++
          (hierarchy size closed e fuel
            (count + freshCount (commandCells closed count (chunks size ls)).1)
            (commandCells closed count (chunks size ls)).2).emissions
        stop := (hierarchy size closed e fuel
            (count + freshCount (commandCells closed count (chunks size ls)).1)
            (commandCells closed count (chunks size ls)).2).stop } := by
  simp [hierarchy, h]

/-- The levels say that at most, or exactly, one literal holds, and a closed scheme fixes all
representatives. -/
theorem hierarchy_asserts_fixes {fuel count : Nat} {ls : List Literal} (hs : 0 < size)
    (he : e = true → closed = true) (hk : ∀ l ∈ ls, l.Known count)
    (hstop : (hierarchy size closed e fuel count ls).stop = none)
    (hlim : count + freshCount (hierarchy size closed e fuel count ls).emissions <
      Literal.limit) :
    Asserts count (hierarchy size closed e fuel count ls).emissions (Meets e ls) ∧
      (closed = true →
        Fixes count (hierarchy size closed e fuel count ls).emissions (fun _ => True)) := by
  induction fuel generalizing count ls with
  | zero => simp [hierarchy] at hstop
  | succ fuel ih =>
    by_cases hlen : ls.length ≤ size
    -- few enough literals are compared directly
    · simp only [hierarchy, hlen, if_true]
      exact ⟨pairwise_asserts hk e, fun _ => pairwise_fixes _ _ _ _⟩
    · rw [hierarchy_step hlen] at hstop hlim ⊢
      simp only [freshCount_append] at hstop hlim ⊢
      have hflat := chunks_flatten hs ls
      have hkc : ∀ cell ∈ chunks size ls, ∀ l ∈ cell, l.Known count :=
        fun cell hc l hl => hk l (mem_of_mem_chunk hs hc hl)
      -- the cells of this level, and the level above over their representatives
      have hcells := commandCells_spec closed hkc (by omega)
      obtain ⟨hasserts, hfixes⟩ := ih hcells.knownReps hstop (by omega)
      constructor
      · have := level_above_asserts he (by rwa [hflat]) hcells hasserts
        rwa [hflat] at this
      · intro hclosed v u _ hv hu ha
        rw [clausesOf_append, Valuation.satisfies_append] at hv hu
        have ha' := hcells.fixed hclosed v u trivial hv.1 hu.1 ha
        have := hfixes hclosed v u trivial hv.2 hu.2 ha'
        rwa [freshCount_append, ← Nat.add_assoc]

/-- The commander scheme, when it does not stop, counts on one level or on many. -/
theorem commander_asserts_fixes {count : Nat} {size : Word} {open' : Bool} {ls : List Literal}
    (hk : ∀ l ∈ ls, l.Known count) (hstop : (commander count size open' e ls).stop = none)
    (hlim : count + freshCount (commander count size open' e ls).emissions < Literal.limit) :
    Asserts count (commander count size open' e ls).emissions (Meets e ls) ∧
      (e = true ∨ open' = false →
        Fixes count (commander count size open' e ls).emissions (fun _ => True)) := by
  simp only [commander] at hstop hlim ⊢
  split
  · exact ⟨pairwise_asserts hk e, fun _ => pairwise_fixes _ _ _ _⟩
  · next h1 =>
    simp only [h1, if_false] at hstop hlim
    split
    · next h2 => simp [h2] at hstop
    · next h2 =>
      simp only [h2, if_false] at hstop hlim
      split
      · next h3 => simp [h3] at hstop
      · next h3 =>
        simp only [h3, if_false] at hstop hlim
        -- the guards leave a positive size
        have hpos : 0 < size.toInt.toNat := by
          have hge : (0 : Word).toInt ≤ size.toInt := Int64.le_iff_toInt_le.mp (Int64.not_lt.mp h3)
          have hz : (0 : Word).toInt = 0 := by decide
          have hne : size.toInt ≠ 0 := fun h0 => h2 (Int64.toInt_inj.mp (h0.trans hz.symm))
          omega
        obtain ⟨hasserts, hfixes⟩ := hierarchy_asserts_fixes hpos (by simp_all) hk hstop hlim
        refine ⟨hasserts, fun h => hfixes ?_⟩
        rcases h with h | h <;> simp [h]

end Levels

end Clausify.Cardinality
