import Mathlib
import Clausify.Proofs.Domain.Members
import Clausify.Proofs.Encoding.Single

/-!
Every shape represents its variable. The two shapes with order literals are staircases over all
values, with and without single-value literals beside them. With the shapes for fewer values and
for single-value literals alone, the steps of the shape that is chosen for a domain form a block
over its values, whatever the domain: no value, one, two, or more, with gaps or without
(`shapeSteps_block`).
-/

namespace Clausify

open Step Encoding

/-! ## Both kinds of literals -/

theorem mem_of_lt_later {value w u : Word} {rest : List Word} (hinc : ∀ y ∈ rest, value < y)
    (hw : w ∈ rest) (hu : u ∈ value :: rest) (hwu : w < u) : u ∈ rest := by
  refine (List.mem_cons.mp hu).resolve_left fun heq => ?_
  exact not_lt_self w (Int64.lt_trans hwu (heq ▸ hinc w hw))

section Channel

variable {settings : Settings} {x : String} {count : Nat} {previous : Literal} {values : List Word}

theorem mem_tieSteps_order {value : Word} :
    Step.order ⟨x, value⟩ (Literal.ofVariable (count + 1)) ∈
      tieSteps settings x count previous value := by simp [tieSteps, mem_order]

theorem mem_tieSteps_direct {value : Word} :
    Step.direct ⟨x, value⟩ (Literal.ofVariable (count + 2)) ∈
      tieSteps settings x count previous value := by simp [tieSteps, mem_direct]

theorem bound_not_mem_tieSteps {value : Word} {t : OrderTable} {k : Key} {l : Literal} :
    Step.bound t k l ∉ tieSteps settings x count previous value := by
  simp [tieSteps, clause, bound_not_mem_direct, bound_not_mem_order]

theorem channelFrom_direct {w : Word} (hw : w ∈ values) :
    ∃ l ∈ (channelFrom settings x count previous values).2,
      Step.direct ⟨x, w⟩ l ∈ (channelFrom settings x count previous values).1 := by
  induction values generalizing count previous with
  | nil => simp at hw
  | cons value rest ih =>
    cases rest with
    | nil =>
      rw [List.mem_singleton.mp hw]
      exact ⟨-previous, List.mem_singleton_self _, mem_direct⟩
    | cons next rest =>
      obtain ⟨hsteps, hsingles⟩ := channelFrom_cons settings x count previous value next rest
      rw [hsteps, hsingles]
      rcases List.mem_cons.mp hw with rfl | hw
      · exact ⟨_, List.mem_cons_self, List.mem_append_left _ mem_tieSteps_direct⟩
      · obtain ⟨l, hl, hmem⟩ := ih hw
        exact ⟨l, List.mem_cons_of_mem _ hl, List.mem_append_right _ hmem⟩

theorem channelFrom_single {l : Literal}
    (hl : l ∈ (channelFrom settings x count previous values).2) :
    ∃ k, Step.direct k l ∈ (channelFrom settings x count previous values).1 := by
  induction values generalizing count previous with
  | nil => simp [channelFrom] at hl
  | cons value rest ih =>
    cases rest with
    | nil =>
      rw [List.mem_singleton.mp hl]
      exact ⟨_, mem_direct⟩
    | cons next rest =>
      obtain ⟨hsteps, hsingles⟩ := channelFrom_cons settings x count previous value next rest
      rw [hsingles] at hl
      rw [hsteps]
      rcases List.mem_cons.mp hl with rfl | hl
      · exact ⟨_, List.mem_append_left _ mem_tieSteps_direct⟩
      · obtain ⟨k, hmem⟩ := ih hl
        exact ⟨k, List.mem_append_right _ hmem⟩

/-- Every value that is not the last has an order literal. -/
theorem channelFrom_order {w u : Word} (hinc : values.Pairwise (· < ·)) (hw : w ∈ values)
    (hu : u ∈ values) (hwu : w < u) :
    ∃ m, Step.order ⟨x, w⟩ m ∈ (channelFrom settings x count previous values).1 := by
  induction values generalizing count previous with
  | nil => simp at hw
  | cons value rest ih =>
    cases rest with
    | nil =>
      rw [List.mem_singleton.mp hw, List.mem_singleton.mp hu] at hwu
      exact absurd hwu (not_lt_self value)
    | cons next rest =>
      rw [(channelFrom_cons settings x count previous value next rest).1]
      rw [List.pairwise_cons] at hinc
      rcases List.mem_cons.mp hw with rfl | hw
      · exact ⟨_, List.mem_append_left _ mem_tieSteps_order⟩
      · obtain ⟨m, hmem⟩ := ih hinc.2 hw (mem_of_lt_later hinc.1 hw hu hwu)
        exact ⟨m, List.mem_append_right _ hmem⟩

theorem bound_not_mem_channelFrom {t : OrderTable} {k : Key} {l : Literal} :
    Step.bound t k l ∉ (channelFrom settings x count previous values).1 := by
  induction values generalizing count previous with
  | nil => simp [channelFrom]
  | cons value rest ih =>
    cases rest with
    | nil => exact bound_not_mem_direct
    | cons next rest =>
      rw [(channelFrom_cons settings x count previous value next rest).1, List.mem_append]
      exact not_or.mpr ⟨bound_not_mem_tieSteps, ih⟩

end Channel

/-- A staircase that starts below all values is a block, given the entries that a block has. -/
theorem staircase_block {x : String} {values : List Word} {count : Nat} {T : List Step}
    (h : Staircase x values count count .never T)
    (hdecodes : ∀ w ∈ values, ∃ l, .direct ⟨x, w⟩ l ∈ T ∨ ∃ t, .bound t ⟨x, w⟩ l ∈ T)
    (hdistinct : ∀ t k k' l, .bound t k l ∈ T → .bound t k' l ∈ T → k = k')
    (hdirect : ∀ k l, .direct k l ∈ T → ∀ w ∈ values, ∃ m, .direct ⟨x, w⟩ m ∈ T)
    (horder : ∀ k l, .order k l ∈ T → ∀ w ∈ values, (∃ u ∈ values, w < u) →
      ∃ m, .order ⟨x, w⟩ m ∈ T) : Block x values count T where
  owned := h.owned
  known := h.known
  sound v hv := h.inside v hv (Literal.holds_never v)
  complete v w hw := h.complete v w (.inr ⟨Literal.holds_never v, hw⟩)
  unique v u w _ _ hv hu ha := h.unique v u w hv hu ha
  decodes := hdecodes
  distinct := hdistinct
  direct := hdirect
  order := horder

theorem entry_mem_append_clause {T : List Step} {c : Clause} {s : Step} (hs : s ≠ clause c) :
    s ∈ T ++ [clause c] ↔ s ∈ T := by
  simp [hs]

/-- A clause that holds wherever a value is read can be added to a block. -/
theorem block_append_clause {x : String} {values : List Word} {count : Nat} {T : List Step}
    {c : Clause} (h : Block x values count T) (hk : c.Known (count + freshCount T))
    (hc : ∀ v, ∀ w ∈ values, Reads T v (fun _ => w) → c.holds v = true) :
    Block x values count (T ++ [clause c]) := by
  -- a clause allocates and enters nothing, so all but the clauses stays as it is
  have hfresh : freshCount (T ++ [clause c]) = freshCount T := by simp
  have hclauses : clausesOf (T ++ [clause c]) = clausesOf T ++ [c] := by simp
  have hreads : ∀ v w, Reads (T ++ [clause c]) v (fun _ => w) ↔ Reads T v (fun _ => w) := by simp
  exact {
    owned := by
      rw [hfresh]
      exact List.forall_mem_append.mpr ⟨h.owned, by simp⟩
    known := by
      rw [hfresh, hclauses]
      exact List.forall_mem_append.mpr ⟨h.known, List.forall_mem_singleton.mpr hk⟩
    sound := by
      intro v hv
      rw [hclauses, Valuation.satisfies_append] at hv
      obtain ⟨w, hw, hr⟩ := h.sound v hv.1
      exact ⟨w, hw, (hreads v w).mpr hr⟩
    complete := by
      intro v w hw
      obtain ⟨u, ha, hu, hr⟩ := h.complete v w hw
      refine ⟨u, ha, ?_, (hreads u w).mpr hr⟩
      rw [hclauses, Valuation.satisfies_append, Valuation.satisfies_cons]
      exact ⟨hu, hc u w hw hr, Valuation.satisfies_nil u⟩
    unique := by
      intro v u w hv hu hrv hru ha
      rw [hclauses, Valuation.satisfies_append] at hv hu
      rw [hreads] at hrv hru
      rw [hfresh]
      exact h.unique v u w hv.1 hu.1 hrv hru ha
    decodes := by
      intro w hw
      obtain ⟨l, hl | ⟨t, ht⟩⟩ := h.decodes w hw
      · exact ⟨l, .inl (List.mem_append_left _ hl)⟩
      · exact ⟨l, .inr ⟨t, List.mem_append_left _ ht⟩⟩
    distinct := by
      intro t k k' l hk hk'
      rw [entry_mem_append_clause (by simp [clause])] at hk hk'
      exact h.distinct t k k' l hk hk'
    direct := by
      intro k l hk w hw
      rw [entry_mem_append_clause (by simp [clause])] at hk
      obtain ⟨m, hm⟩ := h.direct k l hk w hw
      exact ⟨m, List.mem_append_left _ hm⟩
    order := by
      intro k l hk w hw hu
      rw [entry_mem_append_clause (by simp [clause])] at hk
      obtain ⟨m, hm⟩ := h.order k l hk w hw hu
      exact ⟨m, List.mem_append_left _ hm⟩ }

section Hybrid

variable {settings : Settings} {x : String} {count : Nat} {first : Word} {rest : List Word}

/-- The first value in both representations. -/
def firstTie (settings : Settings) (x : String) (count : Nat) (first : Word) : List Step :=
  .emit .fresh :: order settings x first (Literal.ofVariable (count + 1)) ++
    direct settings x first (Literal.ofVariable (count + 1))

theorem firstTie_stair (hlim : count + 1 < Literal.limit) :
    Stair x first count count .never (Literal.ofVariable (count + 1))
      (firstTie settings x count first) := by
  have hb := known_next count hlim
  refine stair_one (Literal.known_never _) hlim (by simp [firstTie]) ?_ ?_ ?_ ?_ ?_
  · simp only [firstTie, List.cons_append, List.forall_mem_cons, List.forall_mem_append,
      owned_emit, true_and]
    exact ⟨owned_order hb, owned_direct (lt_var_next count hlim)
      (Literal.isConstant_ofVariable hlim) hb⟩
  · simp [firstTie]
  · simp [firstTie]
  · intro v w
    simp only [firstTie, List.cons_append, reads_emit, reads_append, reads_order]
    exact And.left
  · intro v w hnever hbv
    rw [Literal.holds_never, eq_comm, decide_eq_false_iff_not] at hnever
    simp only [firstTie, List.cons_append, reads_emit, reads_append, reads_order, reads_direct,
      hbv, decide_eq_true_eq, true_and]
    rw [Int64.lt_iff_toInt_lt] at hnever
    rw [Int64.le_iff_toInt_le, ← Int64.toInt_inj]
    omega

theorem hybrid_eq (settings : Settings) (count : Nat) (x : String) (first : Word)
    (rest : List Word) :
    hybrid settings count x (first :: rest) =
      (firstTie settings x count first ++
        (channelFrom settings x (count + 1) (Literal.ofVariable (count + 1)) rest).1) ++
      [clause (Literal.ofVariable (count + 1) ::
        (channelFrom settings x (count + 1) (Literal.ofVariable (count + 1)) rest).2)] := by
  simp [hybrid, firstTie]

/-- Without its last clause, the shape is a block. -/
theorem channel_block (hrest : rest ≠ []) (hinc : (first :: rest).Pairwise (· < ·))
    (hlim : count + freshCount (firstTie settings x count first ++
      (channelFrom settings x (count + 1) (Literal.ofVariable (count + 1)) rest).1) <
        Literal.limit) :
    Block x (first :: rest) count (firstTie settings x count first ++
      (channelFrom settings x (count + 1) (Literal.ofVariable (count + 1)) rest).1) := by
  have hfirst : freshCount (firstTie settings x count first) = 1 := by simp [firstTie]
  rw [freshCount_append, hfirst] at hlim
  have hb : count + 1 < Literal.limit := by omega
  rw [List.pairwise_cons] at hinc
  -- every value has a single-value literal, the first one that of its bound
  have hdirect : ∀ w ∈ first :: rest, ∃ l, Step.direct ⟨x, w⟩ l ∈ firstTie settings x count first ++
      (channelFrom settings x (count + 1) (Literal.ofVariable (count + 1)) rest).1 := by
    intro w hw
    rcases List.mem_cons.mp hw with rfl | hw
    · exact ⟨Literal.ofVariable (count + 1), by simp [firstTie, mem_direct]⟩
    · obtain ⟨l, -, hmem⟩ := channelFrom_direct hw
      exact ⟨l, List.mem_append_right _ hmem⟩
  refine staircase_block ?_ ?_ ?_ (fun _ _ _ => hdirect) ?_
  · refine staircase_step hinc.1 (Literal.known_never _) (firstTie_stair hb) ?_
    rw [hfirst]
    exact channelFrom_staircase hrest hinc.2 (lt_var_next count hb) (Nat.le_succ _)
      (Literal.isConstant_ofVariable hb) (known_next count hb) (by omega)
  · intro w hw
    obtain ⟨l, hl⟩ := hdirect w hw
    exact ⟨l, .inl hl⟩
  · intro t k k' l h
    simp [firstTie, bound_not_mem_order, bound_not_mem_direct, bound_not_mem_channelFrom] at h
  · rintro k l - w hw ⟨u, hu, hwu⟩
    rcases List.mem_cons.mp hw with rfl | hw
    · exact ⟨Literal.ofVariable (count + 1), by simp [firstTie, mem_order]⟩
    · obtain ⟨m, hm⟩ := channelFrom_order hinc.2 hw (mem_of_lt_later hinc.1 hw hu hwu) hwu
      exact ⟨m, List.mem_append_right _ hm⟩

theorem hybrid_block (hrest : rest ≠ []) (hinc : (first :: rest).Pairwise (· < ·))
    (hlim : count + freshCount (hybrid settings count x (first :: rest)) < Literal.limit) :
    Block x (first :: rest) count (hybrid settings count x (first :: rest)) := by
  rw [hybrid_eq] at hlim ⊢
  have hlim' : count + freshCount (firstTie settings x count first ++
      (channelFrom settings x (count + 1) (Literal.ofVariable (count + 1)) rest).1) <
        Literal.limit := by simpa using hlim
  have hblock := channel_block hrest hinc hlim'
  refine block_append_clause hblock (Clause.known_cons.mpr ⟨?_, fun l hl => ?_⟩) fun v w hw hr => ?_
  · have hmem : Step.direct ⟨x, first⟩ (Literal.ofVariable (count + 1)) ∈
        firstTie settings x count first := by simp [firstTie, mem_direct]
    exact (hblock.owned _ (List.mem_append_left _ hmem)).2.2.2
  · obtain ⟨k, hk⟩ := channelFrom_single hl
    exact (hblock.owned _ (List.mem_append_right _ hk)).2.2.2
  · -- the value that is read has its literal in the clause
    rw [Clause.holds_iff]
    rcases List.mem_cons.mp hw with rfl | hw
    · refine ⟨_, List.mem_cons_self, (hr (.direct ⟨x, w⟩ _) ?_).mpr rfl⟩
      exact List.mem_append_left _ (by simp [firstTie, mem_direct])
    · obtain ⟨l, hl, hmem⟩ := channelFrom_direct hw
      exact ⟨l, List.mem_cons_of_mem _ hl, (hr _ (List.mem_append_right _ hmem)).mpr rfl⟩

end Hybrid

/-! ## Order literals alone -/

section OrderOnly

variable {settings : Settings} {x : String} {count : Nat} {previous : Literal} {values : List Word}

theorem boundsFrom_bound {w : Word} (hw : w ∈ values) :
    ∃ l t, Step.bound t ⟨x, w⟩ l ∈ boundsFrom settings x count previous values := by
  induction values generalizing count previous with
  | nil => simp at hw
  | cons value rest ih =>
    cases rest with
    | nil =>
      rw [List.mem_singleton.mp hw]
      exact ⟨-previous, .maximum, List.mem_singleton_self _⟩
    | cons next rest =>
      rw [boundsFrom_cons]
      rcases List.mem_cons.mp hw with rfl | hw
      · exact ⟨Literal.ofVariable (count + 1), .middle, by simp [boundSteps]⟩
      · obtain ⟨l, t, hmem⟩ := ih hw
        exact ⟨l, t, List.mem_append_right _ hmem⟩

theorem boundsFrom_order {w u : Word} (hinc : values.Pairwise (· < ·)) (hw : w ∈ values)
    (hu : u ∈ values) (hwu : w < u) :
    ∃ m, Step.order ⟨x, w⟩ m ∈ boundsFrom settings x count previous values := by
  induction values generalizing count previous with
  | nil => simp at hw
  | cons value rest ih =>
    cases rest with
    | nil =>
      rw [List.mem_singleton.mp hw, List.mem_singleton.mp hu] at hwu
      exact absurd hwu (not_lt_self value)
    | cons next rest =>
      rw [boundsFrom_cons]
      rw [List.pairwise_cons] at hinc
      rcases List.mem_cons.mp hw with rfl | hw
      · exact ⟨Literal.ofVariable (count + 1), by simp [boundSteps, mem_order]⟩
      · obtain ⟨m, hmem⟩ := ih hinc.2 hw (mem_of_lt_later hinc.1 hw hu hwu)
        exact ⟨m, List.mem_append_right _ hmem⟩

theorem direct_not_mem_boundsFrom {k : Key} {l : Literal} :
    Step.direct k l ∉ boundsFrom settings x count previous values := by
  induction values generalizing count previous with
  | nil => simp [boundsFrom]
  | cons value rest ih =>
    cases rest with
    | nil => simp [boundsFrom]
    | cons next rest =>
      rw [boundsFrom_cons, List.mem_append]
      exact not_or.mpr ⟨by simp [boundSteps, clause, direct_not_mem_order], ih⟩

theorem mem_boundSteps_bound {value : Word} {t : OrderTable} {k : Key} {l : Literal} :
    Step.bound t k l ∈ boundSteps settings x count previous value ↔
      t = .middle ∧ k = ⟨x, value⟩ ∧ l = Literal.ofVariable (count + 1) := by
  simp [boundSteps, clause, bound_not_mem_order]

/-- After the first value, no literal decodes a least value, and those in the middle are fresh. -/
theorem of_mem_boundsFrom {t : OrderTable} {k : Key} {l : Literal}
    (hlim : count + freshCount (boundsFrom settings x count previous values) < Literal.limit)
    (h : Step.bound t k l ∈ boundsFrom settings x count previous values) :
    t ≠ .minimum ∧ (t = .middle → count < l.var) := by
  induction values generalizing count previous with
  | nil => simp [boundsFrom] at h
  | cons value rest ih =>
    cases rest with
    | nil =>
      simp only [boundsFrom, List.mem_singleton, Step.bound.injEq] at h
      simp [h.1]
    | cons next rest =>
      rw [boundsFrom_cons] at h hlim
      rw [freshCount_append, freshCount_boundSteps] at hlim
      rcases List.mem_append.mp h with h | h
      · obtain ⟨rfl, -, rfl⟩ := mem_boundSteps_bound.mp h
        exact ⟨by simp, fun _ => lt_var_next count (by omega)⟩
      · obtain ⟨hmin, hmid⟩ := ih (by omega) h
        exact ⟨hmin, fun ht => Nat.lt_of_succ_lt (hmid ht)⟩

theorem boundsFrom_distinct {t : OrderTable} {k k' : Key} {l : Literal}
    (hlim : count + freshCount (boundsFrom settings x count previous values) < Literal.limit)
    (h : Step.bound t k l ∈ boundsFrom settings x count previous values)
    (h' : Step.bound t k' l ∈ boundsFrom settings x count previous values) : k = k' := by
  induction values generalizing count previous with
  | nil => simp [boundsFrom] at h
  | cons value rest ih =>
    cases rest with
    | nil =>
      simp only [boundsFrom, List.mem_singleton, Step.bound.injEq] at h h'
      rw [h.2.1, h'.2.1]
    | cons next rest =>
      rw [boundsFrom_cons] at h h' hlim
      rw [freshCount_append, freshCount_boundSteps] at hlim
      have hvar := Literal.var_ofVariable (show count + 1 < Literal.limit by omega)
      rcases List.mem_append.mp h with h | h <;> rcases List.mem_append.mp h' with h' | h'
      · rw [(mem_boundSteps_bound.mp h).2.1, (mem_boundSteps_bound.mp h').2.1]
      · obtain ⟨rfl, -, rfl⟩ := mem_boundSteps_bound.mp h
        have := (of_mem_boundsFrom (by omega) h').2 rfl
        omega
      · obtain ⟨rfl, -, rfl⟩ := mem_boundSteps_bound.mp h'
        have := (of_mem_boundsFrom (by omega) h).2 rfl
        omega
      · exact ih (by omega) h h'

/-- The first value with an order literal only. -/
def firstBound (settings : Settings) (x : String) (count : Nat) (first : Word) : List Step :=
  .emit .fresh :: order settings x first (Literal.ofVariable (count + 1)) ++
    [.bound .minimum ⟨x, first⟩ (Literal.ofVariable (count + 1))]

theorem firstBound_stair {first : Word} (hlim : count + 1 < Literal.limit) :
    Stair x first count count .never (Literal.ofVariable (count + 1))
      (firstBound settings x count first) := by
  have hb := known_next count hlim
  refine stair_one (Literal.known_never _) hlim (by simp [firstBound]) ?_ ?_ ?_ ?_ ?_
  · simp only [firstBound, List.cons_append, List.forall_mem_cons, List.forall_mem_append,
      owned_emit, true_and]
    refine ⟨owned_order hb, ?_, by simp⟩
    exact ⟨rfl, lt_var_next count hlim, Literal.isConstant_ofVariable hlim, hb⟩
  · simp [firstBound]
  · simp [firstBound]
  · intro v w
    simp only [firstBound, List.cons_append, reads_emit, reads_append, reads_order]
    exact And.left
  · intro v w _ hbv
    simp [firstBound, reads_cons, ReadsIn, hbv]

theorem orderOnly_eq (settings : Settings) (count : Nat) (x : String) (first : Word)
    (rest : List Word) :
    orderOnly settings count x (first :: rest) = firstBound settings x count first ++
      boundsFrom settings x (count + 1) (Literal.ofVariable (count + 1)) rest := by
  simp [orderOnly, firstBound]

theorem mem_firstBound_bound {first : Word} {t : OrderTable} {k : Key} {l : Literal} :
    Step.bound t k l ∈ firstBound settings x count first ↔
      t = .minimum ∧ k = ⟨x, first⟩ ∧ l = Literal.ofVariable (count + 1) := by
  simp [firstBound, bound_not_mem_order]

theorem orderOnly_block {first : Word} {rest : List Word} (hrest : rest ≠ [])
    (hinc : (first :: rest).Pairwise (· < ·))
    (hlim : count + freshCount (orderOnly settings count x (first :: rest)) < Literal.limit) :
    Block x (first :: rest) count (orderOnly settings count x (first :: rest)) := by
  rw [orderOnly_eq] at hlim ⊢
  have hfirst : freshCount (firstBound settings x count first) = 1 := by simp [firstBound]
  have hlim' := hlim
  rw [freshCount_append, hfirst] at hlim'
  have hb : count + 1 < Literal.limit := by omega
  rw [List.pairwise_cons] at hinc
  -- the first value has no value below it, so its stair starts from a literal that never holds
  have hstairs : Staircase x (first :: rest) count count .never
      (firstBound settings x count first ++
        boundsFrom settings x (count + 1) (Literal.ofVariable (count + 1)) rest) := by
    refine staircase_step hinc.1 (Literal.known_never _) (firstBound_stair hb) ?_
    rw [hfirst]
    exact boundsFrom_staircase hrest hinc.2 (lt_var_next count hb) (Nat.le_succ _)
      (Literal.isConstant_ofVariable hb) (known_next count hb) (by omega)
  refine staircase_block hstairs ?_ ?_ ?_ ?_
  · intro w hw
    rcases List.mem_cons.mp hw with rfl | hw
    · exact ⟨_, .inr ⟨.minimum,
        List.mem_append_left _ (mem_firstBound_bound.mpr ⟨rfl, rfl, rfl⟩)⟩⟩
    · obtain ⟨l, t, hmem⟩ := boundsFrom_bound hw
      exact ⟨l, .inr ⟨t, List.mem_append_right _ hmem⟩⟩
  · intro t k k' l h h'
    rcases List.mem_append.mp h with h | h <;> rcases List.mem_append.mp h' with h' | h'
    · rw [(mem_firstBound_bound.mp h).2.1, (mem_firstBound_bound.mp h').2.1]
    · obtain ⟨rfl, -, -⟩ := mem_firstBound_bound.mp h
      exact absurd rfl (of_mem_boundsFrom (by omega) h').1
    · obtain ⟨rfl, -, -⟩ := mem_firstBound_bound.mp h'
      exact absurd rfl (of_mem_boundsFrom (by omega) h).1
    · exact boundsFrom_distinct (by omega) h h'
  · intro k l h
    simp [firstBound, direct_not_mem_order, direct_not_mem_boundsFrom] at h
  · rintro k l - w hw ⟨u, hu, hwu⟩
    rcases List.mem_cons.mp hw with rfl | hw
    · exact ⟨Literal.ofVariable (count + 1), by simp [firstBound, mem_order]⟩
    · obtain ⟨m, hm⟩ := boundsFrom_order hinc.2 hw (mem_of_lt_later hinc.1 hw hu hwu) hwu
      exact ⟨m, List.mem_append_right _ hm⟩

end OrderOnly

/-! ## All shapes -/

theorem values_eq_cons {d : Domain} (h : 3 ≤ d.values.length) :
    ∃ first rest, d.values = first :: rest ∧ rest ≠ [] := by
  cases hd : d.values with
  | nil => simp [hd] at h
  | cons first rest =>
    refine ⟨first, rest, rfl, ?_⟩
    rintro rfl
    simp [hd] at h

/-- Where the steps of the chosen shape all are taken, they represent the variable. -/
theorem shapeSteps_block {settings : Settings} {count : Nat} {x : Variable} {constrained : Bool}
    {needs : Representation}
    (hstop : ∀ r, Step.stop r ∉ shapeSteps settings count x constrained
      (Shape.choose settings x.domain.size needs))
    (hlim : count + freshCount (shapeSteps settings count x constrained
      (Shape.choose settings x.domain.size needs)) < Literal.limit) :
    Block x.name x.domain.values count (shapeSteps settings count x constrained
      (Shape.choose settings x.domain.size needs)) := by
  -- the shapes of small domains are fixed; only from three values on the needs decide
  by_cases h0 : x.domain.size = 0
  · simp only [Shape.choose, h0, if_true, shapeSteps]
    rw [Domain.values_of_size_zero h0]
    exact unsatisfiable_block _ _
  by_cases h1 : x.domain.size = 1
  · obtain ⟨w, hb, hv⟩ := Domain.values_of_size_one h1
    simp only [Shape.choose, h1, if_true, shapeSteps, hb] at hlim ⊢
    rw [hv]
    exact constant_block (by simpa [constant] using hlim)
  by_cases h2 : x.domain.size = 2
  · obtain ⟨lower, upper, hlt, hb, hv⟩ := Domain.values_of_size_two h2
    simp only [Shape.choose, h2, if_true, shapeSteps, hb] at hlim ⊢
    rw [hv]
    refine boolean_block hlt ?_
    cases constrained <;> simpa [boolean] using hlim
  obtain ⟨first, rest, hv, hrest⟩ := values_eq_cons (Domain.three_le_length h0 h1 h2)
  have hinc := x.domain.values_increasing
  simp only [Shape.choose, h0, h1, h2, if_false] at hstop hlim ⊢
  split_ifs at hstop hlim ⊢ with hboth hdirect
  · simp only [shapeSteps, hv] at hinc hlim ⊢
    exact hybrid_block hrest hinc hlim
  · exact directOnly_block x.domain.values_nodup hstop hlim
  · simp only [shapeSteps, hv] at hinc hlim ⊢
    exact orderOnly_block hrest hinc hlim

end Clausify
