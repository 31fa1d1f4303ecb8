import Mathlib
import Clausify.Cardinality
import Clausify.Proofs.Cardinality.Ladder
import Clausify.Proofs.Cardinality.Product
import Clausify.Proofs.Cardinality.Commander

/-!
Every scheme counts to one, and so does the choice among them. A plan that comes to its end says
that at most, or exactly, one position of the list holds (`encode_asserts`). When exactly one is
asked for, or when auxiliary variables are to be determined, it also leaves no second choice for
the variables it allocates (`encode_fixes`): a slack literal, where one is added, holds exactly
when no literal of the list does.
-/

namespace Clausify.Cardinality

open Emission

variable {settings : Settings} {scheme : Scheme} {count : Nat} {e : Bool} {ls : List Literal}

/-- A scheme whose plan comes to its end says what is asked of the list. -/
theorem schemePlan_asserts (hk : ∀ l ∈ ls, l.Known count)
    (hstop : (schemePlan settings scheme count e ls).stop = none)
    (hlim : count + freshCount (schemePlan settings scheme count e ls).emissions <
      Literal.limit) :
    Asserts count (schemePlan settings scheme count e ls).emissions (Meets e ls) := by
  cases scheme with
  | pairwise => exact pairwise_asserts hk e
  | ladder => exact ladder_asserts hk e hlim
  | product => exact product_asserts hk e hlim
  | bimander =>
    simp only [schemePlan] at hstop hlim ⊢
    obtain ⟨hsize, heq⟩ := bimander_emissions hstop
    rw [heq] at hlim ⊢
    exact someOf_asserts hk (groups_asserts hsize hk (by simpa using hlim)) e
  | commander => exact (commander_asserts_fixes hk hstop hlim).1
  | other name => simp [schemePlan] at hstop

theorem schemePlan_fixes_one (hk : ∀ l ∈ ls, l.Known count)
    (hstop : (schemePlan settings scheme count true ls).stop = none)
    (hlim : count + freshCount (schemePlan settings scheme count true ls).emissions <
      Literal.limit) :
    Fixes count (schemePlan settings scheme count true ls).emissions (fun _ => True) := by
  have hone : Fixes count (schemePlan settings scheme count true ls).emissions
      (fun v => trues v ls = 1) := by
    cases scheme with
    | pairwise => exact pairwise_fixes _ _ _ _
    | ladder => exact ladder_fixes hk true hlim
    | product => exact product_fixes hk true hlim
    | bimander =>
      simp only [schemePlan] at hstop hlim ⊢
      obtain ⟨hsize, heq⟩ := bimander_emissions hstop
      rw [heq] at hlim ⊢
      exact someOf_fixes (groups_fixes hsize hk (by simpa using hlim)) true ls
    | commander =>
      intro v u _
      exact (commander_asserts_fixes hk hstop hlim).2 (.inl rfl) v u trivial
    | other name => simp [schemePlan] at hstop
  intro v u _ hv hu ha
  obtain ⟨hle, hge⟩ := (schemePlan_asserts hk hstop hlim).sound v hv
  exact hone v u (Nat.le_antisymm hle (hge rfl)) hv hu ha

/-! ## The slack literal -/

theorem trues_append_slack (h : count + 1 < Literal.limit) (v : Valuation) :
    trues v (ls ++ [Literal.ofVariable (count + 1)]) = trues v ls + (v (count + 1)).toNat := by
  rw [trues_append, trues_cons, Literal.holds_ofVariable (Nat.succ_pos _) h, trues_nil,
    Nat.zero_add]

theorem known_append_slack (hk : ∀ l ∈ ls, l.Known count) (hlim : count + 1 < Literal.limit) :
    ∀ l ∈ ls ++ [Literal.ofVariable (count + 1)], l.Known (count + 1) := by
  intro l hl
  rcases List.mem_append.mp hl with hl | hl
  · exact (hk l hl).mono (Nat.le_succ _)
  · rw [List.mem_singleton.mp hl]
    exact Literal.known_ofVariable (Nat.succ_pos _) (Nat.le_refl _) hlim

/-- Exactly one of the list and a fresh literal is at most one of the list. -/
theorem slack_asserts {es : List Emission} (hk : ∀ l ∈ ls, l.Known count)
    (hlim : count + 1 < Literal.limit)
    (h : Asserts (count + 1) es (Meets true (ls ++ [Literal.ofVariable (count + 1)]))) :
    Asserts count (.fresh :: es) (Meets false ls) where
  known := by
    intro c hc
    rw [freshCount_fresh, show count + (freshCount es + 1) = count + 1 + freshCount es by omega]
    exact h.known c hc
  sound := by
    intro v hv
    obtain ⟨hle, -⟩ := h.sound v hv
    rw [trues_append_slack hlim] at hle
    exact ⟨by omega, by simp⟩
  complete := by
    rintro v ⟨hle, -⟩
    -- the slack holds where the list has no true literal
    obtain ⟨w, haw, hw⟩ := v.exists_succ count (decide (trues v ls = 0))
    have hone : trues w (ls ++ [Literal.ofVariable (count + 1)]) = 1 := by
      rw [trues_append_slack hlim, ← trues_congr hk haw, hw]
      by_cases h0 : trues v ls = 0
      · simp [h0]
      · simp only [h0, decide_false, Bool.toNat_false]
        omega
    obtain ⟨u, ha, hu⟩ := h.complete w ⟨Nat.le_of_eq hone, fun _ => Nat.le_of_eq hone.symm⟩
    exact ⟨u, haw.trans (ha.mono (Nat.le_succ _)), hu⟩

theorem slack_fixes {es : List Emission} (hk : ∀ l ∈ ls, l.Known count)
    (hlim : count + 1 < Literal.limit)
    (h : Asserts (count + 1) es (Meets true (ls ++ [Literal.ofVariable (count + 1)])))
    (hfix : Fixes (count + 1) es (fun _ => True)) :
    Fixes count (.fresh :: es) (fun _ => True) := by
  intro v u _ hv hu ha
  -- both valuations read the slack off the list
  have hslack : v (count + 1) = u (count + 1) := by
    obtain ⟨hlev, hgev⟩ := h.sound v hv
    obtain ⟨hleu, hgeu⟩ := h.sound u hu
    rw [trues_append_slack hlim] at hlev hgev hleu hgeu
    rw [← trues_congr hk ha] at hleu hgeu
    have := hgev rfl
    have := hgeu rfl
    cases hvb : v (count + 1) <;> cases hub : u (count + 1) <;>
      simp only [hvb, hub, Bool.toNat_true, Bool.toNat_false] at * <;> omega
  rw [freshCount_fresh, show count + (freshCount es + 1) = count + 1 + freshCount es by omega]
  exact hfix v u trivial hv hu (ha.succ hslack)

/-! ## The choice -/

/-- The plan for a list: the empty list, a list with a slack literal, or the scheme itself. -/
theorem encode_cases (settings : Settings) (scheme : Scheme) (count : Nat) (e : Bool)
    (ls : List Literal) :
    (ls = [] ∧ encode settings scheme count e ls = { emissions := clauses (someOf e []) }) ∨
    (e = false ∧ encode settings scheme count e ls =
      { schemePlan settings scheme (count + 1) true
          (ls ++ [Literal.ofVariable (count + 1)]) with
        emissions := .fresh :: (schemePlan settings scheme (count + 1) true
          (ls ++ [Literal.ofVariable (count + 1)])).emissions }) ∨
    ((needsSlack scheme = true → e = true ∨ settings.auxNonFunctional = true) ∧
      encode settings scheme count e ls = schemePlan settings scheme count e ls) := by
  unfold encode
  split
  · next h => exact .inl ⟨List.isEmpty_iff.mp h, rfl⟩
  · split
    · next h =>
      simp only [Bool.and_eq_true, Bool.not_eq_true'] at h
      exact .inr (.inl ⟨h.1.2, rfl⟩)
    · next h =>
      refine .inr (.inr ⟨?_, rfl⟩)
      intro hslack
      cases e <;> simp_all

/-- A plan that comes to its end says that at most, or exactly, one position holds. -/
theorem encode_asserts (hk : ∀ l ∈ ls, l.Known count)
    (hstop : (encode settings scheme count e ls).stop = none)
    (hlim : count + freshCount (encode settings scheme count e ls).emissions < Literal.limit) :
    Asserts count (encode settings scheme count e ls).emissions (Meets e ls) := by
  obtain ⟨rfl, heq⟩ | ⟨rfl, heq⟩ | ⟨-, heq⟩ := encode_cases settings scheme count e ls
  · rw [heq]
    refine asserts_clauses (known_someOf hk) fun v => ?_
    rw [satisfies_someOf]
    exact ⟨fun h => ⟨Nat.zero_le _, h⟩, And.right⟩
  · rw [heq] at hstop hlim ⊢
    rw [freshCount_fresh] at hlim
    have hasserts := schemePlan_asserts (known_append_slack hk (by omega)) hstop (by omega)
    exact slack_asserts hk (by omega) hasserts
  · rw [heq] at hstop hlim ⊢
    exact schemePlan_asserts hk hstop hlim

/-- Where exactly one is asked for, or variables are to be determined, a plan that comes to its
end determines every variable it allocates. -/
theorem encode_fixes (hk : ∀ l ∈ ls, l.Known count)
    (hdet : e = true ∨ settings.auxNonFunctional = false)
    (hstop : (encode settings scheme count e ls).stop = none)
    (hlim : count + freshCount (encode settings scheme count e ls).emissions < Literal.limit) :
    Fixes count (encode settings scheme count e ls).emissions (fun _ => True) := by
  obtain ⟨rfl, heq⟩ | ⟨rfl, heq⟩ | ⟨hslack, heq⟩ := encode_cases settings scheme count e ls
  · rw [heq]
    exact fixes_clauses _ _ _
  · rw [heq] at hstop hlim ⊢
    rw [freshCount_fresh] at hlim
    have hk' := known_append_slack hk (show count + 1 < Literal.limit by omega)
    exact slack_fixes hk (by omega) (schemePlan_asserts hk' hstop (by omega))
      (schemePlan_fixes_one hk' hstop (by omega))
  · rw [heq] at hstop hlim ⊢
    cases e with
    | true => exact schemePlan_fixes_one hk hstop hlim
    | false =>
      cases scheme with
      | pairwise => exact pairwise_fixes _ _ _ _
      | commander => exact (commander_asserts_fixes hk hstop hlim).2 (.inr (by simpa using hdet))
      | other name => simp [schemePlan] at hstop
      | ladder | product | bimander => simp_all [needsSlack]

end Clausify.Cardinality
