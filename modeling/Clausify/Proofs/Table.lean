import Mathlib
import Clausify.Table

/-!
Tables as finite maps: setting a key changes its value and no other, and keys stay different from
each other. Two tables with the same values differ in nothing but their order (`perm_of_lookup`).
-/

namespace Clausify.Table

variable {κ α : Type} [DecidableEq κ]

@[simp] theorem lookup_set (k k' : κ) (a : α) (t : Table κ α) :
    (set k a t).lookup k' = if k = k' then some a else t.lookup k' := by
  induction t with
  | nil => grind [set]
  | cons entry rest ih =>
    obtain ⟨j, b⟩ := entry
    simp only [set]
    by_cases hjk : j = k
    · grind
    · rw [if_neg hjk, List.lookup_cons, List.lookup_cons, ih]
      grind

theorem mem_of_lookup {k : κ} {a : α} {t : Table κ α} (h : t.lookup k = some a) : (k, a) ∈ t := by
  obtain ⟨before, after, rfl, -⟩ := List.lookup_eq_some_iff.mp h
  simp

theorem keys_set (k : κ) (a : α) (t : Table κ α) :
    (set k a t).map Prod.fst = if k ∈ t.map Prod.fst then t.map Prod.fst
      else t.map Prod.fst ++ [k] := by
  induction t with
  | nil => simp [set]
  | cons entry rest ih =>
    obtain ⟨j, b⟩ := entry
    simp only [set]
    by_cases h : j = k
    · simp [h]
    · simp only [if_neg h, List.map_cons, ih, List.mem_cons, Ne.symm h, false_or]
      split <;> simp

theorem nodup_keys_set {k : κ} {a : α} {t : Table κ α} (h : (t.map Prod.fst).Nodup) :
    ((set k a t).map Prod.fst).Nodup := by
  rw [keys_set]
  split
  · exact h
  · next hk =>
    rw [List.nodup_append]
    refine ⟨h, List.nodup_singleton k, ?_⟩
    rintro j hj _ hk' rfl
    rw [List.mem_singleton.mp hk'] at hj
    exact hk hj

theorem lookup_eq_some_iff {k : κ} {a : α} {t : Table κ α} (h : (t.map Prod.fst).Nodup) :
    t.lookup k = some a ↔ (k, a) ∈ t := by
  refine ⟨mem_of_lookup, fun hmem => ?_⟩
  induction t with
  | nil => simp at hmem
  | cons entry rest ih =>
    obtain ⟨j, b⟩ := entry
    rw [List.map_cons, List.nodup_cons] at h
    rcases List.mem_cons.mp hmem with heq | hrest
    · obtain ⟨rfl, rfl⟩ := Prod.mk.inj heq
      exact List.lookup_cons_self
    · have hne : (k == j) = false := by
        refine beq_eq_false_iff_ne.mpr ?_
        rintro rfl
        exact h.1 (List.mem_map.mpr ⟨_, hrest, rfl⟩)
      rw [List.lookup_cons, hne, ih h.2 hrest]

theorem perm_of_lookup {t u : Table κ α} (ht : (t.map Prod.fst).Nodup) (hu : (u.map Prod.fst).Nodup)
    (h : ∀ k, t.lookup k = u.lookup k) : t.Perm u := by
  rw [List.perm_ext_iff_of_nodup (ht.of_map _) (hu.of_map _)]
  rintro ⟨k, a⟩
  rw [← lookup_eq_some_iff ht, ← lookup_eq_some_iff hu, h]

theorem lookup_of_perm {t u : Table κ α} (h : t.Perm u) (ht : (t.map Prod.fst).Nodup) (k : κ) :
    t.lookup k = u.lookup k := by
  have hu : (u.map Prod.fst).Nodup := (h.map Prod.fst).nodup_iff.mp ht
  refine Option.ext fun a => ?_
  rw [lookup_eq_some_iff ht, lookup_eq_some_iff hu, h.mem_iff]

end Clausify.Table
