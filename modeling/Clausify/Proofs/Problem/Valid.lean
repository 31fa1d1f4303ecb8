import Mathlib
import Clausify.Problem.Basic
import Clausify.Proofs.Relation.Check

/-!
What a valid problem is. A check of many things succeeds exactly when each of them passes
(`forM_eq_ok_iff`), so a problem with a catalog is valid exactly when its constraints are complete
and everything that they, the preferences and the objective mention is declared
(`Problem.validate_eq_ok_iff`).
-/

namespace Clausify

/-! ## Computations that may fail -/

section Outcomes

variable {ε α β : Type}

theorem bind_eq_ok {x : Except ε α} {f : α → Except ε β} {b : β} :
    x >>= f = .ok b ↔ ∃ a, x = .ok a ∧ f a = .ok b := by
  cases x with
  | error fault => simp [bind, Except.bind]
  | ok a => simp [bind, Except.bind]

theorem seq_eq_ok {x : Except ε Unit} {y : Except ε β} {b : β} :
    (x >>= fun _ => y) = .ok b ↔ x = .ok () ∧ y = .ok b := by
  rw [bind_eq_ok]
  constructor
  · rintro ⟨_, hx, hy⟩
    exact ⟨hx, hy⟩
  · rintro ⟨hx, hy⟩
    exact ⟨(), hx, hy⟩

theorem map_eq_ok {x : Except ε α} {f : α → β} {b : β} :
    x.map f = .ok b ↔ ∃ a, x = .ok a ∧ f a = b := by
  cases x with
  | error fault => simp [Except.map]
  | ok a => simp [Except.map]

theorem mapM_eq_ok {f : α → Except ε β} {xs : List α} {ys : List β} :
    xs.mapM f = .ok ys ↔ List.Forall₂ (fun x y => f x = .ok y) xs ys := by
  induction xs generalizing ys with
  | nil => simp [pure, Except.pure, eq_comm]
  | cons x rest ih =>
    rw [List.mapM_cons, bind_eq_ok, List.forall₂_cons_left_iff]
    constructor
    · rintro ⟨y, hy, h⟩
      obtain ⟨ys', hys', h⟩ := bind_eq_ok.mp h
      exact ⟨y, ys', hy, ih.mp hys', (Except.ok.inj h).symm⟩
    · rintro ⟨y, ys', hy, hys', rfl⟩
      exact ⟨y, hy, bind_eq_ok.mpr ⟨ys', ih.mpr hys', rfl⟩⟩

theorem exists_right_of_mem {R : α → β → Prop} {xs : List α} {ys : List β}
    (h : List.Forall₂ R xs ys) {x : α} (hx : x ∈ xs) : ∃ y ∈ ys, R x y := by
  induction h with
  | nil => simp at hx
  | @cons x' y' xs ys hxy _ ih =>
    rcases List.mem_cons.mp hx with rfl | hx
    · exact ⟨y', List.mem_cons_self, hxy⟩
    · obtain ⟨y, hy, hR⟩ := ih hx
      exact ⟨y, List.mem_cons_of_mem _ hy, hR⟩

theorem exists_left_of_mem {R : α → β → Prop} {xs : List α} {ys : List β}
    (h : List.Forall₂ R xs ys) {y : β} (hy : y ∈ ys) : ∃ x ∈ xs, R x y :=
  exists_right_of_mem h.flip hy

theorem forM_eq_ok_iff {f : α → Except ε Unit} {xs : List α} :
    xs.forM f = .ok () ↔ ∀ x ∈ xs, f x = .ok () := by
  induction xs with
  | nil => exact ⟨fun _ => List.forall_mem_nil _, fun _ => rfl⟩
  | cons x rest ih =>
    show (f x >>= fun _ => rest.forM f) = .ok () ↔ _
    rw [seq_eq_ok, List.forall_mem_cons, ih]

end Outcomes

/-! ## Catalogs -/

namespace Catalog

variable {catalog : Catalog} {x : String}

theorem domain?_append_of_some {vs : List Variable} {v : Variable} {d : Domain}
    (h : (⟨vs⟩ : Catalog).domain? x = some d) : (⟨vs ++ [v]⟩ : Catalog).domain? x = some d := by
  obtain ⟨u, hu, rfl⟩ := Option.map_eq_some_iff.mp h
  rw [domain?, find?, List.find?_append]
  rw [find?] at hu
  simp [hu]

theorem domain?_append_of_none {vs : List Variable} {v : Variable}
    (h : (⟨vs⟩ : Catalog).domain? x = none) :
    (⟨vs ++ [v]⟩ : Catalog).domain? x = if v.name = x then some v.domain else none := by
  rw [domain?, Option.map_eq_none_iff, find?] at h
  rw [domain?, find?, List.find?_append, h]
  by_cases hx : v.name = x <;> simp [hx]

theorem exists_domain?_of_isKnown (h : catalog.isKnown x = true) :
    ∃ d, catalog.domain? x = some d := by
  obtain ⟨v, hv⟩ := Option.isSome_iff_exists.mp h
  exact ⟨v.domain, by rw [domain?, hv]; rfl⟩

theorem isKnown_of_domain? {d : Domain} (h : catalog.domain? x = some d) :
    catalog.isKnown x = true := by
  obtain ⟨v, hv, -⟩ := Option.map_eq_some_iff.mp h
  exact Option.isSome_iff_exists.mpr ⟨v, hv⟩

theorem isKnown_iff : catalog.isKnown x = true ↔ x ∈ catalog.names := by
  rw [isKnown, find?, List.find?_isSome, names, List.mem_map]
  simp

end Catalog

/-! ## Problems -/

theorem Encoding.undeclared?_eq_none {catalog : Catalog} {c : Constraint} :
    undeclared? catalog c = none ↔ ∀ x ∈ c.variableNames, catalog.isKnown x = true := by
  rw [undeclared?, List.find?_eq_none]
  simp

namespace Problem

variable {p : Problem} {catalog : Catalog}

theorem require_present {place : Mention} {names : List String} :
    (CatalogRef.present catalog).require place names = .ok () ↔
      ∀ x ∈ names, catalog.isKnown x = true := by
  have hnone : (names.find? fun x => !catalog.isKnown x) = none ↔
      ∀ x ∈ names, catalog.isKnown x = true := by simp
  rw [← hnone, CatalogRef.require, CatalogRef.undeclared?]
  cases names.find? fun x => !catalog.isKnown x <;> simp

theorem validateConstraint_eq_ok {c : Constraint} :
    validateConstraint (.present catalog) c = .ok () ↔
      c.validate = .ok () ∧ Encoding.undeclared? catalog c = none := by
  rw [Encoding.undeclared?_eq_none, validateConstraint]
  cases c.validate with
  | error fault => simp
  | ok u => simp [require_present]

theorem catalog_eq_some : p.catalog = some catalog ↔ p.reference = .present catalog := by
  unfold Problem.catalog CatalogRef.catalog?
  cases p.reference <;> simp

/-- A problem is valid exactly when its constraints are, and all that is mentioned is declared. -/
theorem validate_eq_ok_iff (hcatalog : p.catalog = some catalog) :
    p.validate = .ok () ↔
      (∀ c ∈ p.constraints, c.validate = .ok () ∧ Encoding.undeclared? catalog c = none) ∧
      (∀ q ∈ p.preferences, catalog.isKnown q.var = true) ∧
      ∀ o ∈ p.objective, catalog.isKnown o.var = true := by
  rw [validate, catalog_eq_some.mp hcatalog, if_neg (by simp)]
  rw [seq_eq_ok, seq_eq_ok, forM_eq_ok_iff, forM_eq_ok_iff]
  simp only [validateConstraint_eq_ok, require_present]
  simp

/-- In a valid problem all constraints are valid, and what they and the preferences mention is
declared. -/
theorem checked_of_validate (hcatalog : p.catalog = some catalog) (h : p.validate = .ok ()) :
    (∀ c ∈ p.constraints, c.validate = .ok () ∧ Encoding.undeclared? catalog c = none) ∧
      ∀ q ∈ p.preferences, catalog.isKnown q.var = true :=
  ⟨((validate_eq_ok_iff hcatalog).mp h).1, ((validate_eq_ok_iff hcatalog).mp h).2.1⟩

end Problem

end Clausify
