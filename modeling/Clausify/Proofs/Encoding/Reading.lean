import Mathlib
import Clausify.Encoding.Variable
import Clausify.Proofs.Cardinality.Scheme

/-!
What the steps of an encoding say. Steps allocate variables, write clauses and enter literals for
"equals a value" and "is at most a value"; a valuation reads values off the steps when each entered
literal holds exactly where its statement about the values is true (`Step.Reads`). The steps of one
variable form a block when every valuation that satisfies their clauses reads a value of the
domain, every value of the domain is read by such a valuation, and no second choice of the fresh
variables reads it (`Step.Block`).
-/

namespace Clausify

namespace Step

def emission? : Step → Option Emission
  | .emit e => some e
  | _ => none

def emissions (T : List Step) : List Emission := T.filterMap emission?

def clausesOf (T : List Step) : List Clause := Emission.clausesOf (emissions T)

def freshCount (T : List Step) : Nat := Emission.freshCount (emissions T)

@[simp] theorem emissions_nil : emissions [] = [] := rfl

@[simp] theorem emissions_emit (e : Emission) (T : List Step) :
    emissions (.emit e :: T) = e :: emissions T := rfl

@[simp] theorem emissions_append (T U : List Step) :
    emissions (T ++ U) = emissions T ++ emissions U := List.filterMap_append

@[simp] theorem emissions_map_emit (es : List Emission) : emissions (es.map Step.emit) = es := by
  rw [emissions, List.filterMap_map]
  exact List.filterMap_some

@[simp] theorem clausesOf_append (T U : List Step) :
    clausesOf (T ++ U) = clausesOf T ++ clausesOf U := by simp [clausesOf]

@[simp] theorem freshCount_append (T U : List Step) :
    freshCount (T ++ U) = freshCount T + freshCount U := by simp [freshCount]

@[simp] theorem clausesOf_nil : clausesOf [] = [] := rfl

@[simp] theorem clausesOf_fresh (T : List Step) : clausesOf (.emit .fresh :: T) = clausesOf T := rfl

@[simp] theorem clausesOf_clause (c : Clause) (T : List Step) :
    clausesOf (Encoding.clause c :: T) = c :: clausesOf T := rfl

@[simp] theorem clausesOf_bound (t : OrderTable) (k : Key) (l : Literal) (T : List Step) :
    clausesOf (.bound t k l :: T) = clausesOf T := rfl

@[simp] theorem freshCount_nil : freshCount [] = 0 := rfl

@[simp] theorem freshCount_fresh (T : List Step) :
    freshCount (.emit .fresh :: T) = freshCount T + 1 := by simp [freshCount]

@[simp] theorem freshCount_clause (c : Clause) (T : List Step) :
    freshCount (Encoding.clause c :: T) = freshCount T := by
  simp [freshCount, Encoding.clause, Emission.freshCount]

@[simp] theorem freshCount_bound (t : OrderTable) (k : Key) (l : Literal) (T : List Step) :
    freshCount (.bound t k l :: T) = freshCount T := rfl

section Entries

variable (settings : Settings) (x : String) (w : Word) (l : Literal)

@[simp] theorem emissions_direct : emissions (Encoding.direct settings x w l) = [] := by
  unfold Encoding.direct
  split <;> rfl

@[simp] theorem emissions_order : emissions (Encoding.order settings x w l) = [] := by
  unfold Encoding.order
  split <;> rfl

@[simp] theorem clausesOf_direct : clausesOf (Encoding.direct settings x w l) = [] := by
  simp [clausesOf]

@[simp] theorem clausesOf_order : clausesOf (Encoding.order settings x w l) = [] := by
  simp [clausesOf]

@[simp] theorem freshCount_direct : freshCount (Encoding.direct settings x w l) = 0 := by
  simp [freshCount]

@[simp] theorem freshCount_order : freshCount (Encoding.order settings x w l) = 0 := by
  simp [freshCount]

end Entries

/-! ## Reading values -/

/-- The literal that a step enters holds exactly when its statement is true of the values. -/
def ReadsIn (v : Valuation) (a : String → Word) : Step → Prop
  | .direct k l => l.holds v = true ↔ a k.var = k.value
  | .order k l => l.holds v = true ↔ a k.var ≤ k.value
  | .bound .maximum k l => l.holds v = true ↔ a k.var = k.value
  | .bound _ k l => l.holds v = true ↔ a k.var ≤ k.value
  | _ => True

/-- The valuation reads the values off the steps. -/
def Reads (T : List Step) (v : Valuation) (a : String → Word) : Prop := ∀ s ∈ T, s.ReadsIn v a

section Reads

variable {v : Valuation} {a : String → Word}

@[simp] theorem reads_nil : Reads [] v a := by simp [Reads]

@[simp] theorem reads_append {T U : List Step} :
    Reads (T ++ U) v a ↔ Reads T v a ∧ Reads U v a := List.forall_mem_append

theorem reads_cons {s : Step} {T : List Step} :
    Reads (s :: T) v a ↔ s.ReadsIn v a ∧ Reads T v a := List.forall_mem_cons

@[simp] theorem reads_emit {e : Emission} {T : List Step} :
    Reads (.emit e :: T) v a ↔ Reads T v a := by simp [reads_cons, ReadsIn]

@[simp] theorem reads_clause {c : Clause} {T : List Step} :
    Reads (Encoding.clause c :: T) v a ↔ Reads T v a := by
  simp [Encoding.clause]

@[simp] theorem reads_direct {settings : Settings} {x : String} {w : Word} {l : Literal} :
    Reads (Encoding.direct settings x w l) v a ↔ (l.holds v = true ↔ a x = w) := by
  unfold Encoding.direct
  split <;> simp [reads_cons, ReadsIn]

@[simp] theorem reads_order {settings : Settings} {x : String} {w : Word} {l : Literal} :
    Reads (Encoding.order settings x w l) v a ↔ (l.holds v = true ↔ a x ≤ w) := by
  unfold Encoding.order
  split <;> simp [reads_cons, ReadsIn]

@[simp] theorem reads_emissions {es : List Emission} : Reads (es.map Step.emit) v a := by
  intro s hs
  obtain ⟨e, -, rfl⟩ := List.mem_map.mp hs
  trivial

end Reads

/-- The step enters nothing into the mapping. -/
def Silent : Step → Prop
  | .domain _ _ => False
  | .direct _ _ => False
  | .order _ _ => False
  | .bound _ _ _ => False
  | _ => True

theorem Silent.readsIn {s : Step} (h : s.Silent) (v : Valuation) (a : String → Word) :
    s.ReadsIn v a := by
  cases s <;> first | exact h.elim | trivial

theorem reads_of_silent {T : List Step} (h : ∀ s ∈ T, s.Silent) (v : Valuation)
    (a : String → Word) : Reads T v a :=
  fun s hs => (h s hs).readsIn v a

/-- The step writes, notes or stops: it enters nothing, not even a shape. -/
def Plain : Step → Prop
  | .emit _ | .comment _ | .note _ | .stop _ => True
  | _ => False

theorem Plain.silent {s : Step} (h : s.Plain) : s.Silent := by
  cases s <;> first | exact h.elim | trivial

/-! ## Blocks -/

/-- The step enters literals for one variable only, and no variable; the literals it decodes by are
fresh. -/
def Owned (x : String) (low high : Nat) : Step → Prop
  | .direct k l => k.var = x ∧ low < l.var ∧ l.isConstant = false ∧ l.Known high
  | .bound _ k l => k.var = x ∧ low < l.var ∧ l.isConstant = false ∧ l.Known high
  | .order k l => k.var = x ∧ l.Known high
  | .domain _ _ => False
  | .shape _ _ => False
  | _ => True

theorem Owned.mono {x : String} {low low' high high' : Nat} {s : Step} (h : s.Owned x low high)
    (hl : low' ≤ low) (hh : high ≤ high') : s.Owned x low' high' := by
  cases s with
  | direct k l => exact ⟨h.1, Nat.lt_of_le_of_lt hl h.2.1, h.2.2.1, h.2.2.2.mono hh⟩
  | bound t k l => exact ⟨h.1, Nat.lt_of_le_of_lt hl h.2.1, h.2.2.1, h.2.2.2.mono hh⟩
  | order k l => exact ⟨h.1, h.2.mono hh⟩
  | domain y d => exact h
  | shape y s => exact h
  | _ => trivial

section Owned

variable {x : String} {low high : Nat}

@[simp] theorem owned_emit {e : Emission} : (Step.emit e).Owned x low high := trivial

@[simp] theorem owned_clause {c : Clause} : (Encoding.clause c).Owned x low high := trivial

theorem owned_direct {settings : Settings} {w : Word} {l : Literal} (hv : low < l.var)
    (hc : l.isConstant = false) (hk : l.Known high) :
    ∀ s ∈ Encoding.direct settings x w l, s.Owned x low high := by
  unfold Encoding.direct
  split <;> simp [Owned, hv, hc, hk]

theorem owned_order {settings : Settings} {w : Word} {l : Literal} (hk : l.Known high) :
    ∀ s ∈ Encoding.order settings x w l, s.Owned x low high := by
  unfold Encoding.order
  split <;> simp [Owned, hk]

theorem Owned.readsIn_value {s : Step} {v : Valuation} {a b : String → Word}
    (h : s.Owned x low high) (hab : a x = b x) : s.ReadsIn v a ↔ s.ReadsIn v b := by
  cases s with
  | direct k l => simp only [ReadsIn, h.1, hab]
  | bound t k l => cases t <;> simp only [ReadsIn, h.1, hab]
  | order k l => simp only [ReadsIn, h.1, hab]
  | _ => rfl

end Owned

/-- The steps of one variable over a list of values, `count` variables being allocated before. -/
structure Block (x : String) (values : List Word) (count : Nat) (T : List Step) : Prop where
  owned : ∀ s ∈ T, s.Owned x count (count + freshCount T)
  known : ∀ c ∈ clausesOf T, c.Known (count + freshCount T)
  sound : ∀ v : Valuation, v.Satisfies (clausesOf T) → ∃ w ∈ values, Reads T v fun _ => w
  complete : ∀ v : Valuation, ∀ w ∈ values,
    ∃ u : Valuation, v.Agree count u ∧ u.Satisfies (clausesOf T) ∧ Reads T u fun _ => w
  unique : ∀ (v u : Valuation) (w : Word), v.Satisfies (clausesOf T) → u.Satisfies (clausesOf T) →
    Reads T v (fun _ => w) → Reads T u (fun _ => w) → v.Agree count u →
    v.Agree (count + freshCount T) u
  decodes : ∀ w ∈ values, ∃ l, .direct ⟨x, w⟩ l ∈ T ∨ ∃ t, .bound t ⟨x, w⟩ l ∈ T
  distinct : ∀ t k k' l, .bound t k l ∈ T → .bound t k' l ∈ T → k = k'
  direct : ∀ k l, .direct k l ∈ T → ∀ w ∈ values, ∃ m, .direct ⟨x, w⟩ m ∈ T
  order : ∀ k l, .order k l ∈ T → ∀ w ∈ values, (∃ u ∈ values, w < u) →
    ∃ m, .order ⟨x, w⟩ m ∈ T

end Step

end Clausify
