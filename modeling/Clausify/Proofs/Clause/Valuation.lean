import Mathlib
import Clausify.Clause.Formula

/-!
Truth of literals and clauses. A literal is known after `n` variables when it is one of the two
constants or speaks about one of the variables `1` to `n`; the truth of known literals depends on
these variables only, and negation turns it round. The variable of the constants, `Literal.limit`,
is never allocated, so all variables below it have literals of their own.

Main statements: `Literal.holds_neg`, `Literal.holds_ofVariable`, `Clause.holds_congr` (locality),
and `Clause.holds_reduce` (working the constants out keeps the meaning of a clause).
-/

namespace Clausify

/-- A truth value for every variable. -/
abbrev Valuation := Nat → Bool

namespace Valuation

/-- The valuations give the variables `1` to `n` the same truth values. -/
def Agree (n : Nat) (v u : Valuation) : Prop := ∀ k, 0 < k → k ≤ n → v k = u k

def Satisfies (v : Valuation) (cs : List Clause) : Prop := ∀ c ∈ cs, c.holds v = true

theorem Agree.refl (n : Nat) (v : Valuation) : Agree n v v := fun _ _ _ => rfl

theorem Agree.trans {n : Nat} {v u w : Valuation} (h : Agree n v u) (h' : Agree n u w) :
    Agree n v w :=
  fun k h0 hk => (h k h0 hk).trans (h' k h0 hk)

theorem Agree.mono {m n : Nat} {v u : Valuation} (h : Agree n v u) (hm : m ≤ n) : Agree m v u :=
  fun k h0 hk => h k h0 (Nat.le_trans hk hm)

@[simp] theorem satisfies_nil (v : Valuation) : v.Satisfies [] := by simp [Satisfies]

@[simp] theorem satisfies_cons {v : Valuation} {c : Clause} {cs : List Clause} :
    v.Satisfies (c :: cs) ↔ c.holds v = true ∧ v.Satisfies cs := by simp [Satisfies]

@[simp] theorem satisfies_append {v : Valuation} {cs ds : List Clause} :
    v.Satisfies (cs ++ ds) ↔ v.Satisfies cs ∧ v.Satisfies ds := by
  simp only [Satisfies, List.forall_mem_append]

theorem satisfies_flatMap {α : Type} {v : Valuation} {xs : List α} {f : α → List Clause} :
    v.Satisfies (xs.flatMap f) ↔ ∀ x ∈ xs, v.Satisfies (f x) := by
  simp only [Satisfies, List.mem_flatMap]
  constructor
  · intro h x hx c hc
    exact h c ⟨x, hx, hc⟩
  · rintro h c ⟨x, hx, hc⟩
    exact h x hx c hc

/-- The valuation that takes the truth values after `count` from `bits`. -/
def extend (v : Valuation) (count : Nat) (bits : Nat → Bool) : Valuation :=
  fun k => if k ≤ count then v k else bits (k - count - 1)

theorem agree_extend (v : Valuation) (count : Nat) (bits : Nat → Bool) :
    Agree count v (v.extend count bits) := by
  intro k _ hk
  simp [extend, hk]

@[simp] theorem extend_succ (v : Valuation) (count : Nat) (bits : Nat → Bool) (k : Nat) :
    v.extend count bits (count + k + 1) = bits k := by
  have h : ¬ count + k + 1 ≤ count := by omega
  simp only [extend, h, if_false]
  congr 1
  omega

theorem exists_extend (v : Valuation) (count : Nat) (bits : Nat → Bool) :
    ∃ u : Valuation, Agree count v u ∧ ∀ k, u (count + k + 1) = bits k :=
  ⟨v.extend count bits, agree_extend _ _ _, extend_succ _ _ _⟩

theorem exists_succ (v : Valuation) (count : Nat) (b : Bool) :
    ∃ u : Valuation, Agree count v u ∧ u (count + 1) = b := by
  obtain ⟨u, ha, hu⟩ := exists_extend v count fun _ => b
  exact ⟨u, ha, hu 0⟩

/-- Agreement on `n` variables and on each of the next `m` is agreement on all of them. -/
theorem Agree.add {n m : Nat} {v u : Valuation} (h : Agree n v u)
    (hm : ∀ i, i < m → v (n + i + 1) = u (n + i + 1)) : Agree (n + m) v u := by
  intro k h0 hk
  by_cases hkn : k ≤ n
  · exact h k h0 hkn
  · obtain ⟨i, rfl⟩ : ∃ i, k = n + i + 1 := ⟨k - n - 1, by omega⟩
    exact hm i (by omega)

theorem Agree.succ {n : Nat} {v u : Valuation} (h : Agree n v u) (hn : v (n + 1) = u (n + 1)) :
    Agree (n + 1) v u := by
  apply h.add
  intro i hi
  rw [show i = 0 by omega, hn]

end Valuation

/-! ## Literals -/

namespace Literal

/-- The variable of the two constants. Only variables below it are allocated. -/
def limit : Nat := halfCount - 1

/-- The literal is a constant or speaks about one of the variables `1` to `n`. -/
def Known (n : Nat) (l : Literal) : Prop :=
  l.isConstant = true ∨ (0 < l.var ∧ l.var ≤ n ∧ l.var < limit)

instance (n : Nat) (l : Literal) : Decidable (Known n l) := inferInstanceAs (Decidable (_ ∨ _))

theorem Known.mono {m n : Nat} {l : Literal} (h : Known m l) (hmn : m ≤ n) : Known n l := by
  rcases h with h | ⟨h0, hm, hl⟩
  · exact Or.inl h
  · exact Or.inr ⟨h0, Nat.le_trans hm hmn, hl⟩

theorem known_always (n : Nat) : Known n always := Or.inl (by decide)

theorem known_never (n : Nat) : Known n never := Or.inl (by decide)

@[simp] theorem neg_word (l : Literal) : (-l).word = -l.word := rfl

@[simp] theorem neg_always : -always = never := rfl

@[simp] theorem neg_never : -never = always := by decide

@[simp] theorem neg_neg (l : Literal) : - -l = l := by
  cases l with
  | mk w =>
    show (⟨- -w⟩ : Literal) = ⟨w⟩
    rw [Int64.neg_neg]

theorem neg_inj {l m : Literal} : -l = -m ↔ l = m := by
  constructor
  · intro h
    rw [← neg_neg l, h, neg_neg]
  · rintro rfl
    rfl

theorem toInt_neg_word {l : Literal} (h : l.var < halfCount) :
    (-l.word).toInt = -l.word.toInt := by
  simp only [var, halfCount] at h
  rw [Int64.toInt_neg]
  exact Int.bmod_eq_of_le (by omega) (by omega)

/-- The least word is the only one whose magnitude is no word. -/
theorem word_eq_minValue {l : Literal} (h : ¬ l.var < halfCount) : l.word = Int64.minValue := by
  have hl := Int64.le_toInt l.word
  have hu := Int64.toInt_lt l.word
  have hmin : Int64.minValue.toInt = -2 ^ 63 := by decide
  rw [var, halfCount] at h
  rw [← Int64.toInt_inj, hmin]
  omega

theorem var_neg (l : Literal) : (-l).var = l.var := by
  by_cases h : l.var < halfCount
  · simp only [var, neg_word, toInt_neg_word h, Int.natAbs_neg]
  · rw [var, var, neg_word, word_eq_minValue h]
    decide

theorem isConstant_iff {l : Literal} : l.isConstant = true ↔ l = always ∨ l = never := by
  simp [isConstant]

theorem var_of_isConstant {l : Literal} (h : l.isConstant = true) : l.var = limit := by
  rcases isConstant_iff.mp h with rfl | rfl <;> decide

theorem Known.var_pos {n : Nat} {l : Literal} (h : Known n l) : 0 < l.var := by
  rcases h with h | h
  · rw [var_of_isConstant h]; decide
  · exact h.1

theorem Known.var_le_limit {n : Nat} {l : Literal} (h : Known n l) : l.var ≤ limit := by
  rcases h with h | h
  · rw [var_of_isConstant h]
  · omega

theorem Known.var_lt {n : Nat} {l : Literal} (h : Known n l) : l.var < halfCount := by
  have := h.var_le_limit
  simp only [limit, halfCount] at this ⊢
  omega

theorem Known.var_le {n : Nat} {l : Literal} (h : Known n l) (hc : l.isConstant = false) :
    l.var ≤ n := by
  rcases h with h | h
  · simp [hc] at h
  · exact h.2.1

theorem Known.word_ne_zero {n : Nat} {l : Literal} (h : Known n l) : l.word ≠ 0 := by
  intro h0
  have := h.var_pos
  simp [var, h0] at this

theorem isConstant_neg (l : Literal) : (-l).isConstant = l.isConstant := by
  have hn : -l = always ↔ l = never := by rw [← neg_never, neg_inj]
  have ha : -l = never ↔ l = always := by rw [← neg_always, neg_inj]
  simp [isConstant, hn, ha, Bool.or_comm]

theorem Known.neg {n : Nat} {l : Literal} (h : Known n l) : Known n (-l) := by
  have hv := l.var_neg
  rcases h with h | h
  · exact Or.inl (by rw [isConstant_neg, h])
  · exact Or.inr (by rw [hv]; exact h)

@[simp] theorem holds_always (v : Valuation) : holds v always = true := by simp [holds]

@[simp] theorem holds_never (v : Valuation) : holds v never = false := by
  have : never ≠ always := by decide
  simp [holds, this]

/-- Away from the constants the truth of a literal is that of its variable, turned by the sign. -/
theorem holds_of_not_constant {v : Valuation} {l : Literal} (h : l.isConstant = false) :
    holds v l = if l.isPositive then v l.var else !v l.var := by
  have hn : l ≠ always ∧ l ≠ never := by
    constructor <;> rintro rfl <;> revert h <;> decide
  simp [holds, hn]

theorem Known.isPositive_neg {n : Nat} {l : Literal} (h : Known n l) :
    (-l).isPositive = !l.isPositive := by
  have h0 : (0 : Word).toInt = 0 := by decide
  have hne : l.word.toInt ≠ 0 := by
    intro e
    exact h.word_ne_zero (Int64.toInt_inj.mp (e.trans h0.symm))
  simp only [isPositive, neg_word, Int64.lt_iff_toInt_lt, toInt_neg_word h.var_lt, h0]
  rw [← decide_not, decide_eq_decide]
  omega

theorem Known.holds_neg {n : Nat} {l : Literal} (h : Known n l) (v : Valuation) :
    holds v (-l) = !holds v l := by
  cases hc : l.isConstant with
  | true => rcases isConstant_iff.mp hc with rfl | rfl <;> simp
  | false =>
    have hc' : (-l).isConstant = false := by rw [isConstant_neg, hc]
    rw [holds_of_not_constant hc, holds_of_not_constant hc', var_neg, h.isPositive_neg]
    cases l.isPositive <;> simp

theorem Known.holds_congr {n : Nat} {l : Literal} {v u : Valuation} (h : Known n l)
    (ha : v.Agree n u) : holds v l = holds u l := by
  rcases h with h | ⟨h0, hn, _⟩
  · rcases isConstant_iff.mp h with rfl | rfl <;> simp
  · cases hc : l.isConstant with
    | true => rcases isConstant_iff.mp hc with rfl | rfl <;> simp
    | false => simp only [holds_of_not_constant hc, ha l.var h0 hn]

/-! ### Literals of allocated variables -/

theorem toInt_ofVariable {k : Nat} (h : k < limit) : (ofVariable k).word.toInt = k := by
  simp only [limit, halfCount] at h
  exact Int64.toInt_ofNat_of_lt (by omega)

theorem var_ofVariable {k : Nat} (h : k < limit) : (ofVariable k).var = k := by
  simp [var, toInt_ofVariable h]

theorem isConstant_ofVariable {k : Nat} (h : k < limit) : (ofVariable k).isConstant = false := by
  cases hc : (ofVariable k).isConstant with
  | false => rfl
  | true =>
    have := var_of_isConstant hc
    rw [var_ofVariable h] at this
    omega

theorem known_ofVariable {n k : Nat} (h0 : 0 < k) (hn : k ≤ n) (h : k < limit) :
    Known n (ofVariable k) :=
  Or.inr (by rw [var_ofVariable h]; exact ⟨h0, hn, h⟩)

theorem holds_ofVariable {k : Nat} (h0 : 0 < k) (h : k < limit) (v : Valuation) :
    holds v (ofVariable k) = v k := by
  have hp : (ofVariable k).isPositive = true := by
    have hz : (0 : Word).toInt = 0 := by decide
    simp only [isPositive, Int64.lt_iff_toInt_lt, toInt_ofVariable h, hz]
    simpa using h0
  rw [holds_of_not_constant (isConstant_ofVariable h), hp, var_ofVariable h]
  simp

end Literal

/-! ## Clauses -/

namespace Clause

/-- All literals of the clause are known. -/
def Known (n : Nat) (c : Clause) : Prop := ∀ l ∈ c, Literal.Known n l

theorem Known.mono {m n : Nat} {c : Clause} (h : Known m c) (hmn : m ≤ n) : Known n c :=
  fun l hl => (h l hl).mono hmn

@[simp] theorem known_nil (n : Nat) : Known n [] := by simp [Known]

@[simp] theorem known_cons {n : Nat} {l : Literal} {c : Clause} :
    Known n (l :: c) ↔ Literal.Known n l ∧ Known n c := by simp [Known]

@[simp] theorem holds_nil (v : Valuation) : holds v [] = false := rfl

@[simp] theorem holds_cons (v : Valuation) (l : Literal) (c : Clause) :
    holds v (l :: c) = (l.holds v || holds v c) := rfl

theorem holds_iff {v : Valuation} {c : Clause} :
    holds v c = true ↔ ∃ l ∈ c, l.holds v = true := by
  simp [holds]

theorem Known.holds_congr {n : Nat} {c : Clause} {v u : Valuation} (h : Known n c)
    (ha : v.Agree n u) : holds v c = holds u c := by
  induction c with
  | nil => rfl
  | cons l rest ih =>
    rw [known_cons] at h
    rw [holds_cons, holds_cons, h.1.holds_congr ha, ih h.2]

/-- Working the constants out of a clause keeps its meaning; what is dropped always holds. -/
theorem holds_reduce {c : Clause} (v : Valuation) :
    (∀ r, c.reduce = .ok (some r) → holds v r = holds v c) ∧
      (c.reduce = .ok none → holds v c = true) := by
  induction c with
  | nil => simp [reduce]
  | cons l rest ih =>
    simp only [reduce]
    split
    · next h => simp [h]
    · split
      · next h => simpa [h] using ih
      · split
        · simp
        · cases hr : reduce rest with
          | error m => simp [Except.map]
          | ok o =>
            cases o with
            | none => simp [Except.map, ih.2 hr]
            | some r => simp [Except.map, ih.1 r hr]

theorem reduce_of_nonnull {c : Clause} (h : ∀ l ∈ c, l.word ≠ 0) : ∃ o, c.reduce = .ok o := by
  induction c with
  | nil => exact ⟨_, rfl⟩
  | cons l rest ih =>
    rw [List.forall_mem_cons] at h
    obtain ⟨o, ho⟩ := ih h.2
    simp only [reduce]
    split
    · exact ⟨_, rfl⟩
    · split
      · exact ⟨o, ho⟩
      · rw [if_neg h.1, ho]
        exact ⟨_, rfl⟩

theorem Known.reduce_ok {n : Nat} {c : Clause} (h : Known n c) : ∃ o, c.reduce = .ok o :=
  reduce_of_nonnull fun l hl => (h l hl).word_ne_zero

theorem mem_of_reduce {c r : Clause} (h : c.reduce = .ok (some r)) :
    ∀ l ∈ r, l ∈ c ∧ l.isConstant = false := by
  induction c generalizing r with
  | nil =>
    simp only [reduce, Except.ok.injEq, Option.some.injEq] at h
    simp [← h]
  | cons l rest ih =>
    simp only [reduce] at h
    split at h
    · simp at h
    · next hna =>
      split at h
      -- a literal that never holds is left out
      · intro m hm
        exact ⟨List.mem_cons_of_mem _ (ih h m hm).1, (ih h m hm).2⟩
      · next hnn =>
        split at h
        · simp at h
        · cases hr : reduce rest with
          | error e => simp [hr, Except.map] at h
          | ok o =>
            cases o with
            | none => simp [hr, Except.map] at h
            | some s =>
              simp only [hr, Except.map, Option.map_some, Except.ok.injEq, Option.some.injEq] at h
              intro m hm
              rw [← h] at hm
              rcases List.mem_cons.mp hm with rfl | hm
              · exact ⟨List.mem_cons_self, by simp [Literal.isConstant, hna, hnn]⟩
              · exact ⟨List.mem_cons_of_mem _ (ih hr m hm).1, (ih hr m hm).2⟩

/-- The literals of the clause have variables among the first `n`. -/
def Allocated (n : Nat) (c : Clause) : Prop := ∀ l ∈ c, 0 < l.var ∧ l.var ≤ n

instance (n : Nat) (c : Clause) : Decidable (Allocated n c) :=
  inferInstanceAs (Decidable (∀ l ∈ c, 0 < l.var ∧ l.var ≤ n))

theorem Allocated.mono {m n : Nat} {c : Clause} (h : Allocated m c) (hmn : m ≤ n) :
    Allocated n c :=
  fun l hl => ⟨(h l hl).1, Nat.le_trans (h l hl).2 hmn⟩

theorem Known.allocated {n : Nat} {c r : Clause} (h : c.Known n)
    (hr : c.reduce = .ok (some r)) : r.Allocated n := by
  intro l hl
  obtain ⟨hmem, hc⟩ := mem_of_reduce hr l hl
  exact ⟨(h l hmem).var_pos, (h l hmem).var_le hc⟩

end Clause

theorem Valuation.Satisfies.congr {n : Nat} {cs : List Clause} {v u : Valuation}
    (h : v.Satisfies cs) (hk : ∀ c ∈ cs, c.Known n) (ha : v.Agree n u) : u.Satisfies cs :=
  fun c hc => ((hk c hc).holds_congr ha).symm.trans (h c hc)

end Clausify
