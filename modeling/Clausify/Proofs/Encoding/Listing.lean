import Mathlib
import Clausify.Proofs.Encoding.Reading
import Clausify.Proofs.Table

/-!
The mapping lists the steps that were taken. Literals can be entered again but not changed, so the
tables of single-value and order literals hold exactly the entries among the steps; the decoding
tables, which may be overwritten, hold entries only and have an answer for every entered literal.
Main statement: whenever a run of steps comes to its end, the mapping lists what it listed before
and the steps of the run (`Encoder.run_lists`).
-/

namespace Clausify

section Insert

variable {κ α : Type} [BEq κ] [LawfulBEq κ] [Hashable κ] {m : Std.HashMap κ α} {k k' : κ}
  {a a' : α}

theorem of_getElem?_insert (h : (m.insert k a)[k']? = some a') :
    m[k']? = some a' ∨ (k' = k ∧ a' = a) := by
  rw [Std.HashMap.getElem?_insert] at h
  split at h
  · next hk => exact .inr ⟨(eq_of_beq hk).symm, (Option.some_inj.mp h).symm⟩
  · exact .inl h

theorem getElem?_insert_iff (h : ∀ b, m[k]? = some b → b = a) :
    (m.insert k a)[k']? = some a' ↔ m[k']? = some a' ∨ (k' = k ∧ a' = a) := by
  refine ⟨of_getElem?_insert, ?_⟩
  rw [Std.HashMap.getElem?_insert]
  rintro (hold | ⟨rfl, rfl⟩)
  · split
    · next hk =>
      rw [← eq_of_beq hk] at hold
      rw [h a' hold]
    · exact hold
  · simp

theorem exists_getElem?_insert (h : (∃ b, m[k']? = some b) ∨ k' = k) :
    ∃ b, (m.insert k a)[k']? = some b := by
  rw [Std.HashMap.getElem?_insert]
  split
  · exact ⟨a, rfl⟩
  · next hk =>
    refine h.resolve_right ?_
    rintro rfl
    simp at hk

end Insert

namespace Mapping

def boundTable (m : Mapping) : OrderTable → Std.HashMap Literal Key
  | .minimum => m.minimum
  | .middle => m.middle
  | .maximum => m.maximum

/-- The tables of the mapping are those of the steps. -/
structure Lists (m : Mapping) (T : List Step) : Prop where
  direct : ∀ k l, m.direct[k]? = some l ↔ .direct k l ∈ T
  order : ∀ k l, m.order[k]? = some l ↔ .order k l ∈ T
  domains : ∀ x d, m.domains[x]? = some d ↔ .domain x d ∈ T
  decoding : ∀ l k, m.decoding[l]? = some k → .direct k l ∈ T
  decoded : ∀ k l, .direct k l ∈ T → l.isConstant = false → ∃ k', m.decoding[l]? = some k'
  bound : ∀ t l k, (m.boundTable t)[l]? = some k → .bound t k l ∈ T
  bounded : ∀ t k l, .bound t k l ∈ T → ∃ k', (m.boundTable t)[l]? = some k'
  hasDirect : ∀ x, (m.representation x).direct = true →
    (∃ k l, k.var = x ∧ .direct k l ∈ T) ∨ ∃ d, .domain x d ∈ T ∧ d.size = 0
  hasOrder : ∀ x, (m.representation x).order = true →
    (∃ k l, k.var = x ∧ .order k l ∈ T) ∨ ∃ d, .domain x d ∈ T ∧ (d.size = 0 ∨ d.size = 1)

theorem lists_empty : Lists {} [] := by
  constructor <;> simp [boundTable, representation]
  intro t l k
  cases t <;> simp

/-! ## Tables that a step leaves alone -/

section Append

variable {m m' : Mapping} {T : List Step} {s : Step}

theorem mem_append_of_ne {u : Step} (hu : u ≠ s) : u ∈ T ++ [s] ↔ u ∈ T := by
  rw [List.mem_append, List.mem_singleton, or_iff_left hu]

theorem Lists.direct_append (h : m.Lists T) (hm : m'.direct = m.direct)
    (hs : ∀ k l, .direct k l ≠ s) (k : Key) (l : Literal) :
    m'.direct[k]? = some l ↔ .direct k l ∈ T ++ [s] := by
  rw [hm, h.direct, mem_append_of_ne (hs k l)]

theorem Lists.order_append (h : m.Lists T) (hm : m'.order = m.order)
    (hs : ∀ k l, .order k l ≠ s) (k : Key) (l : Literal) :
    m'.order[k]? = some l ↔ .order k l ∈ T ++ [s] := by
  rw [hm, h.order, mem_append_of_ne (hs k l)]

theorem Lists.domains_append (h : m.Lists T) (hm : m'.domains = m.domains)
    (hs : ∀ x d, .domain x d ≠ s) (x : String) (d : Domain) :
    m'.domains[x]? = some d ↔ .domain x d ∈ T ++ [s] := by
  rw [hm, h.domains, mem_append_of_ne (hs x d)]

theorem Lists.decoding_append (h : m.Lists T) (hm : m'.decoding = m.decoding) (l : Literal)
    (k : Key) (hk : m'.decoding[l]? = some k) : .direct k l ∈ T ++ [s] :=
  List.mem_append_left _ (h.decoding l k (hm ▸ hk))

theorem Lists.decoded_append (h : m.Lists T) (hm : m'.decoding = m.decoding)
    (hs : ∀ k l, .direct k l ≠ s) (k : Key) (l : Literal) (hl : .direct k l ∈ T ++ [s])
    (hc : l.isConstant = false) : ∃ k', m'.decoding[l]? = some k' := by
  rw [hm]
  exact h.decoded k l ((mem_append_of_ne (hs k l)).mp hl) hc

theorem Lists.bound_append (h : m.Lists T) (hm : ∀ t, m'.boundTable t = m.boundTable t)
    (t : OrderTable) (l : Literal) (k : Key) (hk : (m'.boundTable t)[l]? = some k) :
    .bound t k l ∈ T ++ [s] :=
  List.mem_append_left _ (h.bound t l k (hm t ▸ hk))

theorem Lists.bounded_append (h : m.Lists T) (hm : ∀ t, m'.boundTable t = m.boundTable t)
    (hs : ∀ t k l, .bound t k l ≠ s) (t : OrderTable) (k : Key) (l : Literal)
    (hl : .bound t k l ∈ T ++ [s]) : ∃ k', (m'.boundTable t)[l]? = some k' := by
  rw [hm]
  exact h.bounded t k l ((mem_append_of_ne (hs t k l)).mp hl)

theorem Lists.hasDirect_append (h : m.Lists T) (s : Step) {x : String}
    (hx : (m.representation x).direct = true) :
    (∃ k l, k.var = x ∧ .direct k l ∈ T ++ [s]) ∨ ∃ d, .domain x d ∈ T ++ [s] ∧ d.size = 0 := by
  rcases h.hasDirect x hx with ⟨k, l, hk, hmem⟩ | ⟨d, hmem, hd⟩
  · exact .inl ⟨k, l, hk, List.mem_append_left _ hmem⟩
  · exact .inr ⟨d, List.mem_append_left _ hmem, hd⟩

theorem Lists.hasOrder_append (h : m.Lists T) (s : Step) {x : String}
    (hx : (m.representation x).order = true) :
    (∃ k l, k.var = x ∧ .order k l ∈ T ++ [s]) ∨
      ∃ d, .domain x d ∈ T ++ [s] ∧ (d.size = 0 ∨ d.size = 1) := by
  rcases h.hasOrder x hx with ⟨k, l, hk, hmem⟩ | ⟨d, hmem, hd⟩
  · exact .inl ⟨k, l, hk, List.mem_append_left _ hmem⟩
  · exact .inr ⟨d, List.mem_append_left _ hmem, hd⟩

theorem Lists.append_silent (h : m.Lists T) (hs : s.Silent) : m.Lists (T ++ [s]) where
  direct := h.direct_append rfl fun k l heq => (heq ▸ hs : (Step.direct k l).Silent)
  order := h.order_append rfl fun k l heq => (heq ▸ hs : (Step.order k l).Silent)
  domains := h.domains_append rfl fun x d heq => (heq ▸ hs : (Step.domain x d).Silent)
  decoding := h.decoding_append rfl
  decoded := h.decoded_append rfl fun k l heq => (heq ▸ hs : (Step.direct k l).Silent)
  bound := h.bound_append fun _ => rfl
  bounded := h.bounded_append (fun _ => rfl) fun t k l heq =>
    (heq ▸ hs : (Step.bound t k l).Silent)
  hasDirect _ := h.hasDirect_append s
  hasOrder _ := h.hasOrder_append s

theorem Lists.append_all_silent {U : List Step} (h : m.Lists T) (hU : ∀ s ∈ U, s.Silent) :
    m.Lists (T ++ U) := by
  induction U using List.reverseRecOn with
  | nil => rwa [List.append_nil]
  | append_singleton U s ih =>
    rw [List.forall_mem_append, List.forall_mem_singleton] at hU
    rw [← List.append_assoc]
    exact (ih hU.1).append_silent hU.2

theorem lists_of_silent (hT : ∀ s ∈ T, s.Silent) : Lists {} T :=
  lists_empty.append_all_silent hT

end Append

/-! ## Entries -/

theorem eq_of_conflict?_eq_none {table : Std.HashMap Key Literal} {k : Key} {l m : Literal}
    (h : conflict? table k l = none) (hm : table[k]? = some m) : m = l := by
  simpa [conflict?, hm, Option.filter] using h

theorem representation_represent (m : Mapping) (x y : String) (r : Representation) :
    (m.represent x r).representation y =
      if x = y then (m.representation x).union r else m.representation y := by
  simp only [represent, representation, Std.HashMap.getElem?_insert, beq_iff_eq]
  split <;> rfl

/-- A single-value literal that is entered leaves the mapping with its entry, and adds to the
representations of its variable. -/
theorem setDirect_eq_ok {m m' : Mapping} {key : Key} {literal : Literal}
    (h : setDirect key literal m = .ok () m') :
    conflict? m.direct key literal = none ∧
      m' = { ({ m with direct := m.direct.insert key literal }.represent key.var .directOnly) with
        decoding := if literal.isConstant then m.decoding else m.decoding.insert literal key } := by
  simp only [setDirect] at h
  split at h
  · simp at h
  next hfree =>
  refine ⟨hfree, ?_⟩
  split at h
  · next hc =>
    rw [if_pos hc]
    exact (EStateM.Result.ok.inj h).2.symm
  · next hc =>
    rw [if_neg hc]
    exact (EStateM.Result.ok.inj h).2.symm

theorem representation_setDirect {m m' : Mapping} {key : Key} {literal : Literal}
    (h : setDirect key literal m = .ok () m') (y : String) :
    m'.representation y = if key.var = y then (m.representation key.var).union .directOnly
      else m.representation y := by
  rw [(setDirect_eq_ok h).2]
  exact representation_represent { m with direct := m.direct.insert key literal } _ _ _

theorem setOrder_eq_ok {m m' : Mapping} {key : Key} {literal : Literal}
    (h : setOrder key literal m = .ok () m') :
    conflict? m.order key literal = none ∧
      m' = { m with order := m.order.insert key literal }.represent key.var .orderOnly := by
  simp only [setOrder] at h
  split at h
  · simp at h
  · next hfree => exact ⟨hfree, (EStateM.Result.ok.inj h).2.symm⟩

theorem representation_setOrder {m m' : Mapping} {key : Key} {literal : Literal}
    (h : setOrder key literal m = .ok () m') (y : String) :
    m'.representation y = if key.var = y then (m.representation key.var).union .orderOnly
      else m.representation y := by
  rw [(setOrder_eq_ok h).2]
  exact representation_represent { m with order := m.order.insert key literal } _ _ _

theorem Lists.setDirect {m m' : Mapping} {T : List Step} {key : Key} {literal : Literal}
    (h : m.Lists T) (hset : setDirect key literal m = .ok () m') :
    m'.Lists (T ++ [.direct key literal]) := by
  have hrep := representation_setDirect hset
  obtain ⟨hfree, hm'⟩ := setDirect_eq_ok hset
  -- under its key a literal may be entered again, but no other one may
  have hfree' : ∀ l, m.direct[key]? = some l → l = literal :=
    fun l hl => eq_of_conflict?_eq_none hfree hl
  have hbound : ∀ t, m'.boundTable t = m.boundTable t := by
    intro t
    rw [hm']
    cases t <;> rfl
  exact {
    direct := by
      intro k l
      rw [show m'.direct = m.direct.insert key literal by rw [hm']; rfl,
        getElem?_insert_iff hfree', h.direct]
      simp
    order := h.order_append (by rw [hm']; rfl) (by simp)
    domains := h.domains_append (by rw [hm']; rfl) (by simp)
    decoding := by
      intro l k hl
      rw [hm'] at hl
      simp only at hl
      -- constants are not entered for decoding
      split at hl
      · exact List.mem_append_left _ (h.decoding l k hl)
      · rcases of_getElem?_insert hl with hl | ⟨rfl, rfl⟩
        · exact List.mem_append_left _ (h.decoding l k hl)
        · exact List.mem_append_right _ (List.mem_singleton_self _)
    decoded := by
      intro k l hl hc
      rw [hm']
      simp only
      rcases List.mem_append.mp hl with hl | hl
      · split
        · exact h.decoded k l hl hc
        · exact exists_getElem?_insert (.inl (h.decoded k l hl hc))
      · simp only [List.mem_singleton, Step.direct.injEq] at hl
        rw [← hl.2, hc]
        exact exists_getElem?_insert (.inr rfl)
    bound := h.bound_append hbound
    bounded := h.bounded_append hbound (by simp)
    hasDirect := by
      intro x hx
      rw [hrep] at hx
      split at hx
      · next heq =>
        exact .inl ⟨key, literal, heq, List.mem_append_right _ (List.mem_singleton_self _)⟩
      · exact h.hasDirect_append _ hx
    hasOrder := by
      intro x hx
      rw [hrep] at hx
      split at hx
      · next heq =>
        subst heq
        exact h.hasOrder_append _
          (by simpa [Representation.union, Representation.directOnly] using hx)
      · exact h.hasOrder_append _ hx }

theorem Lists.setOrder {m m' : Mapping} {T : List Step} {key : Key} {literal : Literal}
    (h : m.Lists T) (hset : setOrder key literal m = .ok () m') :
    m'.Lists (T ++ [.order key literal]) := by
  have hrep := representation_setOrder hset
  obtain ⟨hfree, hm'⟩ := setOrder_eq_ok hset
  have hfree' : ∀ l, m.order[key]? = some l → l = literal :=
    fun l hl => eq_of_conflict?_eq_none hfree hl
  have hbound : ∀ t, m'.boundTable t = m.boundTable t := by
    intro t
    rw [hm']
    cases t <;> rfl
  have hdecoding : m'.decoding = m.decoding := by
    rw [hm']
    rfl
  exact {
    direct := h.direct_append (by rw [hm']; rfl) (by simp)
    order := by
      intro k l
      rw [show m'.order = m.order.insert key literal by rw [hm']; rfl,
        getElem?_insert_iff hfree', h.order]
      simp
    domains := h.domains_append (by rw [hm']; rfl) (by simp)
    decoding := h.decoding_append hdecoding
    decoded := h.decoded_append hdecoding (by simp)
    bound := h.bound_append hbound
    bounded := h.bounded_append hbound (by simp)
    hasDirect := by
      intro x hx
      rw [hrep] at hx
      split at hx
      · next heq =>
        subst heq
        exact h.hasDirect_append _
          (by simpa [Representation.union, Representation.orderOnly] using hx)
      · exact h.hasDirect_append _ hx
    hasOrder := by
      intro x hx
      rw [hrep] at hx
      split at hx
      · next heq =>
        exact .inl ⟨key, literal, heq, List.mem_append_right _ (List.mem_singleton_self _)⟩
      · exact h.hasOrder_append _ hx }

theorem Lists.setBound {m m' : Mapping} {T : List Step} {table : OrderTable} {key : Key}
    {literal : Literal} (h : m.Lists T) (hset : setBound table key literal m = .ok () m') :
    m'.Lists (T ++ [.bound table key literal]) := by
  -- of all tables only the one for decoding bounds is touched
  have hsame : m'.direct = m.direct ∧ m'.order = m.order ∧ m'.domains = m.domains ∧
      m'.decoding = m.decoding ∧ m'.representations = m.representations := by
    cases table <;> simp only [Mapping.setBound] at hset <;>
      rw [← (EStateM.Result.ok.inj hset).2] <;> simp
  obtain ⟨hdirect, horder, hdomains, hdecoding, hrepresentations⟩ := hsame
  have hrep : ∀ x, m'.representation x = m.representation x := by
    intro x
    rw [representation, hrepresentations]
    rfl
  have hbound : ∀ t, m'.boundTable t =
      if t = table then (m.boundTable t).insert literal key else m.boundTable t := by
    intro t
    cases table <;> simp only [Mapping.setBound] at hset <;>
      rw [← (EStateM.Result.ok.inj hset).2] <;> cases t <;> rfl
  exact {
    direct := h.direct_append hdirect (by simp)
    order := h.order_append horder (by simp)
    domains := h.domains_append hdomains (by simp)
    decoding := h.decoding_append hdecoding
    decoded := h.decoded_append hdecoding (by simp)
    bound := by
      intro t l k hk
      rw [hbound] at hk
      split at hk
      · next heq =>
        rcases of_getElem?_insert hk with hk | ⟨rfl, rfl⟩
        · exact List.mem_append_left _ (h.bound t l k hk)
        · rw [heq]
          exact List.mem_append_right _ (List.mem_singleton_self _)
      · exact List.mem_append_left _ (h.bound t l k hk)
    bounded := by
      intro t k l hk
      rw [hbound]
      rcases List.mem_append.mp hk with hk | hk
      · split
        · exact exists_getElem?_insert (.inl (h.bounded t k l hk))
        · exact h.bounded t k l hk
      · simp only [List.mem_singleton, Step.bound.injEq] at hk
        rw [if_pos hk.1]
        exact exists_getElem?_insert (.inr hk.2.2)
    hasDirect := fun x hx => h.hasDirect_append _ (hrep x ▸ hx)
    hasOrder := fun x hx => h.hasOrder_append _ (hrep x ▸ hx) }

theorem setDomain_eq_ok {m m' : Mapping} {x : String} {d : Domain}
    (h : Mapping.setDomain x d m = .ok () m') :
    m.domains[x]? = none ∧ ∃ r, (r.direct = true → d.size = 0) ∧
      (r.order = true → d.size = 0 ∨ d.size = 1) ∧
      (m' = { m with domains := m.domains.insert x d } ∨
        m' = { m with
          domains := m.domains.insert x d
          representations := m.representations.insert x r }) := by
  simp only [Mapping.setDomain] at h
  split at h
  · simp at h
  next hfree =>
  refine ⟨by simpa [isMapped] using hfree, ?_⟩
  split at h
  · next h0 => exact ⟨.both, fun _ => h0, fun _ => .inl h0, .inr (EStateM.Result.ok.inj h).2.symm⟩
  · split at h
    · next h1 =>
      exact ⟨.orderOnly, by simp [Representation.orderOnly], fun _ => .inr h1,
        .inr (EStateM.Result.ok.inj h).2.symm⟩
    · exact ⟨.none, by simp [Representation.none], by simp [Representation.none],
        .inl (EStateM.Result.ok.inj h).2.symm⟩

theorem Lists.setDomain {m m' : Mapping} {T : List Step} {name : String} {domain : Domain}
    (h : m.Lists T) (hset : Mapping.setDomain name domain m = .ok () m') :
    m'.Lists (T ++ [.domain name domain]) := by
  obtain ⟨hfree, r, hr0, hr1, hm'⟩ := setDomain_eq_ok hset
  -- besides the domains, at most the representations of the name itself change
  have hsame : m'.direct = m.direct ∧ m'.order = m.order ∧
      m'.domains = m.domains.insert name domain ∧ m'.decoding = m.decoding ∧
      (∀ t, m'.boundTable t = m.boundTable t) ∧
      ∀ x, m'.representation x = m.representation x ∨ (x = name ∧ m'.representation x = r) := by
    rcases hm' with rfl | rfl
    · exact ⟨rfl, rfl, rfl, rfl, fun t => by cases t <;> rfl, fun x => .inl rfl⟩
    · refine ⟨rfl, rfl, rfl, rfl, fun t => by cases t <;> rfl, fun x => ?_⟩
      simp only [representation, Std.HashMap.getElem?_insert, beq_iff_eq]
      split
      · next heq => exact .inr ⟨heq.symm, rfl⟩
      · exact .inl rfl
  obtain ⟨hdirect, horder, hdomains, hdecoding, hbound, hrep⟩ := hsame
  exact {
    direct := h.direct_append hdirect (by simp)
    order := h.order_append horder (by simp)
    domains := by
      intro x d
      rw [hdomains, getElem?_insert_iff (by simp [hfree]), h.domains]
      simp
    decoding := h.decoding_append hdecoding
    decoded := h.decoded_append hdecoding (by simp)
    bound := h.bound_append hbound
    bounded := h.bounded_append hbound (by simp)
    hasDirect := by
      intro x hx
      rcases hrep x with heq | ⟨rfl, heq⟩ <;> rw [heq] at hx
      · exact h.hasDirect_append _ hx
      · exact .inr ⟨domain, List.mem_append_right _ (List.mem_singleton_self _), hr0 hx⟩
    hasOrder := by
      intro x hx
      rcases hrep x with heq | ⟨rfl, heq⟩ <;> rw [heq] at hx
      · exact h.hasOrder_append _ hx
      · exact .inr ⟨domain, List.mem_append_right _ (List.mem_singleton_self _), hr1 hx⟩ }

end Mapping

/-! ## Runs -/

namespace Encoder

variable {W : Type} {e e' : Encoder W} {T U : List Step} {s : Step}

theorem onWriter_eq_ok {α : Type} {action : Run W α} {a : α} :
    onWriter action e = .ok a e' ↔
      ∃ w, action e.writer = .ok a w ∧ e' = { e with writer := w } := by
  cases e with
  | mk writer mapping shapes journal =>
    simp only [onWriter]
    cases haction : action writer with
    | ok b w => simp [eq_comm]
    | error stop w => simp

theorem onMapping_eq_ok {change : Mapping.Change} :
    onMapping change e = .ok () e' ↔
      ∃ m, change e.mapping = .ok () m ∧ e' = { e with mapping := m } := by
  cases e with
  | mk writer mapping shapes journal =>
    simp only [onMapping]
    cases hchange : change mapping with
    | ok b m => simp [eq_comm]
    | error stop m => simp

variable [ClauseWriter W]

theorem take_lists (h : e.mapping.Lists T) (ht : take s e = .ok () e') :
    e'.mapping.Lists (T ++ [s]) := by
  cases s with
  | emit emission =>
    -- what is written has no part in the tables
    have hmap : e'.mapping = e.mapping := by
      cases emission with
      | fresh => rw [← (EStateM.Result.ok.inj ht).2]
      | clause c =>
        obtain ⟨w, -, rfl⟩ := onWriter_eq_ok.mp ht
        rfl
    rw [hmap]
    exact h.append_silent trivial
  | comment text =>
    obtain ⟨w, -, rfl⟩ := onWriter_eq_ok.mp ht
    exact h.append_silent trivial
  | shape name shape =>
    rw [← (EStateM.Result.ok.inj ht).2]
    exact h.append_silent trivial
  | note entry =>
    rw [← (EStateM.Result.ok.inj ht).2]
    exact h.append_silent trivial
  | domain name domain =>
    obtain ⟨m, hm, rfl⟩ := onMapping_eq_ok.mp ht
    exact h.setDomain hm
  | direct key literal =>
    obtain ⟨m, hm, rfl⟩ := onMapping_eq_ok.mp ht
    exact h.setDirect hm
  | order key literal =>
    obtain ⟨m, hm, rfl⟩ := onMapping_eq_ok.mp ht
    exact h.setOrder hm
  | bound table key literal =>
    obtain ⟨m, hm, rfl⟩ := onMapping_eq_ok.mp ht
    exact h.setBound hm
  | stop reason => simp [take] at ht

theorem run_cons_eq_ok :
    run (s :: U) e = .ok () e' ↔ ∃ next, take s e = .ok () next ∧ run U next = .ok () e' := by
  simp only [run]
  cases take s e with
  | ok u next => simp
  | error stop left => simp

/-- What one step keeps, with the step added, a run keeps with its steps added. -/
theorem run_induction {P : Encoder W → List Step → Prop}
    (hstep : ∀ e e' T s, P e T → take s e = .ok () e' → P e' (T ++ [s]))
    (h : P e T) (hrun : run U e = .ok () e') : P e' (T ++ U) := by
  induction U generalizing e T with
  | nil =>
    rw [List.append_nil, ← (EStateM.Result.ok.inj hrun).2]
    exact h
  | cons s rest ih =>
    obtain ⟨next, htake, hrest⟩ := run_cons_eq_ok.mp hrun
    have := ih (hstep e next T s h htake) hrest
    rwa [List.append_assoc, List.singleton_append] at this

theorem run_no_stop (hrun : run U e = .ok () e') : ∀ r, Step.stop r ∉ U := by
  refine run_induction (T := []) (P := fun _ T => ∀ r, Step.stop r ∉ T) ?_ (by simp) hrun
  intro e e' T s h ht r hr
  rcases List.mem_append.mp hr with hr | hr
  · exact h r hr
  · rw [← List.mem_singleton.mp hr] at ht
    simp [take] at ht

theorem take_mapping {s : Step} (hs : s.Silent) (ht : take s e = .ok () e') :
    e'.mapping = e.mapping := by
  cases s with
  | emit emission =>
    cases emission with
    | fresh => rw [← (EStateM.Result.ok.inj ht).2]
    | clause c =>
      obtain ⟨w, -, rfl⟩ := onWriter_eq_ok.mp ht
      rfl
  | comment text =>
    obtain ⟨w, -, rfl⟩ := onWriter_eq_ok.mp ht
    rfl
  | shape name shape => rw [← (EStateM.Result.ok.inj ht).2]
  | note entry =>
    rw [← (EStateM.Result.ok.inj ht).2]
    rfl
  | stop reason => simp [take] at ht
  | _ => exact hs.elim

theorem run_mapping (hU : ∀ s ∈ U, s.Silent) (hrun : run U e = .ok () e') :
    e'.mapping = e.mapping := by
  induction U generalizing e with
  | nil => rw [(EStateM.Result.ok.inj hrun).2]
  | cons s rest ih =>
    rw [List.forall_mem_cons] at hU
    obtain ⟨e₁, htake, hrest⟩ := run_cons_eq_ok.mp hrun
    rw [ih hU.2 hrest, take_mapping hU.1 htake]

/-- The shapes on record after a step. -/
def recordIn (shapes : Table String Shape) : Step → Table String Shape
  | .shape name shape => Table.set name shape shapes
  | _ => shapes

/-- Only the step that enters a shape touches the record of shapes. -/
theorem take_shapes (ht : take s e = .ok () e') : e'.shapes = recordIn e.shapes s := by
  cases s with
  | emit emission =>
    cases emission with
    | fresh => rw [← (EStateM.Result.ok.inj ht).2]; rfl
    | clause c =>
      obtain ⟨w, -, rfl⟩ := onWriter_eq_ok.mp ht
      rfl
  | comment text =>
    obtain ⟨w, -, rfl⟩ := onWriter_eq_ok.mp ht
    rfl
  | shape name shape => rw [← (EStateM.Result.ok.inj ht).2]; rfl
  | note entry => rw [← (EStateM.Result.ok.inj ht).2]; rfl
  | stop reason => simp [take] at ht
  | _ =>
    obtain ⟨m, -, rfl⟩ := onMapping_eq_ok.mp ht
    rfl

/-- The shapes on record are those that were there before or are entered by the steps. -/
theorem run_shapes (hrun : run U e = .ok () e') {x : String} :
    (∃ shape, e'.shapes.lookup x = some shape) ↔
      (∃ old, e.shapes.lookup x = some old) ∨ ∃ new, Step.shape x new ∈ U := by
  induction U generalizing e with
  | nil =>
    obtain rfl := (EStateM.Result.ok.inj hrun).2
    simp
  | cons s rest ih =>
    obtain ⟨next, htake, hrest⟩ := run_cons_eq_ok.mp hrun
    have hnext : (∃ shape, next.shapes.lookup x = some shape) ↔
        (∃ old, e.shapes.lookup x = some old) ∨ ∃ new, Step.shape x new = s := by
      rw [take_shapes htake]
      cases s with
      | shape name shape =>
        by_cases hname : name = x
        · simp [recordIn, hname]
        · simp [recordIn, hname, Ne.symm hname]
      | _ => simp [recordIn]
    rw [ih hrest, hnext, or_assoc]
    simp only [List.mem_cons, exists_or]

/-- A run that comes to its end has every entry of its steps in the mapping, and nothing else. -/
theorem run_lists (h : e.mapping.Lists T) (hrun : run U e = .ok () e') :
    e'.mapping.Lists (T ++ U) := by
  refine run_induction (P := fun e T => e.mapping.Lists T) ?_ h hrun
  intro e e' T s h ht
  exact take_lists h ht

end Encoder

end Clausify
