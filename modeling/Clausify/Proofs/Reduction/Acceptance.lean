import Mathlib
import Clausify.Proofs.Encoding.Scope
import Clausify.Proofs.Reduction.Beside

/-!
Encodings that go through. An open file without limit or context accepts every clause in scope, and
the mapping every literal under a free key; so steps are taken to their end unless the file runs
out of literals on the way (`run_accepted`). Variables are entered under free names and get the
literals that the problem needs of them (`declaration_accepted`), so that no constraint is refused
but one that counts and is reified (`posting_outcome`).
-/

namespace Clausify

/-! ## Sets of representations -/

namespace Representation

variable {r s t : Representation}

theorem has_iff : r.has s = true ↔
    (s.direct = true → r.direct = true) ∧ (s.order = true → r.order = true) := by
  obtain ⟨d, o⟩ := r
  obtain ⟨d', o'⟩ := s
  cases d <;> cases o <;> cases d' <;> cases o' <;> decide

theorem has_union_left (h : r.has s = true) : (r.union t).has s = true := by
  rw [has_iff] at h ⊢
  exact ⟨fun hs => by simp [union, h.1 hs], fun hs => by simp [union, h.2 hs]⟩

theorem has_union_right (h : t.has s = true) : (r.union t).has s = true := by
  rw [has_iff] at h ⊢
  exact ⟨fun hs => by simp [union, h.1 hs], fun hs => by simp [union, h.2 hs]⟩

/-- A set of literals has another when it has its single-value literals and its order literals. -/
theorem has_of_kinds (hdirect : s.direct = true → r.has .directOnly = true)
    (horder : s.order = true → r.has .orderOnly = true) : r.has s = true := by
  rw [has_iff]
  exact ⟨fun h => (has_iff.mp (hdirect h)).1 rfl, fun h => (has_iff.mp (horder h)).2 rfl⟩

theorem both_has (r : Representation) : both.has r = true :=
  has_iff.mpr ⟨fun _ => rfl, fun _ => rfl⟩

theorem has_refl (r : Representation) : r.has r = true := has_iff.mpr ⟨id, id⟩

theorem has_trans (h : r.has s = true) (h' : s.has t = true) : r.has t = true := by
  rw [has_iff] at h h' ⊢
  exact ⟨h.1 ∘ h'.1, h.2 ∘ h'.2⟩

end Representation

theorem Problem.needsOf_has {p : Problem} {x : String} {r : Representation}
    (h : (x, r) ∈ p.wants) : (p.needsOf x).has r = true := by
  have hfold : ∀ (wants : List (String × Representation)) (s : Representation),
      (x, r) ∈ wants ∨ s.has r = true →
      (wants.foldl (fun r want => if want.1 = x then r.union want.2 else r) s).has r = true := by
    intro wants
    induction wants with
    | nil => simp
    | cons want rest ih =>
      intro s hs
      rw [List.foldl_cons]
      apply ih
      rcases hs with hs | hs
      · rcases List.mem_cons.mp hs with rfl | hs
        · right
          rw [if_pos rfl]
          exact Representation.has_union_right (Representation.has_refl r)
        · exact .inl hs
      · right
        split
        · exact Representation.has_union_left hs
        · exact hs
  exact hfold _ _ (.inl h)

/-! ## The mapping -/

namespace Mapping

variable {m : Mapping} {k : Key} {l : Literal}

theorem setDirect_ok (h : m.direct[k]? = none) :
    ∃ m', setDirect k l m = .ok () m' ∧ m'.direct = m.direct.insert k l ∧ m'.order = m.order := by
  have hfree : conflict? m.direct k l = none := by simp [conflict?, h]
  simp only [setDirect, hfree]
  split
  · exact ⟨_, rfl, rfl, rfl⟩
  · exact ⟨_, rfl, rfl, rfl⟩

theorem setOrder_ok (h : m.order[k]? = none) :
    ∃ m', setOrder k l m = .ok () m' ∧ m'.order = m.order.insert k l ∧ m'.direct = m.direct := by
  have hfree : conflict? m.order k l = none := by simp [conflict?, h]
  simp only [setOrder, hfree]
  exact ⟨_, rfl, rfl, rfl⟩

theorem setBound_ok (table : OrderTable) :
    ∃ m', setBound table k l m = .ok () m' ∧ m'.direct = m.direct ∧ m'.order = m.order := by
  cases table <;> exact ⟨_, rfl, rfl, rfl⟩

theorem setDomain_ok {x : String} (d : Domain) (h : m.domains[x]? = none) :
    ∃ m', setDomain x d m = .ok () m' ∧ m'.direct = m.direct ∧ m'.order = m.order := by
  have hfree : m.isMapped x = false := by simpa [isMapped] using h
  simp only [setDomain, hfree, Bool.false_eq_true, if_false]
  split
  · exact ⟨_, rfl, rfl, rfl⟩
  · split
    · exact ⟨_, rfl, rfl, rfl⟩
    · exact ⟨_, rfl, rfl, rfl⟩

/-- A domain that is entered answers for its variable if it leaves no choice, and for no other. -/
theorem representation_setDomain {m' : Mapping} {x : String} {d : Domain}
    (h : setDomain x d m = .ok () m') :
    (∀ y, x ≠ y → m'.representation y = m.representation y) ∧
      (d.size = 0 → m'.representation x = .both) ∧
      (d.size = 1 → m'.representation x = .orderOnly) := by
  simp only [setDomain] at h
  split at h
  · simp at h
  split at h
  · next h0 =>
    rw [← (EStateM.Result.ok.inj h).2]
    refine ⟨fun y hy => ?_, fun _ => by simp [representation], fun h1 => by simp [h0] at h1⟩
    simp [representation, Std.HashMap.getElem?_insert, hy]
  next h0 =>
  split at h
  · rw [← (EStateM.Result.ok.inj h).2]
    refine ⟨fun y hy => ?_, fun h0' => absurd h0' h0, fun _ => by simp [representation]⟩
    simp [representation, Std.HashMap.getElem?_insert, hy]
  · next h1 =>
    rw [← (EStateM.Result.ok.inj h).2]
    exact ⟨fun _ _ => rfl, fun h0' => absurd h0' h0, fun h1' => absurd h1' h1⟩

end Mapping

/-! ## Files that accept what is in scope -/

/-- The file is open, without context or limit. -/
structure Instance.Willing (i : Instance) : Prop where
  isOpen : i.isOpen = true
  context : i.context = []
  unlimited : i.options.clauseLimit = 0

namespace Instance.Willing

variable {i i' : Instance}

theorem writes {ls : List Dimacs.Line} (h : i.Willing) (hw : i.Writes i' ls) : i'.Willing where
  isOpen := hw.isOpen.trans h.isOpen
  context := by rw [hw.same]; exact h.context
  unlimited := by rw [hw.same]; exact h.unlimited

theorem addClause (h : i.Willing) {n : Nat} {c : Clause} (hc : c.Known n) :
    Instance.addClause c i = .ok () (left (Instance.addClause c i)) := by
  obtain ⟨o, ho⟩ := hc.reduce_ok
  have hreduce : Clause.reduce (i.context ++ c) = .ok o := by rw [h.context]; exact ho
  exact addClause_ok h.isOpen hreduce (.inl h.unlimited)

theorem addComment (h : i.Willing) (text : String) :
    Instance.addComment text i = .ok () (left (Instance.addComment text i)) := by
  obtain ⟨pending, hpending⟩ := Option.isSome_iff_exists.mp h.isOpen
  simp only [Instance.addComment, Instance.writeText, hpending]
  rfl

end Instance.Willing

namespace Reduction

open Step

/-- The file that is left has run out of literals for its variables. -/
def Full (result : EStateM.Result Stop (Encoder Instance) Unit) : Prop :=
  Literal.limit ≤ (fileLeft result).variableCount

theorem full_of_le {x : Run (Encoder Instance) Unit} {e : Encoder Instance}
    (hx : Keeps (fun i => Literal.limit ≤ i.variableCount) x)
    (h : Literal.limit ≤ e.variableCount) : Full (x e) :=
  hx e h

/-- Neither a stop nor a new domain: the step is refused for its literals only. -/
def Plain : Step → Prop
  | .stop _ | .domain _ _ => False
  | _ => True

/-- Nothing stands against the steps but a lack of literals. -/
structure Clear (e : Encoder Instance) (U : List Step) : Prop where
  willing : e.writer.Willing
  plain : ∀ s ∈ U, Plain s
  inScope : Step.Scoped e.variableCount U
  direct : (directKeys U).Nodup
  order : (orderKeys U).Nodup
  freeDirect : ∀ k ∈ directKeys U, e.mapping.direct[k]? = none
  freeOrder : ∀ k ∈ orderKeys U, e.mapping.order[k]? = none

section Steps

variable {e e' : Encoder Instance} {s : Step} {rest U : List Step}

theorem Clear.next (h : Clear e (s :: rest)) (hwilling : e'.writer.Willing)
    (hscoped : Step.Scoped e'.variableCount rest)
    (hdirect : ∀ k ∈ directKeys rest, k ∉ directKeys [s] → e.mapping.direct[k]? = none →
      e'.mapping.direct[k]? = none)
    (horder : ∀ k ∈ orderKeys rest, k ∉ orderKeys [s] → e.mapping.order[k]? = none →
      e'.mapping.order[k]? = none) : Clear e' rest := by
  have hsplit : s :: rest = [s] ++ rest := rfl
  have hd := h.direct
  have ho := h.order
  rw [hsplit, directKeys_append, List.nodup_append] at hd
  rw [hsplit, orderKeys_append, List.nodup_append] at ho
  refine ⟨hwilling, fun t ht => h.plain t (List.mem_cons_of_mem _ ht), hscoped, hd.2.1, ho.2.1,
    fun k hk => ?_, fun k hk => ?_⟩
  · refine hdirect k hk (fun hs => hd.2.2 k hs k hk rfl) (h.freeDirect k ?_)
    rw [hsplit, directKeys_append]
    exact List.mem_append_right _ hk
  · refine horder k hk (fun hs => ho.2.2 k hs k hk rfl) (h.freeOrder k ?_)
    rw [hsplit, orderKeys_append]
    exact List.mem_append_right _ hk

theorem Clear.writes (h : Clear e (s :: rest)) {w : Instance} {ls : List Dimacs.Line}
    (hw : e.writer.Writes w ls) (hscoped : Step.Scoped e.variableCount rest) :
    Clear { e with writer := w } rest := by
  refine h.next (h.willing.writes hw) ?_ (fun _ _ _ hk => hk) fun _ _ _ hk => hk
  have hcount : w.variableCount = e.writer.variableCount := hw.variableCount
  show Step.Scoped w.variableCount rest
  rwa [hcount]

theorem take_comment (h : e.writer.Willing) (text : String) :
    Encoder.take (.comment text) e =
      .ok () { e with writer := Instance.left (Instance.addComment text e.writer) } :=
  Encoder.onWriter_eq_ok.mpr ⟨_, h.addComment text, rfl⟩

theorem take_accepted (h : Clear e (s :: rest)) (hlim : e.variableCount < Literal.limit) :
    ∃ e', Encoder.take s e = .ok () e' ∧ Clear e' rest := by
  have hscoped := h.inScope
  have hplain := h.plain s List.mem_cons_self
  cases s with
  | emit emission =>
    cases emission with
    | fresh =>
      have hwilling : e.writer.addVariable.Willing :=
        ⟨h.willing.isOpen, h.willing.context, h.willing.unlimited⟩
      exact ⟨_, rfl, h.next hwilling hscoped (fun _ _ _ hk => hk) fun _ _ _ hk => hk⟩
    | clause c =>
      exact ⟨_, Encoder.onWriter_eq_ok.mpr ⟨_, h.willing.addClause (hscoped.1 hlim), rfl⟩,
        h.writes (Instance.addClause_writes c e.writer) hscoped.2⟩
  | comment text =>
    exact ⟨_, take_comment h.willing text,
      h.writes (Instance.addComment_writes text e.writer) hscoped⟩
  | shape name shape =>
    exact ⟨_, rfl, h.next h.willing hscoped (fun _ _ _ hk => hk) fun _ _ _ hk => hk⟩
  | note entry =>
    exact ⟨_, rfl, h.next h.willing hscoped (fun _ _ _ hk => hk) fun _ _ _ hk => hk⟩
  | direct key literal =>
    obtain ⟨m, hm, hdirect, horder⟩ := Mapping.setDirect_ok (h.freeDirect key List.mem_cons_self)
    refine ⟨_, Encoder.onMapping_eq_ok.mpr ⟨m, hm, rfl⟩, h.next h.willing hscoped ?_ ?_⟩
    · intro k _ hk hfree
      -- only the key of this step is taken now
      have hne : key ≠ k := fun heq => hk (heq ▸ List.mem_cons_self)
      rw [hdirect, Std.HashMap.getElem?_insert, if_neg (by simpa using hne)]
      exact hfree
    · intro k _ _ hfree
      rwa [horder]
  | order key literal =>
    obtain ⟨m, hm, horder, hdirect⟩ := Mapping.setOrder_ok (h.freeOrder key List.mem_cons_self)
    refine ⟨_, Encoder.onMapping_eq_ok.mpr ⟨m, hm, rfl⟩, h.next h.willing hscoped ?_ ?_⟩
    · intro k _ _ hfree
      rwa [hdirect]
    · intro k _ hk hfree
      have hne : key ≠ k := fun heq => hk (heq ▸ List.mem_cons_self)
      rw [horder, Std.HashMap.getElem?_insert, if_neg (by simpa using hne)]
      exact hfree
  | bound table key literal =>
    obtain ⟨m, hm, hdirect, horder⟩ := Mapping.setBound_ok table
    refine ⟨_, Encoder.onMapping_eq_ok.mpr ⟨m, hm, rfl⟩, h.next h.willing hscoped ?_ ?_⟩
    · intro k _ _ hfree
      rwa [hdirect]
    · intro k _ _ hfree
      rwa [horder]
  | domain name domain => exact hplain.elim
  | stop reason => exact hplain.elim

theorem run_cons_of_ok (h : Encoder.take s e = .ok () e') :
    Encoder.run (s :: rest) e = Encoder.run rest e' := by simp only [Encoder.run, h]

/-- Clear steps are taken to their end, or the file runs out of literals. -/
theorem run_accepted (h : Clear e U) :
    (∃ e', Encoder.run U e = .ok () e') ∨ Full (Encoder.run U e) := by
  induction U generalizing e with
  | nil => exact .inl ⟨e, rfl⟩
  | cons s rest ih =>
    by_cases hlim : e.variableCount < Literal.limit
    · obtain ⟨e₁, htake, h₁⟩ := take_accepted h hlim
      rw [run_cons_of_ok htake]
      exact ih h₁
    · refine .inr (full_of_le (keeps_run (Instance.stable_variableCount _) _) ?_)
      exact Nat.not_lt.mp hlim

/-! ## Representations along a run -/

theorem take_has (ht : Encoder.take s e = .ok () e') {x : String} (hx : ∀ d, s ≠ .domain x d)
    {r : Representation} (h : e.mapping.has x r = true) : e'.mapping.has x r = true := by
  have hsame : e'.mapping = e.mapping → e'.mapping.has x r = true := fun heq => heq ▸ h
  cases s with
  | emit emission =>
    cases emission with
    | fresh => exact hsame (by rw [← (EStateM.Result.ok.inj ht).2])
    | clause c =>
      obtain ⟨w, -, rfl⟩ := Encoder.onWriter_eq_ok.mp ht
      exact h
  | comment text =>
    obtain ⟨w, -, rfl⟩ := Encoder.onWriter_eq_ok.mp ht
    exact h
  | shape name shape => exact hsame (by rw [← (EStateM.Result.ok.inj ht).2])
  | note entry => exact hsame (by rw [← (EStateM.Result.ok.inj ht).2]; rfl)
  | domain name domain =>
    obtain ⟨m, hm, rfl⟩ := Encoder.onMapping_eq_ok.mp ht
    have hne : name ≠ x := fun heq => hx domain (by rw [heq])
    show (m.representation x).has r = true
    rw [(Mapping.representation_setDomain hm).1 x hne]
    exact h
  | direct key literal =>
    obtain ⟨m, hm, rfl⟩ := Encoder.onMapping_eq_ok.mp ht
    show (m.representation x).has r = true
    rw [Mapping.representation_setDirect hm]
    split
    · next heq => exact Representation.has_union_left (heq ▸ h)
    · exact h
  | order key literal =>
    obtain ⟨m, hm, rfl⟩ := Encoder.onMapping_eq_ok.mp ht
    show (m.representation x).has r = true
    rw [Mapping.representation_setOrder hm]
    split
    · next heq => exact Representation.has_union_left (heq ▸ h)
    · exact h
  | bound table key literal =>
    obtain ⟨m, hm, rfl⟩ := Encoder.onMapping_eq_ok.mp ht
    have hrep : m.representations = e.mapping.representations := by
      cases table <;> simp only [Mapping.setBound] at hm <;> rw [← (EStateM.Result.ok.inj hm).2]
    show (m.representation x).has r = true
    rw [Mapping.representation, hrep]
    exact h
  | stop reason => simp [Encoder.take] at ht

theorem take_gives (ht : Encoder.take s e = .ok () e') :
    (∀ k ∈ directKeys [s], e'.mapping.has k.var .directOnly = true) ∧
      ∀ k ∈ orderKeys [s], e'.mapping.has k.var .orderOnly = true := by
  cases s with
  | direct key literal =>
    obtain ⟨m, hm, rfl⟩ := Encoder.onMapping_eq_ok.mp ht
    refine ⟨fun k hk => ?_, by simp [orderKeys]⟩
    obtain rfl : k = key := List.mem_singleton.mp hk
    show (m.representation k.var).has _ = true
    rw [Mapping.representation_setDirect hm, if_pos rfl]
    exact Representation.has_union_right (Representation.has_refl _)
  | order key literal =>
    obtain ⟨m, hm, rfl⟩ := Encoder.onMapping_eq_ok.mp ht
    refine ⟨by simp [directKeys], fun k hk => ?_⟩
    obtain rfl : k = key := List.mem_singleton.mp hk
    show (m.representation k.var).has _ = true
    rw [Mapping.representation_setOrder hm, if_pos rfl]
    exact Representation.has_union_right (Representation.has_refl _)
  | _ => exact ⟨by simp [directKeys], by simp [orderKeys]⟩

/-- After steps without a domain for the variable, it has what it had and what was entered. -/
theorem run_has (hrun : Encoder.run U e = .ok () e') {x : String} (hx : ∀ d, .domain x d ∉ U) :
    (∀ r, e.mapping.has x r = true → e'.mapping.has x r = true) ∧
      (∀ w, ⟨x, w⟩ ∈ directKeys U → e'.mapping.has x .directOnly = true) ∧
      ∀ w, ⟨x, w⟩ ∈ orderKeys U → e'.mapping.has x .orderOnly = true := by
  induction U generalizing e with
  | nil =>
    obtain rfl := (EStateM.Result.ok.inj hrun).2
    exact ⟨fun _ h => h, by simp, by simp⟩
  | cons s rest ih =>
    obtain ⟨e₁, htake, hrest⟩ := Encoder.run_cons_eq_ok.mp hrun
    obtain ⟨hkeep, hdirect, horder⟩ := ih hrest fun d hd => hx d (List.mem_cons_of_mem _ hd)
    obtain ⟨hone, hone'⟩ := take_gives htake
    have hsplit : s :: rest = [s] ++ rest := rfl
    refine ⟨fun r h => ?_, fun w hw => ?_, fun w hw => ?_⟩
    · exact hkeep r (take_has htake (fun d heq => hx d (heq ▸ List.mem_cons_self)) h)
    · rw [hsplit, directKeys_append] at hw
      exact (List.mem_append.mp hw).elim (fun h => hkeep _ (hone _ h)) (hdirect w)
    · rw [hsplit, orderKeys_append] at hw
      exact (List.mem_append.mp hw).elim (fun h => hkeep _ (hone' _ h)) (horder w)

end Steps

/-! ## Variables -/

theorem Progress.willing {settings : Settings} {options : InstanceOptions} {vs : List Variable}
    {cs : List Constraint} {e : Encoder Instance} {T : List Step} (hlimit : options.clauseLimit = 0)
    (h : Progress settings options vs cs e T) : e.writer.Willing :=
  ⟨h.written.isOpen, h.written.context, by rw [h.written.options]; exact hlimit⟩

/-- A variable with a domain has its shape on record and the literals that the problem needs, those
for single values for values of its domain only. -/
structure Stocked (p : Problem) (e : Encoder Instance) : Prop where
  recorded : ∀ x d, e.mapping.domains[x]? = some d → ∃ s, e.shapes.lookup x = some s
  equipped : ∀ x d, e.mapping.domains[x]? = some d → e.mapping.has x (p.needsOf x) = true
  inside : ∀ (k : Key) l, e.mapping.direct[k]? = some l → ∃ d, e.mapping.domains[k.var]? = some d ∧
    k.value ∈ d

section Variables

variable {p : Problem} {settings : Settings} {options : InstanceOptions} {vs : List Variable}
  {e e' e₁ : Encoder Instance} {T : List Step} {v : Variable} {needs : Representation}
  {constrained : Bool} {count : Nat}

theorem stocked_start (p : Problem) (i : Instance) : Stocked p { writer := i } :=
  ⟨by simp, by simp, by simp⟩

theorem Stocked.note (h : Stocked p e) (entry : JournalEntry) : Stocked p (e.note entry) :=
  ⟨h.recorded, h.equipped, h.inside⟩

theorem plain_of_local {x : String} {s : Step} (h : s.Local x) : Plain s := by
  cases s <;> trivial

/-- A free name is entered; what is left are the steps of the shape. -/
theorem exists_entered (hwilling : e.writer.Willing) (hfree : e.mapping.domains[v.name]? = none)
    (settings : Settings) (count : Nat) (shape : Shape) (constrained : Bool) :
    ∃ e₁ : Encoder Instance,
      Encoder.run (Encoding.variableSteps settings count v shape constrained) e =
        Encoder.run (Encoding.shapeSteps settings count v constrained shape) e₁ ∧
      e₁.writer.Willing ∧ e₁.variableCount = e.variableCount ∧
      e₁.mapping.direct = e.mapping.direct ∧ e₁.mapping.order = e.mapping.order := by
  obtain ⟨m, hm, hdirect, horder⟩ := Mapping.setDomain_ok v.domain hfree
  -- the shape and the note go to tables of their own
  obtain ⟨e₀, hrun, hwriter, hmapping⟩ : ∃ e₀ : Encoder Instance,
      Encoder.run (Encoding.variableSteps settings count v shape constrained) e =
        Encoder.run (.comment (Encoding.variableComment v shape) :: .domain v.name v.domain ::
          Encoding.shapeSteps settings count v constrained shape) e₀ ∧
      e₀.writer = e.writer ∧ e₀.mapping = e.mapping := ⟨_, rfl, rfl, rfl⟩
  rw [← hwriter] at hwilling
  rw [← hmapping] at hm hdirect horder
  have hwrites := Instance.addComment_writes (Encoding.variableComment v shape) e₀.writer
  have htake := take_comment hwilling (Encoding.variableComment v shape)
  generalize Instance.left (Instance.addComment (Encoding.variableComment v shape) e₀.writer) = w
    at hwrites htake
  have hcount : w.variableCount = e.writer.variableCount := by rw [hwrites.variableCount, hwriter]
  have htake' : Encoder.take (.domain v.name v.domain) { e₀ with writer := w } =
      .ok () { e₀ with writer := w, mapping := m } := by
    simp only [Encoder.take, Encoder.onMapping, hm]
  rw [hrun, run_cons_of_ok htake, run_cons_of_ok htake', ← hmapping]
  exact ⟨_, rfl, hwilling.writes hwrites, hcount, hdirect, horder⟩

theorem has_needs (hset : Mapping.setDomain v.name v.domain e.mapping = .ok () e₁.mapping)
    (hrun : Encoder.run (Encoding.shapeSteps settings count v constrained
      (Shape.choose settings v.domain.size needs)) e₁ = .ok () e') :
    e'.mapping.has v.name needs = true := by
  obtain ⟨-, hzero, hsingle⟩ := Mapping.representation_setDomain hset
  obtain ⟨hkeep, hdirect, horder⟩ := run_has hrun fun d => domain_not_mem_shapeSteps
  by_cases h0 : v.domain.size = 0
  · apply hkeep
    show (e₁.mapping.representation v.name).has needs = true
    rw [hzero h0]
    exact Representation.both_has needs
  obtain ⟨hserved, hserved'⟩ := shapeSteps_serves settings count v constrained needs h0
  apply Representation.has_of_kinds
  · intro hneed
    obtain ⟨w, hw⟩ := hserved hneed
    exact hdirect w hw
  · intro hneed
    by_cases h1 : v.domain.size = 1
    · -- a single value answers order questions from its domain
      apply hkeep
      show (e₁.mapping.representation v.name).has .orderOnly = true
      rw [hsingle h1]
      rfl
    · obtain ⟨w, hw⟩ := hserved' hneed h1
      exact horder w hw

theorem clear_shapeSteps {shape : Shape} (hM : Meaning settings vs [] e.shapes T)
    (hlists : e.mapping.Lists T) (hfree : e.mapping.domains[v.name]? = none)
    (hwilling : e₁.writer.Willing) (hdirect : e₁.mapping.direct = e.mapping.direct)
    (horder : e₁.mapping.order = e.mapping.order)
    (hfits : Fits v.name e₁.variableCount
      (Encoding.shapeSteps settings e₁.variableCount v constrained shape)) :
    Clear e₁ (Encoding.shapeSteps settings e₁.variableCount v constrained shape) := by
  -- a literal under a key of the variable would come with its domain
  have hnone : ∀ k : Key, k.var = v.name → ∀ l, .direct k l ∉ T ∧ .order k l ∉ T := by
    intro k hk l
    have hentry : ((.direct k l ∈ T ∨ ∃ t, .bound t k l ∈ T) ∨ .order k l ∈ T) → False := by
      intro h
      obtain ⟨d, hd⟩ := hM.represented.mapped k l h
      rw [hk] at hd
      rw [(hlists.domains v.name d).mpr hd] at hfree
      simp at hfree
    exact ⟨fun h => hentry (.inl (.inl h)), fun h => hentry (.inr h)⟩
  refine ⟨hwilling, fun s hs => plain_of_local (hfits.localTo s hs), hfits.inScope, hfits.direct,
    hfits.order, fun k hk => ?_, fun k hk => ?_⟩
  · obtain ⟨l, hl⟩ := mem_directKeys.mp hk
    rw [hdirect, Option.eq_none_iff_forall_ne_some]
    intro m hm
    exact (hnone k (hfits.localTo _ hl) m).1 ((hlists.direct k m).mp hm)
  · obtain ⟨l, hl⟩ := mem_orderKeys.mp hk
    rw [horder, Option.eq_none_iff_forall_ne_some]
    intro m hm
    exact (hnone k (hfits.localTo _ hl) m).2 ((hlists.order k m).mp hm)

theorem domain_mem_variableSteps {shape : Shape} {x : String} {d : Domain}
    (h : .domain x d ∈ Encoding.variableSteps settings count v shape constrained) :
    x = v.name := by
  simp only [Encoding.variableSteps, List.mem_cons, Step.domain.injEq, reduceCtorEq,
    false_or] at h
  rcases h with ⟨hx, -⟩ | h
  · exact hx
  · exact absurd h domain_not_mem_shapeSteps

theorem Stocked.enter {shape : Shape} (h : Stocked p e) (hlists : e.mapping.Lists T)
    (hrun : Encoder.run (Encoding.variableSteps settings count v shape constrained) e = .ok () e')
    (hhas : e'.mapping.has v.name (p.needsOf v.name) = true)
    (hinside : directKeys (Encoding.shapeSteps settings count v constrained shape) ⊆
      v.domain.values.map (Key.mk v.name)) : Stocked p e' := by
  have hlists' := Encoder.run_lists hlists hrun
  -- a domain that is on record was there before or is that of the variable
  have hold : ∀ x d, e'.mapping.domains[x]? = some d →
      e.mapping.domains[x]? = some d ∨ x = v.name := by
    intro x d hx
    rcases List.mem_append.mp ((hlists'.domains x d).mp hx) with hmem | hmem
    · exact .inl ((hlists.domains x d).mpr hmem)
    · exact .inr (domain_mem_variableSteps hmem)
  exact {
    recorded := by
      intro x d hx
      rw [Encoder.run_shapes hrun]
      rcases hold x d hx with hx | rfl
      · exact .inl (h.recorded x d hx)
      · exact .inr ⟨shape, List.mem_cons_self⟩
    equipped := by
      intro x d hx
      rcases hold x d hx with hx | rfl
      · have hne : x ≠ v.name := by
          rintro rfl
          exact free_of_run hlists hrun d ((hlists.domains _ d).mp hx)
        exact (run_has hrun fun d hd => hne (domain_mem_variableSteps hd)).1 _
          (h.equipped x d hx)
      · exact hhas
    inside := by
      intro k l hk
      rcases List.mem_append.mp ((hlists'.direct k l).mp hk) with hmem | hmem
      · obtain ⟨d, hd, hw⟩ := h.inside k l ((hlists.direct k l).mpr hmem)
        refine ⟨d, (hlists'.domains _ d).mpr (List.mem_append_left _ ?_), hw⟩
        exact (hlists.domains _ d).mp hd
      · have hkey : k ∈ directKeys (Encoding.shapeSteps settings count v constrained shape) := by
          simp only [Encoding.variableSteps, List.mem_cons, reduceCtorEq, false_or] at hmem
          exact mem_directKeys.mpr ⟨l, hmem⟩
        obtain ⟨w, hw, rfl⟩ := List.mem_map.mp (hinside hkey)
        refine ⟨v.domain, (hlists'.domains _ _).mpr (List.mem_append_right _ ?_),
          Domain.mem_values.mp hw⟩
        simp [Encoding.variableSteps] }

theorem Stocked.declare (h : Stocked p e) (hlists : e.mapping.Lists T)
    (hrun : Encoder.run (declaration settings v (p.needsOf v.name) constrained e) e = .ok () e') :
    Stocked p e' := by
  unfold declaration at hrun
  split at hrun
  · obtain rfl := (EStateM.Result.ok.inj hrun).2
    exact h
  · obtain ⟨e₁, hset, hshape⟩ := entered_of_run hrun
    refine h.enter hlists hrun (Representation.has_trans (has_needs hset hshape) ?_)
      (shapeSteps_inside _ _ _ _ _).1
    exact Representation.has_union_left (Representation.has_refl _)

theorem declaration_accepted (hsettings : settings.validate = .ok ())
    (hscheme : settings.scheme ∈ Scheme.all) (hlimit : options.clauseLimit = 0)
    (h : Progress settings options vs [] e T) (hS : Stocked p e) (v : Variable)
    (constrained : Bool) :
    (∃ e', Encoder.run (declaration settings v (p.needsOf v.name) constrained e) e = .ok () e' ∧
      Stocked p e') ∨
      Full (Encoder.run (declaration settings v (p.needsOf v.name) constrained e) e) := by
  by_cases hlim : e.variableCount < Literal.limit
  swap
  · exact .inr (full_of_le (keeps_run (Instance.stable_variableCount _) _) (Nat.not_lt.mp hlim))
  suffices hrun : (∃ e', Encoder.run (declaration settings v (p.needsOf v.name) constrained e) e =
      .ok () e') ∨ Full (Encoder.run (declaration settings v (p.needsOf v.name) constrained e) e) by
    exact hrun.imp_left fun ⟨e', hok⟩ => ⟨e', hok, hS.declare h.lists hok⟩
  unfold declaration
  split
  · exact .inl ⟨e, rfl⟩
  next hshape =>
  -- all names with a domain are on record, and this one is not
  have hfree : e.mapping.domains[v.name]? = none := by
    rw [Option.eq_none_iff_forall_ne_some]
    intro d hd
    obtain ⟨s, hs⟩ := hS.recorded v.name d hd
    simp [hs] at hshape
  obtain ⟨needs, hneeds⟩ : ∃ needs, needs = (p.needsOf v.name).union v.needs := ⟨_, rfl⟩
  rw [← hneeds]
  obtain ⟨e₁, hrun₁, hwilling, hcount, hdirect, horder⟩ := exists_entered (h.willing hlimit)
    hfree settings e.variableCount (Shape.choose settings v.domain.size needs) constrained
  have hfits := @shapeSteps_fits settings e₁.variableCount hsettings hscheme v constrained needs
  have hM := h.meaning (by rw [← h.written.count]; exact hlim)
  have hclear := clear_shapeSteps hM h.lists hfree hwilling hdirect horder hfits
  rw [hcount] at hclear
  rw [hrun₁]
  exact run_accepted hclear

end Variables

/-! ## Constraints -/

/-- The variables of the catalog have the literals that the problem needs. -/
def Equipped (p : Problem) (catalog : Catalog) (m : Mapping) : Prop :=
  ∀ x, catalog.isKnown x = true → m.has x (p.needsOf x) = true

section Constraints

variable {p : Problem} {settings : Settings} {options : InstanceOptions} {catalog : Catalog}
  {cs : List Constraint} {e e' : Encoder Instance} {T : List Step} {c : Constraint}

theorem Progress.ready (hlim : e.variableCount < Literal.limit)
    (h : Progress settings options catalog.declared cs e T) :
    Encoding.Ready catalog e.mapping T := by
  have hM := h.meaning (by rw [← h.written.count]; exact hlim)
  refine ⟨h.lists, hM.represented, fun x hx => ?_⟩
  obtain ⟨d, hd⟩ := Catalog.exists_domain?_of_isKnown hx
  exact ⟨d, hd, (hM.domains x d).mpr hd⟩

theorem Stocked.equip (hS : Stocked p e) (hlim : e.variableCount < Literal.limit)
    (h : Progress settings options catalog.declared cs e T) : Equipped p catalog e.mapping := by
  intro x hx
  obtain ⟨d, -, hd⟩ := (h.ready hlim).declared x hx
  exact hS.equipped x d ((h.lists.domains x d).mpr hd)

theorem Stocked.post (h : Stocked p e)
    (hrun : Encoder.run (posting settings catalog c e) e = .ok () e') : Stocked p e' := by
  have hmapping := Encoder.run_mapping (silent_posting settings catalog c e) hrun
  refine ⟨fun x d hx => ?_, by rw [hmapping]; exact h.equipped, by rw [hmapping]; exact h.inside⟩
  rw [hmapping] at hx
  exact (Encoder.run_shapes hrun).mpr (.inl (h.recorded x d hx))

/-- The variables of a valid problem's constraint have the literals it needs, so it passes its
checks. -/
theorem check_of_equipped (hcatalog : p.catalog = some catalog) (hproblem : p.validate = .ok ())
    {m : Mapping} (hequipped : Equipped p catalog m) (hc : c ∈ p.constraints) :
    Encoding.checkConstraint catalog m c = .ok () := by
  obtain ⟨hvalid, hdeclared⟩ := (p.checked_of_validate hcatalog hproblem).1 c hc
  refine Encoding.checkConstraint_eq_ok.mpr ⟨hvalid, hdeclared, fun x r hneed => ?_⟩
  have hknown := List.find?_eq_none.mp hdeclared x (Constraint.mem_variableNames_of_needs hneed)
  have hwant : (x, r) ∈ p.wants := by
    apply List.mem_append_left
    apply List.mem_append_left
    exact List.mem_flatMap.mpr ⟨c, hc, hneed⟩
  exact Representation.has_trans (hequipped x (by simpa using hknown)) (p.needsOf_has hwant)

theorem posting_eq (hcheck : Encoding.checkConstraint catalog e.mapping c = .ok ()) :
    ∃ entry, posting settings catalog c e =
      .comment ("Encoding constraint: " ++ c.text) :: .note entry ::
        (Encoding.constraintPlan settings catalog e.mapping e.variableCount c).steps := by
  rw [posting, Encoding.constraintSteps, hcheck]
  exact ⟨_, rfl⟩

theorem clear_emissions (hwilling : e.writer.Willing) (text : String) (entry : JournalEntry)
    {es : List Emission} (hscoped : Emission.Scoped e.variableCount es) :
    Clear e (.comment text :: .note entry :: es.map Step.emit) := by
  have hdirect : directKeys (.comment text :: .note entry :: es.map Step.emit) = [] :=
    directKeys_map_emit es
  have horder : orderKeys (.comment text :: .note entry :: es.map Step.emit) = [] :=
    orderKeys_map_emit es
  have hemissions : Step.emissions (.comment text :: .note entry :: es.map Step.emit) = es :=
    emissions_map_emit es
  refine ⟨hwilling, by simp [Plain], ?_, by simp [hdirect], by simp [horder], by simp [hdirect],
    by simp [horder]⟩
  rw [Step.Scoped, hemissions]
  exact hscoped

/-- A constraint is posted or refused: it is refused only if it counts and is reified. -/
theorem posting_outcome (hsettings : settings.validate = .ok ())
    (hscheme : settings.scheme ∈ Scheme.all) (hfallback : settings.fallback ∈ Scheme.all)
    (hlimit : options.clauseLimit = 0) (hcatalog : p.catalog = some catalog)
    (hproblem : p.validate = .ok ()) (h : Progress settings options catalog.declared cs e T)
    (hequipped : Equipped p catalog e.mapping) (hc : c ∈ p.constraints) (hfed : c.Fed) :
    Full (Encoder.run (posting settings catalog c e) e) ∨
    (¬ c.CountsReified ∧ ∃ e', Encoder.run (posting settings catalog c e) e = .ok () e' ∧
      Equipped p catalog e'.mapping) ∨
    (c.CountsReified ∧ ∃ left, Encoder.run (posting settings catalog c e) e =
      .error (.fault (.unsupported (.reified c.rule.text))) left) := by
  by_cases hlim : e.variableCount < Literal.limit
  swap
  · exact .inl (full_of_le (keeps_run (Instance.stable_variableCount _) _) (Nat.not_lt.mp hlim))
  have hready := h.ready hlim
  have hcheck := check_of_equipped hcatalog hproblem hequipped hc
  have hwilling := h.willing hlimit
  have hcount : e.variableCount = freshCount T := h.written.count
  have hsilent := silent_posting settings catalog c e
  obtain ⟨entry, hposting⟩ := @posting_eq settings catalog e c hcheck
  rw [hposting, hcount] at hsilent ⊢
  -- a reified count is refused behind the comment, before any clause
  by_cases hcounts : c.CountsReified
  · right; right
    refine ⟨hcounts, ?_⟩
    rw [Encoding.constraintPlan_refuses hcounts, run_cons_of_ok (take_comment hwilling _)]
    exact ⟨_, rfl⟩
  have hstop := Encoding.constraintPlan_stop hsettings hscheme hfallback hready hcheck hfed hcounts
    (freshCount T)
  have hscoped := Encoding.constraintPlan_scoped hsettings catalog (fun _ => hready.known) c
  generalize Encoding.constraintPlan settings catalog e.mapping (freshCount T) c = plan
    at hstop hscoped hsilent
  have hsteps : plan.steps = plan.emissions.map Step.emit := by simp [Plan.steps, hstop]
  rw [← hcount] at hscoped
  have hclear := clear_emissions hwilling ("Encoding constraint: " ++ c.text) entry hscoped
  rw [hsteps] at hsilent ⊢
  rcases run_accepted hclear with ⟨e', hrun⟩ | hfull
  · refine .inr (.inl ⟨hcounts, e', hrun, ?_⟩)
    rw [Encoder.run_mapping hsilent hrun]
    exact hequipped
  · exact .inl hfull

/-- Posts a constraint, its comment included. -/
def post (settings : Settings) (catalog : Catalog) (c : Constraint) : Run (Encoder Instance) Unit :=
  fun e => blame (.constraint c.text) (Encoder.run (posting settings catalog c e) e)

theorem encodeConstraints_cons (hwilling : e.writer.Willing) (c : Constraint)
    (rest : List Constraint) :
    encodeConstraints settings catalog (c :: rest) e =
      (post settings catalog c >>= fun _ => encodeConstraints settings catalog rest) e := by
  have hcomment := take_comment hwilling ("Encoding constraint: " ++ c.text)
  have hone := @run_posting settings e catalog c _ hcomment
  refine (Run.bind_of_ok hcomment).trans ?_
  show EStateM.bind _ _ _ = EStateM.bind _ _ _
  simp only [EStateM.bind, post, hone]

end Constraints

end Reduction

end Clausify
