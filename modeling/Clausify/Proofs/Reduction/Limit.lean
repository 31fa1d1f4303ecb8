import Mathlib
import Clausify.Proofs.Reduction.Beside
import Clausify.Proofs.Reduction.Meaning

/-!
The clause limit is exact. A file under a limit and a file without one are the same but for the
limit as long as the clauses of the second are within it; the first clause beyond is refused, and
from there on the second file has more clauses than the limit (`limited`). So a reduction under a
limit succeeds exactly when the one without a limit stays within it, and then gives the same
result.

Main statement: `clause_limit_exact`.
-/

namespace Clausify

namespace Instance

def withLimit (limit : Nat) (i : Instance) : Instance :=
  { i with options := { i.options with clauseLimit := limit } }

variable {i i' : Instance}

theorem append_withLimit (limit : Nat) (bytes pending : ByteArray) (i : Instance) :
    (i.withLimit limit).append bytes pending = (i.append bytes pending).withLimit limit := by
  unfold append store withLimit
  dsimp only
  split_ifs <;> rfl

theorem writeText_withLimit (limit : Nat) {text : String} (h : writeText text i = .ok () i') :
    writeText text (i.withLimit limit) = .ok () (i'.withLimit limit) ∧ i'.options = i.options ∧
      i'.clauses = i.clauses := by
  unfold writeText at h ⊢
  cases hpending : i.pending with
  | none => simp [hpending] at h
  | some pending =>
    obtain ⟨p', hsame⟩ := append_same text.toUTF8 pending i
    rw [hpending] at h
    obtain rfl := (EStateM.Result.ok.inj h).2
    have hpending' : (i.withLimit limit).pending = some pending := hpending
    rw [hpending']
    dsimp only
    rw [append_withLimit]
    exact ⟨rfl, by rw [hsame], by rw [hsame]⟩

/-- A line that is written without a limit is written under a limit, and then refused when it is
one too many. -/
theorem writeLine_withLimit {limit : Nat} {weight : Option Word} {c : Clause}
    (hlimit : 1 ≤ limit)
    (h : writeLine weight c i = .ok () i') :
    writeLine weight c (i.withLimit limit) = (if limit < i'.clauses then
        .error (.fault (.clauseLimit limit)) (i'.withLimit limit)
      else .ok () (i'.withLimit limit)) ∧ i'.options = i.options := by
  obtain ⟨u, i₁, hwrite, hcount⟩ := Run.bind_eq_ok.mp h
  obtain ⟨hwrite', hoptions, -⟩ := writeText_withLimit limit hwrite
  obtain rfl : i' = { i₁ with clauses := i₁.clauses + 1 } := by
    unfold countClause at hcount
    dsimp only at hcount
    split at hcount
    · simp at hcount
    · exact (EStateM.Result.ok.inj hcount).2.symm
  refine ⟨?_, hoptions⟩
  show EStateM.bind (writeText _) (fun _ => countClause) (i.withLimit limit) = _
  rw [EStateM.bind, hwrite']
  show countClause (i₁.withLimit limit) = _
  have hnonzero : limit ≠ 0 := by omega
  by_cases hbeyond : limit < i₁.clauses + 1
  · rw [if_pos hbeyond]
    exact if_pos (by simp [withLimit, hnonzero, hbeyond])
  · rw [if_neg hbeyond]
    exact if_neg (by simpa [withLimit, hnonzero] using hbeyond)

/-- The file is the other one under a limit that the other one keeps to. -/
structure Limited (limit : Nat) (i j : Instance) : Prop where
  same : i = j.withLimit limit
  free : j.options.clauseLimit = 0
  within : j.clauses ≤ limit

/-- Of two files that go together, the one under a limit takes what the other one takes, or the
limit is reached. -/
def Keeping (limit : Nat) (result : EStateM.Result Stop Instance Unit) (j : Instance) : Prop :=
  (∃ i, result = .ok () i ∧ Limited limit i j) ∨
    ∃ fault i, result = .error (.fault fault) i ∧ fault.kind = .clauseLimit ∧ limit < j.clauses

section

variable {i j j' : Instance} {limit : Nat}

theorem Limited.writeLine (h : Limited limit i j) (hlimit : 1 ≤ limit) {weight : Option Word}
    {c : Clause} (hok : Instance.writeLine weight c j = .ok () j') :
    Keeping limit (Instance.writeLine weight c i) j' := by
  obtain ⟨hresult, hoptions⟩ := writeLine_withLimit hlimit hok
  rw [h.same, hresult]
  by_cases hbeyond : limit < j'.clauses
  · rw [if_pos hbeyond]
    exact .inr ⟨_, _, rfl, rfl, hbeyond⟩
  · rw [if_neg hbeyond]
    exact .inl ⟨_, rfl, rfl, by rw [hoptions]; exact h.free, Nat.le_of_not_lt hbeyond⟩

theorem Limited.addClause (h : Limited limit i j) (hlimit : 1 ≤ limit) {c : Clause}
    (hok : Instance.addClause c j = .ok () j') : Keeping limit (Instance.addClause c i) j' := by
  have hopen : i.isOpen = j.isOpen := by rw [h.same]; rfl
  have hcontext : i.context = j.context := by rw [h.same]; rfl
  have hweight : (if i.options.weighted then some i.options.top else none) =
      if j.options.weighted then some j.options.top else none := by
    rw [h.same]
    rfl
  unfold Instance.addClause at hok ⊢
  rw [hopen, hcontext, hweight]
  split at hok
  · simp at hok
  next hj =>
  rw [if_neg hj]
  split at hok
  · simp at hok
  · obtain rfl := (EStateM.Result.ok.inj hok).2
    exact .inl ⟨i, rfl, h⟩
  · exact h.writeLine hlimit hok

theorem Limited.addSoftClause (h : Limited limit i j) (hlimit : 1 ≤ limit) {l : Literal}
    {weight : Word} (hok : Instance.addSoftClause l weight j = .ok () j') :
    Keeping limit (Instance.addSoftClause l weight i) j' := by
  have hopen : i.isOpen = j.isOpen := by rw [h.same]; rfl
  have hweighted : i.options.weighted = j.options.weighted := by rw [h.same]; rfl
  unfold Instance.addSoftClause at hok ⊢
  rw [hopen, hweighted]
  split at hok
  · simp at hok
  next hw =>
  rw [if_neg hw]
  split at hok
  · simp at hok
  next hj =>
  rw [if_neg hj]
  split at hok
  · simp at hok
  · obtain rfl := (EStateM.Result.ok.inj hok).2
    exact .inl ⟨i, rfl, h⟩
  · exact h.writeLine hlimit hok

theorem Limited.addComment (h : Limited limit i j) {text : String}
    (hok : Instance.addComment text j = .ok () j') :
    ∃ i', Instance.addComment text i = .ok () i' ∧ Limited limit i' j' := by
  obtain ⟨hresult, hoptions, hclauses⟩ := writeText_withLimit limit hok
  refine ⟨_, ?_, rfl, ?_, ?_⟩
  · rw [h.same]
    exact hresult
  · rw [hoptions]
    exact h.free
  · rw [hclauses]
    exact h.within

theorem flush_withLimit (i : Instance) : (i.withLimit limit).flush = i.flush.withLimit limit := by
  unfold flush withLimit
  dsimp only
  split <;> rfl

theorem Limited.finalize (h : Limited limit i j) (hok : Instance.finalize j = .ok () j') :
    ∃ i', Instance.finalize i = .ok () i' ∧ Limited limit i' j' := by
  -- the limit is not shown in the header
  have hheader : ∀ k : Instance, (k.withLimit limit).header = k.header := fun _ => rfl
  refine ⟨j'.withLimit limit, ?_, rfl, ?_, ?_⟩
  · unfold Instance.finalize at hok ⊢
    rw [h.same, flush_withLimit]
    dsimp only at hok ⊢
    split at hok
    · simp at hok
    next hroom =>
    refine (if_neg (by exact hroom)).trans ?_
    cases hdisk : j.flush.disk with
    | none => simp [hdisk] at hok
    | some bytes =>
      simp only [hdisk] at hok
      obtain rfl := (EStateM.Result.ok.inj hok).2
      have hdisk' : (j.flush.withLimit limit).disk = some bytes := hdisk
      simp only [hdisk']
      rfl
  · have hleft : j' = left (Instance.finalize j) := (congrArg left hok).symm
    rw [hleft, finalize_same]
    exact h.free
  · have hleft : j' = left (Instance.finalize j) := (congrArg left hok).symm
    rw [hleft, finalize_same]
    exact h.within

end

end Instance

namespace Reduction

/-- A file under a limit beside one without. -/
def limited (limit : Nat) (hlimit : 1 ≤ limit) : Pairing where
  pair := Instance.Limited limit
  refused fault := fault.kind = .clauseLimit
  beyond j := limit < j.clauses
  stable := Instance.stable_clauses (limit + 1)
  during _ hfault := hfault
  count h := by rw [h.same]; rfl
  addVariable h := ⟨by rw [h.same]; rfl, h.free, h.within⟩
  addComment h hok := h.addComment hok
  addClause h hok := h.addClause hlimit hok

section

variable {limit : Nat} {hlimit : 1 ≤ limit} {settings : Settings}

theorem follows_encodePreferences (ps : List Preference) :
    (limited limit hlimit).Follows (encodePreferences ps) (encodePreferences ps) := by
  induction ps with
  | nil => exact Pairing.follows_pure
  | cons preference rest ih =>
    refine (Pairing.follows_blame _ ?_).bind ih
      (keeps_encodePreferences (limited limit hlimit).stable rest)
    intro d e e' hde hrun
    dsimp only at hrun ⊢
    rw [hde.mapping]
    refine Pairing.follows_onWriter ?_ hde hrun
    exact fun h hok => h.addSoftClause hlimit hok

theorem follows_softPart (p : Problem) {settings' : Settings}
    (hweighted : settings.weighted = settings'.weighted) :
    (limited limit hlimit).Follows (softPart p settings) (softPart p settings') := by
  unfold softPart
  rw [hweighted]
  split
  · exact follows_encodePreferences _
  · split
    · exact Pairing.follows_note _ _
    · exact Pairing.follows_pure

/-- An encoding under a limit follows the one without. -/
theorem follows_encode (p : Problem) (catalog : Catalog) :
    (limited limit hlimit).Follows (encode p { settings with clauseLimit := limit } catalog)
      (encode p { settings with clauseLimit := 0 } catalog) := by
  have hstable := (limited limit hlimit).stable
  have hsame : Settings.SameClauses { settings with clauseLimit := 0 }
      { settings with clauseLimit := limit } := ⟨limit, settings.weighted, settings.top, rfl⟩
  rw [encode_eq, encode_eq]
  refine (Pairing.follows_hardPart hsame p catalog).bind ?_ (keeps_finish hstable p _)
  refine (follows_softPart p rfl).bind ?_ (keeps_onWriter fun i hi => hstable.finalize hi)
  exact Pairing.follows_onWriter fun h hok => .inl (h.finalize hok)

end

/-! ## Main statement -/

/-- A reduction under a limit of at least one clause succeeds exactly when the reduction without a
limit has no more clauses than that. Then the files, the tables and the totals are the same; and
otherwise the limit is reported and there is no file. -/
theorem clause_limit_exact {store : Store} {p : Problem} {settings : Settings} {path : String}
    {t : Reduction} {limit : Nat} (hlimit : 1 ≤ limit)
    (hok : (ofProblem store p { settings with clauseLimit := 0 } path).result = .ok t) :
    ((∃ t', (ofProblem store p { settings with clauseLimit := limit } path).result = .ok t') ↔
      t.file.clauses ≤ limit) ∧
    (∀ t', (ofProblem store p { settings with clauseLimit := limit } path).result = .ok t' →
      t'.file = t.file.withLimit limit ∧ t'.mapping = t.mapping ∧ t'.shapes = t.shapes ∧
        (ofProblem store p { settings with clauseLimit := limit } path).store =
          (ofProblem store p { settings with clauseLimit := 0 } path).store) ∧
    (limit < t.file.clauses → ∃ fault,
      (ofProblem store p { settings with clauseLimit := limit } path).result =
        .error (.fault fault) ∧ fault.kind = .clauseLimit ∧
      (ofProblem store p { settings with clauseLimit := limit } path).store.find?
        (Location.ofPath path) = none) := by
  obtain ⟨catalog, e, hcheck, hwrite, hrun, rfl⟩ := exists_encode_of_ok hok
  have hcheck' : precheck p { settings with clauseLimit := limit } = .ok (.present catalog) :=
    hcheck
  have hstart : (limited limit hlimit).Beside
      { writer := Instance.create path (instanceOptions { settings with clauseLimit := limit }) }
      { writer := Instance.create path (instanceOptions { settings with clauseLimit := 0 }) } :=
    ⟨⟨rfl, rfl, Nat.zero_le _⟩, rfl, rfl⟩
  have hstore := (ofProblem_of_ok hcheck hwrite hrun).2
  rcases follows_encode p catalog hstart hrun with
    ⟨d, hd, hbeside⟩ | ⟨fault, d, hd, hkind, hbeyond⟩
  · -- the run without a limit stays within it
    have hwithin : e.writer.clauses ≤ limit := hbeside.files.within
    obtain ⟨hresult, hstore'⟩ := ofProblem_of_ok hcheck' hwrite hd
    refine ⟨iff_of_true ⟨_, hresult⟩ hwithin, ?_, fun hlt => absurd hlt (Nat.not_lt.mpr hwithin)⟩
    intro t' ht'
    obtain rfl := Except.ok.inj (hresult.symm.trans ht')
    refine ⟨hbeside.files.same, hbeside.mapping, hbeside.shapes, ?_⟩
    rw [hstore, hstore', hbeside.files.same]
    rfl
  · -- it does not
    have hbeyond : limit < e.writer.clauses := hbeyond
    have hresult := ofProblem_of_error hcheck' hwrite hd
    have hfailed : ∀ t', (ofProblem store p { settings with clauseLimit := limit } path).result ≠
        .ok t' := by
      intro t' ht'
      rw [hresult] at ht'
      simp at ht'
    refine ⟨iff_of_false (fun ⟨t', ht'⟩ => hfailed t' ht') (Nat.not_le.mpr hbeyond),
      fun t' ht' => absurd ht' (hfailed t'), fun _ => ?_⟩
    exact ⟨fault, hresult, hkind, (find?_of_fault hcheck' hwrite hresult).1⟩

/-- The problem of a value with a gap has three clauses: a limit of three is kept to, and under a
limit of two there is no file. -/
theorem gap_clause_limit :
    (∃ t', (ofProblem {} gapProblem { clauseLimit := 3 } "gap.cnf").result = .ok t') ∧
    ∃ fault, (ofProblem {} gapProblem { clauseLimit := 2 } "gap.cnf").result =
        .error (.fault fault) ∧ fault.kind = .clauseLimit ∧
      (ofProblem {} gapProblem { clauseLimit := 2 } "gap.cnf").store.find?
        (Location.ofPath "gap.cnf") = none := by
  obtain ⟨t, hok, -, hclauses, -⟩ := gap_reduces
  have hthree := @clause_limit_exact {} gapProblem {} "gap.cnf" t 3 (by decide) hok
  have htwo := @clause_limit_exact {} gapProblem {} "gap.cnf" t 2 (by decide) hok
  exact ⟨hthree.1.mpr (by rw [hclauses]), htwo.2.2 (by rw [hclauses]; decide)⟩

end Reduction

end Clausify
