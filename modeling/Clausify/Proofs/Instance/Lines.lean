import Mathlib
import Clausify.Proofs.Clause.Dimacs
import Clausify.Proofs.Instance.Frame

/-!
The lines of an instance file. Whether an operation that writes succeeds or not, the instance it
leaves has the lines of that operation appended and counts the clauses among them (`Writes`), and
nothing else has changed. So the body of a file is the line break after the header region and all
lines written (`Has`), and a finished plain file is read as the formula of its lines
(`parse_finalized`).
-/

namespace Clausify.Instance

open Dimacs (Line)

/-- The instance that is left, whether the run came to its end or not. -/
def left {α : Type} : EStateM.Result Stop Instance α → Instance
  | .ok _ i => i
  | .error _ i => i

def textOf (ls : List Line) : String := String.join (ls.map Line.text)

@[simp] theorem textOf_nil : textOf [] = "" := rfl

theorem textOf_append (ls ls' : List Line) : textOf (ls ++ ls') = textOf ls ++ textOf ls' := by
  rw [textOf, List.map_append, String.join_append]
  rfl

def clauseCount (ls : List Line) : Nat := (ls.filterMap Line.clause?).length

theorem clauseCount_append (ls ls' : List Line) :
    clauseCount (ls ++ ls') = clauseCount ls + clauseCount ls' := by
  rw [clauseCount, List.filterMap_append, List.length_append]
  rfl

variable {i i' i'' : Instance} {ls ls' : List Line}

/-! ## Appending lines -/

/-- The lines are appended: what is on disk stays there, and besides the body and the number of
clauses nothing changes. -/
structure Writes (i i' : Instance) (ls : List Line) : Prop where
  framed : ∀ {h d p}, Framed i h d p →
    ∃ q p', Framed i' h (d ++ q) p' ∧ q ++ p' = p ++ (textOf ls).toUTF8
  clauses : i'.clauses = i.clauses + clauseCount ls
  isOpen : i'.isOpen = i.isOpen
  same : i' = { i with
    clauses := i'.clauses, offset := i'.offset, disk := i'.disk, pending := i'.pending }

theorem Writes.variableCount {i i' : Instance} {ls : List Line} (h : Writes i i' ls) :
    i'.variableCount = i.variableCount := by
  rw [h.same]

theorem Writes.refl (i : Instance) : Writes i i [] where
  framed {h d p} hf := ⟨ByteArray.empty, p, by rwa [ByteArray.append_empty], by
    rw [ByteArray.empty_append]
    exact ByteArray.append_empty.symm⟩
  clauses := rfl
  isOpen := rfl
  same := rfl

theorem toUTF8_append (s t : String) : (s ++ t).toUTF8 = s.toUTF8 ++ t.toUTF8 := by
  simp only [String.toUTF8_eq_toByteArray, String.toByteArray_append]

theorem Writes.trans (h : Writes i i' ls) (h' : Writes i' i'' ls') : Writes i i'' (ls ++ ls') where
  framed hf := by
    obtain ⟨q, p', hf', hq⟩ := h.framed hf
    obtain ⟨q', p'', hf'', hq'⟩ := h'.framed hf'
    refine ⟨q ++ q', p'', by rwa [← ByteArray.append_assoc], ?_⟩
    rw [ByteArray.append_assoc, hq', ← ByteArray.append_assoc, hq, textOf_append, toUTF8_append,
      ByteArray.append_assoc]
  clauses := by rw [h'.clauses, h.clauses, clauseCount_append, Nat.add_assoc]
  isOpen := h'.isOpen.trans h.isOpen
  same := by
    rw [h'.same, h.same]

theorem append_same (bytes p : ByteArray) (i : Instance) :
    ∃ p', i.append bytes p =
      { i with disk := (i.append bytes p).disk, pending := some p' } := by
  unfold append store
  dsimp only
  split_ifs <;> exact ⟨_, rfl⟩

theorem writes_of_writeText (ls : List Line) (hopen : i.isOpen = true) :
    ∃ i₁, writeText (textOf ls) i = .ok () i₁ ∧ i₁.clauses = i.clauses ∧ i₁.options = i.options ∧
      Writes i { i₁ with clauses := i.clauses + clauseCount ls } ls := by
  obtain ⟨pending, hpending⟩ := Option.isSome_iff_exists.mp hopen
  obtain ⟨p', hsame⟩ := append_same (textOf ls).toUTF8 pending i
  have hok : writeText (textOf ls) i = .ok () { i.append (textOf ls).toUTF8 pending with
      offset := i.offset + (textOf ls).toUTF8.size } := by
    rw [writeText, hpending]
  refine ⟨_, hok, by rw [hsame], by rw [hsame], ⟨?_, rfl, ?_, ?_⟩⟩
  · intro h d p hf
    obtain ⟨i₁, q, p', hok', hf', hq, -⟩ := writeText_framed hf hpending (textOf ls)
    obtain rfl := (EStateM.Result.ok.inj (hok.symm.trans hok')).2
    exact ⟨q, p', hf'.of_same rfl rfl rfl, hq⟩
  · rw [hsame, hopen]
    rfl
  · rw [hsame]

theorem addComment_writes (text : String) (i : Instance) :
    Writes i (left (addComment text i)) (if i.isOpen then [.comment text] else []) := by
  cases hopen : i.isOpen with
  | true =>
    obtain ⟨i₁, hok, hclauses, -, hw⟩ := writes_of_writeText [.comment text] hopen
    have hleft : left (addComment text i) = { i₁ with clauses := i.clauses + 0 } := by
      have : addComment text i = .ok () i₁ := by
        rw [← hok]
        simp [addComment, textOf, Line.text, String.join]
      rw [this, left, Nat.add_zero, ← hclauses]
    rw [hleft]
    exact hw
  | false =>
    have hnone : i.pending = none := by simpa [Instance.isOpen] using hopen
    have : addComment text i = .error (.fault .closed) i := by
      rw [addComment, writeText, hnone]
    rw [this]
    exact .refl i

/-- A clause line is written and counted, also when it is one too many. -/
theorem writeLine_writes (weight : Option Word) (c : Clause) (hopen : i.isOpen = true) :
    Writes i (left (writeLine weight c i)) [.clause weight c] := by
  obtain ⟨i₁, hok, hclauses, hoptions, hw⟩ :=
    writes_of_writeText [.clause weight c] hopen
  have hleft : left (writeLine weight c i) = { i₁ with clauses := i.clauses + 1 } := by
    have hline : ((weight.map fun w => w.text ++ " ").getD "") ++ c.line =
        textOf [.clause weight c] := by
      simp [textOf, Line.text, String.join]
    show left (EStateM.bind (writeText _) (fun _ => countClause) i) = _
    rw [EStateM.bind, hline, hok]
    simp only [countClause, hclauses]
    split <;> rfl
  rw [hleft]
  exact hw

theorem writeLine_eq (weight : Option Word) (c : Clause) (hopen : i.isOpen = true) :
    writeLine weight c i =
      if i.options.clauseLimit ≠ 0 && i.clauses + 1 > i.options.clauseLimit then
        .error (.fault (.clauseLimit i.options.clauseLimit)) (left (writeLine weight c i))
      else .ok () (left (writeLine weight c i)) := by
  obtain ⟨i₁, hok, hclauses, hoptions, -⟩ := writes_of_writeText [.clause weight c] hopen
  have hline : ((weight.map fun w => w.text ++ " ").getD "") ++ c.line =
      textOf [.clause weight c] := by
    simp [textOf, Line.text, String.join]
  have hrun : writeLine weight c i = countClause i₁ := by
    show EStateM.bind (writeText _) (fun _ => countClause) i = _
    rw [EStateM.bind, hline, hok]
  rw [hrun]
  simp only [countClause, hclauses, hoptions]
  split <;> rfl

/-- The lines that a clause adds: none when the instance is closed, or when the clause is true or
refused. -/
def clauseLines (i : Instance) (c : Clause) : List Line :=
  match i.isOpen, Clause.reduce (i.context ++ c) with
  | true, .ok (some reduced) =>
    [.clause (if i.options.weighted then some i.options.top else none) reduced]
  | _, _ => []

theorem addClause_writes (c : Clause) (i : Instance) :
    Writes i (left (addClause c i)) (i.clauseLines c) := by
  unfold addClause clauseLines
  cases hopen : i.isOpen with
  | false => exact .refl i
  | true =>
    cases Clause.reduce (i.context ++ c) with
    | error misuse => exact .refl i
    | ok o =>
      cases o with
      | none => exact .refl i
      | some reduced => exact writeLine_writes _ _ hopen

theorem addClause_ok {c : Clause} {o : Option Clause} (hopen : i.isOpen = true)
    (hreduce : Clause.reduce (i.context ++ c) = .ok o)
    (hlimit : i.options.clauseLimit = 0 ∨ i.clauses < i.options.clauseLimit) :
    addClause c i = .ok () (left (addClause c i)) := by
  unfold addClause
  rw [hopen, hreduce]
  cases o with
  | none => rfl
  | some reduced =>
    refine (writeLine_eq _ reduced hopen).trans (if_neg ?_)
    simp only [ne_eq, Bool.and_eq_true, decide_eq_true_eq, not_and]
    omega

/-- The lines that a soft clause adds. -/
def softLines (i : Instance) (l : Literal) (weight : Word) : List Line :=
  match i.options.weighted && i.isOpen, Clause.reduce [l] with
  | true, .ok (some reduced) => [.clause (some weight) reduced]
  | _, _ => []

theorem addSoftClause_writes (l : Literal) (weight : Word) (i : Instance) :
    Writes i (left (addSoftClause l weight i)) (i.softLines l weight) := by
  unfold addSoftClause softLines
  cases i.options.weighted with
  | false => exact .refl i
  | true =>
    cases hopen : i.isOpen with
    | false => exact .refl i
    | true =>
      cases Clause.reduce [l] with
      | error misuse => exact .refl i
      | ok o =>
        cases o with
        | none => exact .refl i
        | some reduced => exact writeLine_writes _ _ hopen

/-! ## The lines of a file -/

/-- The body of the file is the line break after the header region and the lines. -/
structure Has (i : Instance) (ls : List Line) : Prop where
  body : ∃ h d p, Framed i h d p ∧ d ++ p = ("\n" ++ textOf ls).toUTF8
  clauses : i.clauses = clauseCount ls

theorem has_create (path : String) (options : InstanceOptions) : Has (create path options) [] where
  body := ⟨_, _, _, framed_create path options, ByteArray.append_empty⟩
  clauses := rfl

theorem Has.addVariable (h : Has i ls) : Has i.addVariable ls where
  body := by
    obtain ⟨r, d, p, hf, hbody⟩ := h.body
    exact ⟨r, d, p, hf.of_same rfl rfl rfl, hbody⟩
  clauses := h.clauses

theorem Has.writes (h : Has i ls) (hw : Writes i i' ls') : Has i' (ls ++ ls') where
  body := by
    obtain ⟨r, d, p, hf, hbody⟩ := h.body
    obtain ⟨q, p', hf', hq⟩ := hw.framed hf
    refine ⟨r, d ++ q, p', hf', ?_⟩
    rw [ByteArray.append_assoc, hq, ← ByteArray.append_assoc, hbody, textOf_append,
      ← toUTF8_append, String.append_assoc]
  clauses := by rw [hw.clauses, h.clauses, clauseCount_append]

theorem Has.finalize (h : Has i ls) (hroom : i.header.length ≤ headerWidth) :
    ∃ i', Instance.finalize i = .ok () i' ∧ Has i' ls ∧
      i' = { i with
        disk := some (i.paddedHeader ++ "\n" ++ textOf ls).toUTF8, pending := none } := by
  obtain ⟨r, d, p, hf, hbody⟩ := h.body
  obtain ⟨i', hok, hf', hsame⟩ := finalize_framed hf hroom
  have hdisk : i'.disk = some (i.paddedHeader ++ "\n" ++ textOf ls).toUTF8 := by
    rw [hf'.disk, hbody, ← toUTF8_append, String.append_assoc]
  refine ⟨i', hok, ⟨⟨_, _, _, hf', by rw [ByteArray.append_empty, hbody]⟩, ?_⟩, ?_⟩
  · rw [hsame]
    exact h.clauses
  · rw [← hdisk]
    exact hsame

/-- A finished plain file with readable lines is read as the formula of its lines. -/
theorem parse_finalized {bytes : ByteArray}
    (hbytes : bytes = (i.paddedHeader ++ "\n" ++ textOf ls).toUTF8)
    (hplain : i.options.weighted = false) (hcount : i.variableCount < wordCount)
    (hread : ∀ l ∈ ls, l.Readable i.variableCount) :
    Dimacs.parse (Text.decode bytes) =
      .ok (ls.foldl Line.read { variableCount := i.variableCount }) := by
  rw [hbytes, Text.decode_toUTF8]
  exact Dimacs.parse_file hplain hcount hread

end Clausify.Instance
