import Mathlib
import Clausify.Proofs.Instance.Lines

/-!
Files that grow. Every operation but going back leaves what is on disk after the header region
there and never lowers a counter (`Grows`); this is also true of operations that fail. So a
finished file that was extended is the file it was before once the extension is taken back
(`retract_extend`), whether or not all clauses were accepted. An extension by one literal changes
the file unless the literal is always true (`extend_unit`).
-/

namespace Clausify.Instance

open Dimacs (Line)

variable {i i' i'' : Instance} {h d p : ByteArray}

/-- The file has only grown: what was on disk behind the header region is there, and no counter
is lower. -/
structure Grows (i i' : Instance) : Prop where
  framed : ∀ {h d p}, Framed i h d p → ∃ h' q p', Framed i' h' (d ++ q) p'
  variableCount : i.variableCount ≤ i'.variableCount
  clauses : i.clauses ≤ i'.clauses
  path : i'.path = i.path
  options : i'.options = i.options

theorem Grows.of_same (hdisk : i'.disk = i.disk) (hpending : i'.pending = i.pending)
    (hoffset : i'.offset = i.offset) (hvariables : i.variableCount ≤ i'.variableCount)
    (hclauses : i.clauses ≤ i'.clauses) (hpath : i'.path = i.path)
    (hoptions : i'.options = i.options) : Grows i i' where
  framed {h d p} hf := by
    refine ⟨h, ByteArray.empty, p, ?_⟩
    rw [ByteArray.append_empty]
    exact hf.of_same hdisk hpending hoffset
  variableCount := hvariables
  clauses := hclauses
  path := hpath
  options := hoptions

theorem Grows.trans (hg : Grows i i') (hg' : Grows i' i'') : Grows i i'' where
  framed hf := by
    obtain ⟨h', q, p', hf'⟩ := hg.framed hf
    obtain ⟨h'', q', p'', hf''⟩ := hg'.framed hf'
    exact ⟨h'', q ++ q', p'', by rwa [← ByteArray.append_assoc]⟩
  variableCount := Nat.le_trans hg.variableCount hg'.variableCount
  clauses := Nat.le_trans hg.clauses hg'.clauses
  path := hg'.path.trans hg.path
  options := hg'.options.trans hg.options

theorem Writes.grows {ls : List Line} (hw : Writes i i' ls) : Grows i i' where
  framed {h d p} hf := by
    obtain ⟨q, p', hf', -⟩ := hw.framed hf
    exact ⟨h, q, p', hf'⟩
  variableCount := by rw [hw.same]
  clauses := by rw [hw.clauses]; omega
  path := by rw [hw.same]
  options := by rw [hw.same]

/-- The path, the options, the number of variables and the context are the same. -/
structure SameSetup (i i' : Instance) : Prop where
  path : i'.path = i.path
  options : i'.options = i.options
  variableCount : i'.variableCount = i.variableCount
  context : i'.context = i.context

theorem SameSetup.trans (hs : SameSetup i i') (hs' : SameSetup i' i'') : SameSetup i i'' :=
  ⟨hs'.path.trans hs.path, hs'.options.trans hs.options,
    hs'.variableCount.trans hs.variableCount, hs'.context.trans hs.context⟩

theorem Writes.setup {ls : List Line} (hw : Writes i i' ls) : SameSetup i i' := by
  rw [hw.same]
  exact ⟨rfl, rfl, rfl, rfl⟩

/-! ## Finishing -/

theorem finalize_same (i : Instance) :
    left (finalize i) = { i with disk := (left (finalize i)).disk, pending := none } := by
  unfold finalize
  rw [flush_eq]
  dsimp only
  split
  · rfl
  · split <;> rfl

theorem finalize_setup (i : Instance) : SameSetup i (left (finalize i)) := by
  rw [finalize_same]
  exact ⟨rfl, rfl, rfl, rfl⟩

/-- After finishing, the whole body is on disk. -/
theorem left_finalize_framed (hf : Framed i h d p) :
    ∃ h', Framed (left (finalize i)) h' (d ++ p) ByteArray.empty ∧
      (i.header.length ≤ headerWidth → h' = i.paddedHeader.toUTF8) := by
  by_cases hroom : i.header.length ≤ headerWidth
  · obtain ⟨i', hok, hf', -⟩ := finalize_framed hf hroom
    exact ⟨_, by rw [hok]; exact hf', fun _ => rfl⟩
  · have hflush := flush_framed hf
    have herror : finalize i =
        .error (.fault .headerOverflow) { i.flush with pending := none } := by
      unfold finalize
      rw [flush_eq]
      dsimp only
      rw [if_pos (by exact Nat.not_le.mp hroom)]
    refine ⟨h, ?_, fun hroom' => absurd hroom' hroom⟩
    rw [herror]
    exact ⟨hflush.width, hflush.disk, rfl, hflush.offset⟩

theorem finalize_grows (i : Instance) : Grows i (left (finalize i)) where
  framed hf := by
    obtain ⟨h', hf', -⟩ := left_finalize_framed hf
    exact ⟨h', _, _, hf'⟩
  variableCount := by rw [finalize_same]
  clauses := by rw [finalize_same]
  path := by rw [finalize_same]
  options := by rw [finalize_same]

/-! ## Extending -/

theorem flush_grows (i : Instance) : Grows i i.flush where
  framed {h d p} hf := ⟨h, p, ByteArray.empty, flush_framed hf⟩
  variableCount := by rw [flush_eq]
  clauses := by rw [flush_eq]
  path := by rw [flush_eq]
  options := by rw [flush_eq]

theorem addClauses_writes (cs : List Clause) (i : Instance) :
    ∃ ls, Writes i (left (addClauses cs i)) ls := by
  induction cs generalizing i with
  | nil => exact ⟨[], .refl i⟩
  | cons c rest ih =>
    have hw := addClause_writes c i
    have hbind : addClauses (c :: rest) i =
        EStateM.bind (addClause c) (fun _ => addClauses rest) i := rfl
    rw [hbind, EStateM.bind]
    cases hc : addClause c i with
    | error stop i₁ =>
      rw [hc] at hw
      exact ⟨_, hw⟩
    | ok u i₁ =>
      rw [hc] at hw
      obtain ⟨ls, hrest⟩ := ih i₁
      exact ⟨_, hw.trans hrest⟩

/-- A file that is extended is reopened and marked; the clauses are written, and where all are
accepted the file is finished. -/
theorem extend_eq (hf : Framed i h d p) (cs : List Clause) :
    ∃ m, extend cs i = (i.here, (do addClauses cs; finalize : Run Instance Unit) m) ∧
      Framed m h (d ++ p) ByteArray.empty ∧
      m = { i with disk := m.disk, pending := some ByteArray.empty } := by
  refine ⟨({ i with pending := some p } : Instance).flush, ?_, flush_framed hf.reopened, rfl⟩
  unfold extend
  rw [reopen_framed hf]
  rfl

theorem extend_framed (hf : Framed i h d p) (cs : List Clause) :
    SameSetup i (left (extend cs i).2) ∧ i.clauses ≤ (left (extend cs i).2).clauses ∧
      ∃ h' q p', Framed (left (extend cs i).2) h' (d ++ p ++ q) p' := by
  obtain ⟨m, hextend, hm, hmsame⟩ := extend_eq hf cs
  have hsetup : SameSetup i m := by
    rw [hmsame]
    exact ⟨rfl, rfl, rfl, rfl⟩
  have hclauses : m.clauses = i.clauses := by rw [hmsame]
  obtain ⟨ls, hw⟩ := addClauses_writes cs m
  have hgrows := hw.grows
  have hsetup' := hsetup.trans hw.setup
  have hresult : (extend cs i).2 = EStateM.bind (addClauses cs) (fun _ => finalize) m := by
    rw [hextend]
    rfl
  rw [hresult, EStateM.bind]
  cases hadd : addClauses cs m with
  | error stop i₁ =>
    rw [hadd] at hgrows hsetup'
    exact ⟨hsetup', hclauses ▸ hgrows.clauses, hgrows.framed hm⟩
  | ok u i₁ =>
    rw [hadd] at hgrows hsetup'
    have hall := hgrows.trans (finalize_grows i₁)
    exact ⟨hsetup'.trans (finalize_setup i₁), hclauses ▸ hall.clauses, hall.framed hm⟩

/-! ## Taking an extension back -/

/-- A finished file: closed, with the header of its totals and the body on disk. -/
structure Finished (i : Instance) (d : ByteArray) : Prop where
  framed : Framed i i.paddedHeader.toUTF8 d ByteArray.empty
  closed : i.pending = none
  room : i.header.length ≤ headerWidth

/-- A finished file that is opened again and keeps its body is finished to what it was. -/
theorem Finished.finalize_eq (hi : Finished i d) (hs : SameSetup i i')
    (hclauses : i'.clauses = i.clauses) {h' : ByteArray} (hf : Framed i' h' d ByteArray.empty) :
    finalize i' = .ok () i := by
  have hheader : i'.header = i.header := header_congr hs.options hs.variableCount hclauses
  obtain ⟨r, hok, hr, hsame⟩ := finalize_framed hf (hheader ▸ hi.room)
  have hdisk : r.disk = i.disk := by
    rw [hr.disk, hi.framed.disk, paddedHeader, paddedHeader, hheader, ByteArray.append_empty]
  have hoffset : i'.offset = i.offset := hf.offset.trans hi.framed.offset.symm
  have hr' : r = i := by
    rw [hsame, hdisk, hs.path, hs.options, hs.variableCount, hs.context, hclauses, hoffset,
      ← hi.closed]
  rw [hok, hr']

/-- A finished file that has grown is the file it was once it is cut where it ended. -/
theorem Finished.retract_here (hi : Finished i d) (hs : SameSetup i i')
    (hclauses : i.clauses ≤ i'.clauses) {h' q p' : ByteArray} (hf' : Framed i' h' (d ++ q) p') :
    retract i.here i' = .ok () i := by
  have hoffset : i.offset = headerWidth + d.size := by
    rw [hi.framed.offset, ByteArray.size_empty, Nat.add_zero]
  have hwithin : Within i.here i' (d ++ q) := by
    refine ⟨Nat.le_of_eq hs.variableCount.symm, hclauses, ?_, ?_⟩
    · show headerWidth ≤ i.offset
      omega
    · show i.offset ≤ _
      rw [ByteArray.size_append]
      omega
  obtain ⟨r, hok, hr, hsame⟩ := rollback_framed hf' hwithin
  have hcut : (d ++ q).extract 0 (i.here.offset - headerWidth) = d := by
    rw [here, hoffset, Nat.add_sub_cancel_left, ByteArray.extract_append_eq_left rfl]
  rw [hcut] at hr
  have hsetup : SameSetup i r := by
    rw [hsame]
    exact ⟨hs.path, hs.options, rfl, hs.context⟩
  show EStateM.bind (rollback i.here) (fun _ => finalize) i' = _
  rw [EStateM.bind, hok]
  exact hi.finalize_eq hsetup (by rw [hsame]; rfl) hr

/-- An extension of a finished file can be taken back, also one that was refused. -/
theorem Finished.retract_extend (hi : Finished i d) (cs : List Clause) :
    retract (extend cs i).1 (left (extend cs i).2) = .ok () i := by
  obtain ⟨hs, hclauses, h', q, p', hf'⟩ := extend_framed hi.framed cs
  obtain ⟨m, hextend, -, -⟩ := extend_eq hi.framed cs
  have hmark : (extend cs i).1 = i.here := by rw [hextend]
  rw [ByteArray.append_empty] at hf'
  rw [hmark]
  exact hi.retract_here hs hclauses hf'

/-! ## One literal -/

theorem clauseCount_clauseLines_unit {l : Literal} (hopen : i.isOpen = true)
    (hcontext : i.context = []) (hl : l.word ≠ 0) :
    clauseCount (i.clauseLines [l]) = if l = Literal.always then 0 else 1 := by
  have hnever : Literal.never ≠ Literal.always := by decide
  by_cases halways : l = Literal.always
  · simp [clauseLines, hopen, hcontext, Clause.reduce, halways, clauseCount]
  · by_cases hnever' : l = Literal.never
    · simp [clauseLines, hopen, hcontext, Clause.reduce, hnever', hnever, clauseCount,
        Line.clause?]
    · simp [clauseLines, hopen, hcontext, Clause.reduce, halways, hnever', hl, clauseCount,
        Line.clause?, Except.map]

/-- A literal that is always true extends a finished file by nothing; any other counts as one
clause, also when it is refused. -/
theorem Finished.extend_unit (hi : Finished i d) (hcontext : i.context = []) {l : Literal}
    (hl : l.word ≠ 0) :
    (left (extend [[l]] i).2).clauses = i.clauses + (if l = Literal.always then 0 else 1) ∧
      (l = Literal.always → left (extend [[l]] i).2 = i) := by
  obtain ⟨m, hextend, hm, hsame⟩ := extend_eq hi.framed [[l]]
  rw [ByteArray.append_empty] at hm
  have hopen : m.isOpen = true := by rw [hsame]; rfl
  have hcontext' : m.context = [] := by rw [hsame]; exact hcontext
  have hclauses : m.clauses = i.clauses := by rw [hsame]
  have hresult : (extend [[l]] i).2 = EStateM.bind (addClause [l]) (fun _ => finalize) m := by
    rw [hextend]
    show EStateM.bind (EStateM.bind (addClause [l]) fun _ => pure ()) (fun _ => finalize) m = _
    simp only [EStateM.bind]
    cases addClause [l] m <;> rfl
  rw [hresult, EStateM.bind]
  constructor
  -- a clause is counted also when it is one too many
  · have hwrites := addClause_writes [l] m
    have hcount := hwrites.clauses
    rw [clauseCount_clauseLines_unit hopen hcontext' hl, hclauses] at hcount
    cases hadd : addClause [l] m with
    | error stop j =>
      rw [hadd] at hcount
      exact hcount
    | ok u j =>
      rw [hadd] at hcount
      show (left (finalize j)).clauses = _
      rw [finalize_same]
      exact hcount
  · rintro rfl
    -- a clause that is true is dropped, and finishing a finished file changes nothing
    have hadd : addClause [Literal.always] m = .ok () m := by
      simp [addClause, hopen, hcontext', Clause.reduce]
    have hsetup : SameSetup i m := by
      rw [hsame]
      exact ⟨rfl, rfl, rfl, rfl⟩
    rw [hadd]
    show left (finalize m) = i
    rw [hi.finalize_eq hsetup hclauses hm]
    rfl

end Clausify.Instance
