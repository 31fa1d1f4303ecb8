import Mathlib
import Clausify.Proofs.Instance.Extend

/-!
Histories of a file. A history is a file with the checkpoints that are still good; an operation
changes both, whether it succeeds or not. An operation lets the file grow, or grow behind a new
checkpoint, or cuts it at a checkpoint (`step_change`). So what was on disk at the beginning of a
history stays there, and every good checkpoint lies in the file (`Sane`, `sane_run`).
-/

namespace Clausify

/-- A checkpoint is not beyond another. -/
structure Checkpoint.Precedes (c c' : Checkpoint) : Prop where
  variableCount : c.variableCount ≤ c'.variableCount
  clauses : c.clauses ≤ c'.clauses
  offset : c.offset ≤ c'.offset

namespace Instance

/-- What can be done with a file. The checkpoint to go back to is named by its position among
those that are still good. -/
inductive Operation where
  | addVariable
  | addClause (clause : Clause)
  | addSoftClause (literal : Literal) (weight : Word)
  | addComment (text : String)
  | pushContext (literal : Literal)
  | popContext
  | mark
  | finalize
  | reopen
  | extend (clauses : List Clause)
  | rollback (position : Nat)
  | retract (position : Nat)

/-- A file and the checkpoints that are still good, the oldest first. -/
structure History where
  file : Instance
  marks : List Checkpoint := []

namespace History

/-- Goes back to a checkpoint, in one of two ways; the checkpoints after it are gone. -/
def back (undo : Checkpoint → Run Instance Unit) (position : Nat) (s : History) : History :=
  match s.marks[position]? with
  | none => s
  | some c => ⟨left (undo c s.file), s.marks.take (position + 1)⟩

/-- The history after an operation, whether or not the operation succeeds. -/
def step (s : History) : Operation → History
  | .addVariable => { s with file := s.file.addVariable }
  | .addClause c => { s with file := left (addClause c s.file) }
  | .addSoftClause l w => { s with file := left (addSoftClause l w s.file) }
  | .addComment text => { s with file := left (addComment text s.file) }
  | .pushContext l => { s with file := s.file.pushContext l }
  | .popContext => { s with file := left (popContext s.file) }
  | .mark =>
    match mark s.file with
    | .ok c file => ⟨file, s.marks ++ [c]⟩
    | .error _ file => { s with file }
  | .finalize => { s with file := left (finalize s.file) }
  | .reopen => { s with file := left (reopen s.file) }
  | .extend cs => ⟨left (extend cs s.file).2, s.marks ++ [(extend cs s.file).1]⟩
  | .rollback k => back rollback k s
  | .retract k => back retract k s

def run (s : History) (operations : List Operation) : History := operations.foldl step s

end History

/-! ## What an operation can do -/

variable {i i' : Instance} {h d p : ByteArray} {c : Checkpoint}

/-- The file is cut at a checkpoint: the counters are those of the checkpoint, and the body is
what was before it. -/
structure CutAt (c : Checkpoint) (d : ByteArray) (i i' : Instance) : Prop where
  framed : ∃ h', Framed i' h' (d.extract 0 (c.offset - headerWidth)) ByteArray.empty
  variableCount : i'.variableCount = c.variableCount
  clauses : i'.clauses = c.clauses
  path : i'.path = i.path
  options : i'.options = i.options

theorem rollback_cut (hf : Framed i h d p) (hc : Within c i d) :
    CutAt c d i (left (rollback c i)) := by
  obtain ⟨r, hok, hr, hsame⟩ := rollback_framed hf hc
  have hleft : left (rollback c i) = r := by
    rw [hok]
    rfl
  rw [hleft]
  exact ⟨⟨h, hr⟩, by rw [hsame], by rw [hsame], by rw [hsame], by rw [hsame]⟩

theorem CutAt.finalize (hcut : CutAt c d i i') : CutAt c d i (left (Instance.finalize i')) := by
  obtain ⟨h', hf⟩ := hcut.framed
  obtain ⟨h'', hf', -⟩ := left_finalize_framed hf
  rw [ByteArray.append_empty] at hf'
  refine ⟨⟨h'', hf'⟩, ?_, ?_, ?_, ?_⟩
  all_goals rw [finalize_same]
  · exact hcut.variableCount
  · exact hcut.clauses
  · exact hcut.path
  · exact hcut.options

theorem left_retract (hf : Framed i h d p) (hc : Within c i d) :
    left (retract c i) = left (Instance.finalize (left (rollback c i))) := by
  obtain ⟨r, hok, -, -⟩ := rollback_framed hf hc
  show left (EStateM.bind (rollback c) (fun _ => Instance.finalize) i) = _
  rw [EStateM.bind, hok]
  rfl

theorem retract_cut (hf : Framed i h d p) (hc : Within c i d) :
    CutAt c d i (left (retract c i)) := by
  rw [left_retract hf hc]
  exact (rollback_cut hf hc).finalize

theorem reopen_grows (hf : Framed i h d p) : Grows i (left (reopen i)) where
  framed {h' d' p'} hf' := by
    rw [reopen_framed hf']
    exact ⟨h', ByteArray.empty, p', by rw [ByteArray.append_empty]; exact hf'.reopened⟩
  variableCount := by rw [reopen_framed hf]; exact Nat.le_refl _
  clauses := by rw [reopen_framed hf]; exact Nat.le_refl _
  path := by rw [reopen_framed hf]; rfl
  options := by rw [reopen_framed hf]; rfl

theorem extend_grows (hf : Framed i h d p) (cs : List Clause) : Grows i (left (extend cs i).2) where
  framed {h' d' p'} hf' := by
    obtain ⟨-, -, r, q, p'', hf''⟩ := extend_framed hf' cs
    exact ⟨r, p' ++ q, p'', by rwa [← ByteArray.append_assoc]⟩
  variableCount := Nat.le_of_eq (extend_framed hf cs).1.variableCount.symm
  clauses := (extend_framed hf cs).2.1
  path := (extend_framed hf cs).1.path
  options := (extend_framed hf cs).1.options

theorem popContext_grows (i : Instance) : Grows i (left (popContext i)) := by
  unfold popContext
  split <;> exact .of_same rfl rfl rfl (Nat.le_refl _) (Nat.le_refl _) rfl rfl

theorem Within.grow (hc : Within c i d) (hg : Grows i i') (q : ByteArray) :
    Within c i' (d ++ q) where
  variableCount := Nat.le_trans hc.variableCount hg.variableCount
  clauses := Nat.le_trans hc.clauses hg.clauses
  after := hc.after
  before := by
    have := hc.before
    rw [ByteArray.size_append]
    omega

theorem here_within (hf : Framed i h d p) (hg : Grows i i') (q : ByteArray) :
    Within i.here i' (d ++ p ++ q) where
  variableCount := hg.variableCount
  clauses := hg.clauses
  after := by
    show headerWidth ≤ i.offset
    rw [hf.offset]
    omega
  before := by
    show i.offset ≤ _
    rw [hf.offset, ByteArray.size_append, ByteArray.size_append]
    omega

theorem Within.precedes_here (hc : Within c i d) (hf : Framed i h d p) : c.Precedes i.here where
  variableCount := hc.variableCount
  clauses := hc.clauses
  offset := by
    have := hc.before
    show c.offset ≤ i.offset
    rw [hf.offset]
    omega

namespace History

/-- What an operation can do to a history whose file has the body `d` on disk and `p` pending. -/
inductive Change (d p : ByteArray) (s s' : History) : Prop where
  /-- The file grows. -/
  | grow (hfile : Grows s.file s'.file) (hmarks : s'.marks = s.marks)
  /-- The file grows behind a new checkpoint, which has all before it on disk. -/
  | mark (hfile : Grows s.file s'.file) (hmarks : s'.marks = s.marks ++ [s.file.here])
      (hdisk : ∃ h q p', Framed s'.file h (d ++ p ++ q) p')
  /-- The file is cut at a checkpoint. -/
  | cut {k : Nat} {c : Checkpoint} (hc : s.marks[k]? = some c)
      (hfile : CutAt c d s.file s'.file) (hmarks : s'.marks = s.marks.take (k + 1))

variable {s : History}

theorem back_change {undo : Checkpoint → Run Instance Unit}
    (hundo : ∀ c ∈ s.marks, CutAt c d s.file (left (undo c s.file))) (k : Nat) :
    Change d p s (back undo k s) := by
  unfold back
  cases hk : s.marks[k]? with
  | none => exact .grow (.of_same rfl rfl rfl (Nat.le_refl _) (Nat.le_refl _) rfl rfl) rfl
  | some c => exact .cut hk (hundo c (List.mem_of_getElem? hk)) rfl

/-- Every operation lets the file grow or cuts it at a checkpoint. -/
theorem step_change (hf : Framed s.file h d p) (hw : ∀ c ∈ s.marks, Within c s.file d)
    (operation : Operation) : Change d p s (s.step operation) := by
  cases operation with
  | addVariable =>
    exact .grow (.of_same rfl rfl rfl (Nat.le_succ _) (Nat.le_refl _) rfl rfl) rfl
  | addClause clause => exact .grow (addClause_writes clause s.file).grows rfl
  | addSoftClause literal weight =>
    exact .grow (addSoftClause_writes literal weight s.file).grows rfl
  | addComment text => exact .grow (addComment_writes text s.file).grows rfl
  | pushContext literal =>
    exact .grow (.of_same rfl rfl rfl (Nat.le_refl _) (Nat.le_refl _) rfl rfl) rfl
  | popContext => exact .grow (popContext_grows s.file) rfl
  | mark =>
    refine .mark (flush_grows s.file) rfl ⟨h, ByteArray.empty, ByteArray.empty, ?_⟩
    rw [ByteArray.append_empty]
    exact flush_framed hf
  | finalize => exact .grow (finalize_grows s.file) rfl
  | reopen => exact .grow (reopen_grows hf) rfl
  | extend clauses =>
    -- the checkpoint is taken at the end of the file, before the clauses
    obtain ⟨m, hextend, -, -⟩ := extend_eq hf clauses
    obtain ⟨-, -, r, q, p', hf'⟩ := extend_framed hf clauses
    refine .mark (extend_grows hf clauses) ?_ ⟨r, q, p', hf'⟩
    show s.marks ++ [(extend clauses s.file).1] = _
    rw [hextend]
  | rollback position => exact back_change (fun c hc => rollback_cut hf (hw c hc)) position
  | retract position => exact back_change (fun c hc => retract_cut hf (hw c hc)) position

/-! ## What a history keeps -/

/-- A history that began with the body `b` in the file `origin`: the body is still there, and all
good checkpoints lie in the file, in order, none before the beginning. -/
structure Sane (origin : Instance) (b : ByteArray) (s : History) : Prop where
  path : s.file.path = origin.path
  options : s.file.options = origin.options
  variableCount : origin.variableCount ≤ s.file.variableCount
  clauses : origin.clauses ≤ s.file.clauses
  offset : origin.offset = headerWidth + b.size
  body : ∃ h e p, Framed s.file h (b ++ e) p ∧ ∀ c ∈ s.marks, Within c s.file (b ++ e)
  above : ∀ c ∈ s.marks, Checkpoint.Precedes origin.here c
  sorted : s.marks.Pairwise Checkpoint.Precedes

variable {origin : Instance} {b : ByteArray} {s' : History}

theorem Sane.grow (hs : Sane origin b s) (hfile : Grows s.file s'.file)
    (hmarks : s'.marks = s.marks) : Sane origin b s' where
  path := hfile.path.trans hs.path
  options := hfile.options.trans hs.options
  variableCount := Nat.le_trans hs.variableCount hfile.variableCount
  clauses := Nat.le_trans hs.clauses hfile.clauses
  offset := hs.offset
  body := by
    obtain ⟨h, e, p, hf, hw⟩ := hs.body
    obtain ⟨h', q, p', hf'⟩ := hfile.framed hf
    refine ⟨h', e ++ q, p', by rwa [← ByteArray.append_assoc], ?_⟩
    rw [hmarks, ← ByteArray.append_assoc]
    exact fun c hc => (hw c hc).grow hfile q
  above := hmarks ▸ hs.above
  sorted := hmarks ▸ hs.sorted

theorem Sane.mark (hs : Sane origin b s) {e : ByteArray} (hf : Framed s.file h (b ++ e) p)
    (hw : ∀ c ∈ s.marks, Within c s.file (b ++ e)) (hfile : Grows s.file s'.file)
    (hmarks : s'.marks = s.marks ++ [s.file.here])
    (hdisk : ∃ h q p', Framed s'.file h (b ++ e ++ p ++ q) p') : Sane origin b s' where
  path := hfile.path.trans hs.path
  options := hfile.options.trans hs.options
  variableCount := Nat.le_trans hs.variableCount hfile.variableCount
  clauses := Nat.le_trans hs.clauses hfile.clauses
  offset := hs.offset
  body := by
    obtain ⟨h', q, p', hf'⟩ := hdisk
    refine ⟨h', e ++ p ++ q, p', ?_, ?_⟩
    · simpa only [ByteArray.append_assoc] using hf'
    · rw [hmarks, List.forall_mem_append, List.forall_mem_singleton, ← ByteArray.append_assoc,
        ← ByteArray.append_assoc]
      refine ⟨fun c hc => ?_, here_within hf hfile q⟩
      rw [ByteArray.append_assoc]
      exact (hw c hc).grow hfile (p ++ q)
  above := by
    rw [hmarks, List.forall_mem_append, List.forall_mem_singleton]
    refine ⟨hs.above, hs.variableCount, hs.clauses, ?_⟩
    -- the end of the file lies behind the body from before the origin
    show origin.offset ≤ s.file.offset
    rw [hs.offset, hf.offset, ByteArray.size_append]
    omega
  sorted := by
    rw [hmarks, List.pairwise_append]
    refine ⟨hs.sorted, List.pairwise_singleton _ _, fun c hc c' hc' => ?_⟩
    rw [List.mem_singleton.mp hc']
    exact (hw c hc).precedes_here hf

/-- The checkpoints that stay good when the file is cut at one of them are not beyond it. -/
theorem precedes_of_mem_take {marks : List Checkpoint} (h : marks.Pairwise Checkpoint.Precedes)
    {k : Nat} (hc : marks[k]? = some c) {m : Checkpoint} (hm : m ∈ marks.take (k + 1)) :
    m.Precedes c := by
  have htake : marks.take (k + 1) = marks.take k ++ [c] := by
    rw [List.take_add_one, hc]
    rfl
  have hsorted := h.sublist (List.take_sublist (k + 1) marks)
  rw [htake, List.pairwise_append] at hsorted
  rw [htake, List.mem_append, List.mem_singleton] at hm
  rcases hm with hm | rfl
  · exact hsorted.2.2 m hm c (List.mem_singleton_self c)
  · exact ⟨Nat.le_refl _, Nat.le_refl _, Nat.le_refl _⟩

theorem Sane.cut (hs : Sane origin b s) {e : ByteArray}
    (hw : ∀ c ∈ s.marks, Within c s.file (b ++ e)) {k : Nat} (hc : s.marks[k]? = some c)
    (hfile : CutAt c (b ++ e) s.file s'.file) (hmarks : s'.marks = s.marks.take (k + 1)) :
    Sane origin b s' := by
  have hmem := List.mem_of_getElem? hc
  have habove := hs.above c hmem
  have hoffset : headerWidth + b.size ≤ c.offset := hs.offset ▸ habove.offset
  -- the cut is behind the origin, so the body from before the origin is kept
  have hcut : (b ++ e).extract 0 (c.offset - headerWidth) =
      b ++ e.extract 0 (c.offset - headerWidth - b.size) := by
    have hhead : b.extract 0 (c.offset - headerWidth) = b := by
      rw [← Nat.max_eq_left (by omega : b.size ≤ c.offset - headerWidth)]
      exact ByteArray.extract_zero_max_size
    rw [ByteArray.extract_append, hhead, Nat.zero_sub]
  obtain ⟨h', hf'⟩ := hfile.framed
  have hkept : ∀ m ∈ s'.marks, m ∈ s.marks := by
    rw [hmarks]
    exact fun m hm => List.mem_of_mem_take hm
  exact {
    path := hfile.path.trans hs.path
    options := hfile.options.trans hs.options
    variableCount := by
      rw [hfile.variableCount]
      exact habove.variableCount
    clauses := by
      rw [hfile.clauses]
      exact habove.clauses
    offset := hs.offset
    body := by
      refine ⟨h', _, _, hcut ▸ hf', fun m hm => ?_⟩
      -- the checkpoints that are left do not lie behind the cut
      have hle := precedes_of_mem_take hs.sorted hc (hmarks ▸ hm)
      refine ⟨?_, ?_, (hw m (hkept m hm)).after, ?_⟩
      · rw [hfile.variableCount]
        exact hle.variableCount
      · rw [hfile.clauses]
        exact hle.clauses
      · have hbefore := (hw c hmem).before
        have := hle.offset
        rw [← hcut, ByteArray.size_extract]
        omega
    above := fun m hm => hs.above m (hkept m hm)
    sorted := by
      rw [hmarks]
      exact hs.sorted.sublist (List.take_sublist _ _) }

theorem sane_step (hs : Sane origin b s) (operation : Operation) :
    Sane origin b (s.step operation) := by
  obtain ⟨h, e, p, hf, hw⟩ := hs.body
  cases step_change hf hw operation with
  | grow hfile hmarks => exact hs.grow hfile hmarks
  | mark hfile hmarks hdisk => exact hs.mark hf hw hfile hmarks hdisk
  | cut hc hfile hmarks => exact hs.cut hw hc hfile hmarks

theorem sane_run (hs : Sane origin b s) (operations : List Operation) :
    Sane origin b (s.run operations) := by
  induction operations generalizing s with
  | nil => exact hs
  | cons operation rest ih => exact ih (sane_step hs operation)

end History

end Instance

end Clausify
