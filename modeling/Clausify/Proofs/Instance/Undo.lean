import Mathlib
import Clausify.Proofs.Instance.History

/-!
Going back undoes. Two files are alike when they differ at most in their header regions and in how
much of the body is still pending; operations keep files alike (`alike_run`), and files that are
alike are finished to the same file (`Alike.finalize_eq_ok`). A file that is rolled back to a
checkpoint, after any operations since then, is like the file at the checkpoint.

Main statement: `rollback_undoes`.
-/

namespace Clausify.Instance

open Dimacs (Line)

variable {i i' j j' : Instance} {h h' d d' p p' : ByteArray} {c : Checkpoint}

/-! ## Files that are alike -/

theorem Framed.unique (hf : Framed i h d p) (hf' : Framed i h' d' p') : d = d' ∧ p = p' := by
  have hdisk : h ++ d = h' ++ d' := Option.some_inj.mp (hf.disk.symm.trans hf'.disk)
  refine ⟨?_, hf.pending.symm.trans hf'.pending⟩
  have hcut := congrArg (fun bytes => bytes.extract headerWidth bytes.size) hdisk
  rwa [ByteArray.extract_append_eq_right hf.width.symm ByteArray.size_append,
    ByteArray.extract_append_eq_right hf'.width.symm ByteArray.size_append] at hcut

/-- The files have the same body, counters, options and context, and both are open or both
closed. -/
structure Alike (i j : Instance) : Prop where
  path : i.path = j.path
  options : i.options = j.options
  variableCount : i.variableCount = j.variableCount
  clauses : i.clauses = j.clauses
  context : i.context = j.context
  isOpen : i.isOpen = j.isOpen
  body : ∃ h d p h' d' p', Framed i h d p ∧ Framed j h' d' p' ∧ d ++ p = d' ++ p'

theorem Alike.symm (ha : Alike i j) : Alike j i where
  path := ha.path.symm
  options := ha.options.symm
  variableCount := ha.variableCount.symm
  clauses := ha.clauses.symm
  context := ha.context.symm
  isOpen := ha.isOpen.symm
  body := by
    obtain ⟨h, d, p, h', d', p', hf, hf', heq⟩ := ha.body
    exact ⟨h', d', p', h, d, p, hf', hf, heq.symm⟩

theorem Alike.offset (ha : Alike i j) : i.offset = j.offset := by
  obtain ⟨h, d, p, h', d', p', hf, hf', heq⟩ := ha.body
  have hsize := congrArg ByteArray.size heq
  rw [ByteArray.size_append, ByteArray.size_append] at hsize
  rw [hf.offset, hf'.offset]
  omega

theorem Alike.here (ha : Alike i j) : i.here = j.here := by
  rw [Instance.here, Instance.here, ha.variableCount, ha.clauses, ha.offset]

theorem Alike.header (ha : Alike i j) :
    i.header = j.header ∧ i.paddedHeader = j.paddedHeader := by
  have hheader := header_congr ha.options ha.variableCount ha.clauses
  exact ⟨hheader, by rw [paddedHeader, paddedHeader, hheader]⟩

theorem Alike.finalize_eq_ok (ha : Alike i j) {final : Instance}
    (hok : finalize i = .ok () final) : finalize j = .ok () final := by
  have hroom := header_le_of_finalize hok
  obtain ⟨h, d, p, h', d', p', hf, hf', heq⟩ := ha.body
  obtain ⟨i', hi, hfi, hsame⟩ := finalize_framed hf hroom
  obtain ⟨j', hj, hfj, hsame'⟩ := finalize_framed hf' (ha.header.1 ▸ hroom)
  have hdisk : i'.disk = j'.disk := by rw [hfi.disk, hfj.disk, heq, ha.header.2]
  have hequal : i' = j' := by
    rw [hsame, hsame', hdisk]
    simp only [ha.path, ha.options, ha.variableCount, ha.clauses, ha.context, ha.offset]
  obtain rfl := (EStateM.Result.ok.inj (hok.symm.trans hi)).2
  rw [hj, hequal]

/-! ## Operations on files that are alike -/

theorem Alike.writes {ls : List Line} (ha : Alike i j) (hi : Writes i i' ls)
    (hj : Writes j j' ls) : Alike i' j' where
  path := by rw [hi.same, hj.same]; exact ha.path
  options := by rw [hi.same, hj.same]; exact ha.options
  variableCount := by rw [hi.same, hj.same]; exact ha.variableCount
  clauses := by rw [hi.clauses, hj.clauses, ha.clauses]
  context := by rw [hi.same, hj.same]; exact ha.context
  isOpen := by rw [hi.isOpen, hj.isOpen, ha.isOpen]
  body := by
    obtain ⟨h, d, p, h', d', p', hf, hf', heq⟩ := ha.body
    obtain ⟨q, r, hq, htext⟩ := hi.framed hf
    obtain ⟨q', r', hq', htext'⟩ := hj.framed hf'
    refine ⟨_, _, _, _, _, _, hq, hq', ?_⟩
    rw [ByteArray.append_assoc, htext, ByteArray.append_assoc, htext', ← ByteArray.append_assoc,
      heq, ByteArray.append_assoc]

theorem Alike.addClause (ha : Alike i j) (clause : Clause) :
    Alike (left (Instance.addClause clause i)) (left (Instance.addClause clause j)) := by
  have hlines : i.clauseLines clause = j.clauseLines clause := by
    simp only [clauseLines, ha.isOpen, ha.context, ha.options]
  exact ha.writes (addClause_writes clause i) (hlines ▸ addClause_writes clause j)

theorem Alike.addSoftClause (ha : Alike i j) (l : Literal) (weight : Word) :
    Alike (left (Instance.addSoftClause l weight i))
      (left (Instance.addSoftClause l weight j)) := by
  have hlines : i.softLines l weight = j.softLines l weight := by
    simp only [softLines, ha.isOpen, ha.options]
  exact ha.writes (addSoftClause_writes l weight i) (hlines ▸ addSoftClause_writes l weight j)

theorem Alike.addComment (ha : Alike i j) (text : String) :
    Alike (left (Instance.addComment text i)) (left (Instance.addComment text j)) := by
  have hwrites := addComment_writes text j
  rw [← ha.isOpen] at hwrites
  exact ha.writes (addComment_writes text i) hwrites

theorem Alike.settled (ha : Alike i j) (hi : SameSetup i i') (hj : SameSetup j j')
    (hci : i'.clauses = i.clauses) (hcj : j'.clauses = j.clauses) (hopen : i'.isOpen = j'.isOpen)
    (hfi : ∀ {h d p}, Framed i h d p → ∃ h', Framed i' h' (d ++ p) ByteArray.empty)
    (hfj : ∀ {h d p}, Framed j h d p → ∃ h', Framed j' h' (d ++ p) ByteArray.empty) :
    Alike i' j' where
  path := by rw [hi.path, hj.path, ha.path]
  options := by rw [hi.options, hj.options, ha.options]
  variableCount := by rw [hi.variableCount, hj.variableCount, ha.variableCount]
  clauses := by rw [hci, hcj, ha.clauses]
  context := by rw [hi.context, hj.context, ha.context]
  isOpen := hopen
  body := by
    obtain ⟨h, d, p, h', d', p', hf, hf', heq⟩ := ha.body
    obtain ⟨r, hr⟩ := hfi hf
    obtain ⟨r', hr'⟩ := hfj hf'
    exact ⟨r, _, _, r', _, _, hr, hr', by rw [heq]⟩

theorem flush_isOpen (i : Instance) : i.flush.isOpen = i.isOpen := by
  unfold flush
  split
  · rfl
  · next hpending => simp [isOpen, hpending]

theorem Alike.flush (ha : Alike i j) : Alike i.flush j.flush := by
  have hsetup : ∀ i : Instance, SameSetup i i.flush := by
    intro i
    rw [flush_eq]
    exact ⟨rfl, rfl, rfl, rfl⟩
  refine ha.settled (hsetup i) (hsetup j) (by rw [flush_eq]) (by rw [flush_eq]) ?_
    (fun hf => ⟨_, flush_framed hf⟩) (fun hf => ⟨_, flush_framed hf⟩)
  rw [flush_isOpen, flush_isOpen, ha.isOpen]

theorem Alike.finalize (ha : Alike i j) :
    Alike (left (Instance.finalize i)) (left (Instance.finalize j)) := by
  refine ha.settled (finalize_setup i) (finalize_setup j) (by rw [finalize_same])
    (by rw [finalize_same]) ?_ (fun hf => ?_) (fun hf => ?_)
  · rw [finalize_same, finalize_same j]
    rfl
  · obtain ⟨h', hf', -⟩ := left_finalize_framed hf
    exact ⟨h', hf'⟩
  · obtain ⟨h', hf', -⟩ := left_finalize_framed hf
    exact ⟨h', hf'⟩

theorem Alike.reopen (ha : Alike i j) :
    Alike (left (Instance.reopen i)) (left (Instance.reopen j)) := by
  obtain ⟨h, d, p, h', d', p', hf, hf', heq⟩ := ha.body
  rw [reopen_framed hf, reopen_framed hf']
  exact ⟨ha.path, ha.options, ha.variableCount, ha.clauses, ha.context, rfl,
    h, d, p, h', d', p', hf.reopened, hf'.reopened, heq⟩

/-- Files that are alike stay so when only the context or the number of variables changes. -/
theorem Alike.recount (ha : Alike i j) {context context' : List Literal} {n n' : Nat}
    (hcontext : context = context') (hn : n = n') :
    Alike { i with context, variableCount := n }
      { j with context := context', variableCount := n' } := by
  obtain ⟨h, d, p, h', d', p', hf, hf', heq⟩ := ha.body
  exact ⟨ha.path, ha.options, hn, ha.clauses, hcontext, ha.isOpen, h, d, p, h', d', p',
    hf.of_same rfl rfl rfl, hf'.of_same rfl rfl rfl, heq⟩

theorem Alike.popContext (ha : Alike i j) :
    Alike (left (Instance.popContext i)) (left (Instance.popContext j)) := by
  unfold Instance.popContext
  rw [ha.context]
  split
  · exact ha
  · exact ha.recount rfl ha.variableCount

theorem Alike.rollback (ha : Alike i j) (hf : Framed i h d p) (hf' : Framed j h' d' p')
    (hc : Within c i d) (hc' : Within c j d') :
    Alike (left (Instance.rollback c i)) (left (Instance.rollback c j)) := by
  obtain ⟨r, hok, hr, hsame⟩ := rollback_framed hf hc
  obtain ⟨r', hok', hr', hsame'⟩ := rollback_framed hf' hc'
  -- the bodies agree as a whole, though not in what is on disk already
  have hbody : d ++ p = d' ++ p' := by
    obtain ⟨_, _, _, _, _, _, hg, hg', heq⟩ := ha.body
    obtain ⟨rfl, rfl⟩ := hg.unique hf
    obtain ⟨rfl, rfl⟩ := hg'.unique hf'
    exact heq
  -- a checkpoint lies within what is on disk, so the pending bytes do not matter
  have hcut : ∀ {d p : ByteArray}, c.offset - headerWidth ≤ d.size →
      d.extract 0 (c.offset - headerWidth) = (d ++ p).extract 0 (c.offset - headerWidth) := by
    intro d p hle
    rw [ByteArray.extract_append, Nat.sub_eq_zero_of_le hle, Nat.zero_sub,
      ByteArray.extract_same, ByteArray.append_empty]
  have heq : d.extract 0 (c.offset - headerWidth) = d'.extract 0 (c.offset - headerWidth) := by
    have h₁ := hc.before
    have h₂ := hc'.before
    rw [hcut (by omega), hbody, ← hcut (by omega)]
  rw [hok, hok']
  refine ⟨?_, ?_, ?_, ?_, ?_, ?_, h, _, _, h', _, _, hr, hr', by rw [heq]⟩
  all_goals simp only [left]; rw [hsame, hsame']
  · exact ha.path
  · exact ha.options
  · exact ha.context
  · rfl

theorem Alike.retract (ha : Alike i j) (hf : Framed i h d p) (hf' : Framed j h' d' p')
    (hc : Within c i d) (hc' : Within c j d') :
    Alike (left (Instance.retract c i)) (left (Instance.retract c j)) := by
  rw [left_retract hf hc, left_retract hf' hc']
  exact (ha.rollback hf hf' hc hc').finalize

/-! ## Extensions of files that are alike -/

/-- Both runs come to their end or both stop, and leave files that are alike. -/
inductive Together : EStateM.Result Stop Instance Unit → EStateM.Result Stop Instance Unit → Prop
  | ok {i j : Instance} (ha : Alike i j) : Together (.ok () i) (.ok () j)
  | error {i j : Instance} {stop stop' : Stop} (ha : Alike i j) :
    Together (.error stop i) (.error stop' j)

theorem Together.left {x y : EStateM.Result Stop Instance Unit} (ht : Together x y) :
    Alike (left x) (left y) := by
  cases ht with
  | ok ha => exact ha
  | error ha => exact ha

theorem Together.bind {x k : Run Instance Unit} (hx : Together (x i) (x j))
    (hk : ∀ {i j : Instance}, Alike i j → Together (k i) (k j)) :
    Together (EStateM.bind x (fun _ => k) i) (EStateM.bind x (fun _ => k) j) := by
  unfold EStateM.bind
  generalize x i = a at hx
  generalize x j = b at hx
  cases hx with
  | ok ha => exact hk ha
  | error ha => exact .error ha

theorem Alike.addClause_together (ha : Alike i j) (clause : Clause) :
    Together (Instance.addClause clause i) (Instance.addClause clause j) := by
  have hleft := ha.addClause clause
  cases hopen : i.isOpen with
  | false =>
    have hopen' := ha.isOpen ▸ hopen
    simp only [Instance.addClause, hopen, hopen', Bool.not_false, if_true]
    exact .error ha
  | true =>
    have hopen' := ha.isOpen ▸ hopen
    cases hreduce : Clause.reduce (i.context ++ clause) with
    | error misuse =>
      simp only [Instance.addClause, hopen, hopen', ← ha.context, hreduce, Bool.not_true,
        Bool.false_eq_true, if_false]
      exact .error ha
    | ok o =>
      cases o with
      | none =>
        simp only [Instance.addClause, hopen, hopen', ← ha.context, hreduce, Bool.not_true,
          Bool.false_eq_true, if_false]
        exact .ok ha
      | some reduced =>
        simp only [Instance.addClause, hopen, hopen', ← ha.context, hreduce, Bool.not_true,
          Bool.false_eq_true, if_false] at hleft ⊢
        rw [← ha.options] at hleft ⊢
        rw [writeLine_eq _ reduced hopen, writeLine_eq _ reduced hopen']
        rw [← ha.options, ← ha.clauses]
        split
        · exact .error hleft
        · exact .ok hleft

theorem Alike.addClauses_together (ha : Alike i j) (cs : List Clause) :
    Together (addClauses cs i) (addClauses cs j) := by
  induction cs generalizing i j with
  | nil => exact .ok ha
  | cons clause rest ih =>
    exact (ha.addClause_together clause).bind fun ha₁ => ih ha₁

theorem Alike.finalize_together (ha : Alike i j) :
    Together (Instance.finalize i) (Instance.finalize j) := by
  have hleft := ha.finalize
  cases hi : Instance.finalize i with
  | ok u final =>
    rw [hi, ha.finalize_eq_ok hi] at hleft
    rw [ha.finalize_eq_ok hi]
    exact .ok hleft
  | error stop i₁ =>
    cases hj : Instance.finalize j with
    | ok u final => simp [ha.symm.finalize_eq_ok hj] at hi
    | error stop' j₁ =>
      rw [hi, hj] at hleft
      exact .error hleft

theorem Alike.extend (ha : Alike i j) (cs : List Clause) :
    (Instance.extend cs i).1 = (Instance.extend cs j).1 ∧
      Alike (left (Instance.extend cs i).2) (left (Instance.extend cs j).2) := by
  obtain ⟨h, d, p, h', d', p', hf, hf', heq⟩ := ha.body
  obtain ⟨m, hextend, hm, hsame⟩ := extend_eq hf cs
  obtain ⟨m', hextend', hm', hsame'⟩ := extend_eq hf' cs
  have hmarked : Alike m m' := by
    refine ⟨?_, ?_, ?_, ?_, ?_, ?_, h, _, _, h', _, _, hm, hm', by rw [heq]⟩
    all_goals rw [hsame, hsame']
    · exact ha.path
    · exact ha.options
    · exact ha.variableCount
    · exact ha.clauses
    · exact ha.context
    · rfl
  rw [hextend, hextend']
  refine ⟨ha.here, Together.left ?_⟩
  exact (hmarked.addClauses_together cs).bind fun ha₁ => ha₁.finalize_together

/-! ## Histories that are alike -/

namespace History

variable {s t : History} {origin origin' : Instance} {b b' : ByteArray}

/-- The files are alike, and the same checkpoints are good. -/
structure Alike (s t : History) : Prop where
  file : s.file.Alike t.file
  marks : s.marks = t.marks

theorem Alike.back {undo : Checkpoint → Run Instance Unit} (ha : Alike s t)
    (hundo : ∀ c ∈ s.marks, (left (undo c s.file)).Alike (left (undo c t.file))) (k : Nat) :
    Alike (back undo k s) (back undo k t) := by
  unfold History.back
  rw [← ha.marks]
  cases hk : s.marks[k]? with
  | none => exact ha
  | some c => exact ⟨hundo c (List.mem_of_getElem? hk), by rw [ha.marks]⟩

theorem alike_step (hs : Sane origin b s) (ht : Sane origin' b' t) (ha : Alike s t)
    (operation : Operation) : Alike (s.step operation) (t.step operation) := by
  obtain ⟨h, e, p, hf, hw⟩ := hs.body
  obtain ⟨h', e', p', hf', hw'⟩ := ht.body
  -- the same checkpoints are good in both histories
  rw [← ha.marks] at hw'
  have hfile := ha.file
  cases operation with
  | addVariable =>
    exact ⟨hfile.recount hfile.context (congrArg (· + 1) hfile.variableCount), ha.marks⟩
  | addClause clause => exact ⟨hfile.addClause clause, ha.marks⟩
  | addSoftClause literal weight => exact ⟨hfile.addSoftClause literal weight, ha.marks⟩
  | addComment text => exact ⟨hfile.addComment text, ha.marks⟩
  | pushContext literal =>
    exact ⟨hfile.recount (congrArg (· ++ [literal]) hfile.context) hfile.variableCount, ha.marks⟩
  | popContext => exact ⟨hfile.popContext, ha.marks⟩
  | mark =>
    refine ⟨hfile.flush, ?_⟩
    show s.marks ++ [s.file.here] = t.marks ++ [t.file.here]
    rw [ha.marks, hfile.here]
  | finalize => exact ⟨hfile.finalize, ha.marks⟩
  | reopen => exact ⟨hfile.reopen, ha.marks⟩
  | extend clauses =>
    obtain ⟨hmark, hextended⟩ := hfile.extend clauses
    exact ⟨hextended, by simp only [step, ha.marks, hmark]⟩
  | rollback position =>
    exact ha.back (fun c hc => hfile.rollback hf hf' (hw c hc) (hw' c hc)) position
  | retract position =>
    exact ha.back (fun c hc => hfile.retract hf hf' (hw c hc) (hw' c hc)) position

/-- Histories that are alike stay so under the same operations. -/
theorem alike_run (hs : Sane origin b s) (ht : Sane origin' b' t) (ha : Alike s t)
    (operations : List Operation) : Alike (s.run operations) (t.run operations) := by
  induction operations generalizing s t with
  | nil => exact ha
  | cons operation rest ih =>
    exact ih (sane_step hs operation) (sane_step ht operation) (alike_step hs ht ha operation)

theorem sane_create (path : String) (options : InstanceOptions) :
    Sane (create path options) "\n".toUTF8 { file := create path options } where
  path := rfl
  options := rfl
  variableCount := Nat.le_refl _
  clauses := Nat.le_refl _
  offset := by
    rw [(framed_create path options).offset, ByteArray.size_empty, Nat.add_zero]
  body := ⟨_, ByteArray.empty, _, by rw [ByteArray.append_empty]; exact framed_create path options,
    by simp⟩
  above := by simp
  sorted := .nil

theorem sane_marked (hf : Framed s.file h d p) :
    Sane s.file.flush (d ++ p) ⟨s.file.flush, [s.file.here]⟩ where
  path := rfl
  options := rfl
  variableCount := Nat.le_refl _
  clauses := Nat.le_refl _
  offset := by
    rw [(flush_framed hf).offset, ByteArray.size_empty, Nat.add_zero]
  body := by
    refine ⟨h, ByteArray.empty, ByteArray.empty, ?_, ?_⟩
    · rw [ByteArray.append_empty]
      exact flush_framed hf
    · rw [List.forall_mem_singleton]
      exact here_within hf (flush_grows s.file) _
  above := by
    rw [List.forall_mem_singleton, Instance.here, flush_eq]
    exact ⟨Nat.le_refl _, Nat.le_refl _, Nat.le_refl _⟩
  sorted := List.pairwise_singleton _ _

/-! ## Main statement -/

/-- The file `r` is the file of the history again, as it was when the checkpoint was taken and the
file was `marked`: counters and length are restored, the bytes behind the header region are those
of the marked file, and with the context of that time every continuation is finished to the same
file as from the history itself. -/
structure Undone (s : History) (marked r : Instance) : Prop where
  variableCount : r.variableCount = s.file.variableCount
  clauses : r.clauses = s.file.clauses
  offset : r.offset = s.file.offset
  isOpen : r.isOpen = true
  bytes : ∃ old new, marked.disk = some old ∧ r.disk = some new ∧
    new.extract headerWidth new.size = old.extract headerWidth old.size
  continues : ∃ file, Instance.reopen s.file = .ok () file ∧ ∀ rest,
    (∀ final, Instance.finalize (run ⟨{ r with context := s.file.context }, s.marks⟩ rest).file =
        .ok () final ↔ Instance.finalize (run ⟨file, s.marks⟩ rest).file = .ok () final) ∧
    ((run ⟨file, s.marks⟩ rest).file.variableCount < wordCount →
      (run ⟨file, s.marks⟩ rest).file.clauses < wordCount →
      ∃ final, Instance.finalize (run ⟨file, s.marks⟩ rest).file = .ok () final)

theorem Sane.finishes (hs : Sane origin b s) (hvariables : s.file.variableCount < wordCount)
    (hclauses : s.file.clauses < wordCount) :
    ∃ final, Instance.finalize s.file = .ok () final := by
  obtain ⟨h, e, p, hf, -⟩ := hs.body
  obtain ⟨final, hok, -, -⟩ := finalize_framed hf (length_header_le hvariables hclauses)
  exact ⟨final, hok⟩

/-- The file that is cut where a sane history began has the body and the counters of the
beginning. -/
theorem Sane.rollback_origin (hs : Sane origin b s) :
    ∃ r h, Instance.rollback origin.here s.file = .ok () r ∧ Framed r h b ByteArray.empty ∧
      r.path = origin.path ∧ r.options = origin.options ∧ r.here = origin.here ∧
      r.isOpen = true := by
  obtain ⟨h, e, p, hf, -⟩ := hs.body
  -- the origin lies within the file, since nothing before it is ever cut
  have hwithin : Within origin.here s.file (b ++ e) := by
    refine ⟨hs.variableCount, hs.clauses, ?_, ?_⟩
    · show headerWidth ≤ origin.offset
      rw [hs.offset]
      omega
    · show origin.offset ≤ _
      rw [hs.offset, ByteArray.size_append]
      omega
  obtain ⟨r, hok, hr, hsame⟩ := rollback_framed hf hwithin
  have hcut : (b ++ e).extract 0 (origin.here.offset - headerWidth) = b := by
    rw [Instance.here, hs.offset, Nat.add_sub_cancel_left, ByteArray.extract_append_eq_left rfl]
  rw [hcut] at hr
  refine ⟨r, h, hok, hr, ?_, ?_, ?_, ?_⟩
  · rw [hsame]
    exact hs.path
  · rw [hsame]
    exact hs.options
  · rw [hsame]
    rfl
  · rw [hsame]
    rfl

/-- What going back to the checkpoint of a sane history leaves. -/
theorem Sane.undone (hs : Sane origin b s) (hf : Framed s.file h d p) {r : Instance}
    (hr : Framed r h' (d ++ p) ByteArray.empty) (hpath : r.path = s.file.path)
    (hoptions : r.options = s.file.options) (hhere : r.here = s.file.here)
    (hopen : r.isOpen = true) : Undone s s.file.flush r := by
  obtain ⟨hvariables, hclauses, hoffset⟩ := Checkpoint.mk.inj hhere
  have hmarked := flush_framed hf
  have hreopen := reopen_framed hf
  -- the file that was cut, with the context of that time
  have hr' : Framed { r with context := s.file.context } h' (d ++ p) ByteArray.empty :=
    hr.of_same rfl rfl rfl
  have hgrows : Grows s.file { r with context := s.file.context } := by
    refine ⟨fun hg => ?_, Nat.le_of_eq hvariables.symm, Nat.le_of_eq hclauses.symm, hpath, hoptions⟩
    obtain ⟨rfl, rfl⟩ := hg.unique hf
    exact ⟨h', _, _, hr'⟩
  have hsane : Sane origin b ⟨{ r with context := s.file.context }, s.marks⟩ := hs.grow hgrows rfl
  have hsane' : Sane origin b ⟨{ s.file with pending := some p }, s.marks⟩ := by
    have := sane_step hs .reopen
    simpa only [step, hreopen, left] using this
  have halike : Alike ⟨{ r with context := s.file.context }, s.marks⟩
      ⟨{ s.file with pending := some p }, s.marks⟩ :=
    ⟨⟨hpath, hoptions, hvariables, hclauses, rfl, hopen, _, _, _, _, _, _, hr', hf.reopened, by
      rw [ByteArray.append_empty]⟩, rfl⟩
  refine ⟨hvariables, hclauses, hoffset, hopen, ⟨_, _, hmarked.disk, hr.disk, ?_⟩, _, hreopen,
    fun rest => ⟨fun final => ?_, (sane_run hsane' rest).finishes⟩⟩
  · rw [ByteArray.extract_append_eq_right hr.width.symm ByteArray.size_append,
      ByteArray.extract_append_eq_right hmarked.width.symm ByteArray.size_append]
  · have hrun := (alike_run hsane hsane' halike rest).file
    exact ⟨hrun.finalize_eq_ok, hrun.symm.finalize_eq_ok⟩

/-- Going back to a checkpoint undoes all operations since then, whether they succeeded or not
and however often they went back themselves. In particular an extension of a finished file can be
taken back byte for byte. -/
theorem rollback_undoes (path : String) (options : InstanceOptions)
    (before after : List Operation) :
    ∃ s c marked r, s = run { file := create path options } before ∧
      Instance.mark s.file = .ok c marked ∧
      Instance.rollback c (run ⟨marked, [c]⟩ after).file = .ok () r ∧ Undone s marked r ∧
      ∀ final, Instance.finalize s.file = .ok () final → ∀ cs,
        Instance.retract (Instance.extend cs final).1 (left (Instance.extend cs final).2) =
          .ok () final := by
  obtain ⟨s, hs⟩ : ∃ s, s = run { file := create path options } before := ⟨_, rfl⟩
  have hsane : Sane (create path options) "\n".toUTF8 s := by
    rw [hs]
    exact sane_run (sane_create path options) before
  obtain ⟨h, e, p, hf, -⟩ := hsane.body
  -- bringing pending bytes to disk does not move the end of the file
  have hmarked : s.file.flush.here = s.file.here := by
    rw [Instance.here, flush_eq]
    rfl
  obtain ⟨r, h', hok, hr, hpath, hoptions, hhere, hopen⟩ :=
    (sane_run (sane_marked hf) after).rollback_origin
  rw [hmarked] at hok hhere
  refine ⟨s, s.file.here, s.file.flush, r, hs, rfl, hok, ?_, ?_⟩
  · rw [flush_eq] at hpath hoptions
    exact hsane.undone hf hr hpath hoptions hhere hopen
  · intro final hfinal cs
    have hroom := header_le_of_finalize hfinal
    obtain ⟨i, hi, hfi, hsame⟩ := finalize_framed hf hroom
    obtain rfl := (EStateM.Result.ok.inj (hfinal.symm.trans hi)).2
    -- the header shows totals that finishing does not change
    have hheader : final.header = s.file.header ∧ final.paddedHeader = s.file.paddedHeader := by
      rw [hsame]
      exact ⟨rfl, rfl⟩
    have hfinished : final.Finished ("\n".toUTF8 ++ e ++ p) :=
      ⟨hheader.2 ▸ hfi, by rw [hsame], hheader.1 ▸ hroom⟩
    exact hfinished.retract_extend cs

end History

end Clausify.Instance
