import Mathlib
import Clausify.Proofs.Instance.Undo

/-!
The counters and the file agree. The ledger of a history (`Ledger`) lists the lines that are in its
file and says behind which of them each good checkpoint stands; every operation keeps a ledger,
whether it succeeds or not (`ledger_step`), and so does every run (`ledger_run`). Seen as bytes, a
file with a ledger is a header region on one line and complete lines, as many of them no comments
as there are clauses (`Account`); and whatever finishes such a file puts the totals into its first
line (`Titled`).

Main statement: `counters_and_file_agree`.
-/

namespace Clausify

/-! ## Bytes of a text -/

namespace Text

theorem data_toUTF8 (s : String) :
    s.toUTF8.data.toList = s.toList.flatMap String.utf8EncodeChar := by
  obtain ⟨l, rfl⟩ : ∃ l, s = String.ofList l := ⟨s.toList, String.ofList_toList.symm⟩
  rw [String.toUTF8_eq_toByteArray, String.toByteArray_ofList, String.toList_ofList,
    List.utf8Encode, List.data_toByteArray]

theorem toNat_ofNat_lt {n : Nat} (h : n < 256) : (UInt8.ofNat n).toNat = n :=
  Nat.mod_eq_of_lt h

/-- A byte below `128` is a character of its own: no byte of a longer code is so small. -/
theorem toNat_of_mem_utf8EncodeChar {b : UInt8} (hb : b.toNat < 128) {c : Char}
    (h : b ∈ String.utf8EncodeChar c) : c.toNat = b.toNat := by
  unfold String.utf8EncodeChar at h
  dsimp only at h
  split_ifs at h with h₁ h₂ h₃
  · rw [List.mem_singleton] at h
    rw [h, toNat_ofNat_lt (by omega)]
    rfl
  all_goals
    simp only [List.mem_cons, List.not_mem_nil, or_false] at h
    exfalso
  · rcases h with rfl | rfl <;> rw [toNat_ofNat_lt (by omega)] at hb <;> omega
  · rcases h with rfl | rfl | rfl <;> rw [toNat_ofNat_lt (by omega)] at hb <;> omega
  · rcases h with rfl | rfl | rfl | rfl <;> rw [toNat_ofNat_lt (by omega)] at hb <;> omega

end Text

namespace Instance

open Dimacs (Line)

def lineBreak : UInt8 := 10

/-- A line of bytes is a comment when it starts with the letter `c`. -/
def isComment (line : List UInt8) : Bool := line.head? == some 99

theorem lineBreak_not_mem {cs : List Char} (h : '\n' ∉ cs) :
    lineBreak ∉ cs.flatMap String.utf8EncodeChar := by
  intro hmem
  obtain ⟨c, hc, hb⟩ := List.mem_flatMap.mp hmem
  have hcode : c.toNat = '\n'.toNat := Text.toNat_of_mem_utf8EncodeChar (by decide) hb
  have hbreak : c = '\n' := Char.toNat_inj.mp hcode
  exact h (hbreak ▸ hc)

def lineBytes (l : Line) : List UInt8 := l.chars.flatMap String.utf8EncodeChar

theorem data_textOf (ls : List Line) :
    (textOf ls).toUTF8.data.toList = (ls.map lineBytes).flatMap (· ++ [lineBreak]) := by
  have hbreak : String.utf8EncodeChar '\n' = [lineBreak] := by decide
  rw [Text.data_toUTF8, textOf, String.toList_join, List.flatMap_map, List.flatMap_assoc,
    List.flatMap_map]
  congr 1
  funext l
  rw [Line.toList_text, List.flatMap_append, List.flatMap_singleton, hbreak]
  rfl

theorem isComment_lineBytes (l : Line) : (!isComment (lineBytes l)) = l.clause?.isSome := by
  cases l with
  | comment text =>
    have hc : String.utf8EncodeChar 'c' = [99] := by decide
    simp [lineBytes, Line.chars, hc, isComment, Line.clause?]
  | clause weight c =>
    obtain ⟨ch, rest, hchars, hch⟩ := Dimacs.Reading.chars_clause_cons weight c
    have hne : isComment (lineBytes (.clause weight c)) = false := by
      rw [lineBytes, hchars, List.flatMap_cons, isComment, beq_eq_false_iff_ne]
      intro hhead
      obtain ⟨b, bs, hb⟩ : ∃ b bs, String.utf8EncodeChar ch = b :: bs :=
        List.exists_cons_of_ne_nil String.utf8EncodeChar_ne_nil
      rw [hb, List.cons_append, List.head?_cons, Option.some_inj] at hhead
      have hcode : ch.toNat = 'c'.toNat :=
        Text.toNat_of_mem_utf8EncodeChar (b := 99) (by decide) (by rw [hb, hhead]; simp)
      obtain rfl : ch = 'c' := Char.toNat_inj.mp hcode
      exact absurd hch (by decide)
    rw [hne]
    rfl

theorem countP_lineBytes (ls : List Line) :
    (ls.map lineBytes).countP (fun line => !isComment line) = clauseCount ls := by
  rw [List.countP_map, clauseCount, List.length_filterMap_eq_countP]
  exact List.countP_congr fun l _ => by
    rw [Function.comp_apply, isComment_lineBytes]

/-! ## What is said of a file -/

variable {i i' : Instance} {h h' d d' p p' : ByteArray} {c : Checkpoint} {ls ls' : List Line}

/-- The content is a header region on a line of its own and complete lines; its length and the
number of lines that are no comments are the recorded ones. -/
structure Account (i : Instance) (region : List UInt8) (lines : List (List UInt8)) : Prop where
  content : ∃ bytes, i.content = some bytes ∧ bytes.size = i.offset ∧
    bytes.data.toList = region ++ lineBreak :: lines.flatMap (· ++ [lineBreak])
  width : region.length = 100
  region : lineBreak ∉ region
  complete : ∀ line ∈ lines, lineBreak ∉ line
  clauses : lines.countP (fun line => !isComment line) = i.clauses

/-- The header line of a file with these options. -/
def title (options : InstanceOptions) (variableCount clauses : Nat) : String :=
  let totals := toString variableCount ++ " " ++ toString clauses
  if options.weighted then
    "p wcnf " ++ totals ++ " " ++ (if options.top = 0 then 1000000000 else options.top : Word).text
  else "p cnf " ++ totals

/-- The first line on disk is the header with the totals, filled up with blanks to one hundred
bytes. -/
def Titled (options : InstanceOptions) (i : Instance) : Prop :=
  ∃ blanks rest,
    i.disk = some ((title options i.variableCount i.clauses ++
      String.ofList (List.replicate blanks ' ') ++ "\n").toUTF8 ++ rest) ∧
    (title options i.variableCount i.clauses).toUTF8.size + blanks = 100

/-- The header region has no line break. -/
def Clean (i : Instance) : Prop := ∃ h d p, Framed i h d p ∧ lineBreak ∉ h.data.toList

/-! ## Header regions -/

theorem clean_create (path : String) (options : InstanceOptions) :
    Clean (create path options) := by
  refine ⟨_, _, _, framed_create path options, ?_⟩
  rw [Text.data_toUTF8]
  exact lineBreak_not_mem (by simp)

theorem Clean.keep (hc : Clean i)
    (hkeep : ∀ {h d p}, Framed i h d p → ∃ d' p', Framed i' h d' p') : Clean i' := by
  obtain ⟨h, d, p, hf, hclean⟩ := hc
  obtain ⟨d', p', hf'⟩ := hkeep hf
  exact ⟨h, d', p', hf', hclean⟩

theorem Clean.writes (hc : Clean i) (hw : Writes i i' ls) : Clean i' :=
  hc.keep fun hf => by
    obtain ⟨q, p', hf', -⟩ := hw.framed hf
    exact ⟨_, p', hf'⟩

theorem Clean.finalize (hc : Clean i) : Clean (left (Instance.finalize i)) := by
  obtain ⟨h, d, p, hf, hclean⟩ := hc
  by_cases hroom : i.header.length ≤ headerWidth
  · obtain ⟨i', hok, hf', -⟩ := finalize_framed hf hroom
    rw [hok]
    refine ⟨_, _, _, hf', ?_⟩
    rw [Text.data_toUTF8]
    exact lineBreak_not_mem (Dimacs.newline_not_mem_paddedHeader _)
  · have hleft : left (Instance.finalize i) = { i.flush with pending := none } := by
      unfold Instance.finalize
      rw [flush_eq]
      dsimp only
      rw [if_pos (by exact Nat.not_le.mp hroom)]
      rfl
    have hflush := flush_framed hf
    rw [hleft]
    exact ⟨h, _, _, ⟨hflush.width, hflush.disk, rfl, hflush.offset⟩, hclean⟩

/-! ## Lines of files -/

theorem Has.eq_of_framed (hi : Has i ls) (hf : Framed i h d p) :
    d ++ p = ("\n" ++ textOf ls).toUTF8 := by
  obtain ⟨h', d', p', hf', hbody⟩ := hi.body
  obtain ⟨rfl, rfl⟩ := hf.unique hf'
  exact hbody

/-- A file with the same body and the same number of clauses has the same lines. -/
theorem Has.keep (hi : Has i ls) (hf : Framed i h d p) (hf' : Framed i' h' d' p')
    (hbody : d' ++ p' = d ++ p) (hclauses : i'.clauses = i.clauses) : Has i' ls where
  body := ⟨h', d', p', hf', hbody.trans (hi.eq_of_framed hf)⟩
  clauses := hclauses.trans hi.clauses

theorem Has.left_finalize (hi : Has i ls) : Has (left (Instance.finalize i)) ls := by
  obtain ⟨h, d, p, hf, -⟩ := hi.body
  obtain ⟨h', hf', -⟩ := left_finalize_framed hf
  exact hi.keep hf hf' ByteArray.append_empty (by rw [finalize_same])

/-- The checkpoint stands behind these lines. -/
structure Behind (c : Checkpoint) (ls : List Line) : Prop where
  offset : c.offset = headerWidth + ("\n" ++ textOf ls).toUTF8.size
  clauses : c.clauses = clauseCount ls

theorem Has.here (hi : Has i ls) : Behind i.here ls where
  offset := by
    obtain ⟨h, d, p, hf, hbody⟩ := hi.body
    show i.offset = _
    rw [hf.offset, ← hbody, ByteArray.size_append, Nat.add_assoc]
  clauses := hi.clauses

theorem size_textOf (ls : List Line) : ls.length ≤ (textOf ls).toUTF8.size := by
  rw [← ByteArray.size_data, ← Array.length_toList, data_textOf]
  induction ls with
  | nil => exact Nat.zero_le _
  | cons l rest ih =>
    rw [List.map_cons, List.flatMap_cons, List.length_append, List.length_append,
      List.length_singleton, List.length_cons]
    omega

/-- Of two checkpoints behind leading lines of a file, the one that comes first has fewer lines
before it. -/
theorem Behind.isPrefix {c c' : Checkpoint} {first second : List Line} (hc : Behind c first)
    (hc' : Behind c' second) (hle : c.offset ≤ c'.offset) (hfirst : first <+: ls)
    (hsecond : second <+: ls) : first <+: second := by
  rcases List.prefix_or_prefix_of_prefix hfirst hsecond with hlead | ⟨more, rfl⟩
  · exact hlead
  · -- lines between the two checkpoints would take room that is not there
    have hsize : (textOf (second ++ more)).toUTF8.size =
        (textOf second).toUTF8.size + (textOf more).toUTF8.size := by
      rw [textOf_append, toUTF8_append, ByteArray.size_append]
    have hmore : more.length = 0 := by
      have hlen := size_textOf more
      rw [hc.offset, hc'.offset, toUTF8_append, toUTF8_append, ByteArray.size_append,
        ByteArray.size_append] at hle
      omega
    rw [List.length_eq_zero_iff.mp hmore, List.append_nil]

theorem Has.cut (hi : Has i ls) (hf : Framed i h d p) (hwithin : Within c i d)
    (hbehind : Behind c ls') (hlead : ls' <+: ls) (hcut : CutAt c d i i') : Has i' ls' where
  body := by
    obtain ⟨r, hr⟩ := hcut.framed
    obtain ⟨more, rfl⟩ := hlead
    refine ⟨r, _, _, hr, ?_⟩
    have hlines : d ++ p = ("\n" ++ textOf ls').toUTF8 ++ (textOf more).toUTF8 := by
      rw [hi.eq_of_framed hf, textOf_append, ← String.append_assoc, toUTF8_append]
    have hsize : c.offset - headerWidth = ("\n" ++ textOf ls').toUTF8.size := by
      rw [hbehind.offset, Nat.add_sub_cancel_left]
    have hle : c.offset - headerWidth ≤ d.size := by
      have := hwithin.before
      omega
    calc d.extract 0 (c.offset - headerWidth) ++ ByteArray.empty
        = (d ++ p).extract 0 (c.offset - headerWidth) := by
          rw [ByteArray.append_empty, ByteArray.extract_append, Nat.sub_eq_zero_of_le hle,
            Nat.zero_sub, ByteArray.extract_same, ByteArray.append_empty]
      _ = ("\n" ++ textOf ls').toUTF8 := by
          rw [hlines, ByteArray.extract_append_eq_left hsize]
  clauses := hcut.clauses.trans hbehind.clauses

namespace History

variable {s s' : History} {origin : Instance} {b : ByteArray}

/-! ## The ledger of a history -/

/-- The file has these lines, and every good checkpoint stands behind some leading ones. -/
structure Ledger (s : History) (ls : List Line) : Prop where
  has : s.file.Has ls
  clean : s.file.Clean
  marks : ∀ c ∈ s.marks, ∃ ls', ls' <+: ls ∧ Behind c ls'

theorem ledger_create (path : String) (options : InstanceOptions) :
    Ledger { file := create path options } [] :=
  ⟨has_create path options, clean_create path options, by simp⟩

/-- Checkpoints stay good when lines are added. -/
theorem Ledger.grow (hl : Ledger s ls) (hhas : s'.file.Has (ls ++ ls')) (hclean : s'.file.Clean)
    (hmarks : s'.marks = s.marks) : Ledger s' (ls ++ ls') := by
  refine ⟨hhas, hclean, fun c hc => ?_⟩
  obtain ⟨before, hlead, hbehind⟩ := hl.marks c (hmarks ▸ hc)
  exact ⟨before, hlead.trans (List.prefix_append ls ls'), hbehind⟩

theorem Ledger.mark (hl : Ledger s ls) (hhas : s'.file.Has (ls ++ ls')) (hclean : s'.file.Clean)
    (hmarks : s'.marks = s.marks ++ [s.file.here]) : Ledger s' (ls ++ ls') := by
  refine ⟨hhas, hclean, ?_⟩
  rw [hmarks, List.forall_mem_append, List.forall_mem_singleton]
  refine ⟨fun c hc => ?_, ls, List.prefix_append ls ls', hl.has.here⟩
  obtain ⟨before, hlead, hbehind⟩ := hl.marks c hc
  exact ⟨before, hlead.trans (List.prefix_append ls ls'), hbehind⟩

theorem Ledger.writes (hl : Ledger s ls) (hw : Writes s.file s'.file ls')
    (hmarks : s'.marks = s.marks) : Ledger s' (ls ++ ls') :=
  hl.grow (hl.has.writes hw) (hl.clean.writes hw) hmarks

theorem Ledger.same (hl : Ledger s ls) (hdisk : s'.file.disk = s.file.disk)
    (hpending : s'.file.pending = s.file.pending) (hoffset : s'.file.offset = s.file.offset)
    (hclauses : s'.file.clauses = s.file.clauses) (hmarks : s'.marks = s.marks) :
    Ledger s' ls where
  has := by
    obtain ⟨h, d, p, hf, -⟩ := hl.has.body
    exact hl.has.keep hf (hf.of_same hdisk hpending hoffset) rfl hclauses
  clean := hl.clean.keep fun hf => ⟨_, _, hf.of_same hdisk hpending hoffset⟩
  marks := hmarks ▸ hl.marks

/-- A file that is cut at a good checkpoint keeps the lines before it, and the checkpoints that
are still good stand behind these. -/
theorem Ledger.cut (hl : Ledger s ls) (hs : Sane origin b s) {undo : Checkpoint → Run Instance Unit}
    (hundo : ∀ {h d p}, Framed s.file h d p → ∀ c, Within c s.file d →
      CutAt c d s.file (left (undo c s.file)) ∧ (left (undo c s.file)).Clean) (k : Nat) :
    ∃ ls', Ledger (back undo k s) ls' := by
  unfold back
  cases hk : s.marks[k]? with
  | none => exact ⟨ls, hl⟩
  | some c =>
    have hmem := List.mem_of_getElem? hk
    obtain ⟨h, e, p, hf, hw⟩ := hs.body
    obtain ⟨hcut, hclean⟩ := hundo hf c (hw c hmem)
    obtain ⟨kept, hlead, hbehind⟩ := hl.marks c hmem
    refine ⟨kept, hl.has.cut hf (hw c hmem) hbehind hlead hcut, hclean, fun m hm => ?_⟩
    have hle := precedes_of_mem_take hs.sorted hk hm
    obtain ⟨before, hbefore, hm'⟩ := hl.marks m (List.mem_of_mem_take hm)
    exact ⟨before, hm'.isPrefix hbehind hle.offset hbefore hlead, hm'⟩

theorem clean_rollback (hclean : i.Clean) (hf : Framed i h d p) (hc : Within c i d) :
    (left (Instance.rollback c i)).Clean :=
  hclean.keep fun hf' => by
    obtain ⟨rfl, rfl⟩ := hf'.unique hf
    obtain ⟨r, hok, hr, -⟩ := rollback_framed hf' hc
    rw [hok]
    exact ⟨_, _, hr⟩

/-- An extension writes its clauses behind the end of the file, up to the first that is refused;
where none is, the file is finished. -/
theorem extend_cases (hf : Framed i h d p) (cs : List Clause) :
    ∃ m j ls', (extend cs i).1 = i.here ∧ Framed m h (d ++ p) ByteArray.empty ∧
      SameSetup i m ∧ m.clauses = i.clauses ∧ Writes m j ls' ∧
      ((extend cs i).2 = finalize j ∨
        ∃ stop, addClauses cs m = .error stop j ∧ (extend cs i).2 = .error stop j) := by
  obtain ⟨m, hextend, hm, hsame⟩ := extend_eq hf cs
  have hresult : (extend cs i).2 = EStateM.bind (addClauses cs) (fun _ => finalize) m := by
    rw [hextend]
    rfl
  obtain ⟨ls', hw⟩ := addClauses_writes cs m
  have hsetup : SameSetup i m := by
    rw [hsame]
    exact ⟨rfl, rfl, rfl, rfl⟩
  refine ⟨m, left (addClauses cs m), ls', by rw [hextend], hm, hsetup, by rw [hsame], hw, ?_⟩
  rw [hresult, EStateM.bind]
  cases addClauses cs m with
  | ok u j => exact .inl rfl
  | error stop j => exact .inr ⟨stop, rfl, rfl⟩

theorem Ledger.extend (hl : Ledger s ls) (cs : List Clause) :
    ∃ ls', Ledger (s.step (.extend cs)) ls' := by
  obtain ⟨h, d, p, hf, hregion⟩ := hl.clean
  obtain ⟨m, j, new, hmark, hm, -, hclauses, hw, hresult⟩ := extend_cases hf cs
  have hhas : j.Has (ls ++ new) :=
    (hl.has.keep hf hm ByteArray.append_empty hclauses).writes hw
  have hclean : j.Clean := Clean.writes ⟨h, _, _, hm, hregion⟩ hw
  have hmarks : (s.step (.extend cs)).marks = s.marks ++ [s.file.here] := by rw [← hmark]; rfl
  refine ⟨ls ++ new, ?_⟩
  rcases hresult with hresult | ⟨stop, -, hresult⟩
  · refine hl.mark ?_ ?_ hmarks
    · show (left (Instance.extend cs s.file).2).Has _
      rw [hresult]
      exact hhas.left_finalize
    · show (left (Instance.extend cs s.file).2).Clean
      rw [hresult]
      exact hclean.finalize
  · refine hl.mark ?_ ?_ hmarks
    · show (left (Instance.extend cs s.file).2).Has _
      rw [hresult]
      exact hhas
    · show (left (Instance.extend cs s.file).2).Clean
      rw [hresult]
      exact hclean

/-- Every operation keeps a ledger, whether it succeeds or not. -/
theorem ledger_step (hs : Sane origin b s) (hl : Ledger s ls) (operation : Operation) :
    ∃ ls', Ledger (s.step operation) ls' := by
  obtain ⟨h, d, p, hf, -⟩ := hl.has.body
  cases operation with
  | addVariable => exact ⟨ls, hl.same rfl rfl rfl rfl rfl⟩
  | addClause clause => exact ⟨_, hl.writes (addClause_writes clause s.file) rfl⟩
  | addSoftClause literal weight =>
    exact ⟨_, hl.writes (addSoftClause_writes literal weight s.file) rfl⟩
  | addComment text => exact ⟨_, hl.writes (addComment_writes text s.file) rfl⟩
  | pushContext literal => exact ⟨ls, hl.same rfl rfl rfl rfl rfl⟩
  | popContext =>
    -- with or without a context to take away, the bytes stay as they are
    have hsame : ∃ context, left (popContext s.file) = { s.file with context } := by
      unfold popContext
      split <;> exact ⟨_, rfl⟩
    obtain ⟨context, hsame⟩ := hsame
    refine ⟨ls, ?_⟩
    show Ledger ⟨left (popContext s.file), s.marks⟩ ls
    rw [hsame]
    exact hl.same rfl rfl rfl rfl rfl
  | mark =>
    refine ⟨ls ++ [], hl.mark ?_ (hl.clean.keep fun hf => ⟨_, _, flush_framed hf⟩) rfl⟩
    rw [List.append_nil]
    exact hl.has.keep hf (flush_framed hf) ByteArray.append_empty (by
      show s.file.flush.clauses = _
      rw [flush_eq])
  | finalize =>
    refine ⟨ls ++ [], hl.grow ?_ hl.clean.finalize rfl⟩
    rw [List.append_nil]
    exact hl.has.left_finalize
  | reopen =>
    have hfile : (s.step .reopen).file = { s.file with pending := some p } := by
      show left (Instance.reopen s.file) = _
      rw [reopen_framed hf]
      rfl
    refine ⟨ls ++ [], hl.grow ?_ (hl.clean.keep fun hf' => ?_) rfl⟩
    · rw [List.append_nil, hfile]
      exact hl.has.keep hf hf.reopened rfl rfl
    · obtain ⟨rfl, rfl⟩ := hf'.unique hf
      rw [hfile]
      exact ⟨_, _, hf'.reopened⟩
  | extend clauses => exact hl.extend clauses
  | rollback position =>
    exact hl.cut hs (fun hf c hc => ⟨rollback_cut hf hc, clean_rollback hl.clean hf hc⟩) position
  | retract position =>
    refine hl.cut hs (fun hf c hc => ⟨retract_cut hf hc, ?_⟩) position
    rw [left_retract hf hc]
    exact (clean_rollback hl.clean hf hc).finalize

theorem ledger_run (hs : Sane origin b s) (hl : Ledger s ls) (operations : List Operation) :
    ∃ ls', Ledger (s.run operations) ls' := by
  induction operations generalizing s ls with
  | nil => exact ⟨ls, hl⟩
  | cons operation rest ih =>
    obtain ⟨ls', hl'⟩ := ledger_step hs hl operation
    exact ih (sane_step hs operation) hl'

end History

/-! ## Lines and header as bytes -/

theorem Has.account (hi : Has i ls) (hclean : i.Clean) :
    ∃ region lines, Account i region lines := by
  obtain ⟨h, d, p, hf, hregion⟩ := hclean
  have hbody := hi.eq_of_framed hf
  have hcontent : i.content = some (h ++ (d ++ p)) := by
    rw [content, hf.disk, Option.map_some, hf.pending, ByteArray.append_assoc]
  have hbreak : ("\n" : String).toUTF8.data.toList = [lineBreak] := by decide
  refine ⟨h.data.toList, ls.map lineBytes, ⟨_, hcontent, ?_, ?_⟩, ?_, hregion, ?_, ?_⟩
  · rw [ByteArray.size_append, ByteArray.size_append, hf.width, hf.offset, Nat.add_assoc]
  · rw [hbody, toUTF8_append, ByteArray.data_append, ByteArray.data_append, Array.toList_append,
      Array.toList_append, data_textOf, hbreak]
    rfl
  · rw [Array.length_toList, ByteArray.size_data, hf.width]
    rfl
  · intro line hline
    obtain ⟨l, -, rfl⟩ := List.mem_map.mp hline
    exact lineBreak_not_mem l.newline_not_mem_chars
  · rw [countP_lineBytes, hi.clauses]

theorem title_eq_header {path : String} {options : InstanceOptions}
    (hoptions : i.options = (create path options).options) :
    title options i.variableCount i.clauses = i.header := by
  unfold title header
  rw [hoptions]
  simp only [create, defaultTop, String.append_assoc]

theorem Has.titled (hi : Has i ls) {path : String} {options : InstanceOptions}
    (hoptions : i.options = (create path options).options)
    (hok : Instance.finalize i = .ok () i') :
    Titled options i' ∧ i'.variableCount = i.variableCount ∧ i'.clauses = i.clauses := by
  have hroom := header_le_of_finalize hok
  obtain ⟨final, hfinal, -, hsame⟩ := hi.finalize hroom
  obtain rfl := (EStateM.Result.ok.inj (hok.symm.trans hfinal)).2
  have htitle : title options i'.variableCount i'.clauses = i.header := by
    rw [hsame]
    exact title_eq_header hoptions
  refine ⟨⟨headerWidth - i.header.length, (textOf ls).toUTF8, ?_, ?_⟩, by rw [hsame], by rw [hsame]⟩
  · rw [htitle, ← toUTF8_append, hsame]
    rfl
  · rw [htitle, i.ascii_header.size_toUTF8]
    exact Nat.add_sub_cancel' hroom

/-! ## Main statement -/

/-- The totals are machine words. -/
def InWords (i : Instance) : Prop := i.variableCount < wordCount ∧ i.clauses < wordCount

theorem addClause_no_overflow {clause : Clause} :
    addClause clause i ≠ .error (.fault .headerOverflow) i' := by
  unfold addClause
  split
  · simp
  · next hopen =>
    have hopen : i.isOpen = true := by simpa using hopen
    split
    · simp
    · simp
    · rw [writeLine_eq _ _ hopen]
      split <;> simp

theorem addClauses_no_overflow (cs : List Clause) (i i' : Instance) :
    addClauses cs i ≠ .error (.fault .headerOverflow) i' := by
  induction cs generalizing i with
  | nil => exact nofun
  | cons clause rest ih =>
    show EStateM.bind (addClause clause) (fun _ => addClauses rest) i ≠ _
    rw [EStateM.bind]
    cases hclause : addClause clause i with
    | ok u j => exact ih j
    | error stop j =>
      intro h
      obtain ⟨rfl, rfl⟩ := EStateM.Result.error.inj h
      exact addClause_no_overflow hclause

namespace History

/-- Whatever finishes the file of the history finds room for the header, and puts the totals in the
first line. -/
structure Finishes (options : InstanceOptions) (s : History) : Prop where
  finalize : s.file.InWords → ∃ final, Instance.finalize s.file = .ok () final ∧
    Titled options final ∧ final.variableCount = s.file.variableCount ∧
    final.clauses = s.file.clauses
  retract : s.file.InWords → ∀ c ∈ s.marks, ∃ final, Instance.retract c s.file = .ok () final ∧
    Titled options final ∧ final.variableCount = c.variableCount ∧ final.clauses = c.clauses
  extend : ∀ cs, (left (Instance.extend cs s.file).2).InWords →
    (∀ final, (Instance.extend cs s.file).2 = .ok () final → Titled options final) ∧
      ∀ rest, (Instance.extend cs s.file).2 ≠ .error (.fault .headerOverflow) rest

theorem Ledger.finishes (hl : Ledger s ls) (hs : Sane origin b s) {path : String}
    {options : InstanceOptions} (hoptions : s.file.options = (create path options).options) :
    Finishes options s where
  finalize hwords := by
    obtain ⟨final, hok⟩ := hs.finishes hwords.1 hwords.2
    exact ⟨final, hok, hl.has.titled hoptions hok⟩
  retract hwords c hc := by
    obtain ⟨h, e, p, hf, hw⟩ := hs.body
    obtain ⟨before, hlead, hbehind⟩ := hl.marks c hc
    have hcut := rollback_cut hf (hw c hc)
    obtain ⟨r, hok, -, -⟩ := rollback_framed hf (hw c hc)
    rw [hok] at hcut
    have hhas : r.Has before := hl.has.cut hf (hw c hc) hbehind hlead hcut
    -- the totals at the checkpoint are no greater than those of the file
    have hroom : r.header.length ≤ headerWidth := by
      apply length_header_le
      · exact Nat.lt_of_le_of_lt (hcut.variableCount ▸ (hw c hc).variableCount) hwords.1
      · exact Nat.lt_of_le_of_lt (hcut.clauses ▸ (hw c hc).clauses) hwords.2
    obtain ⟨final, hfinal, -, -⟩ := hhas.finalize hroom
    obtain ⟨htitled, hv, hclauses⟩ := hhas.titled (hcut.options.trans hoptions) hfinal
    refine ⟨final, ?_, htitled, hv.trans hcut.variableCount, hclauses.trans hcut.clauses⟩
    show EStateM.bind (Instance.rollback c) (fun _ => Instance.finalize) s.file = _
    rw [EStateM.bind, hok]
    exact hfinal
  extend cs hwords := by
    obtain ⟨h, d, p, hf, -⟩ := hl.has.body
    obtain ⟨m, j, new, -, hm, hsetup, hclauses, hw, hresult⟩ := extend_cases hf cs
    have hhas : j.Has (ls ++ new) :=
      (hl.has.keep hf hm ByteArray.append_empty hclauses).writes hw
    have hoptions' : j.options = (create path options).options :=
      (hsetup.trans hw.setup).options.trans hoptions
    -- all clauses are written and the file is finished, or one of them is refused
    rcases hresult with hresult | ⟨stop, hadd, hresult⟩
    · rw [hresult] at hwords ⊢
      have hroom : j.header.length ≤ headerWidth := by
        rw [finalize_same] at hwords
        exact length_header_le hwords.1 hwords.2
      obtain ⟨final, hfinal, -, -⟩ := hhas.finalize hroom
      refine ⟨fun final hok => (hhas.titled hoptions' hok).1, fun rest => ?_⟩
      rw [hfinal]
      exact nofun
    · rw [hresult]
      refine ⟨nofun, fun rest h => ?_⟩
      obtain ⟨rfl, rfl⟩ := EStateM.Result.error.inj h
      exact addClauses_no_overflow cs m j hadd

/-- After any operations, failing ones and goings back included, the content of the file is as
long as recorded and made of a header region of one hundred bytes and complete lines, and of the
lines as many are no comments as clauses were counted. Finishing the file succeeds and leaves the
totals in its first line. -/
theorem counters_and_file_agree (path : String) (options : InstanceOptions)
    (operations : List Operation) :
    ∃ s, s = run { file := create path options } operations ∧
      (∃ region lines, Account s.file region lines) ∧ Finishes options s := by
  have hcreate := sane_create path options
  have hsane := sane_run hcreate operations
  obtain ⟨ls, hledger⟩ := ledger_run hcreate (ledger_create path options) operations
  exact ⟨_, rfl, hledger.has.account hledger.clean, hledger.finishes hsane hsane.options⟩

/-- A weighted file with a limit of one clause: the second clause and the soft one are refused but
written, the comment has a line break, and the file was finished before it is cut. -/
def refusals : List Operation :=
  [.addVariable, .addComment "two\nlines", .addClause [⟨1⟩], .mark, .addClause [⟨-1⟩],
    .addSoftClause ⟨1⟩ 5, .finalize, .rollback 0]

theorem refusals_agree :
    ∃ s, s = run { file := create "f" { clauseLimit := 1, weighted := true } } refusals ∧
      (∃ region lines, Account s.file region lines) ∧
      ∃ final, Instance.finalize s.file = .ok () final ∧
        Titled { clauseLimit := 1, weighted := true } final ∧ final.variableCount = 1 ∧
        final.clauses = 1 := by
  obtain ⟨s, hs, haccount, hfinishes⟩ :=
    counters_and_file_agree "f" { clauseLimit := 1, weighted := true } refusals
  have hvariables : s.file.variableCount = 1 := by rw [hs]; decide +kernel
  have hclauses : s.file.clauses = 1 := by rw [hs]; decide +kernel
  have hwords : s.file.InWords := by
    rw [InWords, hvariables, hclauses]
    decide
  obtain ⟨final, hok, htitled, hv, hc⟩ := hfinishes.finalize hwords
  exact ⟨s, hs, haccount, final, hok, htitled, hv.trans hvariables, hc.trans hclauses⟩

end History

end Instance

end Clausify
