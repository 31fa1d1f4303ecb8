import Mathlib
import Clausify.Instance.Basic
import Clausify.Proofs.Number.Decimal

/-!
The bytes of an instance file. A file is a header region of one hundred bytes and a body; of the
body a part is on disk and the rest is pending. `Framed i h d p` says that `i` has the header
region `h`, the body `d` on disk and `p` pending. Every operation keeps this form:

* writing appends to the body and leaves what is on disk there (`writeText_framed`);
* finishing replaces the header region only (`finalize_framed`);
* going back to a checkpoint cuts the body where it was (`rollback_framed`).
-/

namespace Clausify

namespace Text

def Ascii (s : String) : Prop := ∀ c ∈ s.toList, c.toNat < 128

theorem Ascii.append {s t : String} (hs : Ascii s) (ht : Ascii t) : Ascii (s ++ t) := by
  intro c hc
  rw [String.toList_append, List.mem_append] at hc
  exact hc.elim (hs c) (ht c)

theorem ascii_ofList_replicate {c : Char} (hc : c.toNat < 128) (n : Nat) :
    Ascii (String.ofList (List.replicate n c)) := by
  intro b hb
  rw [String.toList_ofList] at hb
  obtain rfl := List.eq_of_mem_replicate hb
  exact hc

theorem toNat_lt_of_isDigit {c : Char} (h : c.isDigit = true) : c.toNat < 128 := by
  simp only [Char.isDigit, Bool.and_eq_true, decide_eq_true_eq] at h
  have := UInt32.le_iff_toNat_le.mp h.2
  exact Nat.lt_of_le_of_lt this (by decide)

theorem ascii_toString (n : Nat) : Ascii (toString n) := by
  intro c hc
  rw [Nat.toString_eq_repr, Nat.toList_repr] at hc
  exact toNat_lt_of_isDigit (Nat.isDigit_of_mem_toDigits (by decide) (by decide) hc)

theorem ascii_text (w : Word) : Ascii w.text := by
  intro c hc
  rcases Word.of_mem_text hc with hd | rfl
  · exact toNat_lt_of_isDigit hd
  · decide

theorem Ascii.size_toUTF8 {s : String} (h : Ascii s) : s.toUTF8.size = s.length := by
  obtain ⟨l, rfl⟩ : ∃ l, s = String.ofList l := ⟨s.toList, String.ofList_toList.symm⟩
  rw [Ascii, String.toList_ofList] at h
  rw [String.toUTF8_eq_toByteArray, String.toByteArray_ofList, String.length_ofList]
  induction l with
  | nil => rfl
  | cons c cs ih =>
    rw [List.forall_mem_cons] at h
    have hc : c.utf8Size = 1 := by
      rw [Char.utf8Size_eq_one_iff, UInt32.le_iff_toNat_le]
      exact Nat.le_of_lt_succ h.1
    rw [List.utf8Encode_cons, ByteArray.size_append, ih h.2, List.utf8Encode_singleton,
      String.utf8EncodeChar_eq_singleton hc, List.size_toByteArray]
    exact Nat.add_comm _ _

end Text

namespace Instance

/-! ## The header region -/

theorem header_congr {i j : Instance} (hoptions : i.options = j.options)
    (hvariables : i.variableCount = j.variableCount) (hclauses : i.clauses = j.clauses) :
    i.header = j.header := by
  unfold header
  rw [hoptions, hvariables, hclauses]

theorem ascii_header (i : Instance) : Text.Ascii i.header := by
  have hblank : Text.Ascii " " := by simp [Text.Ascii]
  unfold header
  split
  · have hstart : Text.Ascii "p wcnf " := by simp [Text.Ascii]
    exact ((((hstart.append (Text.ascii_toString _)).append hblank).append
      (Text.ascii_toString _)).append hblank).append (Text.ascii_text _)
  · have hstart : Text.Ascii "p cnf " := by simp [Text.Ascii]
    exact ((hstart.append (Text.ascii_toString _)).append hblank).append (Text.ascii_toString _)

theorem size_paddedHeader {i : Instance} (h : i.header.length ≤ headerWidth) :
    i.paddedHeader.toUTF8.size = headerWidth := by
  have hascii : Text.Ascii i.paddedHeader :=
    i.ascii_header.append (Text.ascii_ofList_replicate (by decide) _)
  rw [hascii.size_toUTF8, paddedHeader, String.length_append, String.length_ofList,
    List.length_replicate]
  omega

theorem size_blank :
    (String.ofList (List.replicate headerWidth ' ')).toUTF8.size = headerWidth := by
  rw [(Text.ascii_ofList_replicate (by decide) _).size_toUTF8, String.length_ofList,
    List.length_replicate]

theorem length_header_le {i : Instance} (hv : i.variableCount < wordCount)
    (hc : i.clauses < wordCount) : i.header.length ≤ headerWidth := by
  have hnat : ∀ n : Nat, n < wordCount → (toString n).length ≤ 20 := by
    intro n hn
    rw [Nat.toString_eq_repr, Nat.length_repr_le_iff (by decide)]
    unfold wordCount at hn
    omega
  have htop : i.options.top.text.length ≤ 20 := by
    have hl := Int64.le_toInt i.options.top
    have hu := Int64.toInt_lt i.options.top
    have hdigits : (Nat.toDigits 10 i.options.top.toInt.natAbs).length ≤ 19 := by
      rw [← Nat.toList_repr, String.length_toList, Nat.length_repr_le_iff (by decide)]
      omega
    rw [← String.length_toList, Word.toList_text, List.length_append]
    split <;> simp <;> omega
  have h₁ := hnat _ hv
  have h₂ := hnat _ hc
  have hw : "p wcnf ".length = 7 := by decide
  have hp : "p cnf ".length = 6 := by decide
  have hs : " ".length = 1 := by decide
  unfold header headerWidth
  split <;> simp only [String.length_append] <;> omega

/-! ## Header region, body on disk and pending body -/

/-- The file is the header region `h`, the body `d` on disk and the body `p` that is pending. -/
structure Framed (i : Instance) (h d p : ByteArray) : Prop where
  width : h.size = headerWidth
  disk : i.disk = some (h ++ d)
  pending : i.pending.getD ByteArray.empty = p
  offset : i.offset = headerWidth + d.size + p.size

theorem Framed.of_same {i i' : Instance} {h d p : ByteArray} (hf : Framed i h d p)
    (hdisk : i'.disk = i.disk) (hpending : i'.pending = i.pending)
    (hoffset : i'.offset = i.offset) : Framed i' h d p where
  width := hf.width
  disk := hdisk.trans hf.disk
  pending := hpending ▸ hf.pending
  offset := hoffset.trans hf.offset

theorem framed_create (path : String) (options : InstanceOptions) :
    Framed (create path options) (String.ofList (List.replicate headerWidth ' ')).toUTF8
      "\n".toUTF8 ByteArray.empty where
  width := size_blank
  disk := by
    rw [create, blankHeader]
    simp only [String.toUTF8_eq_toByteArray, String.toByteArray_append]
  pending := rfl
  offset := by
    have := size_blank
    rw [create, blankHeader]
    simp only [String.toUTF8_eq_toByteArray, String.toByteArray_append, ByteArray.size_append,
      ByteArray.size_empty, Nat.add_zero] at this ⊢
    rw [this]

variable {i : Instance} {h d p : ByteArray}

/-- The buffer passes bytes on in order: some leading part of what is pending and new goes to
disk, and the rest is pending. -/
theorem append_eq {b : ByteArray} (hb : i.disk = some b) (bytes p : ByteArray) :
    ∃ q p', i.append bytes p = { i with disk := some (b ++ q), pending := some p' } ∧
      q ++ p' = p ++ bytes := by
  unfold append store
  split
  · exact ⟨ByteArray.empty, p ++ bytes, by rw [ByteArray.append_empty, ← hb],
      ByteArray.empty_append⟩
  split
  · next hempty =>
    have hp : p = ByteArray.empty := ByteArray.size_eq_zero_iff.mp hempty
    refine ⟨bytes, ByteArray.empty, by simp [hb], ?_⟩
    rw [hp, ByteArray.append_empty, ByteArray.empty_append]
  · have hcut : bytes.extract 0 (bufferSize - p.size) ++
        bytes.extract (bufferSize - p.size) bytes.size = bytes := by
      rw [ByteArray.extract_append_extract, Nat.zero_min]
      exact ByteArray.extract_zero_max_size
    dsimp only
    split
    · refine ⟨p ++ bytes.extract 0 (bufferSize - p.size),
        bytes.extract (bufferSize - p.size) bytes.size, by simp [hb], ?_⟩
      rw [ByteArray.append_assoc, hcut]
    · refine ⟨p ++ bytes, ByteArray.empty, ?_, by rw [ByteArray.append_empty]⟩
      simp only [hb, Option.map_some, ByteArray.append_assoc, hcut]

theorem writeText_framed (hf : Framed i h d p) {pending : ByteArray}
    (hopen : i.pending = some pending) (text : String) :
    ∃ i' q p', writeText text i = .ok () i' ∧ Framed i' h (d ++ q) p' ∧
      q ++ p' = p ++ text.toUTF8 ∧
      i' = { i with offset := i'.offset, disk := i'.disk, pending := some p' } := by
  obtain rfl : pending = p := by simpa [hopen] using hf.pending
  obtain ⟨q, p', happ, hq⟩ := append_eq hf.disk text.toUTF8 pending
  refine ⟨_, q, p', by simp only [writeText, hopen]; rfl, ⟨hf.width, ?_, ?_, ?_⟩, hq, ?_⟩
  · rw [happ, ByteArray.append_assoc]
  · rw [happ]; rfl
  · have hsize := congrArg ByteArray.size hq
    simp only [ByteArray.size_append] at hsize ⊢
    rw [hf.offset]
    omega
  · rw [happ]

theorem flush_framed (hf : Framed i h d p) : Framed i.flush h (d ++ p) ByteArray.empty := by
  have hp := hf.pending
  have hoff := hf.offset
  cases hpend : i.pending with
  | none =>
    rw [hpend] at hp
    obtain rfl : ByteArray.empty = p := hp
    rw [flush, hpend, ByteArray.append_empty]
    exact hf
  | some pending =>
    rw [hpend] at hp
    obtain rfl : pending = p := hp
    rw [flush, hpend]
    refine ⟨hf.width, ?_, rfl, ?_⟩
    · simp [store, hf.disk, ByteArray.append_assoc]
    · simp only [store, ByteArray.size_append, ByteArray.size_empty]
      omega

theorem flush_eq (i : Instance) :
    i.flush = { i with disk := i.flush.disk, pending := i.flush.pending } := by
  unfold flush store
  split <;> rfl

theorem header_le_of_finalize {i' : Instance} (hok : finalize i = .ok () i') :
    i.header.length ≤ headerWidth := by
  unfold finalize at hok
  rw [flush_eq] at hok
  dsimp only at hok
  split at hok
  · simp at hok
  · next hroom => exact Nat.not_lt.mp hroom

/-- A finished file: the body as it was, behind the header with the totals. -/
theorem finalize_framed (hf : Framed i h d p) (hroom : i.header.length ≤ headerWidth) :
    ∃ i', finalize i = .ok () i' ∧ Framed i' i.paddedHeader.toUTF8 (d ++ p) ByteArray.empty ∧
      i' = { i with disk := i'.disk, pending := none } := by
  have hflush := flush_framed hf
  obtain ⟨bytes, hbytes⟩ : ∃ bytes, bytes = i.paddedHeader.toUTF8 ++ (d ++ p) := ⟨_, rfl⟩
  have hok : finalize i = .ok () { i with disk := some bytes, pending := none } := by
    unfold finalize
    rw [flush_eq]
    dsimp only
    rw [if_neg (by exact Nat.not_lt.mpr hroom), hflush.disk]
    dsimp only
    rw [ByteArray.extract_append_eq_right hflush.width.symm ByteArray.size_append, hbytes]
    rfl
  refine ⟨_, hok, ⟨size_paddedHeader hroom, by rw [hbytes], rfl, ?_⟩, rfl⟩
  have := hflush.offset
  rw [flush_eq] at this
  exact this

theorem reopen_framed (hf : Framed i h d p) :
    reopen i = .ok () { i with pending := some p } := by
  have hp := hf.pending
  unfold reopen isOpen
  cases hpend : i.pending with
  | none =>
    rw [hpend] at hp
    obtain rfl : ByteArray.empty = p := hp
    simp only [Option.isSome_none, Bool.false_eq_true, if_false, hf.disk]
    have hoff : (h ++ d).size = i.offset := by
      rw [ByteArray.size_append, hf.width, hf.offset, ByteArray.size_empty, Nat.add_zero]
    rw [hoff]
  | some pending =>
    rw [hpend] at hp
    obtain rfl : pending = p := hp
    simp only [Option.isSome_some, if_true]
    rw [← hpend]

theorem Framed.reopened (hf : Framed i h d p) : Framed { i with pending := some p } h d p :=
  ⟨hf.width, hf.disk, rfl, hf.offset⟩

/-- A checkpoint that lies in the file: behind the header region, with all before it on disk. -/
structure Within (target : Checkpoint) (i : Instance) (d : ByteArray) : Prop where
  variableCount : target.variableCount ≤ i.variableCount
  clauses : target.clauses ≤ i.clauses
  after : headerWidth ≤ target.offset
  before : target.offset ≤ headerWidth + d.size

/-- Going back cuts the body at the checkpoint and opens the file. -/
theorem rollback_framed (hf : Framed i h d p) {target : Checkpoint} (ht : Within target i d) :
    ∃ i', rollback target i = .ok () i' ∧
      Framed i' h (d.extract 0 (target.offset - headerWidth)) ByteArray.empty ∧
      i' = { i with
        variableCount := target.variableCount, clauses := target.clauses,
        offset := target.offset, disk := i'.disk, pending := some ByteArray.empty } := by
  obtain ⟨hv, hc, hafter, hbefore⟩ := ht
  -- the guard only refuses checkpoints beyond the file
  have hguard : ¬ ((target.clauses > i.clauses || target.variableCount > i.variableCount ||
      target.offset > i.offset) = true) := by
    have := hf.offset
    simp only [Bool.or_eq_true, decide_eq_true_eq]
    omega
  -- the file is cut within its body, so the header stays and no null bytes are added
  have hresize : resize (h ++ d) target.offset =
      h ++ d.extract 0 (target.offset - headerWidth) := by
    have hpad : target.offset - (h ++ d).size = 0 := by
      rw [ByteArray.size_append, hf.width]
      omega
    have hhead : h.extract 0 target.offset = h := by
      rw [← Nat.max_eq_left (hf.width ▸ hafter : h.size ≤ target.offset)]
      exact ByteArray.extract_zero_max_size
    have hnil : (⟨Array.replicate 0 0⟩ : ByteArray) = ByteArray.empty := rfl
    rw [resize, hpad, ByteArray.extract_append, hhead, hf.width, Nat.zero_sub, hnil,
      ByteArray.append_empty]
  have hsize : (h ++ d.extract 0 (target.offset - headerWidth)).size = target.offset := by
    rw [ByteArray.size_append, ByteArray.size_extract, hf.width]
    omega
  have hok : rollback target i = .ok () { i with
      variableCount := target.variableCount, clauses := target.clauses, offset := target.offset,
      disk := some (h ++ d.extract 0 (target.offset - headerWidth)),
      pending := some ByteArray.empty } := by
    unfold rollback
    rw [if_neg hguard, hf.disk]
    simp only [reopen, isOpen, Option.isSome_none, Bool.false_eq_true, if_false, hresize, hsize]
  refine ⟨_, hok, ⟨hf.width, rfl, rfl, ?_⟩, rfl⟩
  rw [ByteArray.size_empty, Nat.add_zero, ← hf.width, ← ByteArray.size_append, hf.width, hsize]

end Instance

end Clausify
