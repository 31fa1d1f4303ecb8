import Mathlib
import Clausify.Proofs.Cardinality.Counting
import Clausify.Proofs.Cardinality.Literals
import Clausify.Proofs.Cardinality.Recursion
import Clausify.Proofs.Encoding.Scope
import Clausify.Proofs.Text.Case
import Clausify.Reduction.Basic
import Clausify.Settings.Load

/-!
What can be relied on when settings have been checked. The check reads the names of schemes in any
case and the encoding asks for the exact name, so the two agree on names in lower case only. Under
such a name a list is written to its end unless the writer refuses a clause (`Works`); the levels of
a grid end before the fuel does (`grid_fuel`), as those of the commanders do.

Main statement: `valid_settings_used`, for settings given by names, and for those that a document
gives, which are kept in lower case.
-/

namespace Clausify

/-! ## Names -/

namespace Scheme

/-- The names of the schemes that can be used. -/
def names : List String := all.map text

theorem named_of_find {name : String} {scheme : Scheme}
    (h : all.find? (fun s => s.text = name) = some scheme) : scheme.text = name ∧ name ∈ names := by
  have htext : scheme.text = name := by simpa using List.find?_some h
  exact ⟨htext, htext ▸ List.mem_map_of_mem (List.mem_of_find?_eq_some h)⟩

theorem text_ofName (name : String) : (ofName name).text = name := by
  unfold ofName
  cases hfound : all.find? fun s => s.text = name with
  | none => rfl
  | some scheme => exact (named_of_find hfound).1

theorem ofName_mem_all {name : String} : ofName name ∈ all ↔ name ∈ names := by
  constructor
  · intro h
    rw [← text_ofName name]
    exact List.mem_map_of_mem h
  · intro h
    obtain ⟨scheme, hmem, rfl⟩ := List.mem_map.mp h
    revert scheme
    decide

theorem ofName_eq_other {name : String} (h : name ∉ names) : ofName name = .other name := by
  unfold ofName
  cases hfound : all.find? fun s => s.text = name with
  | none => rfl
  | some scheme => exact absurd (named_of_find hfound).2 h

theorem small_of_mem_names {name : String} (h : name ∈ names) :
    ∀ c ∈ name.toList, Text.IsSmall c.toNat := by
  have hall : ∀ name ∈ names, (name.toList.all fun c => decide (Text.IsSmall c.toNat)) = true := by
    decide +kernel
  simpa only [List.all_eq_true, decide_eq_true_eq] using hall name h

theorem lower_of_mem_names : ∀ name ∈ names, Text.lower name = name := by
  decide +kernel

/-- A name is read as a scheme exactly if it is the name of one in some case. -/
theorem parse_eq (name : String) : (Text.lower name ∈ names → ∃ scheme, parse name = .ok scheme) ∧
    (Text.lower name ∉ names → parse name = .error (.schemeName name names)) := by
  unfold parse
  constructor
  · intro h
    obtain ⟨scheme, hmem, htext⟩ := List.mem_map.mp h
    cases hfound : all.find? fun s => s.text = Text.lower name with
    | none => simpa [htext] using List.find?_eq_none.mp hfound scheme hmem
    | some scheme => exact ⟨scheme, rfl⟩
  · intro h
    cases hfound : all.find? fun s => s.text = Text.lower name with
    | none => rfl
    | some scheme => exact absurd (named_of_find hfound).2 h

end Scheme

namespace Settings

open Scheme (names)

variable {settings : Settings}

def withNames (settings : Settings) (scheme fallback : String) : Settings :=
  { settings with scheme := .ofName scheme, fallback := .ofName fallback }

/-- Settings that pass the check name two schemes in some case, the second of which is not
restricted in that spelling. -/
theorem named_of_validate (h : settings.validate = .ok ()) :
    Text.lower settings.scheme.text ∈ names ∧ Text.lower settings.fallback.text ∈ names ∧
      settings.fallback.isRestricted = false := by
  have hscheme : Text.lower settings.scheme.text ∈ names := by
    by_contra hnot
    simp [validate, (Scheme.parse_eq _).2 hnot] at h
  obtain ⟨scheme, hparse⟩ := (Scheme.parse_eq _).1 hscheme
  have hfallback : Text.lower settings.fallback.text ∈ names := by
    by_contra hnot
    simp [validate, hparse, (Scheme.parse_eq _).2 hnot] at h
  obtain ⟨fallback, hparse'⟩ := (Scheme.parse_eq _).1 hfallback
  refine ⟨hscheme, hfallback, ?_⟩
  by_contra hrestricted
  rw [Bool.not_eq_false] at hrestricted
  simp [validate, hparse, hparse', hrestricted] at h

theorem validate_of_unknown (h : Text.lower settings.scheme.text ∉ names ∨
    Text.lower settings.fallback.text ∉ names) :
    ∃ fault, settings.validate = .error fault ∧ fault.kind = .unknownScheme := by
  by_cases hscheme : Text.lower settings.scheme.text ∈ names
  · obtain ⟨scheme, hparse⟩ := (Scheme.parse_eq _).1 hscheme
    have hfallback := (Scheme.parse_eq _).2 (h.resolve_left (not_not.mpr hscheme))
    exact ⟨_, by rw [validate, hparse, hfallback], rfl⟩
  · exact ⟨_, by rw [validate, (Scheme.parse_eq _).2 hscheme], rfl⟩

theorem schemeFor_false_unrestricted (h : settings.fallback.isRestricted = false) :
    (settings.schemeFor false).isRestricted = false := by
  unfold schemeFor
  split
  · exact h
  · next hnot => simpa using hnot

end Settings

/-! ## Writing -/

section Writing

variable {W : Type} [ClauseWriter W]

theorem Emission.refused_of_write {es : List Emission} {w left : W} {stop : Stop}
    (h : Emission.write es w = .error stop left) :
    ∃ (c : Clause) (before : W), ClauseWriter.addClause c before = .error stop left := by
  induction es generalizing w with
  | nil => simp [Emission.write] at h
  | cons emission es ih =>
    cases emission with
    | fresh => exact ih h
    | clause c =>
      simp only [Emission.write] at h
      split at h
      · next hrefused =>
        rw [h] at hrefused
        exact ⟨c, w, hrefused⟩
      · exact ih h

theorem Plan.refused_of_write {plan : Plan} {w left : W} {stop : Stop} (hstop : plan.stop = none)
    (h : plan.write w = .error stop left) :
    ∃ (c : Clause) (before : W), ClauseWriter.addClause c before = .error stop left := by
  rw [Plan.write, hstop] at h
  cases hwrite : Emission.write plan.emissions w with
  | ok u next => simp [hwrite] at h
  | error stop' left' =>
    rw [hwrite] at h
    obtain ⟨rfl, rfl⟩ := EStateM.Result.error.inj h
    exact Emission.refused_of_write hwrite

theorem Emission.write_of_nonnull {es : List Emission}
    (h : Emission.Over (fun l => l.word ≠ 0) es) (f : Formula) :
    ∃ f', Emission.write es f = .ok () f' := by
  induction es generalizing f with
  | nil => exact ⟨f, rfl⟩
  | cons emission es ih =>
    cases emission with
    | fresh => exact ih h f.addVariable
    | clause c =>
      rw [Over, clausesOf_clause, List.forall_mem_cons] at h
      obtain ⟨reduced, hreduce⟩ := Clause.reduce_of_nonnull h.1
      obtain ⟨f₁, hclause⟩ : ∃ f₁, ClauseWriter.addClause c f = .ok () f₁ := by
        cases reduced with
        | none => exact ⟨f, Formula.writeClause_eq_ok_iff.mpr (.inl ⟨hreduce, rfl⟩)⟩
        | some r => exact ⟨_, Formula.writeClause_eq_ok_iff.mpr (.inr ⟨r, hreduce, rfl⟩)⟩
      simp only [Emission.write, hclause]
      exact ih h.2 f₁

end Writing

namespace Cardinality

open Emission

/-- A list is written to its end: only a writer that refuses a clause ends it early, and a formula
takes it in full if there are no null literals in the list and literals for the variables. -/
def Works (settings : Settings) (scheme : Scheme) (exactlyOne : Bool) (ls : List Literal) : Prop :=
  (∀ (W : Type) [ClauseWriter W] (w left : W) (stop : Stop),
    Cardinality.write settings scheme exactlyOne ls w = .error stop left →
    ∃ (c : Clause) (before : W), ClauseWriter.addClause c before = .error stop left) ∧
  ∀ f : Formula, (∀ l ∈ ls, l.word ≠ 0) →
    f.variableCount + demand settings scheme f.variableCount exactlyOne ls < Literal.limit →
    ∃ f', Cardinality.write settings scheme exactlyOne ls f = .ok () f'

variable {settings : Settings} {scheme : Scheme} {e : Bool} {ls : List Literal}

theorem nonnull_neg (l : Literal) (h : l.word ≠ 0) : (-l).word ≠ 0 := by
  intro hzero
  apply h
  calc l.word = -(-l).word := Int64.neg_neg.symm
    _ = 0 := by rw [hzero]; rfl

theorem works_of_stop (hsized : settings.Sized)
    (h : ∀ count, (encode settings scheme count e ls).stop = none) :
    Works settings scheme e ls := by
  constructor
  · intro W _ w left stop herror
    exact Plan.refused_of_write (h _) herror
  · intro f hnonnull hroom
    have hfresh : Supplies (fun l => l.word ≠ 0) f.variableCount
        (demand settings scheme f.variableCount e ls) := by
      intro k hk hk' hzero
      have htoInt := Literal.toInt_ofVariable (show k < Literal.limit by omega)
      rw [hzero, Int64.toInt_zero] at htoInt
      omega
    obtain ⟨f', hwrite⟩ :=
      write_of_nonnull (encode_over nonnull_neg hsized scheme hnonnull hfresh) f
    refine ⟨f', ?_⟩
    show (encode settings scheme f.variableCount e ls).write f = _
    rw [Plan.write, hwrite, h]

theorem works_of_mem_all (hsized : settings.Sized) (hscheme : scheme ∈ Scheme.all) (e : Bool)
    (ls : List Literal) : Works settings scheme e ls :=
  works_of_stop hsized fun count => encode_stop hsized hscheme count e ls

theorem works_nil (hsized : settings.Sized) (scheme : Scheme) (e : Bool) :
    Works settings scheme e [] :=
  works_of_stop hsized fun _ => rfl

/-- Under another name nothing is written for a list that is not empty. -/
theorem write_of_unknown {W : Type} [ClauseWriter W] {name : String} (hls : ls ≠ [])
    (w : W) : Cardinality.write settings (.other name) e ls w =
      .error (.fault (.unknownScheme name)) w := by
  have hempty : ls.isEmpty = false := by simpa using hls
  simp [Cardinality.write, encode, hempty, needsSlack, schemePlan, Plan.write, Emission.write]

end Cardinality

/-! ## Settings of a document -/

namespace Settings

open Document Scheme

/-- The name of a scheme in a document is kept in lower case, so that one that passes the check can
be used. -/
theorem schemeField_mem_all {entries : Entries} {name : String} {current : Scheme}
    (hcurrent : current ∈ all)
    (h : Text.lower (Decoder.field entries "" name schemeDecoder current).value.text ∈ names) :
    (Decoder.field entries "" name schemeDecoder current).value ∈ all := by
  unfold Decoder.field at h ⊢
  split
  · next v hentry =>
    simp only [hentry, schemeDecoder, text_ofName] at h ⊢
    -- the check lowers a name that was lowered when it was read
    rw [ofName_mem_all, Text.lower_eq_of_lower_lower (small_of_mem_names h) rfl]
    exact h
  · exact hcurrent

theorem fields_of_decode {entries : Entries} {settings : Settings}
    (h : decode entries = .ok settings) :
    settings.scheme = (Decoder.field entries "" "scheme" schemeDecoder .product).value ∧
      settings.fallback = (Decoder.field entries "" "fallback" schemeDecoder .pairwise).value := by
  unfold decode Decoded.finish at h
  dsimp only at h
  split at h
  · simp at h
  · split_ifs at h
    obtain rfl := Except.ok.inj h
    exact ⟨rfl, rfl⟩

theorem schemes_of_load {store : Store} {path : String} {settings : Settings}
    (h : load store path = .ok settings) :
    settings.validate = .ok () ∧ settings.scheme ∈ all ∧ settings.fallback ∈ all := by
  unfold load at h
  split at h
  · simp at h
  split at h
  · simp at h
  next decoded hdecode =>
  split at h
  · simp at h
  next hvalid =>
  obtain rfl := Except.ok.inj h
  obtain ⟨hscheme, hfallback, -⟩ := named_of_validate hvalid
  obtain ⟨hvalue, hvalue'⟩ := fields_of_decode hdecode
  rw [hvalue] at hscheme
  rw [hvalue'] at hfallback
  rw [hvalue, hvalue']
  exact ⟨hvalid, schemeField_mem_all (by decide) hscheme, schemeField_mem_all (by decide) hfallback⟩

end Settings

namespace Cardinality

open Scheme (names)

theorem named_in_use {settings : Settings} {s f : String} {scheme : Scheme}
    (h : scheme = .ofName s ∨
      ∃ eligible, scheme = (settings.withNames s f).schemeFor eligible) :
    scheme = .ofName s ∨ scheme = .ofName f := by
  rcases h with h | ⟨eligible, rfl⟩
  · exact .inl h
  · unfold Settings.schemeFor
    split
    · exact .inr rfl
    · exact .inl rfl

/-- A name in lower case that is read as a scheme can be used; in another case it is refused as soon
as there is something to write. -/
theorem works_or_refused {settings : Settings} (hsized : settings.Sized) {name : String}
    (hname : Text.lower name ∈ names) (e : Bool) (ls : List Literal) :
    (Text.lower name = name ∨ ls = [] → Works settings (.ofName name) e ls) ∧
    (Text.lower name ≠ name → ls ≠ [] → ∀ (W : Type) [ClauseWriter W] (w : W),
      Cardinality.write settings (.ofName name) e ls w =
        .error (.fault (.unknownScheme name)) w) := by
  constructor
  · rintro (hlower | rfl)
    · rw [hlower, ← Scheme.ofName_mem_all] at hname
      exact works_of_mem_all hsized hname e ls
    · exact works_nil hsized _ e
  · intro hcase hls W _ w
    -- the names of schemes are all in lower case
    have hunknown : name ∉ names := fun hmem => hcase (Scheme.lower_of_mem_names name hmem)
    rw [Scheme.ofName_eq_other hunknown]
    exact write_of_unknown hls w

/-- Settings that pass the check can be used, but for the case of names. For settings with any two
names that pass it: where a list is not eligible, the scheme is not a restricted one; under the
scheme that is set and the one for an eligible or another list, every list is written to its end if
the name is in lower case, and refused without a trace otherwise, unless it is empty. A name that is
that of no scheme in any case is reported before the store is touched. Settings of a document can
always be used. The levels of a grid end before the fuel. -/
theorem valid_settings_used (settings : Settings) (s f : String) :
    ((settings.withNames s f).validate = .ok () →
      (settings.withNames s f).schemeFor false ≠ .product ∧
      (settings.withNames s f).schemeFor false ≠ .commander ∧
      ∀ scheme, (scheme = .ofName s ∨
          ∃ eligible, scheme = (settings.withNames s f).schemeFor eligible) →
        ∀ (e : Bool) (ls : List Literal),
          (Text.lower scheme.text = scheme.text ∨ ls = [] →
            Works (settings.withNames s f) scheme e ls) ∧
          (Text.lower scheme.text ≠ scheme.text → ls ≠ [] → ∀ (W : Type) [ClauseWriter W] (w : W),
            Cardinality.write (settings.withNames s f) scheme e ls w =
              .error (.fault (.unknownScheme scheme.text)) w)) ∧
    (Text.lower s ∉ names ∨ Text.lower f ∉ names →
      ∀ (store : Store) (p : Problem) (path : String), ∃ fault : Fault,
        fault.kind = .unknownScheme ∧
        (Reduction.ofProblem store p (settings.withNames s f) path).result =
          .error (.fault fault) ∧
        (Reduction.ofProblem store p (settings.withNames s f) path).store = store) ∧
    (∀ (store : Store) (path : String) (loaded : Settings), Settings.load store path = .ok loaded →
      ∀ (eligible e : Bool) (ls : List Literal),
        Works loaded loaded.scheme e ls ∧ Works loaded (loaded.schemeFor eligible) e ls) ∧
    ∀ (fuel count : Nat) (ls : List Literal), ls.length ≤ fuel →
      grid fuel count ls = grid ls.length count ls := by
  refine ⟨?_, ?_, ?_, ?_⟩
  · intro hvalid
    obtain ⟨hs, hf, hrestricted⟩ := Settings.named_of_validate hvalid
    have hplain := Settings.schemeFor_false_unrestricted hrestricted
    have hsized := Settings.sized_of_validate hvalid
    refine ⟨?_, ?_, ?_⟩
    · intro heq
      simp [heq, Scheme.isRestricted] at hplain
    · intro heq
      simp [heq, Scheme.isRestricted] at hplain
    · intro scheme hused e ls
      have hname : Text.lower scheme.text ∈ names := by
        rcases named_in_use hused with rfl | rfl
        · exact hs
        · exact hf
      -- the text of a scheme that comes from a name gives the scheme back
      have heq : scheme = .ofName scheme.text := by
        rcases named_in_use hused with rfl | rfl <;> rw [Scheme.text_ofName]
      have hcases := works_or_refused hsized hname e ls
      rwa [← heq] at hcases
  · intro hunknown store p path
    obtain ⟨fault, hvalid, hkind⟩ :=
      @Settings.validate_of_unknown (settings.withNames s f)
        (by simpa [Settings.withNames, Scheme.text_ofName] using hunknown)
    -- the checks end here, before any file is touched
    have hcheck : Reduction.precheck p (settings.withNames s f) = .error (.fault fault) := by
      rw [Reduction.precheck, hvalid]
    refine ⟨fault, hkind, ?_, ?_⟩
    · rw [Reduction.ofProblem, hcheck]
    · rw [Reduction.ofProblem, hcheck]
  · intro store path loaded hload eligible e ls
    obtain ⟨hvalid, hscheme, hfallback⟩ := Settings.schemes_of_load hload
    have hsized := Settings.sized_of_validate hvalid
    exact ⟨works_of_mem_all hsized hscheme e ls,
      works_of_mem_all hsized (Encoding.schemeFor_mem hscheme hfallback eligible) e ls⟩
  · intro fuel count ls hfuel
    exact grid_fuel hfuel (Nat.le_refl _)

/-- Commanders, and ladders for lists that are not eligible, can be used for every list. -/
theorem commanders_used :
    (({} : Settings).withNames "commander" "ladder").validate = .ok () ∧
    ∀ (e : Bool) (ls : List Literal),
      Works (({} : Settings).withNames "commander" "ladder") .commander e ls ∧
      Works (({} : Settings).withNames "commander" "ladder") .ladder e ls := by
  have hvalid : (({} : Settings).withNames "commander" "ladder").validate = .ok () := by cbv
  obtain ⟨-, -, hused⟩ := (valid_settings_used {} "commander" "ladder").1 hvalid
  refine ⟨hvalid, fun e ls => ⟨?_, ?_⟩⟩
  · exact (hused .commander (.inl (by decide)) e ls).1 (.inl (by decide +kernel))
  · exact (hused .ladder (.inr ⟨false, by decide⟩) e ls).1 (.inl (by decide +kernel))

/-- A scheme in capital letters passes the check, and is unknown when it comes to be used. -/
theorem capital_name_refused :
    (({} : Settings).withNames "LADDER" "pairwise").validate = .ok () ∧
    Cardinality.write (({} : Settings).withNames "LADDER" "pairwise")
        (({} : Settings).withNames "LADDER" "pairwise").scheme true
        [⟨1⟩, ⟨2⟩, ⟨3⟩] ({ variableCount := 3 } : Formula) =
      .error (.fault (.unknownScheme "LADDER")) { variableCount := 3 } ∧
    (Fault.unknownScheme "LADDER").kind = .unknownScheme := by
  have hscheme : (({} : Settings).withNames "LADDER" "pairwise").scheme = .other "LADDER" := by
    decide
  refine ⟨by cbv, ?_, rfl⟩
  rw [hscheme]
  exact write_of_unknown (by decide) _

end Cardinality

end Clausify
