import Mathlib
import Clausify.Proofs.Instance.Extend
import Clausify.Proofs.Reduction.Run

/-!
Encodings that run side by side. What is encoded does not depend on how the file is written: not on
the limit, nor on weights (`Settings.SameClauses`). So two encodings of a problem take the same
steps, each with its own file. A `Pairing` says what holds of the two files and why one of the runs
may be refused where the other goes on; then the one follows the other through a whole problem
(`Pairing.follows_hardPart`). Whatever writing keeps of a file (`Instance.Stable`) is kept by an
encoding, also by one that fails (`keeps_encode`); in particular a failed reduction leaves no file
(`find?_of_fault`).
-/

namespace Clausify

/-! ## Settings that are about the file only -/

/-- The settings differ at most in the limit and in the weights. -/
def Settings.SameClauses (s s' : Settings) : Prop :=
  ∃ limit weighted top,
    s' = { s with clauseLimit := limit, weighted := weighted, top := top }

namespace Settings.SameClauses

variable {s s' : Settings}

theorem channelFrom (h : s.SameClauses s') (name : String) (count : Nat) (previous : Literal)
    (values : List Word) : Encoding.channelFrom s' name count previous values =
      Encoding.channelFrom s name count previous values := by
  obtain ⟨limit, weighted, top, rfl⟩ := h
  fun_induction Encoding.channelFrom s name count previous values with
  | case1 => rfl
  | case2 => rfl
  | case3 count previous value rest _ bound single steps singles heq ih =>
    rw [Encoding.channelFrom, ih, heq]
    · rfl
    · assumption

theorem boundsFrom (h : s.SameClauses s') (name : String) (count : Nat) (previous : Literal)
    (values : List Word) : Encoding.boundsFrom s' name count previous values =
      Encoding.boundsFrom s name count previous values := by
  obtain ⟨limit, weighted, top, rfl⟩ := h
  fun_induction Encoding.boundsFrom s name count previous values with
  | case1 => rfl
  | case2 => rfl
  | case3 count previous value rest _ bound ih =>
    rw [Encoding.boundsFrom, ih]
    · rfl
    · assumption

theorem variableSteps (h : s.SameClauses s') (count : Nat) (v : Variable) (shape : Shape)
    (constrained : Bool) : Encoding.variableSteps s' count v shape constrained =
      Encoding.variableSteps s count v shape constrained := by
  have hchannel := h.channelFrom
  have hbounds := h.boundsFrom
  obtain ⟨limit, weighted, top, rfl⟩ := h
  cases shape with
  | hybrid =>
    cases hvalues : v.domain.values with
    | nil => simp only [Encoding.variableSteps, Encoding.shapeSteps, hvalues, Encoding.hybrid]
    | cons first rest =>
      simp only [Encoding.variableSteps, Encoding.shapeSteps, hvalues, Encoding.hybrid, hchannel]
      rfl
  | order =>
    cases hvalues : v.domain.values with
    | nil => simp only [Encoding.variableSteps, Encoding.shapeSteps, hvalues, Encoding.orderOnly]
    | cons first rest =>
      simp only [Encoding.variableSteps, Encoding.shapeSteps, hvalues, Encoding.orderOnly, hbounds]
      rfl
  | _ => rfl

theorem constraintSteps (h : s.SameClauses s') (catalog : Catalog) (mapping : Mapping)
    (count : Nat) (c : Constraint) : Encoding.constraintSteps s' catalog mapping count c =
      Encoding.constraintSteps s catalog mapping count c := by
  obtain ⟨limit, weighted, top, rfl⟩ := h
  rfl

end Settings.SameClauses

/-! ## What writing keeps -/

/-- What holds of a file and is not changed by writing to it or finishing it, whether or not that
succeeds. -/
structure Instance.Stable (Q : Instance → Prop) : Prop where
  writes : ∀ {i i' : Instance} {ls : List Dimacs.Line}, i.Writes i' ls → Q i → Q i'
  addVariable : ∀ {i : Instance}, Q i → Q i.addVariable
  finalize : ∀ {i : Instance}, Q i → Q (left (Instance.finalize i))

theorem Instance.stable_path (path : String) : Stable fun i => i.path = path where
  writes hw hi := by rw [hw.same]; exact hi
  addVariable hi := hi
  finalize hi := by rw [finalize_same]; exact hi

theorem Instance.stable_clauses (n : Nat) : Stable fun i => n ≤ i.clauses where
  writes hw hi := by rw [hw.clauses]; omega
  addVariable hi := hi
  finalize hi := by rw [finalize_same]; exact hi

theorem Instance.stable_variableCount (n : Nat) : Stable fun i => n ≤ i.variableCount where
  writes hw hi := by rw [hw.variableCount]; exact hi
  addVariable hi := Nat.le_succ_of_le hi
  finalize hi := by rw [finalize_same]; exact hi

namespace Reduction

/-- The file that is left, whether the run came to its end or not. -/
def fileLeft : EStateM.Result Stop (Encoder Instance) Unit → Instance
  | .ok _ e => e.writer
  | .error _ e => e.writer

/-- What holds of the file before a run holds after it. -/
def Keeps (Q : Instance → Prop) (x : Run (Encoder Instance) Unit) : Prop :=
  ∀ e, Q e.writer → Q (fileLeft (x e))

theorem run_cons (s : Step) (rest : List Step) :
    (Encoder.run (s :: rest) : Run (Encoder Instance) Unit) =
      (Encoder.take s >>= fun _ => Encoder.run rest) := by
  funext e
  show _ = EStateM.bind (Encoder.take s) (fun _ => Encoder.run rest) e
  rw [Encoder.run, EStateM.bind]
  dsimp only
  cases Encoder.take s e <;> rfl

section Keeps

variable {Q : Instance → Prop} {x y : Run (Encoder Instance) Unit}

theorem Keeps.of_ok (hx : Keeps Q x) {e e' : Encoder Instance} (hok : x e = .ok () e')
    (he : Q e.writer) : Q e'.writer := by
  have := hx e he
  rwa [hok] at this

theorem Keeps.bind (hx : Keeps Q x) (hy : Keeps Q y) : Keeps Q (x >>= fun _ => y) := by
  intro e he
  have hleft := hx e he
  cases hrun : x e with
  | ok u e' =>
    rw [hrun] at hleft
    rw [Run.bind_of_ok hrun]
    exact hy e' hleft
  | error stop e' =>
    rw [hrun] at hleft
    rw [Run.bind_of_error hrun]
    exact hleft

theorem fileLeft_blame (subject : Subject) (result : EStateM.Result Stop (Encoder Instance) Unit) :
    fileLeft (blame subject result) = fileLeft result := by
  cases result with
  | ok u e => rfl
  | error stop e => cases stop <;> rfl

theorem keeps_blame (subject : Subject) (hx : Keeps Q x) :
    Keeps Q fun e => blame subject (x e) := by
  intro e he
  rw [fileLeft_blame]
  exact hx e he

theorem keeps_note (entry : JournalEntry) : Keeps Q (note entry) := fun _ he => he

theorem fileLeft_onWriter (action : Run Instance Unit) (e : Encoder Instance) :
    fileLeft (Encoder.onWriter action e) = Instance.left (action e.writer) := by
  obtain ⟨writer, mapping, shapes, journal⟩ := e
  unfold Encoder.onWriter
  dsimp only
  cases action writer <;> rfl

theorem keeps_onWriter {action : Run Instance Unit}
    (h : ∀ i, Q i → Q (Instance.left (action i))) : Keeps Q (Encoder.onWriter action) := by
  intro e he
  rw [fileLeft_onWriter]
  exact h e.writer he

theorem keeps_onMapping (change : Mapping.Change) : Keeps Q (Encoder.onMapping change) := by
  rintro ⟨writer, mapping, shapes, journal⟩ he
  unfold Encoder.onMapping
  dsimp only
  cases change mapping <;> exact he

variable (hQ : Instance.Stable Q)
include hQ

theorem keeps_take (s : Step) : Keeps Q (Encoder.take s) := by
  cases s with
  | emit emission =>
    cases emission with
    | fresh => exact fun e he => hQ.addVariable he
    | clause c => exact keeps_onWriter fun i hi => hQ.writes (Instance.addClause_writes c i) hi
  | comment text =>
    exact keeps_onWriter fun i hi => hQ.writes (Instance.addComment_writes text i) hi
  | shape name shape => exact fun e he => he
  | note entry => exact fun e he => he
  | stop reason => exact fun e he => he
  | _ => exact keeps_onMapping _

theorem keeps_run (U : List Step) : Keeps Q (Encoder.run U) := by
  induction U with
  | nil => exact fun e he => he
  | cons s rest ih =>
    rw [run_cons]
    exact (keeps_take hQ s).bind ih

theorem keeps_encodeVariable (settings : Settings) (v : Variable) (needs : Representation)
    (constrained : Bool) :
    Keeps Q fun e => (Encoding.encodeVariable settings v needs constrained e).2 := by
  intro e he
  dsimp only
  unfold Encoding.encodeVariable
  split
  · exact he
  · exact keeps_run hQ _ e he

theorem keeps_encodeVariables (p : Problem) (settings : Settings) (vs : List Variable) :
    Keeps Q (encodeVariables p settings vs) := by
  induction vs with
  | nil => exact fun e he => he
  | cons v rest ih => exact (keeps_blame _ (keeps_encodeVariable hQ settings v _ _)).bind ih

theorem keeps_encodeConstraints (settings : Settings) (catalog : Catalog) (cs : List Constraint) :
    Keeps Q (encodeConstraints settings catalog cs) := by
  induction cs with
  | nil => exact fun e he => he
  | cons c rest ih =>
    have hcomment := keeps_take hQ (.comment ("Encoding constraint: " ++ c.text))
    exact hcomment.bind ((keeps_blame _ fun e he => keeps_run hQ _ e he).bind ih)

theorem keeps_encodePreferences (ps : List Preference) : Keeps Q (encodePreferences ps) := by
  induction ps with
  | nil => exact fun e he => he
  | cons preference rest ih =>
    refine (keeps_blame _ fun e he => ?_).bind ih
    exact keeps_onWriter (fun i hi => hQ.writes (Instance.addSoftClause_writes _ _ i) hi) e he

end Keeps

/-! ## The parts of an encoding -/

/-- The variables and the constraints of a problem. -/
def hardPart (p : Problem) (settings : Settings) (catalog : Catalog) :
    Run (Encoder Instance) Unit := do
  note ⟨.info, "translation.variables", [("count", .number catalog.declared.length),
    ("scheme", .text settings.scheme.text)]⟩
  encodeVariables p settings catalog.declared
  note ⟨.info, "translation.constraints", [("count", .number p.constraints.length)]⟩
  encodeConstraints settings catalog p.constraints

/-- The preferences of a problem, or a note that they are left out. -/
def softPart (p : Problem) (settings : Settings) : Run (Encoder Instance) Unit :=
  if settings.weighted then encodePreferences p.preferences
  else if !p.preferences.isEmpty then
    note ⟨.warn, "translation.preferences.ignored",
      [("count", .number p.preferences.length), ("reason", .text "weighted mode is off")]⟩
  else pure ()

theorem encode_eq (p : Problem) (settings : Settings) (catalog : Catalog) :
    encode p settings catalog = (do
      hardPart p settings catalog
      softPart p settings
      Encoder.onWriter Instance.finalize) := by
  unfold encode hardPart softPart
  simp only [bind_assoc]
  split
  · rfl
  · split
    · rfl
    · simp only [pure_bind]

section

variable {Q : Instance → Prop} (hQ : Instance.Stable Q)
include hQ

theorem keeps_hardPart (p : Problem) (settings : Settings) (catalog : Catalog) :
    Keeps Q (hardPart p settings catalog) :=
  (keeps_note _).bind ((keeps_encodeVariables hQ p settings _).bind
    ((keeps_note _).bind (keeps_encodeConstraints hQ settings catalog _)))

theorem keeps_softPart (p : Problem) (settings : Settings) : Keeps Q (softPart p settings) := by
  unfold softPart
  split
  · exact keeps_encodePreferences hQ _
  · split
    · exact keeps_note _
    · exact fun e he => he

theorem keeps_finish (p : Problem) (settings : Settings) :
    Keeps Q (softPart p settings >>= fun _ => Encoder.onWriter Instance.finalize) :=
  (keeps_softPart hQ p settings).bind (keeps_onWriter fun _ hi => hQ.finalize hi)

theorem keeps_encode (p : Problem) (settings : Settings) (catalog : Catalog) :
    Keeps Q (encode p settings catalog) := by
  rw [encode_eq]
  exact (keeps_hardPart hQ p settings catalog).bind (keeps_finish hQ p settings)

end

/-! ## What steps depend on -/

section

variable {settings settings' : Settings} {d e : Encoder Instance}

/-- The steps of a variable depend on the shapes on record and on the number of literals. -/
theorem declaration_congr (hsame : settings'.SameClauses settings) (hshapes : d.shapes = e.shapes)
    (hcount : d.variableCount = e.variableCount) (v : Variable) (needs : Representation)
    (constrained : Bool) :
    declaration settings v needs constrained d = declaration settings' v needs constrained e := by
  have hchoose : Shape.choose settings = Shape.choose settings' := by
    obtain ⟨limit, weighted, top, rfl⟩ := hsame
    rfl
  unfold declaration
  rw [hshapes, hcount, hchoose]
  split
  · rfl
  · exact hsame.variableSteps _ _ _ _

/-- The steps of a constraint depend on the mapping and on the number of literals. -/
theorem posting_congr (hsame : settings'.SameClauses settings) (hmapping : d.mapping = e.mapping)
    (hcount : d.variableCount = e.variableCount) (catalog : Catalog) (c : Constraint) :
    posting settings catalog c d = posting settings' catalog c e := by
  rw [posting, posting, hmapping, hcount, hsame.constraintSteps]

end

/-! ## One run beside another -/

/-- How the file of one run goes with the file of another. The first run may be refused where the
second goes on, for some faults only; then something is true of the second file from there on. -/
structure Pairing where
  pair : Instance → Instance → Prop
  refused : Fault → Prop
  beyond : Instance → Prop
  stable : Instance.Stable beyond
  during : ∀ {fault : Fault} (subject : Subject), refused fault → refused (.during subject fault)
  count : ∀ {i j : Instance}, pair i j → i.variableCount = j.variableCount
  addVariable : ∀ {i j : Instance}, pair i j → pair i.addVariable j.addVariable
  addComment : ∀ {i j j' : Instance} {text : String}, pair i j →
    Instance.addComment text j = .ok () j' →
    ∃ i', Instance.addComment text i = .ok () i' ∧ pair i' j'
  addClause : ∀ {i j j' : Instance} {c : Clause}, pair i j →
    Instance.addClause c j = .ok () j' →
    (∃ i', Instance.addClause c i = .ok () i' ∧ pair i' j') ∨
      ∃ fault i', Instance.addClause c i = .error (.fault fault) i' ∧ refused fault ∧ beyond j'

namespace Pairing

variable {P : Pairing}

/-- The encoders have the same tables, and their files go together. -/
structure Beside (P : Pairing) (d e : Encoder Instance) : Prop where
  files : P.pair d.writer e.writer
  mapping : d.mapping = e.mapping
  shapes : d.shapes = e.shapes

theorem Beside.variableCount {d e : Encoder Instance} (h : P.Beside d e) :
    d.variableCount = e.variableCount :=
  P.count h.files

/-- The first run ends beside the second, which ended in `e`, or was refused. -/
def Tied (P : Pairing) (result : EStateM.Result Stop (Encoder Instance) Unit)
    (e : Encoder Instance) : Prop :=
  (∃ d, result = .ok () d ∧ P.Beside d e) ∨
    ∃ fault d, result = .error (.fault fault) d ∧ P.refused fault ∧ P.beyond e.writer

/-- From encoders side by side, whenever the second run comes to its end the first one comes there
too or is refused. -/
def Follows (P : Pairing) (x y : Run (Encoder Instance) Unit) : Prop :=
  ∀ ⦃d e e' : Encoder Instance⦄, P.Beside d e → y e = .ok () e' → P.Tied (x d) e'

section

variable {x y f g : Run (Encoder Instance) Unit}

theorem Follows.bind (hx : P.Follows x y) (hf : P.Follows f g) (hg : Keeps P.beyond g) :
    P.Follows (x >>= fun _ => f) (y >>= fun _ => g) := by
  intro d e e'' hde hrun
  obtain ⟨u, e', hy, hrest⟩ := Run.bind_eq_ok.mp hrun
  rcases hx hde hy with ⟨d', hok, hde'⟩ | ⟨fault, d', herror, hrefused, hbeyond⟩
  · rw [Run.bind_of_ok hok]
    exact hf hde' hrest
  · exact .inr ⟨fault, d', Run.bind_of_error herror, hrefused, hg.of_ok hrest hbeyond⟩

theorem follows_blame (subject : Subject) (hx : P.Follows x y) :
    P.Follows (fun e => blame subject (x e)) fun e => blame subject (y e) := by
  intro d e e' hde hrun
  rcases hx hde (blame_eq_ok.mp hrun) with ⟨d', hok, hde'⟩ | ⟨fault, d', herror, hrefused, hbeyond⟩
  · exact .inl ⟨d', blame_eq_ok.mpr hok, hde'⟩
  · refine .inr ⟨.during subject fault, d', ?_, P.during subject hrefused, hbeyond⟩
    dsimp only
    rw [herror, blame]

theorem follows_pure : P.Follows (pure ()) (pure ()) := by
  intro d e e' hde hrun
  obtain rfl := (EStateM.Result.ok.inj hrun).2
  exact .inl ⟨d, rfl, hde⟩

theorem follows_note (entry entry' : JournalEntry) : P.Follows (note entry) (note entry') := by
  intro d e e' hde hrun
  obtain rfl := (EStateM.Result.ok.inj hrun).2
  exact .inl ⟨_, rfl, hde.files, hde.mapping, hde.shapes⟩

theorem follows_onMapping (change : Mapping.Change) :
    P.Follows (Encoder.onMapping change) (Encoder.onMapping change) := by
  intro d e e' hde hrun
  obtain ⟨m, hm, rfl⟩ := Encoder.onMapping_eq_ok.mp hrun
  rw [← hde.mapping] at hm
  exact .inl ⟨_, Encoder.onMapping_eq_ok.mpr ⟨m, hm, rfl⟩, hde.files, rfl, hde.shapes⟩

theorem follows_onWriter {action action' : Run Instance Unit}
    (h : ∀ {i j j' : Instance}, P.pair i j → action' j = .ok () j' →
      (∃ i', action i = .ok () i' ∧ P.pair i' j') ∨
        ∃ fault i', action i = .error (.fault fault) i' ∧ P.refused fault ∧ P.beyond j') :
    P.Follows (Encoder.onWriter action) (Encoder.onWriter action') := by
  intro d e e' hde hrun
  obtain ⟨j', hj', rfl⟩ := Encoder.onWriter_eq_ok.mp hrun
  rcases h hde.files hj' with ⟨i', hi', hpair⟩ | ⟨fault, i', hi', hrefused, hbeyond⟩
  · exact .inl ⟨_, Encoder.onWriter_eq_ok.mpr ⟨i', hi', rfl⟩, hpair, hde.mapping, hde.shapes⟩
  · refine .inr ⟨fault, { d with writer := i' }, ?_, hrefused, hbeyond⟩
    simp only [Encoder.onWriter, hi']

theorem follows_take (s : Step) : P.Follows (Encoder.take s) (Encoder.take s) := by
  cases s with
  | emit emission =>
    cases emission with
    | fresh =>
      intro d e e' hde hrun
      obtain rfl := (EStateM.Result.ok.inj hrun).2
      exact .inl ⟨_, rfl, P.addVariable hde.files, hde.mapping, hde.shapes⟩
    | clause c => exact follows_onWriter P.addClause
  | comment text => exact follows_onWriter fun hij hok => .inl (P.addComment hij hok)
  | shape name shape =>
    intro d e e' hde hrun
    obtain rfl := (EStateM.Result.ok.inj hrun).2
    exact .inl ⟨_, rfl, hde.files, hde.mapping, congrArg (Table.set name shape) hde.shapes⟩
  | note entry => exact follows_note entry entry
  | stop reason =>
    intro d e e' hde hrun
    simp [Encoder.take] at hrun
  | _ => exact follows_onMapping _

/-- The same steps are taken side by side. -/
theorem follows_run (U : List Step) : P.Follows (Encoder.run U) (Encoder.run U) := by
  induction U with
  | nil => exact follows_pure
  | cons s rest ih =>
    rw [run_cons]
    exact (follows_take s).bind ih (keeps_run P.stable rest)

end

variable {settings settings' : Settings}

theorem follows_encodeVariable (hsame : settings'.SameClauses settings) (v : Variable)
    (needs : Representation) (constrained : Bool) :
    P.Follows (fun e => (Encoding.encodeVariable settings v needs constrained e).2)
      fun e => (Encoding.encodeVariable settings' v needs constrained e).2 := by
  intro d e e' hde hrun
  dsimp only at hrun ⊢
  rw [encodeVariable_eq] at hrun ⊢
  rw [declaration_congr hsame hde.shapes hde.variableCount]
  exact follows_run _ hde hrun

theorem follows_encodeVariables (hsame : settings'.SameClauses settings) (p : Problem)
    (vs : List Variable) :
    P.Follows (encodeVariables p settings vs) (encodeVariables p settings' vs) := by
  induction vs with
  | nil => exact follows_pure
  | cons v rest ih =>
    exact (follows_blame _ (follows_encodeVariable hsame v _ _)).bind ih
      (keeps_encodeVariables P.stable p settings' rest)

theorem follows_encodeConstraint (hsame : settings'.SameClauses settings) (catalog : Catalog)
    (c : Constraint) : P.Follows (Encoding.encodeConstraint settings catalog c)
      (Encoding.encodeConstraint settings' catalog c) := by
  intro d e e' hde hrun
  unfold Encoding.encodeConstraint at hrun ⊢
  rw [hde.mapping, hde.variableCount, hsame.constraintSteps]
  exact follows_run _ hde hrun

theorem follows_encodeConstraints (hsame : settings'.SameClauses settings) (catalog : Catalog)
    (cs : List Constraint) : P.Follows (encodeConstraints settings catalog cs)
      (encodeConstraints settings' catalog cs) := by
  induction cs with
  | nil => exact follows_pure
  | cons c rest ih =>
    have hrest := keeps_encodeConstraints P.stable settings' catalog rest
    have hone := follows_blame (P := P) (.constraint c.text)
      (follows_encodeConstraint hsame catalog c)
    have hcomment := follows_take (P := P) (.comment ("Encoding constraint: " ++ c.text))
    refine hcomment.bind (hone.bind ih hrest) ?_
    exact (keeps_blame _ fun e he => keeps_run P.stable _ e he).bind hrest

theorem follows_hardPart (hsame : settings'.SameClauses settings) (p : Problem)
    (catalog : Catalog) :
    P.Follows (hardPart p settings catalog) (hardPart p settings' catalog) := by
  have hlast := keeps_encodeConstraints P.stable settings' catalog p.constraints
  refine (follows_note _ _).bind ?_ ((keeps_encodeVariables P.stable p settings' _).bind
    ((keeps_note _).bind hlast))
  refine (follows_encodeVariables hsame p _).bind ?_ ((keeps_note _).bind hlast)
  exact (follows_note _ _).bind (follows_encodeConstraints hsame catalog _) hlast

end Pairing

end Reduction

/-! ## Files of failed reductions -/

namespace Store

theorem walk_eq_ok {s : Store} {location location' : Location} {names : List String}
    (h : s.walk location names = .ok location') :
    location' = names.foldl Location.step location := by
  induction names generalizing location with
  | nil => exact (Except.ok.inj h).symm
  | cons name rest ih =>
    unfold walk at h
    split at h
    · simp at h
    · exact ih h

theorem find?_of_writeFault {s : Store} {path : String} (h : s.writeFault path = none) :
    s.find? (Location.ofPath path) ≠ some .directory := by
  unfold writeFault at h
  split at h
  · simp at h
  dsimp only at h
  split at h
  · simp at h
  next location hwalk =>
  split at h
  · simp at h
  next hfind =>
  split at h
  · simp at h
  next hslash =>
  rw [if_neg hslash] at hwalk
  have hlocation : location = Location.ofPath path := walk_eq_ok hwalk
  exact hlocation ▸ hfind

theorem find?_erase_self {s : Store} {location : Location}
    (h : s.find? location ≠ some .directory) : (s.erase location).find? location = none := by
  unfold find? at h ⊢
  split at h
  · simp at h
  next hempty =>
  split at h
  · simp at h
  next hroot =>
  rw [if_neg hempty, if_neg hroot, erase, List.lookup_eq_none_iff]
  intro entry hentry
  have hne : entry.1 ≠ location := by simpa using (List.mem_filter.mp hentry).2
  simpa using hne.symm

theorem find?_erase_of_ne {s : Store} {location other : Location} (h : other ≠ location) :
    (s.erase location).find? other = s.find? other := by
  have hlookup : (s.entries.filter fun e => e.1 ≠ location).lookup other =
      s.entries.lookup other := by
    induction s.entries with
    | nil => rfl
    | cons entry rest ih =>
      by_cases hentry : entry.1 = location
      · have hother : (other == entry.1) = false := by simp [hentry, h]
        rw [List.filter_cons_of_neg (by simp [hentry]), List.lookup_cons, hother, ih]
      · rw [List.filter_cons_of_pos (by simp [hentry]), List.lookup_cons, List.lookup_cons, ih]
  unfold find?
  rw [erase, hlookup]

end Store

namespace Reduction

variable {store : Store} {p : Problem} {settings : Settings} {path : String} {catalog : Catalog}
  {e : Encoder Instance}

/-- An encoding that comes to its end gives a reduction, with its file in the store. -/
theorem ofProblem_of_ok (hcheck : precheck p settings = .ok (.present catalog))
    (hwrite : store.writeFault path = none)
    (hrun : encode p settings catalog
      { writer := Instance.create path (instanceOptions settings) } = .ok () e) :
    (ofProblem store p settings path).result = .ok ⟨e.writer, e.mapping, e.shapes⟩ ∧
      (ofProblem store p settings path).store = placeFile store e.writer := by
  rw [ofProblem_of_precheck hcheck hwrite, encodeThrough_present, hrun]
  exact ⟨rfl, rfl⟩

theorem ofProblem_of_error {stop : Stop} (hcheck : precheck p settings = .ok (.present catalog))
    (hwrite : store.writeFault path = none)
    (hrun : encode p settings catalog
      { writer := Instance.create path (instanceOptions settings) } = .error stop e) :
    (ofProblem store p settings path).result = .error stop := by
  rw [ofProblem_of_precheck hcheck hwrite, encodeThrough_present, hrun]
  cases stop <;> rfl

/-- A reduction whose file could be created but which failed leaves the store as it was, without a
file at the path. -/
theorem find?_of_fault {fault : Fault} {reference : CatalogRef}
    (hcheck : precheck p settings = .ok reference) (hwrite : store.writeFault path = none)
    (hfault : (ofProblem store p settings path).result = .error (.fault fault)) :
    (ofProblem store p settings path).store.find? (Location.ofPath path) = none ∧
      ∀ other, other ≠ Location.ofPath path →
        (ofProblem store p settings path).store.find? other = store.find? other := by
  cases reference with
  | missing | dangling =>
    -- without a catalog the run breaks off by misuse, which is no fault
    rw [ofProblem_of_precheck hcheck hwrite] at hfault
    cases hfault
  | present catalog =>
    have hpath := keeps_encode (Instance.stable_path path) p settings catalog
      { writer := Instance.create path (instanceOptions settings) } rfl
    cases hrun : encode p settings catalog
        { writer := Instance.create path (instanceOptions settings) } with
    | ok u e =>
      rw [(ofProblem_of_ok hcheck hwrite hrun).1] at hfault
      simp at hfault
    | error stop e =>
      rw [ofProblem_of_error hcheck hwrite hrun] at hfault
      obtain rfl := Except.error.inj hfault
      rw [hrun] at hpath
      -- the file is given up where it was created
      have hstore : (ofProblem store p settings path).store =
          store.erase (Location.ofPath path) := by
        rw [ofProblem_of_precheck hcheck hwrite, encodeThrough_present, hrun, ← hpath]
        rfl
      rw [hstore]
      exact ⟨Store.find?_erase_self (Store.find?_of_writeFault hwrite),
        fun other hother => Store.find?_erase_of_ne hother⟩

end Reduction

end Clausify
