import Clausify.Instance.Basic
import Clausify.Problem.Basic

/-!
Reduction of a problem to an instance file. Settings and problem are checked first; then the
file is created, the variables are encoded in the order of declaration, the constraints in the
order they are posted, the preferences as soft clauses of a weighted instance, and the file is
finished. When an encoding fails no file is left; where a contract is broken, it stays as it is.
-/

namespace Clausify

/-- A finished instance with the tables that decode its solutions. -/
structure Reduction where
  file : Instance
  mapping : Mapping
  shapes : Table String Shape

namespace Reduction

/-- The values of the encoded variables in a solution, if there is one. -/
def decode (t : Reduction) : Answer → Option Assignment
  | none => none
  | some solution => some (t.mapping.decode solution)

/-- Says what was being encoded when a fault arose. -/
def blame {σ : Type} (subject : Subject) :
    EStateM.Result Stop σ Unit → EStateM.Result Stop σ Unit
  | .error (.fault fault) left => .error (.fault (.during subject fault)) left
  | result => result

def encodeVariables (p : Problem) (settings : Settings) :
    List Variable → Run (Encoder Instance) Unit
  | [] => pure ()
  | v :: rest => do
    fun e => blame (.var v.name)
      (Encoding.encodeVariable settings v (p.needsOf v.name) (p.mentions v.name) e).2
    encodeVariables p settings rest

/-- Encodes constraints in order, a comment before each. -/
def encodeConstraints {W : Type} [ClauseWriter W] (settings : Settings) (catalog : Catalog) :
    List Constraint → Run (Encoder W) Unit
  | [] => pure ()
  | c :: rest => do
    Encoder.onWriter (ClauseWriter.addComment ("Encoding constraint: " ++ c.text))
    fun e => blame (.constraint c.text) (Encoding.encodeConstraint settings catalog c e)
    encodeConstraints settings catalog rest

def encodePreferences : List Preference → Run (Encoder Instance) Unit
  | [] => pure ()
  | preference :: rest => do
    fun e => blame (.preference preference.var)
      (Encoder.onWriter (Instance.addSoftClause
        (e.mapping.directLiteral preference.var preference.value) preference.weight) e)
    encodePreferences rest

def note (entry : JournalEntry) : Run (Encoder Instance) Unit := fun e => .ok () (e.note entry)

def encode (p : Problem) (settings : Settings) (catalog : Catalog) :
    Run (Encoder Instance) Unit := do
  note ⟨.info, "translation.variables", [("count", .number catalog.declared.length),
    ("scheme", .text settings.scheme.text)]⟩
  encodeVariables p settings catalog.declared
  note ⟨.info, "translation.constraints", [("count", .number p.constraints.length)]⟩
  encodeConstraints settings catalog p.constraints
  if settings.weighted then encodePreferences p.preferences
  else if !p.preferences.isEmpty then
    note ⟨.warn, "translation.preferences.ignored",
      [("count", .number p.preferences.length), ("reason", .text "weighted mode is off")]⟩
  Encoder.onWriter Instance.finalize

/-- Encodes a problem with the catalog it refers to. -/
def encodeThrough (p : Problem) (settings : Settings) : CatalogRef → Run (Encoder Instance) Unit
  | .present catalog => encode p settings catalog
  | _ => fun e => .error (.misuse .machineFault) e

def instanceOptions (settings : Settings) : InstanceOptions :=
  { clauseLimit := settings.clauseLimit, weighted := settings.weighted, top := settings.top }

/-- What a reduction leaves: the file at its path, the journal, and the reduction or the
reason why there is none. -/
structure Outcome where
  store : Store
  journal : List JournalEntry := []
  result : Except Stop Reduction

/-- Puts the file of an instance into a store, or takes it out. -/
def placeFile (store : Store) (file : Instance) : Store :=
  match file.disk with
  | some bytes => store.fill (Location.ofPath file.path) bytes
  | none => store.erase (Location.ofPath file.path)

/-- Checks that come before any file is touched. -/
def precheck (p : Problem) (settings : Settings) : Except Stop CatalogRef :=
  match settings.validate with
  | .error fault => .error (.fault fault)
  | .ok _ => p.validate.map fun _ => p.reference

/-- What the end of an encoding leaves. -/
def settle (store : Store) (path : String) :
    EStateM.Result Stop (Encoder Instance) Unit → Outcome
  | .ok _ e =>
    { store := placeFile store e.writer
      journal := e.journal.toList ++ [⟨.info, "translation.finished", [("path", .text path),
        ("variables", .number e.writer.variableCount), ("clauses", .number e.writer.clauses),
        ("elapsed", .duration)]⟩]
      result := .ok ⟨e.writer, e.mapping, e.shapes⟩ }
  | .error (.fault fault) e =>
    { store := placeFile store e.writer.abort
      journal := e.journal.toList ++ [⟨.error, "translation.failed", [("path", .text path),
        ("error", .text fault.message)]⟩]
      result := .error (.fault fault) }
  | .error (.misuse misuse) e =>
    { store := placeFile store e.writer, journal := e.journal.toList
      result := .error (.misuse misuse) }

/-- Reduces a problem to an instance file at a path. -/
def ofProblem (store : Store) (p : Problem) (settings : Settings) (path : String) : Outcome :=
  match precheck p settings with
  | .error stop => { store, result := .error stop }
  | .ok reference =>
    match Instance.openIn store path (instanceOptions settings) with
    | .error fault => { store, result := .error (.fault fault) }
    | .ok file => settle store path (encodeThrough p settings reference { writer := file })

end Reduction

end Clausify
