import Clausify.Text.Blank

/-!
The files a run works on: a finite tree of directories and files with byte contents, addressed by
slash-separated paths. Every operation that can fail names the operation, the path as given and
the reason.
-/

namespace Clausify

inductive FileReason where
  | missing
  | notDirectory
  | isDirectory
  | denied
  deriving DecidableEq, Repr

def FileReason.text : FileReason → String
  | missing => "no such file or directory"
  | notDirectory => "not a directory"
  | isDirectory => "is a directory"
  | denied => "permission denied"

structure FileFault where
  operation : String
  path : String
  reason : FileReason
  deriving DecidableEq, Repr

def FileFault.message (f : FileFault) : String :=
  f.operation ++ " " ++ f.path ++ ": " ++ f.reason.text

inductive Entry where
  | directory
  | file (content : ByteArray) (executable : Bool)

/-- A path as the list of its steps from the working directory, or from the root when the first
step is empty. -/
abbrev Location := List String

namespace Location

/-- Follows one step of a written path; `.` stays and `..` goes up. -/
def step (location : Location) (name : String) : Location :=
  if name = "" || name = "." then location
  else if name = ".." then location.dropLast
  else location ++ [name]

/-- Where a written path starts: at the root when it begins with a slash. -/
def start (path : String) : Location := if path.startsWith "/" then [""] else []

/-- The steps of a written path. The empty step after a last slash stays in place. -/
def names (path : String) : List String :=
  let names := (Text.splitAt '/' path.toList).map String.ofList
  if path.startsWith "/" then names.drop 1 else names

/-- The location a written path leads to. -/
def ofPath (path : String) : Location := (names path).foldl step (start path)

/-- The location of the directory that a written path names a file of. -/
def directoryOf (path : String) : Location := (names path).dropLast.foldl step (start path)

end Location

/-- A tree of files. The working directory itself is always there. -/
structure Store where
  entries : List (Location × Entry) := []

namespace Store

def empty : Store := {}

def find? (s : Store) (location : Location) : Option Entry :=
  if location.isEmpty then some .directory
  else if location = [""] then some .directory
  else s.entries.lookup location

/-- The store with an entry at a location, in place of the one that was there. -/
def put (s : Store) (location : Location) (entry : Entry) : Store :=
  match s.entries.lookup location with
  | some _ => ⟨s.entries.map fun e => if e.1 = location then (location, entry) else e⟩
  | none => ⟨s.entries ++ [(location, entry)]⟩

def erase (s : Store) (location : Location) : Store :=
  ⟨s.entries.filter fun e => e.1 ≠ location⟩

/-- Why a location cannot be entered as a directory, if it cannot. -/
def enterFault (s : Store) (location : Location) : Option FileReason :=
  match s.find? location with
  | some .directory => none
  | some (.file _ _) => some .notDirectory
  | none => some .missing

/-- Follows the steps of a written path; every place a step is taken from must be a directory. -/
def walk (s : Store) (location : Location) : List String → Except FileReason Location
  | [] => .ok location
  | name :: rest =>
    match s.enterFault location with
    | some reason => .error reason
    | none => walk s (location.step name) rest

/-- The location a written path leads to, when the places on the way are directories. The empty
path leads nowhere, and a path that ends in a slash leads to a directory only. -/
def resolve (s : Store) (path : String) : Except FileReason Location :=
  if path.isEmpty then .error .missing
  else s.walk (Location.start path) (Location.names path)

def read (s : Store) (path : String) : Except FileFault ByteArray :=
  match s.resolve path with
  | .error reason => .error ⟨"open", path, reason⟩
  | .ok location =>
    match s.find? location with
    | some (.file content _) => .ok content
    | some .directory => .error ⟨"read", path, .isDirectory⟩
    | none => .error ⟨"open", path, .missing⟩

/-- Why a path cannot be opened for writing, if it cannot. A file that is missing is created. -/
def writeFault (s : Store) (path : String) : Option FileFault :=
  if path.isEmpty then some ⟨"open", path, .missing⟩
  else
    let names := Location.names path
    let names := if path.endsWith "/" then names.dropLast else names
    match s.walk (Location.start path) names with
    | .error reason => some ⟨"open", path, reason⟩
    | .ok location =>
      match s.find? location with
      | some .directory => some ⟨"open", path, .isDirectory⟩
      | _ => if path.endsWith "/" then some ⟨"open", path, .isDirectory⟩ else none

/-- The store with a content at a location; a file that was there stays executable or not. -/
def fill (s : Store) (location : Location) (content : ByteArray) : Store :=
  match s.find? location with
  | some (.file _ executable) => s.put location (.file content executable)
  | _ => s.put location (.file content false)

/-- The store with a file of the given content at a path that can be written. -/
def write (s : Store) (path : String) (content : ByteArray) : Except FileFault Store :=
  match s.writeFault path with
  | some fault => .error fault
  | none => .ok (s.fill (Location.ofPath path) content)

/-- The store with a directory, those above it included. The fault names the first one that is no
directory. -/
def makeDirectories (s : Store) (location : Location) : Except FileFault Store :=
  let parents := (List.range (location.length + 1)).drop 1 |>.map fun n => location.take n
  parents.foldlM (fun (s : Store) parent =>
    match s.find? parent with
    | some .directory => .ok s
    | some (.file _ _) => .error ⟨"mkdir", "/".intercalate parent, .notDirectory⟩
    | none => .ok (s.put parent .directory)) s

/-- The store with a file, the directories above it included. -/
def plant (s : Store) (path : String) (content : ByteArray) (executable : Bool) : Store :=
  let location := Location.ofPath path
  let parents := (List.range location.length).drop 1 |>.map fun n => location.take n
  let s := parents.foldl (fun (s : Store) parent =>
    match s.find? parent with
    | some _ => s
    | none => s.put parent .directory) s
  s.put location (.file content executable)

/-- The content at a path, when there is a file. -/
def content? (s : Store) (path : String) : Option ByteArray :=
  match s.find? (Location.ofPath path) with
  | some (.file content _) => some content
  | _ => none

/-- The store without a location and everything below it. -/
def eraseTree (s : Store) (location : Location) : Store :=
  ⟨s.entries.filter fun e => !location.isPrefixOf e.1⟩

/-- The number of entries directly below a location. -/
def countBelow (s : Store) (location : Location) : Nat :=
  (s.entries.filter fun e =>
    e.1.length = location.length + 1 && e.1.take location.length = location).length

end Store

end Clausify
