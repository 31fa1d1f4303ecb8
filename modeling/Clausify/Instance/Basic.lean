import Clausify.Clause.Writer
import Clausify.Store.Basic

/-!
An instance file while it is written. The file starts with a region of one hundred bytes and a
line break, in which the header with the exact totals is put when the file is finished; lines of
clauses and comments follow. Text goes through a buffer, so an open instance has bytes on disk and
bytes still pending. A checkpoint remembers the counters and the length, and going back to it cuts
the file there. A finished instance can be opened again, extended and finished anew.
-/

namespace Clausify

structure InstanceOptions where
  /-- The largest number of clauses, or zero for no limit. -/
  clauseLimit : Nat := 0
  weighted : Bool := false
  /-- The weight of a hard clause. -/
  top : Word := 1000000000
  deriving DecidableEq, Repr

structure Instance where
  path : String
  options : InstanceOptions
  variableCount : Nat := 0
  clauses : Nat := 0
  /-- The length of the file with all that is pending. -/
  offset : Nat := 0
  /-- The bytes on disk, if the file is there. -/
  disk : Option ByteArray
  /-- The bytes that are not yet on disk, if the instance is open. -/
  pending : Option ByteArray
  /-- The literals put in front of every clause, the newest last. -/
  context : List Literal := []

namespace Instance

/-- The number of bytes kept for the header; a line break follows. -/
def headerWidth : Nat := 100

/-- The number of bytes that are held back before they go to disk. -/
def bufferSize : Nat := 4096

/-- The weight of a hard clause when none is given. -/
def defaultTop : Word := 1000000000

/-- The header region of an unfinished file. -/
def blankHeader : ByteArray :=
  (String.ofList (List.replicate headerWidth ' ') ++ "\n").toUTF8

def create (path : String) (options : InstanceOptions) : Instance where
  path := path
  options := { options with top := if options.top = 0 then defaultTop else options.top }
  offset := blankHeader.size
  disk := some blankHeader
  pending := some ByteArray.empty

/-- Creates the file of an instance, or says why it cannot be created. -/
def openIn (store : Store) (path : String) (options : InstanceOptions) : Except Fault Instance :=
  match store.writeFault path with
  | some fault => .error (.file .create fault)
  | none => .ok (create path options)

def isOpen (i : Instance) : Bool := i.pending.isSome

/-- Everything written so far, whether on disk or pending. -/
def content (i : Instance) : Option ByteArray :=
  i.disk.map fun bytes => bytes ++ i.pending.getD ByteArray.empty

/-- Appends bytes to the file on disk. -/
def store (bytes : ByteArray) (i : Instance) : Instance :=
  { i with disk := i.disk.map (· ++ bytes) }

/-- Adds bytes to what is pending. Bytes that do not fit fill the buffer, which then goes to disk;
a long text that meets an empty buffer goes to disk at once. -/
def append (bytes pending : ByteArray) (i : Instance) : Instance :=
  if bytes.size ≤ bufferSize - pending.size then { i with pending := some (pending ++ bytes) }
  else if pending.size = 0 then { i.store bytes with pending := some ByteArray.empty }
  else
    let head := bytes.extract 0 (bufferSize - pending.size)
    let rest := bytes.extract (bufferSize - pending.size) bytes.size
    let flushed := i.store (pending ++ head)
    if rest.size ≤ bufferSize then { flushed with pending := some rest }
    else { flushed.store rest with pending := some ByteArray.empty }

def writeText (text : String) : Run Instance Unit := fun i =>
  match i.pending with
  | none => .error (.fault .closed) i
  | some pending =>
    let bytes := text.toUTF8
    .ok () { i.append bytes pending with offset := i.offset + bytes.size }

/-- Counts a clause that was written; one beyond the limit is reported. -/
def countClause : Run Instance Unit := fun i =>
  let next := { i with clauses := i.clauses + 1 }
  if next.options.clauseLimit ≠ 0 && next.clauses > next.options.clauseLimit then
    .error (.fault (.clauseLimit next.options.clauseLimit)) next
  else .ok () next

/-- Writes a clause line behind a weight, if there is one. -/
def writeLine (weight : Option Word) (clause : Clause) : Run Instance Unit := do
  writeText (((weight.map fun w => w.text ++ " ").getD "") ++ clause.line)
  countClause

/-- Writes a clause under the current context; a true clause is dropped. -/
def addClause (clause : Clause) : Run Instance Unit := fun i =>
  if !i.isOpen then .error (.fault .closed) i
  else
    match Clause.reduce (i.context ++ clause) with
    | .error misuse => .error (.misuse misuse) i
    | .ok none => .ok () i
    | .ok (some reduced) =>
      writeLine (if i.options.weighted then some i.options.top else none) reduced i

/-- Writes a clause of one literal with a weight of its own, outside the context. -/
def addSoftClause (literal : Literal) (weight : Word) : Run Instance Unit := fun i =>
  if !i.options.weighted then .error (.fault .notWeighted) i
  else if !i.isOpen then .error (.fault .closed) i
  else
    match Clause.reduce [literal] with
    | .error misuse => .error (.misuse misuse) i
    | .ok none => .ok () i
    | .ok (some reduced) => writeLine (some weight) reduced i

def commentLine (comment : String) : String :=
  "c " ++ comment.map (fun c => if c = '\n' then ' ' else c) ++ "\n"

/-- Writes a comment; line breaks in it become blanks. -/
def addComment (comment : String) : Run Instance Unit := writeText (commentLine comment)

def addVariable (i : Instance) : Instance := { i with variableCount := i.variableCount + 1 }

/-- Puts a literal in front of all clauses that follow. -/
def pushContext (literal : Literal) (i : Instance) : Instance :=
  { i with context := i.context ++ [literal] }

def popContext : Run Instance Unit := fun i =>
  if i.context.isEmpty then .error (.misuse .emptyContext) i
  else .ok () { i with context := i.context.dropLast }

/-- Brings what is pending to disk. -/
def flush (i : Instance) : Instance :=
  match i.pending with
  | none => i
  | some pending => { i.store pending with pending := some ByteArray.empty }

/-- The counters and the length at this moment. -/
def here (i : Instance) : Checkpoint := ⟨i.variableCount, i.clauses, i.offset⟩

/-- Brings what is pending to disk and takes a checkpoint. -/
def mark : Run Instance Checkpoint := fun i => .ok i.here i.flush

def reopen : Run Instance Unit := fun i =>
  if i.isOpen then .ok () i
  else
    match i.disk with
    | none => .error (.fault (.file (.reopen i.path) ⟨"open", i.path, .missing⟩)) i
    | some bytes => .ok () { i with pending := some ByteArray.empty, offset := bytes.size }

/-- The first `size` bytes, with null bytes where there are fewer. -/
def resize (bytes : ByteArray) (size : Nat) : ByteArray :=
  bytes.extract 0 size ++ ⟨Array.replicate (size - bytes.size) 0⟩

/-- Goes back to a checkpoint: what was written since is cut off and the instance is open. -/
def rollback (target : Checkpoint) : Run Instance Unit := fun i =>
  if target.clauses > i.clauses || target.variableCount > i.variableCount ||
      target.offset > i.offset then
    .error (.misuse (.rollbackPast target i.here)) i
  else
    let closed := { i with pending := none }
    match i.disk with
    | none => .error (.fault (.file (.truncate i.path) ⟨"truncate", i.path, .missing⟩)) closed
    | some bytes =>
      reopen { closed with
        disk := some (resize bytes target.offset)
        variableCount := target.variableCount
        clauses := target.clauses }

def header (i : Instance) : String :=
  if i.options.weighted then
    "p wcnf " ++ toString i.variableCount ++ " " ++ toString i.clauses ++ " " ++ i.options.top.text
  else "p cnf " ++ toString i.variableCount ++ " " ++ toString i.clauses

/-- The header filled up with blanks to its full width. -/
def paddedHeader (i : Instance) : String :=
  i.header ++ String.ofList (List.replicate (headerWidth - i.header.length) ' ')

/-- Closes the instance and puts the header in place. -/
def finalize : Run Instance Unit := fun i =>
  let closed := { i.flush with pending := none }
  if closed.header.length > headerWidth then .error (.fault .headerOverflow) closed
  else
    match closed.disk with
    | none => .error (.fault (.file (.header i.path) ⟨"open", i.path, .missing⟩)) closed
    | some bytes =>
      let bytes := closed.paddedHeader.toUTF8 ++ bytes.extract headerWidth bytes.size
      .ok () { closed with disk := some bytes }

def addClauses : List Clause → Run Instance Unit
  | [] => pure ()
  | c :: rest => do
    addClause c
    addClauses rest

/-- Extends a finished instance by clauses and finishes it again. The checkpoint before the
clauses is given even when they are refused. -/
def extend (clauses : List Clause) (i : Instance) :
    Checkpoint × EStateM.Result Stop Instance Unit :=
  match reopen i with
  | .error stop left => (Checkpoint.zero, .error stop left)
  | .ok _ opened =>
    match mark opened with
    | .error stop left => (Checkpoint.zero, .error stop left)
    | .ok checkpoint marked =>
      (checkpoint, (do addClauses clauses; finalize : Run Instance Unit) marked)

/-- Undoes what was written after a checkpoint and finishes the instance again. -/
def retract (target : Checkpoint) : Run Instance Unit := do
  rollback target
  finalize

/-- Gives the file up. -/
def abort (i : Instance) : Instance := { i with pending := none, disk := none }

/-- Takes the file away without the instance noticing. -/
def lose (i : Instance) : Instance := { i with disk := none }

instance : ClauseWriter Instance where
  variableCount := Instance.variableCount
  addVariable := Instance.addVariable
  addClause := Instance.addClause
  addComment := Instance.addComment

end Instance

end Clausify
