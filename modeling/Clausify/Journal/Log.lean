import Clausify.Journal.Line
import Clausify.Store.Basic

/-!
Logs: where journal entries go. A log passes entries to a file as JSON, to the error stream as
text, or nowhere. Opening a log file makes the directories above it and keeps what the file
holds; entries are only ever appended. Entries below the threshold of the log are left out.
-/

namespace Clausify

inductive LogTarget where
  | nowhere
  | errors
  | file (path : String)
  deriving DecidableEq, Repr

structure Log where
  target : LogTarget := .nowhere
  /-- Whether every entry is kept and shows its source. -/
  debug : Bool := false
  deriving DecidableEq, Repr

/-- What a log writes to. -/
structure LogState where
  log : Log := {}
  store : Store
  /-- The text on the error stream. -/
  errors : String := ""

namespace Log

/-- The least rank of the entries that are kept. -/
def threshold (log : Log) : Nat := if log.debug then Level.debug.rank else Level.info.rank

def keeps (log : Log) (e : JournalEntry) : Bool := log.threshold ≤ e.level.rank

end Log

namespace LogState

/-- Appends a text to a file; a file that is gone stays gone. -/
def appendTo (store : Store) (path text : String) : Store :=
  match store.content? path with
  | some content => store.fill (Location.ofPath path) (content ++ text.toUTF8)
  | none => store

def add (stamp : Stamp) (s : LogState) (e : JournalEntry) : LogState :=
  if s.log.keeps e then
    match s.log.target with
    | .nowhere => s
    | .errors => { s with errors := s.errors ++ e.textLine stamp s.log.debug }
    | .file path => { s with store := appendTo s.store path (e.jsonLine stamp s.log.debug) }
  else s

def close (s : LogState) : LogState := { s with log := {} }

/-- Makes a log file that is missing, in a directory that is there. -/
def createFile (store : Store) (path : String) : Except FileFault Store :=
  match store.writeFault path, store.content? path with
  | some fault, _ => .error fault
  | none, some _ => .ok store
  | none, none => store.write path ByteArray.empty

/-- Opens a log on a file, or on the error stream when no file is named. When that is refused the
log is closed; directories that were made for it stay. -/
def setup (stamp : Stamp) (path : String) (debug : Bool) (s : LogState) :
    LogState × Except FileFault Unit :=
  let first : JournalEntry :=
    ⟨.debug, "logger.initialized", [("file", .text path), ("debug", .truth debug)]⟩
  if path = "" then ({ s with log := ⟨.errors, debug⟩ }.add stamp first, .ok ())
  else
    match s.store.makeDirectories (Location.directoryOf path) with
    | .error fault => (s.close, .error fault)
    | .ok store =>
      match createFile store path with
      | .error fault => ({ s with store }.close, .error fault)
      | .ok store => ({ s with log := ⟨.file path, debug⟩, store }.add stamp first, .ok ())

end LogState

end Clausify
