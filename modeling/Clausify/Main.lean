import Clausify.Command.Run

/-!
The program. It reads the files that its arguments mention, runs the command on them and writes
back what has changed. It starts no other program, so only the solvers of the library are there.
-/

namespace Clausify.Disk

/-- Reads a file or a directory of the disk into a store, if there is one. -/
def load (store : Store) (path : String) : IO Store := do
  let place := (← IO.currentDir) / path
  if ← place.isDir then
    return (store.makeDirectories (Location.ofPath path)).toOption.getD store
  else if ← place.pathExists then
    return store.plant path (← IO.FS.readBinFile place) false
  else
    return store

/-- Reads paths and the directories above them into a store. -/
def loadAll (paths : List String) : IO Store :=
  paths.foldlM (fun (store : Store) path => do
    let location := Location.ofPath path
    let parents := (List.range location.length).drop 1 |>.map fun n =>
      "/".intercalate (location.take n)
    let store ← parents.foldlM load store
    load store path) Store.empty

/-- Writes an entry that is new or has changed. -/
def save (before : Store) (location : Location) (entry : Entry) : IO Unit :=
  let path := "/".intercalate location
  match before.find? location, entry with
  | some .directory, .directory => pure ()
  | _, .directory => IO.FS.createDirAll path
  | some (.file old _), .file new _ =>
    if old.data = new.data then pure () else IO.FS.writeBinFile path new
  | _, .file new _ => IO.FS.writeBinFile path new

/-- Writes what has changed between two stores. -/
def saveAll (before after : Store) : IO Unit := do
  after.entries.forM fun (location, entry) => save before location entry
  before.entries.forM fun (location, _) =>
    match after.find? location with
    | some _ => pure ()
    | none => IO.FS.removeFile ("/".intercalate location)

end Clausify.Disk

open Clausify in
def main (arguments : List String) : IO UInt32 := do
  let home := ((← IO.appPath).parent.map toString).getD "."
  let temporary := (← IO.getEnv "TMPDIR").getD "/tmp"
  let time := toString (← IO.monoMsNow)
  let env : Command.Environment :=
    { home, temporary, stamp := { time := some time, source := some Command.programName } }
  let store ← Disk.loadAll (temporary :: Command.mentionedPaths env arguments)
  let outcome := Command.run env store arguments
  Disk.saveAll store outcome.store
  (← IO.getStdout).putStr outcome.output
  (← IO.getStderr).putStr outcome.errors
  return outcome.exitCode.toUInt32
