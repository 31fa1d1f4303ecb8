import Clausify.Reduction.Optimise

/-!
An oracle that replays prepared answers. Each call uses up one prepared play and keeps the file as
it was seen; when the plays have run out nothing is found any more. A file that cannot be read
fails the call and uses up nothing.
-/

namespace Clausify

inductive Play where
  | find (answer : Answer)
  | fail (text : String)
  /-- Takes the file away first. -/
  | remove (play : Play)
  deriving DecidableEq, Repr

/-- The file as a play leaves it, and its answer. -/
def Play.run (file : Option ByteArray) : Play → Option ByteArray × Except Stop Answer
  | find answer => (file, .ok answer)
  | fail text => (file, .error (.fault (.reported text)))
  | remove play => play.run none

/-- The plays that remain and the files that were seen. -/
structure Replay where
  plays : List Play
  seen : Array ByteArray := #[]

def Replay.oracle : Oracle Replay where
  solve r path file :=
    match file with
    | none => (r, file, .error (.fault (.solver (.unreadable ⟨"open", path, .missing⟩))))
    | some bytes =>
      let seen := r.seen.push bytes
      match r.plays with
      | [] => (⟨[], seen⟩, file, .ok none)
      | play :: rest =>
        let (file, answer) := play.run file
        (⟨rest, seen⟩, file, answer)

end Clausify
