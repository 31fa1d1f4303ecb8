import Clausify.Document.Json
import Clausify.Document.Yaml.Basic
import Clausify.Problem.Fault
import Clausify.Text.Case
import Clausify.Text.Utf8

/-!
Reading a document from a file. The extension of the path selects the format: YAML for `.yaml` and
`.yml` in any case, and JSON for everything else.
-/

namespace Clausify.Document

/-- The extension of a path: the last step from its last dot on. -/
def extension (path : String) : String :=
  let last := path.toList.reverse.takeWhile (· ≠ '/')
  if last.contains '.' then String.ofList ('.' :: (last.takeWhile (· ≠ '.')).reverse) else ""

def isYaml (path : String) : Bool :=
  let extension := Text.lower (extension path)
  extension = ".yaml" || extension = ".yml"

/-- The entries of a YAML document; every byte of it must be part of a character. -/
def readYaml (path : String) (bytes : ByteArray) : Except DocumentFault Entries :=
  match String.fromUTF8? bytes with
  | none => .error (.unparsable path)
  | some text =>
    match Yaml.parse text with
    | .ok entries => .ok entries
    | .error .malformed => .error (.unparsable path)
    | .error (.collectionKey type) => .error (.misuse (.collectionKey type))

def readJson (path : String) (bytes : ByteArray) : Except DocumentFault Entries :=
  match Json.parse (Text.decode bytes) with
  | some entries => .ok entries
  | none => .error (.unparsable path)

def read (store : Store) (path : String) : Except DocumentFault Entries :=
  match store.read path with
  | .error fault => .error (.unreadable path fault)
  | .ok bytes => if isYaml path then readYaml path bytes else readJson path bytes

end Clausify.Document
