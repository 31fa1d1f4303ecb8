import Clausify.Document.Decode
import Clausify.Document.Read
import Clausify.Settings

/-!
Settings as documents write them. A document is read over the default settings; its section on
solver programs is not part of them and is read on its own.
-/

namespace Clausify.Settings

open Document

def solverKey : String := "solvers"

def fieldNames : List String :=
  ["cnflimit", "scheme", "fallback", "weighted", "top", "forceboth", "auxnonfunctional",
    "bimandergroupsize", "commanderpartsize", "outputmapping"]

/-- Decodes a scheme; its name is kept in lower case. -/
def schemeDecoder : Decoder Scheme := fun path current v =>
  let name := Decoder.text "encoding.Scheme" path current.text v
  { value := .ofName (Text.lower name.value), issues := name.issues }

/-- Decodes settings over the default ones. -/
def decode (entries : Entries) : Except DocumentFault Settings :=
  let base : Settings := {}
  let clauseLimit := Decoder.field entries "" "cnflimit" .natural base.clauseLimit
  let scheme := Decoder.field entries "" "scheme" schemeDecoder base.scheme
  let fallback := Decoder.field entries "" "fallback" schemeDecoder base.fallback
  let weighted := Decoder.field entries "" "weighted" .truth base.weighted
  let top := Decoder.field entries "" "top" (.word "int64") base.top
  let forceBoth := Decoder.field entries "" "forceboth" .truth base.forceBoth
  let auxNonFunctional := Decoder.field entries "" "auxnonfunctional" .truth
    base.auxNonFunctional
  let groupSize := Decoder.field entries "" "bimandergroupsize" (.word "int")
    base.bimanderGroupSize
  let partSize := Decoder.field entries "" "commanderpartsize" (.word "int")
    base.commanderPartSize
  let outputMapping := Decoder.field entries "" "outputmapping" .truth base.outputMapping
  Decoded.finish
    { value := ⟨clauseLimit.value, scheme.value, fallback.value, weighted.value, top.value,
        forceBoth.value, auxNonFunctional.value, groupSize.value, partSize.value,
        outputMapping.value⟩
      issues := clauseLimit.issues ++ scheme.issues ++ fallback.issues ++ weighted.issues ++
        top.issues ++ forceBoth.issues ++ auxNonFunctional.issues ++ groupSize.issues ++
        partSize.issues ++ outputMapping.issues ++ Decoder.leftover entries "" fieldNames }

def load (store : Store) (path : String) : Except Fault Settings :=
  match Document.read store path with
  | .error fault => .error (.document fault)
  | .ok entries =>
    match decode (entries.filter fun e => e.1 ≠ solverKey) with
    | .error fault => .error (.settings (.document fault))
    | .ok settings =>
      match settings.validate with
      | .error fault => .error fault
      | .ok _ => .ok settings

/-- The paths of solver programs at a path, if there is such a section. -/
def loadPrograms (store : Store) (path : String) :
    Except Fault (Option (Table String String)) :=
  match Document.read store path with
  | .error fault => .error (.document fault)
  | .ok entries =>
    let chosen := entries.filter fun e => e.1 = solverKey
    let programs := Decoder.field chosen "" "Solvers" Decoder.textTable none
    match programs.finish with
    | .error fault => .error (.document fault)
    | .ok programs => .ok programs

end Clausify.Settings
