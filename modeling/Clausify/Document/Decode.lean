import Clausify.Document.Value
import Clausify.Problem.Fault
import Clausify.Text.Case

/-!
Decoding document values into typed ones, leniently: texts, numbers and truth values turn into
each other where that has a meaning, a single value stands for a list of one, and null keeps what
is there. Keys name fields exactly or up to case; a moment counts as a mapping without entries. All
issues are collected, and any issue makes the whole document undecodable.
-/

namespace Clausify.Document

/-- Why a value cannot be decoded where it stands. -/
inductive Issue where
  | unknownKeys (path : String) (keys : List String)
  | expectedMap (path kind : String)
  | unconvertible (path wanted got shown : String)
  | unreadable (path kind fault : String)
  | strayKey (type : String)
  deriving DecidableEq, Repr

def Issue.message : Issue → String
  | unknownKeys path keys => "'" ++ path ++ "' has invalid keys: " ++ ", ".intercalate keys
  | expectedMap path kind => "'" ++ path ++ "' expected a map, got '" ++ kind ++ "'"
  | unconvertible path wanted got shown =>
    "'" ++ path ++ "' expected type '" ++ wanted ++ "', got unconvertible type '" ++ got ++
      "', value: '" ++ shown ++ "'"
  | unreadable path kind fault => "cannot parse '" ++ path ++ "' as " ++ kind ++ ": " ++ fault
  | strayKey type => (Misuse.strayKey type).message

/-- The contract that is broken, if it is more than a matter of this document. -/
def Issue.misuse? : Issue → Option Misuse
  | strayKey type => some (.strayKey type)
  | _ => none

/-- A decoded value and the issues that arose. -/
structure Decoded (α : Type) where
  value : α
  issues : List Issue := []

/-- Decodes a value at a path, in place of a current one. -/
abbrev Decoder (α : Type) := String → α → Value → Decoded α

def sortTexts (texts : List String) : List String := texts.mergeSort fun a b => decide (a ≤ b)

namespace Decoder

/-- The issue of a value that does not turn into the wanted type. -/
def unconvertible (path wanted : String) (v : Value) : Issue :=
  .unconvertible path wanted v.typeText v.shown

/-- Decodes a text; `wanted` names its type. -/
def text (wanted : String) : Decoder String := fun path current v =>
  match v with
  | .null => { value := current }
  | .text s => { value := s }
  | .truth b => { value := if b then "1" else "0" }
  | .integer n => { value := toString n }
  | .natural n => { value := toString n }
  | .real x => { value := x.plainText }
  | _ => { value := current, issues := [unconvertible path wanted v] }

def word (wanted : String) : Decoder Word := fun path current v =>
  match v with
  | .null => { value := current }
  | .text s =>
    let s := if s = "" then "0" else s
    match Numeral.parsePrefixedWord s with
    | .ok w => { value := w }
    | .error fault =>
      { value := current, issues := [.unreadable path "int" (Numeral.faultText .signed s fault)] }
  | .truth b => { value := if b then 1 else 0 }
  | .integer n => { value := Int64.ofInt n }
  | .natural n => { value := Int64.ofNat n }
  | .real x => { value := x.toWord }
  | _ => { value := current, issues := [unconvertible path wanted v] }

def natural : Decoder Nat := fun path current v =>
  match v with
  | .null => { value := current }
  | .text s =>
    let s := if s = "" then "0" else s
    match Numeral.parsePrefixedNat s with
    | .ok n => { value := n }
    | .error fault =>
      { value := current
        issues := [.unreadable path "uint" (Numeral.faultText .unsigned s fault)] }
  | .truth b => { value := if b then 1 else 0 }
  | .integer n => { value := (n % wordCount).toNat }
  | .natural n => { value := n }
  | .real x => { value := x.toUnsigned }
  | _ => { value := current, issues := [unconvertible path "uint64" v] }

/-- Decodes a truth value; a number is true unless it is zero. -/
def truth : Decoder Bool := fun path current v =>
  match v with
  | .null => { value := current }
  | .text s =>
    match Numeral.parseTruth s with
    | .ok b => { value := b }
    | .error fault =>
      if s = "" then { value := false }
      else
        { value := current
          issues := [.unreadable path "bool" (Numeral.faultText .truth s fault)] }
  | .truth b => { value := b }
  | .integer n => { value := n ≠ 0 }
  | .natural n => { value := n ≠ 0 }
  | .real x => { value := !x.isZero }
  | _ => { value := current, issues := [unconvertible path "bool" v] }

/-- Takes any value as it is. -/
def any : Decoder Value := fun _ _ v => { value := v }

/-- Decodes the items of a list, numbered from `index`. -/
def items {α : Type} (item : Decoder α) (zero : α) (path : String) (index : Nat) :
    List Value → Decoded (List α)
  | [] => { value := [] }
  | v :: rest =>
    let first := item (path ++ "[" ++ toString index ++ "]") zero v
    let others := items item zero path (index + 1) rest
    { value := first.value :: others.value, issues := first.issues ++ others.issues }

/-- Decodes a list; any other value but an empty mapping is a list of one. -/
def list {α : Type} (item : Decoder α) (zero : α) : Decoder (List α) := fun path current v =>
  match v with
  | .null => { value := current }
  | .list vs => items item zero path 0 vs
  | .record [] => { value := [] }
  | v => items item zero path 0 [v]

/-- Decodes a value that may be left out. -/
def optional {α : Type} (inner : Decoder α) (zero : α) : Decoder (Option α) :=
  fun path current v =>
    match v with
    | .null => { value := current }
    | v =>
      let decoded := inner path (current.getD zero) v
      { value := some decoded.value, issues := decoded.issues }

/-- The entry of a field: under its exact name, or else up to case. -/
def entryOf (entries : Entries) (name : String) : Option (String × Value) :=
  match entries.find? fun e => e.1 = name with
  | some e => some e
  | none => entries.find? fun e => Text.equalFold e.1 name

def fieldPath (path name : String) : String := if path = "" then name else path ++ "." ++ name

def field {α : Type} (entries : Entries) (path name : String) (decoder : Decoder α)
    (current : α) : Decoded α :=
  match entryOf entries name with
  | some (_, v) => decoder (fieldPath path name) current v
  | none => { value := current }

/-- The issue of the keys that name no field. -/
def leftover (entries : Entries) (path : String) (names : List String) : List Issue :=
  let used := names.filterMap fun name => (entryOf entries name).map Prod.fst
  let unused := (entries.map Prod.fst).filter fun key => !used.contains key
  if unused.isEmpty then [] else [.unknownKeys path (sortTexts unused)]

/-- The entries of a table under texts. -/
def textKeyed (entries : List (Value × Value)) : Entries :=
  entries.filterMap fun
    | (.text key, v) => some (key, v)
    | _ => none

/-- The issue of a key that is no text, which cannot name a field. -/
def stray : List (Value × Value) → List Issue
  | [] => []
  | (.text _, _) :: rest => stray rest
  | (.null, _) :: _ => [.strayKey "nil"]
  | (key, _) :: _ => [.strayKey key.typeText]

def record {α : Type} (decode : String → α → Entries → Decoded α) : Decoder α :=
  fun path current v =>
    match v with
    | .null => { value := current }
    | .record entries => decode path current entries
    | .table entries =>
      let decoded := decode path current (textKeyed entries)
      { value := decoded.value, issues := decoded.issues ++ stray entries }
    | .moment _ => decode path current []
    | v => { value := current, issues := [.expectedMap path v.kindText] }

/-- The path of the entries under keys that need not be texts. -/
def anyKey : String := "<interface \x7b\x7d Value>"

/-- Decodes entries to texts onto a table, each key after the name that its path gives it. An entry
with an issue is left out. -/
def textEntries (path : String) (table : Table String String) :
    List (String × Value × Value) → Decoded (Table String String)
  | [] => { value := table }
  | (name, key, v) :: rest =>
    let place := path ++ "[" ++ name ++ "]"
    let key := text "string" place "" key
    let value := if key.issues.isEmpty then text "string" place "" v else { value := "" }
    let issues := key.issues ++ value.issues
    let others := textEntries path
      (if issues.isEmpty then Table.set key.value value.value table else table) rest
    { value := others.value, issues := issues ++ others.issues }

mutual

/-- Decodes a table of texts: a mapping, or a list of mappings that are merged in order. -/
def textTable (path : String) (current : Option (Table String String)) :
    Value → Decoded (Option (Table String String))
  | .null => { value := current }
  | .record entries =>
    let decoded := textEntries path (current.getD [])
      (entries.map fun (key, v) => (key, .text key, v))
    { value := some decoded.value, issues := decoded.issues }
  | .table entries =>
    let decoded := textEntries path (current.getD [])
      (entries.map fun (key, v) => (anyKey, key, v))
    { value := some decoded.value, issues := decoded.issues }
  | .moment _ => { value := some (current.getD []) }
  | .list [] => { value := some (current.getD []) }
  | .list vs => textTables path 0 current vs
  | v => { value := current, issues := [.expectedMap path v.kindText] }

/-- Decodes mappings one after the other onto one table, numbered from `index`, up to the first
that has issues. -/
def textTables (path : String) (index : Nat) (current : Option (Table String String)) :
    List Value → Decoded (Option (Table String String))
  | [] => { value := current }
  | v :: rest =>
    let first := textTable (path ++ "[" ++ toString index ++ "]") current v
    if first.issues.isEmpty then textTables path (index + 1) first.value rest else first

end

end Decoder

/-- The decoded value, unless there were issues. -/
def Decoded.finish {α : Type} (d : Decoded α) : Except DocumentFault α :=
  match d.issues.findSome? Issue.misuse? with
  | some misuse => .error (.misuse misuse)
  | none =>
    if d.issues.isEmpty then .ok d.value
    else .error (.undecodable (sortTexts (d.issues.map Issue.message)))

end Clausify.Document
