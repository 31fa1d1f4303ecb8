import Clausify.Document.Yaml.Cursor
import Clausify.Document.Yaml.Scalar
import Clausify.Text.Utf8

/-!
Tokens of YAML, and the reading of those that have a text of their own: anchors, references, tags
and directives. A tag is a handle and the rest of its name; a handle stands for the beginning of
names, and directives say which.
-/

namespace Clausify.Document.Yaml

inductive Token where
  | streamStart
  | streamEnd
  /-- The version of the format a document follows. -/
  | version (major minor : Nat)
  /-- The beginning of names that a handle stands for. -/
  | handle (name start : String)
  | documentStart
  | documentEnd
  | blockSequence
  | blockMapping
  | blockEnd
  | openSequence
  | closeSequence
  | openMapping
  | closeMapping
  /-- A dash before an item. -/
  | blockEntry
  /-- A comma between items. -/
  | flowEntry
  | key
  | value
  /-- A reference to an anchor. -/
  | reference (name : String)
  | anchor (name : String)
  | tag (handle name : String)
  | scalar (plain : Bool) (text : String)
  deriving DecidableEq, Repr

namespace Token

/-- Reads the name of an anchor or of a reference behind its sign. -/
def readAnchor (c : Cursor) : Option (String × Cursor) :=
  let name := c.run isNameChar
  let c := c.steps name.length
  if name.isEmpty ||
      !(endsWord c.here || "?:,]\x7d%@".toList.contains c.here || c.here.toNat = 0x60) then none
  else some (String.ofList name, c)

/-- The number of bytes of a character that starts with a byte. -/
def sequenceLength (byte : Nat) : Nat :=
  if byte < 0x80 then 1
  else if byte / 0x20 = 6 then 2
  else if byte / 0x10 = 14 then 3
  else if byte / 0x08 = 30 then 4
  else 0

/-- The byte that is written with a percent sign at a cursor. -/
def percentByte (c : Cursor) : Option Nat :=
  if c.here = '%' then
    (hexDigit (c.ahead 1)).bind fun high => (hexDigit (c.ahead 2)).map fun low => high * 16 + low
  else none

/-- Reads `n` further bytes of a character. -/
def percentTail : Nat → Cursor → Option (List Nat × Cursor)
  | 0, c => some ([], c)
  | n + 1, c =>
    match percentByte c with
    | none => none
    | some byte =>
      if byte / 0x40 = 2 then
        (percentTail n (c.steps 3)).map fun (bytes, c) => (byte :: bytes, c)
      else none

/-- Reads a character that is written with percent signs. -/
def percentChar (c : Cursor) : Option (List Nat × Cursor) :=
  match percentByte c with
  | none => none
  | some byte =>
    match sequenceLength byte with
    | 0 => none
    | n + 1 => (percentTail n (c.steps 3)).map fun (bytes, c) => (byte :: bytes, c)

/-- Whether a character may be part of the name of a tag. -/
def isTagChar (c : Char) : Bool := isNameChar c || ";/?:@&=+$,.!~*'()[]%".toList.contains c

def tagBytes : Nat → Cursor → Option (List Nat × Cursor)
  | 0, _ => none
  | fuel + 1, c =>
    if c.here = '%' then
      match percentChar c with
      | none => none
      | some (bytes, c) => (tagBytes fuel c).map fun (more, c) => (bytes ++ more, c)
    else if isTagChar c.here then
      (tagBytes fuel c.step).map fun (more, d) => (c.here.toNat :: more, d)
    else some ([], c)

/-- Reads the name of a tag; it may only be empty behind something else. -/
def tagName (behind : Bool) (c : Cursor) : Option (String × Cursor) :=
  match tagBytes (c.rest.length + 1) c with
  | none => none
  | some (bytes, rest) =>
    if bytes.isEmpty && !behind then none
    else some (Text.decode (ByteArray.mk (bytes.map Nat.toUInt8).toArray), rest)

/-- Reads what may be a handle: an exclamation mark, a name and perhaps another mark. -/
def tagHandle (c : Cursor) : Option (List Char × Cursor) :=
  if c.here ≠ '!' then none
  else
    let name := c.step.run isNameChar
    let c := c.step.steps name.length
    if c.here = '!' then some ('!' :: name ++ ['!'], c.step) else some ('!' :: name, c)

def readVerbatim (c : Cursor) : Option (Token × Cursor) :=
  match tagName false (c.steps 2) with
  | none => none
  | some (name, c) => if c.here = '>' then some (.tag "" name, c.step) else none

/-- Reads a tag with a handle, or with the handle of one mark left out. -/
def readShort (c : Cursor) : Option (Token × Cursor) :=
  match tagHandle c with
  | none => none
  | some (sign, c) =>
    if sign.length > 1 && sign.getLast? = some '!' then
      (tagName false c).map fun (name, c) => (.tag (String.ofList sign) name, c)
    else
      (tagName true c).map fun (more, c) =>
        let name := String.ofList sign.tail ++ more
        (if name = "" then .tag "" "!" else .tag "!" name, c)

def readTag (c : Cursor) : Option (Token × Cursor) :=
  let result := if c.ahead 1 = '<' then readVerbatim c else readShort c
  result.filter fun (_, c) => endsWord c.here

def versionNumber (c : Cursor) : Option (Nat × Cursor) :=
  let digits := c.run Char.isDigit
  if digits.isEmpty || digits.length > 2 then none
  else some (digits.foldl (fun n d => n * 10 + (d.toNat - '0'.toNat)) 0, c.steps digits.length)

def readVersion (c : Cursor) : Option (Token × Cursor) :=
  match versionNumber (c.skipRun isBlank) with
  | none => none
  | some (major, c) =>
    if c.here ≠ '.' then none
    else (versionNumber c.step).map fun (minor, c) => (.version major minor, c)

/-- Reads the value of a directive on a handle. -/
def readHandle (c : Cursor) : Option (Token × Cursor) :=
  match tagHandle (c.skipRun isBlank) with
  | none => none
  | some (sign, c) =>
    let closed := sign = ['!'] || (sign.length > 1 && sign.getLast? = some '!')
    if !closed || !isBlank c.here then none
    else
      match tagName false (c.skipRun isBlank) with
      | none => none
      | some (name, c) =>
        if endsWord c.here then some (.handle (String.ofList sign) name, c) else none

def readDirective (c : Cursor) : Option (Token × Cursor) :=
  let name := c.step.run isNameChar
  let c := c.step.steps name.length
  if name.isEmpty || !endsWord c.here then none
  else
    let result :=
      if name = "YAML".toList then readVersion c
      else if name = "TAG".toList then readHandle c
      else none
    match result with
    | none => none
    | some (token, c) =>
      let c := c.skipRun isBlank
      let c := if c.here = '#' then c.toLineEnd else c
      if endsLine c.here then some (token, c.stepLine) else none

end Token

end Clausify.Document.Yaml
