import Clausify.Journal.Entry
import Clausify.Text.Blank
import Clausify.Text.Escaped

/-!
Journal entries as lines: a JSON object for a log file, or fields of the form `key=value` for a
reader. What depends on the moment and the place of the entry is given beside it. A text in a
field is quoted when it is empty or has a character that would end the field or cannot be seen.
-/

namespace Clausify

/-- When and where an entry was made, as far as that is to be shown, and how long the work it
reports took. -/
structure Stamp where
  time : Option String := none
  source : Option String := none
  elapsed : String := ""
  deriving DecidableEq, Repr

namespace Attribute

def json (stamp : Stamp) : Attribute → String
  | text s => Text.escaped s
  | number n => toString n
  | truth b => if b then "true" else "false"
  | duration => Text.escaped stamp.elapsed

/-- Whether a character forces quotes around the text it stands in. -/
def isConspicuous (c : Char) : Bool :=
  if c.toNat < 0x80 then c = ' ' || c = '=' || c = '"' || c.toNat < 0x20
  else c.toNat = 0xfffd || Text.isBlank c || !Text.isPrintable c

/-- A text as the key or the value of a field. -/
def fieldText (s : String) : String :=
  if s.isEmpty || s.toList.any isConspicuous then Text.quoted s else s

def field (stamp : Stamp) : Attribute → String
  | text s => fieldText s
  | number n => toString n
  | truth b => if b then "true" else "false"
  | duration => fieldText stamp.elapsed

end Attribute

namespace JournalEntry

/-- The attributes of a line in order: the time, the level, the source if it is wanted, the event
and the attributes of the entry. -/
def columns (stamp : Stamp) (withSource : Bool) (e : JournalEntry) :
    List (String × Attribute) :=
  let time := stamp.time.map fun time => ("time", Attribute.text time)
  let source := stamp.source.map fun source => ("source", Attribute.text source)
  time.toList ++ [("level", .text e.level.text)] ++ (if withSource then source.toList else []) ++
    ("msg", .text e.event) :: e.attributes

def jsonLine (stamp : Stamp) (withSource : Bool) (e : JournalEntry) : String :=
  "\x7b" ++ ",".intercalate ((e.columns stamp withSource).map fun (key, value) =>
    Text.escaped key ++ ":" ++ value.json stamp) ++ "\x7d\n"

def textLine (stamp : Stamp) (withSource : Bool) (e : JournalEntry) : String :=
  " ".intercalate ((e.columns stamp withSource).map fun (key, value) =>
    Attribute.fieldText key ++ "=" ++ value.field stamp) ++ "\n"

end JournalEntry

end Clausify
