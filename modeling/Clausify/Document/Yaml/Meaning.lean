import Clausify.Document.Value
import Clausify.Text.Base64
import Clausify.Text.Utf8

/-!
What scalars mean. A plain scalar is null, a truth value, a number or a moment when it is spelled
like one, and otherwise a text. A tag of a standard kind asks for that kind and refuses others; any
other tag makes a text.
-/

namespace Clausify.Document.Yaml

/-- The integer of a binary or octal numeral with its sign behind the base. -/
def signedBehind : List Char → Option Word
  | '0' :: 'b' :: rest => (Numeral.parseWordIn 2 (String.ofList rest)).toOption
  | '0' :: 'o' :: rest => (Numeral.parseWordIn 8 (String.ofList rest)).toOption
  | _ => none

/-- The value of a plain scalar that starts with a digit or a sign: a moment, an integer, a decimal
number or nothing of these. Underscores in numbers do not count. -/
def numberOf (cs : List Char) : Option Value :=
  let plain := cs.filter (· ≠ '_')
  let text := String.ofList plain
  match Moment.parse cs, Numeral.parsePrefixedWord text, Numeral.parsePrefixedNat text,
    Binary64.parse plain, signedBehind plain with
  | some m, _, _, _, _ => some (.moment m)
  | _, .ok w, _, _, _ => some (.integer w.toInt)
  | _, _, .ok n, _, _ => some (.natural n)
  | _, _, _, .number x, _ => some (.real x)
  | _, _, _, _, some w => some (.integer w.toInt)
  | _, _, _, _, none => none

/-- The value of a plain scalar that starts with a point: a decimal number, underscores between
digits, or nothing. -/
def fractionOf (cs : List Char) : Option Value :=
  if !Numeral.separatorsFrom false .start cs then none
  else
    match Binary64.parse (cs.filter (· ≠ '_')) with
    | .number x => some (.real x)
    | _ => none

def plainValue (s : String) : Value :=
  if ["", "~", "null", "Null", "NULL"].contains s then .null
  else if ["true", "True", "TRUE"].contains s then .truth true
  else if ["false", "False", "FALSE"].contains s then .truth false
  else if [".nan", ".NaN", ".NAN"].contains s then .real .nan
  else if [".inf", ".Inf", ".INF", "+.inf", "+.Inf", "+.INF"].contains s then
    .real (.infinite false)
  else if ["-.inf", "-.Inf", "-.INF"].contains s then .real (.infinite true)
  else
    match s.toList with
    | '.' :: rest => (fractionOf ('.' :: rest)).getD (.text s)
    | c :: rest =>
      if c.isDigit || c = '+' || c = '-' then (numberOf (c :: rest)).getD (.text s) else .text s
    | [] => .null

/-- The kinds of scalars that have a tag of their own. -/
inductive Kind where
  | null
  | truth
  | integer
  | real
  | text
  | moment
  | binary
  deriving DecidableEq, Repr

def Kind.ofTag? : String → Option Kind
  | "!!null" => some .null
  | "!!bool" => some .truth
  | "!!int" => some .integer
  | "!!float" => some .real
  | "!!str" => some .text
  | "!!timestamp" => some .moment
  | "!!binary" => some .binary
  | _ => none

/-- The kind of a value that is no collection. -/
def Kind.ofValue : Value → Kind
  | .null => .null
  | .truth _ => .truth
  | .integer _ => .integer
  | .natural _ => .integer
  | .real _ => .real
  | .moment _ => .moment
  | _ => .text

/-- The value of a spelling as a kind; a whole number is a decimal number too. -/
def valueAs (kind : Kind) (s : String) : Option Value :=
  match kind, plainValue s with
  | .text, _ => some (.text s)
  | .binary, _ => (Text.bytesOfBase64 s).map fun bytes => .text (Text.decode bytes)
  | .real, .integer n => (Binary64.ofDecimal (n < 0) n.natAbs 0).map .real
  | kind, value => if Kind.ofValue value = kind then some value else none

/-- The value of a scalar with its tag, which is empty when there is none. -/
def scalarValue (tag : String) (plain : Bool) (s : String) : Option Value :=
  if tag = "" then some (if plain then plainValue s else .text s)
  else
    match Kind.ofTag? tag with
    | some kind => valueAs kind s
    | none => some (.text s)

end Clausify.Document.Yaml
