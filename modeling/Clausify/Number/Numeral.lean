import Clausify.Text.Quoted

/-!
Numerals: reading integers and truth values from text. A numeral is read from left to right, and
the first character that is no digit or the first digit that leaves the 64-bit range decides the
error. With a base prefix allowed, `0x`, `0o`, `0b` and a leading `0` select the base and single
underscores may separate digits.
-/

namespace Clausify

/-- A value: a signed 64-bit integer, with arithmetic that wraps. -/
abbrev Word := Int64

def wordCount : Nat := 0x10000000000000000

/-- Half the number of words, `2 ^ 63`: the least word is its negation. -/
def halfCount : Nat := 0x8000000000000000

namespace Word

def text (w : Word) : String := toString w.toInt

def signedText (w : Word) : String :=
  if w.toInt < 0 then w.text else "+" ++ w.text

end Word

namespace Numeral

inductive Fault where
  | malformed
  | outOfRange
  deriving DecidableEq, Repr

namespace Fault

def text : Fault → String
  | malformed => "invalid syntax"
  | outOfRange => "value out of range"

end Fault

/-- The kinds of numbers a text is read as, named as faults name them. -/
inductive Reader where
  | signed
  | unsigned
  | truth
  | count
  deriving DecidableEq, Repr

/-- The name under which a reader reports faults. -/
def Reader.label : Reader → String
  | .signed => "ParseInt"
  | .unsigned => "ParseUint"
  | .truth => "ParseBool"
  | .count => "Atoi"

/-- The message for a text that a reader refuses. -/
def faultText (reader : Reader) (s : String) (fault : Fault) : String :=
  "strconv." ++ reader.label ++ ": parsing " ++ Text.quoted s ++ ": " ++ fault.text

/-- The value of a digit or ASCII letter, letters of either case counting from ten. -/
def digitValue (c : Char) : Option Nat :=
  if c.isDigit then some (c.toNat - '0'.toNat)
  else if c.toLower.isLower then some (c.toLower.toNat - 'a'.toNat + 10)
  else none

/-- Reads digits of a base onto `n`, staying below `2 ^ 64`. -/
def magnitudeFrom (base : Nat) (separators : Bool) (n : Nat) : List Char → Except Fault Nat
  | [] => .ok n
  | c :: rest =>
    if separators && c == '_' then magnitudeFrom base separators n rest
    else
      match digitValue c with
      | none => .error .malformed
      | some d =>
        if d ≥ base then .error .malformed
        else if n * base + d ≥ wordCount then .error .outOfRange
        else magnitudeFrom base separators (n * base + d) rest

/-- Splits off a sign: whether the number is negative, and its digits. -/
def splitSign : List Char → Bool × List Char
  | '+' :: rest => (false, rest)
  | '-' :: rest => (true, rest)
  | cs => (false, cs)

/-- Splits off a base prefix; a leading zero alone selects base eight. -/
def splitBase : List Char → Nat × List Char
  | '0' :: c :: d :: rest =>
    if c = 'b' || c = 'B' then (2, d :: rest)
    else if c = 'o' || c = 'O' then (8, d :: rest)
    else if c = 'x' || c = 'X' then (16, d :: rest)
    else (8, c :: d :: rest)
  | '0' :: rest => (8, rest)
  | cs => (10, cs)

/-- What stands before the current character while underscores are checked. -/
inductive Before where
  | start
  | digit
  | underscore
  | other
  deriving DecidableEq

/-- Whether every underscore from here on follows a digit and precedes one. -/
def separatorsFrom (hex : Bool) (before : Before) : List Char → Bool
  | [] => before != .underscore
  | c :: rest =>
    if c.isDigit || (hex && (digitValue c).any (· < 16)) then separatorsFrom hex .digit rest
    else if c = '_' then before == .digit && separatorsFrom hex .underscore rest
    else before != .underscore && separatorsFrom hex .other rest

/-- Whether the underscores of an unsigned numeral stand between digits, a base prefix counting
as a digit. -/
def separatorsOk : List Char → Bool
  | '0' :: c :: rest =>
    if c.toLower = 'x' then separatorsFrom true .digit rest
    else if c.toLower = 'b' || c.toLower = 'o' then separatorsFrom false .digit rest
    else separatorsFrom false .start ('0' :: c :: rest)
  | cs => separatorsFrom false .start cs

/-- The magnitude of an unsigned numeral with an optional base prefix. -/
def prefixedMagnitude (cs : List Char) : Except Fault Nat :=
  if cs.isEmpty then .error .malformed
  else
    let (base, digits) := splitBase cs
    match magnitudeFrom base true 0 digits with
    | .error fault => .error fault
    | .ok n => if cs.contains '_' && !separatorsOk cs then .error .malformed else .ok n

def decimalMagnitude (cs : List Char) : Except Fault Nat :=
  if cs.isEmpty then .error .malformed else magnitudeFrom 10 false 0 cs

/-- The signed value of a magnitude, if it is in range. A magnitude beyond `2 ^ 64` is out of
range with either sign. -/
def withSign (negative : Bool) (magnitude : Except Fault Nat) : Except Fault Word :=
  match magnitude with
  | .error fault => .error fault
  | .ok n =>
    if negative then
      if n > halfCount then .error .outOfRange else .ok (Int64.ofInt (-(n : Int)))
    else if n ≥ halfCount then .error .outOfRange
    else .ok (Int64.ofNat n)

def parseWord (s : String) : Except Fault Word :=
  let (negative, digits) := splitSign s.toList
  withSign negative (decimalMagnitude digits)

/-- Reads an unsigned decimal numeral below `2 ^ 64`. -/
def parseNat (s : String) : Except Fault Nat := decimalMagnitude s.toList

/-- Reads a signed numeral with an optional base prefix. -/
def parsePrefixedWord (s : String) : Except Fault Word :=
  let (negative, digits) := splitSign s.toList
  withSign negative (prefixedMagnitude digits)

/-- Reads a signed numeral of a base, without a prefix. -/
def parseWordIn (base : Nat) (s : String) : Except Fault Word :=
  let (negative, digits) := splitSign s.toList
  withSign negative
    (if digits.isEmpty then .error .malformed else magnitudeFrom base false 0 digits)

/-- Reads an unsigned numeral with an optional base prefix. -/
def parsePrefixedNat (s : String) : Except Fault Nat := prefixedMagnitude s.toList

def parseTruth (s : String) : Except Fault Bool :=
  if ["1", "t", "T", "TRUE", "true", "True"].contains s then .ok true
  else if ["0", "f", "F", "FALSE", "false", "False"].contains s then .ok false
  else .error .malformed

end Numeral

end Clausify
