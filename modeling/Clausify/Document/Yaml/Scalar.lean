import Clausify.Document.Yaml.Cursor
import Clausify.Number.Numeral

/-!
Scalars of YAML: plain, quoted and block texts. Inside plain and quoted scalars one line break
counts as a blank and more of them as one break less; a literal block keeps its lines, and a
folded block joins those that start without a blank.
-/

namespace Clausify.Document.Yaml

/-! ## Joined lines -/

/-- A scalar whose lines are joined: the characters so far and the blanks since, both last first;
whether a line has ended since, what its line break stands for, and the breaks after it, last
first. -/
structure Folding where
  done : List Char := []
  blanks : List Char := []
  broken : Bool := false
  first : List Char := []
  more : List Char := []

namespace Folding

/-- The characters with the blanks and breaks since, last first. -/
def settle (f : Folding) : List Char :=
  if !f.broken then f.blanks ++ f.done
  else if f.first = ['\n'] then (if f.more.isEmpty then [' '] else f.more) ++ f.done
  else f.more ++ f.first ++ f.done

/-- Adds characters that are no blanks. -/
def push (f : Folding) (word : List Char) : Folding :=
  if word.isEmpty then f else { done := word.reverse ++ f.settle }

/-- Adds a blank, which counts unless a line break is next to it. -/
def blank (f : Folding) (c : Char) : Folding :=
  if f.broken then f else { f with blanks := c :: f.blanks }

def lineBreak (f : Folding) (text : List Char) : Folding :=
  if f.broken then { f with more := text.reverse ++ f.more }
  else { done := f.done, broken := true, first := text }

/-- Ends a line without a break. -/
def joined (f : Folding) : Folding := { done := f.settle, broken := true }

/-- The whole text with the blanks and breaks at its end. -/
def whole (f : Folding) : String := String.ofList f.settle.reverse

end Folding

/-! ## Plain scalars -/

/-- Whether a character has a meaning of its own where a token starts. -/
def isIndicator (c : Char) : Bool :=
  "-?:,[]\x7b\x7d#&*!|>'\"%@".toList.contains c || c.toNat = 0x60

def startsPlain (flow : Bool) (c : Cursor) : Bool :=
  (!endsWord c.here && !isIndicator c.here) || (c.here = '-' && !isBlank (c.ahead 1)) ||
    (!flow && (c.here = '?' || c.here = ':') && !endsWord (c.ahead 1))

/-- Whether a plain scalar ends inside brackets at a character. -/
def isBracketMark (c : Char) : Bool :=
  c = ',' || c = '?' || c = '[' || c = ']' || c = '\x7b' || c = '\x7d'

def plainWord (flow : Bool) : List Char → List Char
  | [] => []
  | c :: rest =>
    if endsWord c || (c = ':' && endsWord (rest.headD endMark)) || (flow && isBracketMark c) then []
    else c :: plainWord flow rest

/-- Passes over the blanks and line breaks between two words of a plain scalar. No tab may stand
left of `indent` on a new line. -/
def plainGap (indent : Int) : Nat → Folding → Cursor → Option (Folding × Cursor)
  | 0, f, c => some (f, c)
  | fuel + 1, f, c =>
    if isBlank c.here then
      if f.broken && (c.column : Int) < indent && c.here = '\t' then none
      else plainGap indent fuel (f.blank c.here) c.step
    else if isBreak c.here then plainGap indent fuel (f.lineBreak c.lineBreak.2) c.stepLine
    else some (f, c)

/-- Reads a plain scalar; outside brackets its lines start at `indent` or right of it. -/
def plainScalar (flow : Bool) (indent : Int) : Nat → Folding → Cursor → Option (Folding × Cursor)
  | 0, _, _ => none
  | fuel + 1, f, c =>
    if c.atMark || c.here = '#' then some (f, c)
    else
      let word := plainWord flow c.rest
      let f := f.push word
      let c := c.steps word.length
      if !isBlank c.here && !isBreak c.here then some (f, c)
      else
        match plainGap indent (c.rest.length + 1) f c with
        | none => none
        | some (f, c) =>
          if !flow && (c.column : Int) < indent then some (f, c)
          else plainScalar flow indent fuel f c

/-! ## Quoted scalars -/

def escaped : Char → Option Nat
  | '0' => some 0x00
  | 'a' => some 0x07
  | 'b' => some 0x08
  | 't' => some 0x09
  | '\t' => some 0x09
  | 'n' => some 0x0a
  | 'v' => some 0x0b
  | 'f' => some 0x0c
  | 'r' => some 0x0d
  | 'e' => some 0x1b
  | ' ' => some 0x20
  | '"' => some 0x22
  | '\'' => some 0x27
  | '\\' => some 0x5c
  | 'N' => some 0x85
  | '_' => some 0xa0
  | 'L' => some 0x2028
  | 'P' => some 0x2029
  | _ => none

/-- The number of hexadecimal digits of an escape by code point. -/
def escapeWidth : Char → Option Nat
  | 'x' => some 2
  | 'u' => some 4
  | 'U' => some 8
  | _ => none

def hexDigit (c : Char) : Option Nat := (Numeral.digitValue c).filter (· < 16)

/-- The value of hexadecimal digits behind those that give `n`. -/
def hexValue (n : Nat) : List Char → Option Nat
  | [] => some n
  | c :: rest => (hexDigit c).bind fun d => hexValue (n * 16 + d) rest

/-- The character of the escape at a cursor, and its length. -/
def escapeAt (c : Cursor) : Option (Char × Nat) :=
  match escapeWidth (c.ahead 1) with
  | none => (escaped (c.ahead 1)).map fun n => (Char.ofNat n, 2)
  | some width =>
    let digits := (c.rest.drop 2).take width
    if digits.length < width then none
    else
      (hexValue 0 digits).bind fun n =>
        if (0xd800 ≤ n && n ≤ 0xdfff) || n > 0x10ffff then none
        else some (Char.ofNat n, width + 2)

/-- Reads a scalar behind its opening quote. In single quotes a quote is written twice, in double
quotes a backslash starts an escape or joins two lines. -/
def quotedScalar (double : Bool) : Nat → Folding → Cursor → Option (String × Cursor)
  | 0, _, _ => none
  | fuel + 1, f, c =>
    if c.atMark || c.rest.isEmpty then none
    else if isBlank c.here then quotedScalar double fuel (f.blank c.here) c.step
    else if isBreak c.here then quotedScalar double fuel (f.lineBreak c.lineBreak.2) c.stepLine
    else if double && c.here = '\\' then
      if isBreak (c.ahead 1) then quotedScalar double fuel f.joined c.step.stepLine
      else
        match escapeAt c with
        | none => none
        | some (char, length) => quotedScalar double fuel (f.push [char]) (c.steps length)
    else if !double && c.here = '\'' && c.ahead 1 = '\'' then
      quotedScalar double fuel (f.push ['\'']) (c.steps 2)
    else if c.here = (if double then '"' else '\'') then some (f.whole, c.step)
    else quotedScalar double fuel (f.push [c.here]) c.step

/-! ## Block scalars -/

/-- What becomes of the line breaks at the end of a block scalar. -/
inductive Chomping where
  | strip
  | clip
  | keep
  deriving DecidableEq, Repr

def chompingSign (c : Cursor) : Option Chomping :=
  if c.here = '+' then some .keep else if c.here = '-' then some .strip else none

/-- The signs behind a block scalar mark, chomping and indentation in either order; an indentation
of zero is refused, and one that is left out counts as zero. -/
def blockSigns (c : Cursor) : Option (Chomping × Nat × Cursor) :=
  let width (c : Cursor) : Nat × Cursor :=
    if c.here.isDigit then (c.here.toNat - '0'.toNat, c.step) else (0, c)
  let (sign, c) := match chompingSign c with
    | some sign => (some sign, c.step)
    | none => (none, c)
  if c.here = '0' then none
  else
    let (increment, c) := width c
    match sign, chompingSign c with
    | some sign, _ => some (sign, increment, c)
    | none, some sign => some (sign, increment, c.step)
    | none, none => some (.clip, increment, c)

/-- Passes over empty lines and indentation, up to `indent` columns or over all spaces when it is
zero. Gives the widest indentation, the line breaks, last first, and the place behind. A tab may
not take part in the indentation. -/
def blockGap (indent : Nat) : Nat → Nat → List Char → Cursor → Option (Nat × List Char × Cursor)
  | 0, _, _, _ => none
  | fuel + 1, widest, breaks, c =>
    let spaces := (c.run (· = ' ')).length
    let c := c.steps (if indent = 0 then spaces else min spaces (indent - c.column))
    let widest := max widest c.column
    if (indent = 0 || c.column < indent) && c.here = '\t' then none
    else if isBreak c.here then
      blockGap indent fuel widest (c.lineBreak.2.reverse ++ breaks) c.stepLine
    else some (widest, breaks, c)

/-- A block scalar that is being read: the text so far, last character first; the line break that
is due, the breaks of the empty lines after it, last first, and whether the last line began with a
blank. -/
structure Blocking where
  done : List Char := []
  due : List Char := []
  breaks : List Char := []
  blank : Bool := false

/-- The text before the next line. -/
def Blocking.before (b : Blocking) (literal blank : Bool) : List Char :=
  let joint :=
    if !literal && !b.blank && !blank && b.due = ['\n'] then
      (if b.breaks.isEmpty then [' '] else [])
    else b.due
  b.breaks ++ joint ++ b.done

def blockLines (literal : Bool) (indent : Nat) :
    Nat → Blocking → Cursor → Option (Blocking × Cursor)
  | 0, _, _ => none
  | fuel + 1, b, c =>
    if c.column = indent && !c.rest.isEmpty then
      let blank := isBlank c.here
      let line := c.run fun char => !endsLine char
      let done := line.reverse ++ b.before literal blank
      let c := c.steps line.length
      let due := c.lineBreak.2
      let c := c.stepLine
      match blockGap indent (c.rest.length + 1) 0 [] c with
      | none => none
      | some (_, breaks, c) => blockLines literal indent fuel { done, due, breaks, blank } c
    else some (b, c)

/-- Reads a block scalar behind its mark; `parent` is the indentation around it. -/
def blockScalar (literal : Bool) (parent : Int) (c : Cursor) : Option (String × Cursor) := do
  let (chomping, increment, c) ← blockSigns c
  let c := c.skipRun isBlank
  let c := if c.here = '#' then c.toLineEnd else c
  if !endsLine c.here then none
  else
    let c := c.stepLine
    let fixed := if increment = 0 then 0 else (max parent 0).toNat + increment
    let (widest, breaks, c) ← blockGap fixed (c.rest.length + 1) 0 [] c
    let indent := if fixed = 0 then max widest (max (parent + 1) 1).toNat else fixed
    let (b, c) ← blockLines literal indent (c.rest.length + 1) { breaks } c
    let tail := match chomping with
      | .strip => []
      | .clip => b.due
      | .keep => b.breaks ++ b.due
    some (String.ofList (tail ++ b.done).reverse, c)

end Clausify.Document.Yaml
