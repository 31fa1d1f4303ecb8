/-!
A place in a YAML text. A cursor knows the characters that follow, the line and the column it is
in, and how many line breaks were passed since the last character that is no blank. Beyond the end
of the text stands the character NUL, which no text may hold.
-/

namespace Clausify.Document.Yaml

def isBlank (c : Char) : Bool := c = ' ' || c = '\t'

def isBreak (c : Char) : Bool :=
  c = '\r' || c = '\n' || c.toNat = 0x85 || c.toNat = 0x2028 || c.toNat = 0x2029

/-- What stands beyond the end of a text. -/
def endMark : Char := '\x00'

def endsLine (c : Char) : Bool := isBreak c || c = endMark

def endsWord (c : Char) : Bool := isBlank c || endsLine c

def isNameChar (c : Char) : Bool := c.isAlphanum || c = '_' || c = '-'

structure Cursor where
  rest : List Char
  /-- The number of characters before this place. -/
  index : Nat := 0
  line : Nat := 0
  column : Nat := 0
  /-- The number of line breaks since the last character that is no blank. -/
  breaks : Nat := 0
  /-- Whether the first character of each line is passed over between tokens. -/
  margin : Bool := false

namespace Cursor

def ahead (c : Cursor) (n : Nat) : Char := (c.rest.drop n).headD endMark

def here (c : Cursor) : Char := c.ahead 0

/-- Passes over a character that is no line break. -/
def step (c : Cursor) : Cursor :=
  { c with
    rest := c.rest.tail
    index := c.index + 1
    column := c.column + 1
    breaks := if isBlank c.here then c.breaks else 0 }

/-- Passes over characters that are no line breaks. -/
def steps : Nat → Cursor → Cursor
  | 0, c => c
  | n + 1, c => steps n c.step

/-- The characters up to the first that fails a test. -/
def run (test : Char → Bool) (c : Cursor) : List Char := c.rest.takeWhile test

/-- Passes over characters up to the first that fails a test. -/
def skipRun (test : Char → Bool) (c : Cursor) : Cursor := c.steps (c.run test).length

/-- The length of the line break at the cursor, and what it stands for. -/
def lineBreak (c : Cursor) : Nat × List Char :=
  match c.rest with
  | '\r' :: '\n' :: _ => (2, ['\n'])
  | b :: _ =>
    if b = '\r' || b = '\n' || b.toNat = 0x85 then (1, ['\n'])
    else if isBreak b then (1, [b])
    else (0, [])
  | [] => (0, [])

/-- Passes over the line break at the cursor, if there is one. -/
def stepLine (c : Cursor) : Cursor :=
  let (n, _) := c.lineBreak
  if n = 0 then c
  else
    { c with
      rest := c.rest.drop n
      index := c.index + n
      line := c.line + 1
      column := 0
      breaks := c.breaks + 1 }

def toLineEnd (c : Cursor) : Cursor := c.skipRun fun b => !endsLine b

/-- Whether the line starts with a mark of three equal characters and nothing else in its first
word. -/
def atMark (c : Cursor) : Bool :=
  c.column = 0 && (c.here = '-' || c.here = '.') && c.ahead 1 = c.here && c.ahead 2 = c.here &&
    endsWord (c.ahead 3)

/-- Goes on to an index, over blanks and line breaks. -/
def goTo (index : Nat) : Nat → Cursor → Cursor
  | 0, c => c
  | fuel + 1, c =>
    if c.index ≥ index then c
    else goTo index fuel (if isBreak c.here then c.stepLine else c.step)

/-- How far ahead a comment is looked for. -/
def commentRange : Nat := 512

/-- Passes over a comment and over those that follow with nothing but blanks and line breaks
before them. -/
def skipComments : Nat → Cursor → Cursor
  | 0, c => c
  | fuel + 1, c =>
    let c := c.toLineEnd
    if c.here = '\r' || c.here = '\n' then
      let gap := (c.rest.drop 1).takeWhile fun b => isBlank b || b = '\r' || b = '\n'
      let distance := gap.length + 1
      if distance < commentRange && c.ahead distance = '#' then
        skipComments fuel (c.goTo (c.index + distance) distance)
      else c
    else c

/-- Passes over a comment behind a token on the same line. -/
def skipLineComment (c : Cursor) : Cursor :=
  let distance := (c.run isBlank).length
  if c.breaks = 0 && distance < commentRange && c.ahead distance = '#' then c.toLineEnd else c

def isAllowed (c : Char) : Bool :=
  let point := c.toNat
  point = 0x09 || point = 0x0a || point = 0x0d || (0x20 ≤ point && point ≤ 0x7e) ||
    point = 0x85 || (0xa0 ≤ point && point ≤ 0xfffd) || 0x10000 ≤ point

/-- Whether a byte order mark stands first. -/
def isMarked (cs : List Char) : Bool := cs.head?.any fun c => c.toNat = 0xfeff

/-- The start of a text; a byte order mark in front is left out. Another one behind it gives every
line a margin. -/
def ofText (text : String) : Option Cursor :=
  let cs := if isMarked text.toList then text.toList.tail else text.toList
  if cs.all isAllowed then some { rest := cs, margin := isMarked cs } else none

/-- Passes over the margin at the start of a line. -/
def skipMargin (c : Cursor) : Cursor := if c.margin && c.column = 0 then c.step else c

end Cursor

end Clausify.Document.Yaml
