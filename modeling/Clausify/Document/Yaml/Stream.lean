import Clausify.Document.Yaml.Token

/-!
The tokens of a text, one after the other. A key is only known by the colon behind it, so tokens
wait in a queue while one of them may still turn out to start a key; the mark of the key is then
put in front of it. Three tokens are always looked at before the first of them is given out, so a
text may be refused for what stands shortly behind the end of a document. Blocks open and close by
indentation, which means nothing inside brackets.
-/

namespace Clausify.Document.Yaml

/-- The place of a token that may start a key. -/
structure KeyPlace where
  /-- Whether a key may start there. -/
  possible : Bool := false
  /-- Whether nothing but a key can start there. -/
  required : Bool := false
  /-- Whether the token waits until it is known if a key starts there. -/
  awaited : Bool := true
  /-- The number of the token, counted from the first of the text. -/
  number : Nat := 0
  index : Nat := 0
  line : Nat := 0
  column : Nat := 0

/-- The tokens of a text as far as they are known. -/
structure Stream where
  cursor : Cursor
  started : Bool := false
  /-- The tokens that are known and not yet given out. -/
  queue : List Token := []
  /-- The number of tokens given out. -/
  taken : Nat := 0
  /-- Whether a key may start at the cursor. -/
  keyAllowed : Bool := true
  /-- The place of a key in the innermost brackets. -/
  place : KeyPlace := {}
  /-- The places of keys in the brackets around, innermost first. -/
  outer : List KeyPlace := []
  indent : Int := -1
  /-- The indentations around, innermost first. -/
  indents : List Int := []

/-- Reading tokens, which may be refused. -/
abbrev Scan := StateT Stream Option

namespace Stream

/-- How many brackets, or how many blocks, may be open. -/
def depthLimit : Nat := 10000

def inFlow (s : Stream) : Bool := !s.outer.isEmpty

def nextNumber (s : Stream) : Nat := s.taken + s.queue.length

/-- Puts a token at the end of the queue. -/
def push (s : Stream) (token : Token) : Stream := { s with queue := s.queue ++ [token] }

/-- Puts a token before the one with a number, or at the end if that one is given out already. -/
def insert (s : Stream) (number : Nat) (token : Token) : Stream :=
  if number < s.taken then s.push token
  else
    let (before, behind) := s.queue.splitAt (number - s.taken)
    { s with queue := before ++ token :: behind }

/-- Whether a key that starts at a place can still end at the cursor: on the same line and not too
far away. -/
def reaches (s : Stream) (place : KeyPlace) : Bool :=
  s.cursor.line ≤ place.line && s.cursor.index ≤ place.index + 1024

/-- Whether a place is one where a key may start; a place where a key must start may not be left
without one. -/
def isOpen (s : Stream) (place : KeyPlace) : Option Bool :=
  if !place.possible then some false
  else if s.reaches place then some true
  else if place.required then none
  else some false

/-- Gives up the place of a key, where none must start. -/
def dropPlace : Scan Unit := fun s =>
  if s.place.possible && s.place.required then none
  else some ((), { s with place := { s.place with possible := false } })

/-- Keeps the cursor as the place of a key, if one may start there. -/
def keepPlace : Scan Unit := fun s =>
  if s.keyAllowed then do
    let ((), s) ← dropPlace s
    let c := s.cursor
    let required := !s.inFlow && s.indent = c.column
    some ((), { s with place := ⟨true, required, true, s.nextNumber, c.index, c.line, c.column⟩ })
  else some ((), s)

/-- Opens a block in a column, if it is indented, with a token at the end of the queue or before
the one with a number. -/
def openBlock (column : Nat) (number : Option Nat) (token : Token) (s : Stream) : Stream :=
  if s.inFlow || (column : Int) ≤ s.indent then s
  else
    let s := { s with indents := s.indent :: s.indents, indent := column }
    match number with
    | none => s.push token
    | some number => s.insert number token

/-- Closes the blocks that are indented by more than a column. -/
def closeBlocks (column : Int) (s : Stream) : Stream :=
  if s.inFlow then s else closeFrom s.indents s
where
  /-- Closes blocks while there is an indentation around. -/
  closeFrom : List Int → Stream → Stream
    | [], s => s
    | around :: rest, s =>
      if s.indent > column then
        closeFrom rest { s.push .blockEnd with indent := around, indents := rest }
      else s

def move (change : Cursor → Cursor) : Scan Unit := modify fun s =>
  { s with cursor := change s.cursor }

/-- Gives up the place of a key and says whether one may start behind. -/
def separate (keyAllowed : Bool) : Scan Unit := do
  dropPlace
  modify fun s => { s with keyAllowed }

/-- Keeps the place of a key, and allows none to start behind. -/
def occupy : Scan Unit := do
  keepPlace
  modify fun s => { s with keyAllowed := false }

/-- Passes over `length` characters and puts a token for them at the end of the queue. -/
def emit (length : Nat) (token : Token) : Scan Unit := modify fun s =>
  { s with cursor := s.cursor.steps length }.push token

/-- Puts a token that was read at the end of the queue. -/
def emitRead (read : Cursor → Option (Token × Cursor)) : Scan Unit := fun s =>
  (read s.cursor).map fun (token, cursor) => ((), { s with cursor }.push token)

/-- Goes to the next token, over blanks, comments and line breaks. A tab counts as a blank inside
brackets and where no key can start. -/
def toToken : Nat → Stream → Stream
  | 0, s => s
  | fuel + 1, s =>
    let tabs := s.inFlow || !s.keyAllowed
    let c := s.cursor.skipMargin.skipRun fun char => char = ' ' || (tabs && char = '\t')
    let c := if c.here = '#' then c.skipComments (c.rest.length + 1) else c
    if isBreak c.here then
      toToken fuel { s with cursor := c.stepLine, keyAllowed := s.keyAllowed || !s.inFlow }
    else { s with cursor := c }

def readEnd : Scan Unit := do
  modify fun s =>
    let c := s.cursor
    let cursor := if c.column = 0 then c else { c with column := 0, line := c.line + 1 }
    closeBlocks (-1) { s with cursor }
  separate false
  emit 0 .streamEnd

def readDirective : Scan Unit := do
  modify (closeBlocks (-1))
  separate false
  emitRead Token.readDirective

/-- Reads a mark at the start or the end of a document. -/
def readMark : Scan Unit := do
  modify (closeBlocks (-1))
  separate false
  emit 3 (if (← get).cursor.here = '-' then .documentStart else .documentEnd)

def readOpen (token : Token) : Scan Unit := do
  keepPlace
  modify fun s => { s with
    outer := s.place :: s.outer
    place := { number := s.nextNumber }
    keyAllowed := true }
  if (← get).outer.length > depthLimit then failure
  emit 1 token

/-- Reads a closing bracket, which may stand alone. Brackets in which no key could start are given
out without waiting. -/
def readClose (token : Token) : Scan Unit := do
  dropPlace
  modify fun s =>
    match s.outer with
    | [] => { s with keyAllowed := false }
    | place :: outer => { s with
      place := { place with awaited := place.awaited && place.number ≠ s.place.number }
      outer
      keyAllowed := false }
  emit 1 token

/-- Reads a dash before an item. Where no key can start no block can start either. -/
def readEntry : Scan Unit := do
  let s ← get
  if !s.inFlow && !s.keyAllowed then failure
  modify (openBlock s.cursor.column none .blockSequence)
  separate true
  emit 1 .blockEntry

/-- Reads the mark of a key. -/
def readKey : Scan Unit := do
  let s ← get
  if !s.inFlow && !s.keyAllowed then failure
  modify (openBlock s.cursor.column none .blockMapping)
  separate (!s.inFlow)
  emit 1 .key

/-- Reads the mark of a value. It may turn what stands before it into a key. -/
def readValue : Scan Unit := do
  let s ← get
  if ← s.isOpen s.place then
    let place := s.place
    set (openBlock place.column (some place.number) .blockMapping
      { s.insert place.number .key with
        place := { place with possible := false }, keyAllowed := false })
  else
    if !s.inFlow && !s.keyAllowed then failure
    set { openBlock s.cursor.column none .blockMapping s with
      place := { s.place with possible := false }, keyAllowed := !s.inFlow }
  emit 1 .value

/-- Reads an anchor, or a reference to one. -/
def readAnchor (token : String → Token) : Scan Unit := do
  occupy
  emitRead fun c => (Token.readAnchor c.step).map fun (name, c) => (token name, c)

def readBlock (literal : Bool) : Scan Unit := do
  separate true
  let indent := (← get).indent
  emitRead fun c => (blockScalar literal indent c.step).map fun (s, c) => (.scalar false s, c)

def readQuoted (double : Bool) : Scan Unit := do
  occupy
  emitRead fun c =>
    (quotedScalar double (c.rest.length + 1) {} c.step).map fun (s, c) => (.scalar false s, c)

/-- Reads a plain scalar. A key may start behind it on a line of its own. -/
def readPlain : Scan Unit := do
  occupy
  let s ← get
  match plainScalar s.inFlow (s.indent + 1) (s.cursor.rest.length + 1) {} s.cursor with
  | none => failure
  | some (f, cursor) =>
    set ({ s with cursor, keyAllowed := f.broken }.push
      (.scalar true (String.ofList f.done.reverse)))

/-- Reads the token at the cursor by its first character. -/
def readToken : Scan Unit := do
  let s ← get
  let c := s.cursor
  let flow := s.inFlow
  let apart := flow || endsWord (c.ahead 1)
  match c.here with
  | '[' => readOpen .openSequence
  | '\x7b' => readOpen .openMapping
  | ']' => readClose .closeSequence
  | '\x7d' => readClose .closeMapping
  | ',' => separate true; emit 1 .flowEntry
  | '*' => readAnchor .reference
  | '&' => readAnchor .anchor
  | '!' => occupy; emitRead Token.readTag
  | '\'' => readQuoted false
  | '"' => readQuoted true
  | char =>
    if char = '-' && endsWord (c.ahead 1) then readEntry
    else if char = '?' && apart then readKey
    else if char = ':' && apart then readValue
    else if char = '|' && !flow then readBlock true
    else if char = '>' && !flow then readBlock false
    else if startsPlain flow c then readPlain
    else failure

/-- Adds the next tokens to the queue. A comment may follow on the same line, unless a dash stands
before it. -/
def read : Scan Unit := do
  if !(← get).started then
    modify fun s => { s.push .streamStart with started := true }
  else
    modify fun s =>
      let s := toToken (s.cursor.rest.length + 1) s
      closeBlocks s.cursor.column s
    let c := (← get).cursor
    if c.rest.isEmpty then readEnd
    else if c.column = 0 && c.here = '%' then readDirective
    else if c.atMark then readMark
    else
      readToken
      if (← get).indents.length > depthLimit then failure
      if (← get).queue.getLast? ≠ some .blockEntry then move Cursor.skipLineComment

/-- Whether the first token of the queue may still turn out to start a key. -/
def isPending (s : Stream) : Option Bool :=
  match (s.place :: s.outer).find? fun place =>
      place.possible && place.awaited && place.number = s.taken with
  | none => some false
  | some place => s.isOpen place

/-- Reads until the first token of the queue can be given out. -/
def fill : Nat → Scan Unit
  | 0 => failure
  | fuel + 1 => do
    let s ← get
    if s.queue.length > 2 && !(← s.isPending) then pure ()
    else
      read
      fill fuel

def peek : Scan Token := do
  fill ((← get).cursor.rest.length + 8)
  match (← get).queue with
  | [] => failure
  | token :: _ => pure token

/-- Gives out the next token. -/
def skip : Scan Unit := modify fun s => { s with queue := s.queue.tail, taken := s.taken + 1 }

def ofText (text : String) : Option Stream := (Cursor.ofText text).map fun cursor => { cursor }

end Stream

end Clausify.Document.Yaml
