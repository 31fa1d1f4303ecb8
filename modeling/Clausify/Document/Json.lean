import Clausify.Document.Value

/-!
Reading JSON. A document is one object, or null for the empty object, with nothing but blanks
around it. Numbers are double-precision and must be in range; of two equal keys the last one
counts; a surrogate escape without its partner is read as U+FFFD; and collections may only be
nested up to a limit.
-/

namespace Clausify.Document.Json

def skip : List Char → List Char
  | [] => []
  | c :: rest => if c = ' ' || c = '\t' || c = '\n' || c = '\r' then skip rest else c :: rest

/-- The value of four hexadecimal digits, and what follows. -/
def hex4 : List Char → Option (Nat × List Char)
  | a :: b :: c :: d :: rest => do
    let digit (c : Char) : Option Nat := (Numeral.digitValue c).filter (· < 16)
    some (((← digit a) * 16 + (← digit b)) * 256 + (← digit c) * 16 + (← digit d), rest)
  | _ => none

/-- Whether a code unit is one half of a pair. -/
def isSurrogate (n : Nat) : Bool := 0xd800 ≤ n && n ≤ 0xdfff

/-- The character of two code units, if they are a pair. -/
def paired (high low : Nat) : Option Char :=
  if 0xd800 ≤ high && high ≤ 0xdbff && 0xdc00 ≤ low && low ≤ 0xdfff then
    some (Char.ofNat (0x10000 + (high - 0xd800) * 0x400 + (low - 0xdc00)))
  else none

/-- The character of a code unit escape, and what follows. -/
def unit (n : Nat) (rest : List Char) : Char × List Char :=
  if isSurrogate n then
    match rest with
    | '\\' :: 'u' :: after =>
      match hex4 after with
      | some (low, beyond) =>
        match paired n low with
        | some c => (c, beyond)
        | none => ('�', rest)
      | none => ('�', rest)
    | _ => ('�', rest)
  else (Char.ofNat n, rest)

def shortEscape : Char → Option Char
  | '"' => some '"'
  | '\\' => some '\\'
  | '/' => some '/'
  | 'b' => some (Char.ofNat 8)
  | 'f' => some (Char.ofNat 12)
  | 'n' => some '\n'
  | 'r' => some '\r'
  | 't' => some '\t'
  | _ => none

/-- Reads a text up to its closing quote; `done` holds the characters before, last first. -/
def textFrom : Nat → List Char → List Char → Option (String × List Char)
  | 0, _, _ => none
  | fuel + 1, done, cs =>
    match cs with
    | [] => none
    | '"' :: rest => some (String.ofList done.reverse, rest)
    | '\\' :: 'u' :: rest =>
      match hex4 rest with
      | none => none
      | some (n, after) =>
        let (c, beyond) := unit n after
        textFrom fuel (c :: done) beyond
    | '\\' :: c :: rest =>
      match shortEscape c with
      | some c => textFrom fuel (c :: done) rest
      | none => none
    | c :: rest => if c.toNat < 0x20 then none else textFrom fuel (c :: done) rest

def digits (cs : List Char) : Option (List Char × List Char) :=
  match cs.takeWhile Char.isDigit with
  | [] => none
  | ds => some (ds, cs.dropWhile Char.isDigit)

def numeral (cs : List Char) : Option (List Char × List Char) := do
  let (sign, cs) := match cs with
    | '-' :: rest => (['-'], rest)
    | _ => ([], cs)
  let (whole, cs) ← match cs with
    | '0' :: rest => some (['0'], rest)
    | _ => digits cs
  let (fraction, cs) ← match cs with
    | '.' :: rest => (digits rest).map fun (ds, rest) => ('.' :: ds, rest)
    | _ => some ([], cs)
  let (exponent, cs) ← match cs with
    | c :: rest =>
      if c = 'e' || c = 'E' then
        let (mark, rest) := match rest with
          | '+' :: rest => (['e', '+'], rest)
          | '-' :: rest => (['e', '-'], rest)
          | _ => (['e'], rest)
        (digits rest).map fun (ds, rest) => (mark ++ ds, rest)
      else some ([], cs)
    | [] => some ([], cs)
  some (sign ++ whole ++ fraction ++ exponent, cs)

/-- Reads a number, which must be in range. -/
def number (cs : List Char) : Option (Value × List Char) :=
  match numeral cs with
  | none => none
  | some (text, rest) =>
    match Binary64.parse text with
    | .number x => some (.real x, rest)
    | _ => none

mutual

def value : Nat → List Char → Option (Value × List Char)
  | 0, _ => none
  | fuel + 1, cs =>
    match skip cs with
    | 'n' :: 'u' :: 'l' :: 'l' :: rest => some (.null, rest)
    | 't' :: 'r' :: 'u' :: 'e' :: rest => some (.truth true, rest)
    | 'f' :: 'a' :: 'l' :: 's' :: 'e' :: rest => some (.truth false, rest)
    | '"' :: rest => (textFrom rest.length.succ [] rest).map fun (s, rest) => (.text s, rest)
    | '[' :: rest =>
      match skip rest with
      | ']' :: rest => some (.list [], rest)
      | rest => (items fuel [] rest).map fun (xs, rest) => (.list xs, rest)
    | '\x7b' :: rest =>
      match skip rest with
      | '\x7d' :: rest => some (.record [], rest)
      | rest => (members fuel [] rest).map fun (xs, rest) => (.record xs, rest)
    | cs => number cs

/-- Reads the items of a list up to its end; `done` holds those before, last first. -/
def items : Nat → List Value → List Char → Option (List Value × List Char)
  | 0, _, _ => none
  | fuel + 1, done, cs =>
    match value fuel cs with
    | none => none
    | some (item, rest) =>
      match skip rest with
      | ',' :: rest => items fuel (item :: done) rest
      | ']' :: rest => some ((item :: done).reverse, rest)
      | _ => none

/-- Reads the members of an object up to its end, setting each key in turn. -/
def members : Nat → Entries → List Char → Option (Entries × List Char)
  | 0, _, _ => none
  | fuel + 1, done, cs =>
    match skip cs with
    | '"' :: rest =>
      match textFrom rest.length.succ [] rest with
      | none => none
      | some (key, rest) =>
        match skip rest with
        | ':' :: rest =>
          match value fuel rest with
          | none => none
          | some (member, rest) =>
            match skip rest with
            | ',' :: rest => members fuel (Table.set key member done) rest
            | '\x7d' :: rest => some (Table.set key member done, rest)
            | _ => none
        | _ => none
    | _ => none

end

/-- How deep collections may be nested. -/
def depthLimit : Nat := 10000

/-- The greatest depth of the brackets of a document, `most` being that of those before. -/
def deepest (inText : Bool) (depth most : Nat) : List Char → Nat
  | [] => most
  | '\\' :: _ :: rest => deepest inText depth most rest
  | c :: rest =>
    if c = '"' then deepest (!inText) depth most rest
    else if inText then deepest inText depth most rest
    else if c = '[' || c = '\x7b' then deepest inText (depth + 1) (max most (depth + 1)) rest
    else if c = ']' || c = '\x7d' then deepest inText (depth - 1) most rest
    else deepest inText depth most rest

def parse (text : String) : Option Entries :=
  let cs := text.toList
  if deepest false 0 0 cs > depthLimit then none
  else
    match value (2 * cs.length + 2) cs with
    | some (.record entries, rest) => if (skip rest).isEmpty then some entries else none
    | some (.null, rest) => if (skip rest).isEmpty then some [] else none
    | _ => none

end Clausify.Document.Json
