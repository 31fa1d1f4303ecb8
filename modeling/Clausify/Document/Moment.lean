/-!
Moments: a date, or a date with a time of day, as documents write them. Month, day and the parts of
the time may have one digit or two, the year has four. The time follows behind a `T` with a zone, or
behind spaces without one; seconds may have a fraction, of which nine digits count.
-/

namespace Clausify.Document

/-- A moment as the calendar and the clock of its zone show it. -/
structure Moment where
  year : Nat
  month : Nat
  day : Nat
  hour : Nat := 0
  minute : Nat := 0
  second : Nat := 0
  nanosecond : Nat := 0
  /-- The minutes that the clock is ahead of universal time. -/
  offset : Int := 0
  deriving DecidableEq, Repr

namespace Moment

/-! ## Reading -/

def digit (c : Char) : Nat := c.toNat - '0'.toNat

def number : List Char → Option (Nat × List Char)
  | [] => none
  | a :: rest =>
    if !a.isDigit then none
    else
      match rest with
      | b :: more => if b.isDigit then some (digit a * 10 + digit b, more) else some (digit a, rest)
      | [] => some (digit a, [])

def pair : List Char → Option (Nat × List Char)
  | a :: b :: rest => if a.isDigit && b.isDigit then some (digit a * 10 + digit b, rest) else none
  | _ => none

def expect (wanted : Char) : List Char → Option (List Char)
  | c :: rest => if c = wanted then some rest else none
  | [] => none

def isLeap (year : Nat) : Bool := year % 4 = 0 && (year % 100 ≠ 0 || year % 400 = 0)

def daysIn (year month : Nat) : Nat :=
  if month = 2 then (if isLeap year then 29 else 28)
  else if [4, 6, 9, 11].contains month then 30
  else 31

def readDate (cs : List Char) : Option (Moment × List Char) := do
  let digits := cs.takeWhile Char.isDigit
  if digits.length ≠ 4 then none
  else
    let rest ← expect '-' (cs.drop 4)
    let (month, rest) ← number rest
    let (day, rest) ← number (← expect '-' rest)
    let year := digits.foldl (fun n c => n * 10 + digit c) 0
    if month = 0 || month > 12 || day = 0 || day > daysIn year month then none
    else some ({ year, month, day }, rest)

/-- The nanoseconds of the digits of a fraction. -/
def nanoseconds (digits : List Char) : Nat :=
  (digits ++ List.replicate 9 '0').take 9 |>.foldl (fun n c => n * 10 + digit c) 0

/-- Reads the fraction of a second, if there is one. -/
def readFraction : List Char → Nat × List Char
  | point :: c :: rest =>
    if (point = '.' || point = ',') && c.isDigit then
      (nanoseconds ((c :: rest).takeWhile Char.isDigit), (c :: rest).dropWhile Char.isDigit)
    else (0, point :: c :: rest)
  | cs => (0, cs)

def readClock (m : Moment) (cs : List Char) : Option (Moment × List Char) := do
  let (hour, cs) ← number cs
  let (minute, cs) ← number (← expect ':' cs)
  let (second, cs) ← number (← expect ':' cs)
  let (nanosecond, cs) := readFraction cs
  if hour > 23 || minute > 59 || second > 59 then none
  else some ({ m with hour, minute, second, nanosecond }, cs)

def readZone (m : Moment) (cs : List Char) : Option (Moment × List Char) := do
  match cs with
  | 'Z' :: rest => some (m, rest)
  | sign :: rest =>
    let (hours, rest) ← pair rest
    let (minutes, rest) ← pair (← expect ':' rest)
    if hours > 24 || minutes > 60 || (sign ≠ '+' && sign ≠ '-') then none
    else
      let offset : Int := hours * 60 + minutes
      some ({ m with offset := if sign = '-' then -offset else offset }, rest)
  | [] => none

def parse (cs : List Char) : Option Moment := do
  let (date, rest) ← readDate cs
  let (m, rest) ← match rest with
    | [] => some (date, [])
    | ' ' :: rest => readClock date (rest.dropWhile (· = ' '))
    | c :: rest =>
      if c = 'T' || c = 't' then do
        let (m, rest) ← readClock date rest
        readZone m rest
      else none
  if rest.isEmpty then some m else none

/-! ## Order -/

def daysBefore (year : Nat) : Nat :=
  365 * year + (year + 3) / 4 - (year + 99) / 100 + (year + 399) / 400

/-- The number of days before the day of a moment. -/
def dayNumber (m : Moment) : Nat :=
  (List.range (m.month - 1)).foldl (fun days k => days + daysIn m.year (k + 1))
    (daysBefore m.year + m.day)

/-- The whole seconds of universal time up to a moment. -/
def seconds (m : Moment) : Int :=
  (((m.dayNumber * 24 + m.hour) * 60 + m.minute : Nat) - m.offset) * 60 + m.second

/-- Whether a moment stands before another in a list: first by the fraction of the second, then by
the time. -/
def precedes (a b : Moment) : Bool :=
  a.nanosecond < b.nanosecond || (a.nanosecond = b.nanosecond && a.seconds < b.seconds)

/-- Whether a moment is the same as one that reads alike: its zone is whole hours away, at most
twelve behind or fourteen ahead. -/
def isComparable (m : Moment) : Bool :=
  m.offset % 60 = 0 && -720 ≤ m.offset && m.offset ≤ 840

/-! ## Text -/

/-- A number with zeros in front up to a width. -/
def padded (width n : Nat) : String :=
  let digits := (toString n).toList
  String.ofList (List.replicate (width - digits.length) '0' ++ digits)

/-- The fraction of the second, without zeros at the end. -/
def fractionText (m : Moment) : String :=
  let digits := (padded 9 m.nanosecond).toList.reverse.dropWhile (· = '0') |>.reverse
  if digits.isEmpty then "" else "." ++ String.ofList digits

def offsetText (m : Moment) : String :=
  let minutes := m.offset.natAbs
  (if m.offset < 0 then "-" else "+") ++ padded 2 (minutes / 60) ++ padded 2 (minutes % 60)

/-- The moment with its zone, which has a name only at universal time. -/
def text (m : Moment) : String :=
  padded 4 m.year ++ "-" ++ padded 2 m.month ++ "-" ++ padded 2 m.day ++ " " ++
    padded 2 m.hour ++ ":" ++ padded 2 m.minute ++ ":" ++ padded 2 m.second ++ m.fractionText ++
    " " ++ m.offsetText ++ " " ++ if m.offset = 0 then "UTC" else m.offsetText

end Moment

end Clausify.Document
