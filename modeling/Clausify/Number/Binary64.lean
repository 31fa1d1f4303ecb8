import Clausify.Number.Numeral

/-!
Double-precision numbers, exactly. A finite number is a sign, a mantissa below `2 ^ 53` and a
power of two; decimal text is rounded to the nearest number, ties to the even mantissa, in exact
integer arithmetic. A number is written with the fewest digits that read back as the same number,
and among those the nearest.
-/

namespace Clausify

/-- A double-precision number. -/
inductive Binary64 where
  | nan
  | infinite (negative : Bool)
  /-- The number `mantissa * 2 ^ exponent`, with a sign. -/
  | finite (negative : Bool) (mantissa : Nat) (exponent : Int)
  deriving DecidableEq, Repr

namespace Binary64

def mantissaLimit : Nat := 0x20000000000000

def leastExponent : Int := -1074

def greatestExponent : Int := 971

/-- The quotient of two numbers rounded to the nearest integer, ties to even. -/
def roundedQuotient (n d : Nat) : Nat :=
  let q := n / d
  let twice := 2 * (n % d)
  if twice > d || (twice = d && q % 2 = 1) then q + 1 else q

/-- The quotient of two numbers, divided by `2 ^ e` and rounded to the nearest integer. -/
def scaledQuotient (n d : Nat) (e : Int) : Nat :=
  if e ≥ 0 then roundedQuotient n (d * Nat.pow 2 e.toNat)
  else roundedQuotient (n * Nat.pow 2 (-e).toNat) d

/-- Whether a quotient is at least `2 ^ e`. -/
def atLeastPower (n d : Nat) (e : Int) : Bool :=
  if e ≥ 0 then n ≥ d * Nat.pow 2 e.toNat else n * Nat.pow 2 (-e).toNat ≥ d

/-- The exponent that leaves fifty-three binary digits of a positive quotient, or the least. -/
def exponentOf (n d : Nat) : Int :=
  let guess := (n.log2 : Int) - d.log2
  let top := if atLeastPower n d guess then guess else guess - 1
  max (top - 52) leastExponent

/-- The number nearest to a quotient, if it is in range. -/
def ofQuotient (negative : Bool) (n d : Nat) : Option Binary64 :=
  if n = 0 then some (finite negative 0 leastExponent)
  else
    let e := exponentOf n d
    let m := scaledQuotient n d e
    let (m, e) := if m = mantissaLimit then (mantissaLimit / 2, e + 1) else (m, e)
    if e > greatestExponent then none else some (finite negative m e)

def decimalLength (n : Nat) : Nat := (Nat.toDigits 10 n).length

/-- The number nearest to `digits * 10 ^ power`, if it is in range. Powers far outside the range
are decided without working them out. -/
def ofDecimal (negative : Bool) (digits : Nat) (power : Int) : Option Binary64 :=
  let magnitude := (decimalLength digits : Int) + power
  if digits = 0 || magnitude < -400 then some (finite negative 0 leastExponent)
  else if magnitude > 400 then none
  else if power ≥ 0 then ofQuotient negative (digits * Nat.pow 10 power.toNat) 1
  else ofQuotient negative digits (Nat.pow 10 (-power).toNat)

def digitsValue (cs : List Char) : Nat :=
  cs.foldl (fun n c => n * 10 + (c.toNat - '0'.toNat)) 0

/-- Reads an exponent mark with digits, or nothing at all. -/
def readExponent : List Char → Option Int
  | [] => some 0
  | c :: rest =>
    if c = 'e' || c = 'E' then
      let (negative, digits) := Numeral.splitSign rest
      if digits.isEmpty || !digits.all Char.isDigit then none
      else some (if negative then -(digitsValue digits : Int) else digitsValue digits)
    else none

/-- What a text gives when it is read as a number. -/
inductive Reading where
  | malformed
  | outOfRange
  | number (x : Binary64)
  deriving DecidableEq, Repr

/-- Reads decimal text: a sign, digits with an optional point, and an optional exponent. -/
def parse (cs : List Char) : Reading :=
  let (negative, cs) := Numeral.splitSign cs
  let whole := cs.takeWhile Char.isDigit
  let rest := cs.dropWhile Char.isDigit
  let (fraction, rest) := match rest with
    | '.' :: rest => (rest.takeWhile Char.isDigit, rest.dropWhile Char.isDigit)
    | rest => ([], rest)
  if whole.isEmpty && fraction.isEmpty then .malformed
  else
    match readExponent rest with
    | none => .malformed
    | some power =>
      match ofDecimal negative (digitsValue (whole ++ fraction)) (power - fraction.length) with
      | some x => .number x
      | none => .outOfRange

/-- The number a text stands for: a number out of range is infinite, the infinite numbers also
have names, in any case, and every other text is no number. -/
def ofText (s : String) : Binary64 :=
  let (negative, name) := Numeral.splitSign s.toList
  if ["inf", "infinity"].contains (String.ofList name).toLower then infinite negative
  else
    match parse s.toList with
    | .number x => x
    | .outOfRange => infinite negative
    | .malformed => nan

/-! ## Text -/

/-- A finite magnitude as a quotient. -/
def quotient (m : Nat) (e : Int) : Nat × Nat :=
  if e ≥ 0 then (m * Nat.pow 2 e.toNat, 1) else (m, Nat.pow 2 (-e).toNat)

/-- The position of the first decimal digit of a positive quotient, counted from the units. -/
def leadingPower (n d : Nat) : Int :=
  let guess := (decimalLength n : Int) - decimalLength d
  let reaches :=
    if guess ≥ 0 then n ≥ d * Nat.pow 10 guess.toNat else n * Nat.pow 10 (-guess).toNat ≥ d
  if reaches then guess else guess - 1

/-- The decimal number `digits * 10 ^ power` next to a quotient that reads back as the finite
number, if one of the two does; of two the nearer. -/
def candidate (m : Nat) (e : Int) (power : Int) : Option Nat :=
  let (n, d) := quotient m e
  let (n, d) :=
    if power ≥ 0 then (n, d * Nat.pow 10 power.toNat) else (n * Nat.pow 10 (-power).toNat, d)
  let low := n / d
  let readsBack (digits : Nat) : Bool := ofDecimal false digits power = some (finite false m e)
  match readsBack low, readsBack (low + 1) with
  | true, true =>
    some (if 2 * (n % d) > d || (2 * (n % d) = d && low % 2 = 1) then low + 1 else low)
  | true, false => some low
  | false, true => some (low + 1)
  | false, false => none

/-- The fewest digits of a positive finite number, with the power of ten of the last of them. -/
def shortest (m : Nat) (e : Int) : Nat × Int :=
  let (n, d) := quotient m e
  let leading := leadingPower n d
  ((List.range 17).findSome? fun (k : Nat) =>
    (candidate m e (leading - (k : Int))).map fun digits => (digits, leading - (k : Int))).getD
      (n / d, 0)

/-- The digits of a finite number and the position of the first, counted from the units; zero has
the digit `0`. -/
def decimal (m : Nat) (e : Int) : List Char × Int :=
  if m = 0 then (['0'], 0)
  else
    let (digits, power) := shortest m e
    let chars := Nat.toDigits 10 digits
    let first := power + chars.length - 1
    ((chars.reverse.dropWhile (· = '0')).reverse, first)

def signText (negative : Bool) : String := if negative then "-" else ""

def infinityText (negative : Bool) : String := if negative then "-Inf" else "+Inf"

/-- Digits written without an exponent. -/
def positionalText (digits : List Char) (first : Int) : String :=
  if first < 0 then
    String.ofList ('0' :: '.' :: List.replicate ((-first).toNat - 1) '0' ++ digits)
  else
    let whole := first.toNat + 1
    let padded := digits ++ List.replicate (whole - digits.length) '0'
    let fraction := padded.drop whole
    String.ofList (padded.take whole ++ if fraction.isEmpty then [] else '.' :: fraction)

/-- Digits written with an exponent of at least two digits. -/
def exponentText (digits : List Char) (first : Int) : String :=
  let fraction := digits.drop 1
  let exponent := toString first.natAbs
  String.ofList (digits.take 1 ++ if fraction.isEmpty then [] else '.' :: fraction) ++
    (if first < 0 then "e-" else "e+") ++ (if exponent.length < 2 then "0" else "") ++ exponent

/-- The number as messages show it: with an exponent below `1e-04` and from `1e+06` on. -/
def text : Binary64 → String
  | nan => "NaN"
  | infinite negative => infinityText negative
  | finite negative m e =>
    let (digits, first) := decimal m e
    signText negative ++
      if first < -4 || first ≥ 6 then exponentText digits first
      else positionalText digits first

def plainText : Binary64 → String
  | nan => "NaN"
  | infinite negative => infinityText negative
  | finite negative m e =>
    let (digits, first) := decimal m e
    signText negative ++ positionalText digits first

/-! ## Integers -/

def wholePart (m : Nat) (e : Int) : Nat :=
  if e ≥ 0 then m * Nat.pow 2 e.toNat else m / Nat.pow 2 (-e).toNat

def isWhole (m : Nat) (e : Int) : Bool :=
  if e ≥ 0 then true else m % Nat.pow 2 (-e).toNat = 0

/-- The number rounded towards zero, if it is finite. -/
def truncated? : Binary64 → Option Int
  | finite negative m e => some (if negative then -(wholePart m e : Int) else wholePart m e)
  | _ => none

/-- The integer of a number that is one, of magnitude at most `2 ^ 53`. -/
def exactInteger? : Binary64 → Option Int
  | finite negative m e =>
    let n := wholePart m e
    if isWhole m e && n ≤ mantissaLimit then some (if negative then -(n : Int) else n) else none
  | _ => none

/-- The number rounded towards zero as a word; what does not fit becomes the smallest word. -/
def toWord (x : Binary64) : Word :=
  match x.truncated? with
  | some n => if -(halfCount : Int) ≤ n && n < halfCount then Int64.ofInt n else Int64.minValue
  | none => Int64.minValue

/-- The number rounded towards zero as an unsigned word; negative numbers wrap, and what does not
fit becomes the middle of the range. -/
def toUnsigned (x : Binary64) : Nat :=
  match x.truncated? with
  | some n =>
    if n < halfCount then x.toWord.toUInt64.toNat
    else if n < wordCount then n.toNat
    else halfCount
  | none => halfCount

def isZero : Binary64 → Bool
  | finite _ m _ => m = 0
  | _ => false

/-! ## Order -/

/-- A number in units of the least positive one; none if it is no number. Infinity counts as more
than any other. -/
def units : Binary64 → Option Int
  | nan => none
  | infinite negative => let n : Int := Nat.pow 2 2100; some (if negative then -n else n)
  | finite negative m e =>
    let n : Int := m * Nat.pow 2 (e - leastExponent).toNat
    some (if negative then -n else n)

/-- Whether a number is less than another; what is no number is less than all others. -/
def precedes (x y : Binary64) : Bool :=
  match x.units, y.units with
  | none, some _ => true
  | some a, some b => a < b
  | _, none => false

/-- Whether two numbers are equal, which those that are none never are. -/
def same (x y : Binary64) : Bool := x.units.isSome && x.units = y.units

end Binary64

end Clausify
