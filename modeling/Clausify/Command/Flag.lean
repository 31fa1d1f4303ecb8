import Clausify.Number.Numeral
import Clausify.Table
import Clausify.Text.Blank
import Clausify.Text.Quoted

/-!
Flags on a command line. A flag is written `--name=value`, `--name value`, or with its letter as
`-l value`, `-lvalue` or `-l=value`; letters of truth flags may be written together. A truth flag
needs no value. The flags end at `--`; other arguments may stand between them. When a flag is
given twice the last value counts.
-/

namespace Clausify.Command

inductive FlagKind where
  | text
  | truth
  | count
  deriving DecidableEq, Repr

structure Flag where
  name : String
  kind : FlagKind := .text
  letter : Option Char := none
  /-- Whether the flag must be given. -/
  required : Bool := false
  deriving DecidableEq, Repr

abbrev FlagValues := Table String String

def Flag.shown (f : Flag) : String :=
  match f.letter with
  | some letter => "-" ++ String.singleton letter ++ ", --" ++ f.name
  | none => "--" ++ f.name

inductive FlagFault where
  | malformed (argument : String)
  | unknown (name : String)
  | unknownLetter (letter : Char) (group : String)
  | noValue (argument : String)
  | noLetterValue (letter : Char) (group : String)
  | invalid (value : String) (flag : Flag) (reason : String)
  deriving DecidableEq, Repr

def FlagFault.message : FlagFault → String
  | malformed argument => "bad flag syntax: " ++ argument
  | unknown name => "unknown flag: --" ++ name
  | unknownLetter letter group =>
    "unknown shorthand flag: " ++ Text.quotedLetter letter ++ " in -" ++ group
  | noValue argument => "flag needs an argument: " ++ argument
  | noLetterValue letter group =>
    "flag needs an argument: " ++ Text.quotedLetter letter ++ " in -" ++ group
  | invalid value flag reason =>
    "invalid argument " ++ Text.quoted value ++ " for " ++ Text.quoted flag.shown ++ " flag: " ++
      reason

namespace Flag

def isTruth (flags : List Flag) (name : String) : Bool :=
  flags.any fun f => f.name = name && f.kind = .truth

def isTruthLetter (flags : List Flag) (letter : Char) : Bool :=
  flags.any fun f => f.letter = some letter && f.kind = .truth

/-- Sets a flag, if the value is one it takes. -/
def set (f : Flag) (value : String) (values : FlagValues) : Except FlagFault FlagValues :=
  match f.kind with
  | .text => .ok (Table.set f.name value values)
  | .truth =>
    match Numeral.parseTruth value with
    | .ok _ => .ok (Table.set f.name value values)
    | .error fault => .error (.invalid value f (Numeral.faultText .truth value fault))
  | .count =>
    match Numeral.parsePrefixedNat value with
    | .ok _ => .ok (Table.set f.name value values)
    | .error fault => .error (.invalid value f (Numeral.faultText .unsigned value fault))

/-- What reading one argument gives: the values, and whether the next argument was taken too. -/
abbrev Reading := FlagValues × Bool

/-- Reads an argument of the form `--name` or `--name=value`. -/
def readName (flags : List Flag) (argument : String) (next? : Option String)
    (values : FlagValues) : Except FlagFault Reading :=
  let written := argument.toList.drop 2
  let name := String.ofList (written.takeWhile (· ≠ '='))
  if name = "" || written.head? = some '-' then .error (.malformed argument)
  else
    match flags.find? fun f => f.name = name, written.dropWhile (· ≠ '='), next? with
    | none, _, _ => .error (.unknown name)
    | some f, _ :: value, _ => (f.set (String.ofList value) values).map (·, false)
    | some f, [], next? =>
      if f.kind = .truth then (f.set "true" values).map (·, false)
      else
        match next? with
        | some value => (f.set value values).map (·, true)
        | none => .error (.noValue argument)

/-- The byte a character begins with, as a character. -/
def leadByte (c : Char) : Char :=
  Char.ofNat ((String.singleton c).toUTF8.toList.head?.map UInt8.toNat |>.getD 0)

/-- A group of letters that begins so is passed over. -/
def passedOver : List Char := "test.".toList

def readLetters (flags : List Flag) (next? : Option String) :
    List Char → FlagValues → Except FlagFault Reading
  | [], values => .ok (values, false)
  | letter :: rest, values =>
    if passedOver.isPrefixOf (letter :: rest) then .ok (values, false)
    else
      let group := String.ofList (letter :: rest)
      match flags.find? fun f => f.letter = some letter with
      | none => .error (.unknownLetter (leadByte letter) group)
      | some f =>
        if rest.head? = some '=' && 1 < rest.length then
          (f.set (String.ofList (rest.drop 1)) values).map (·, false)
        else if f.kind = .truth then do
          readLetters flags next? rest (← f.set "true" values)
        else if !rest.isEmpty then (f.set (String.ofList rest) values).map (·, false)
        else
          match next? with
          | some value => (f.set value values).map (·, true)
          | none => .error (.noLetterValue letter group)

/-- Whether an argument is no flag. -/
def isPlain (argument : String) : Bool := !argument.startsWith "-" || argument = "-"

def readOne (flags : List Flag) (argument : String) (next? : Option String)
    (values : FlagValues) : Except FlagFault Reading :=
  if argument.startsWith "--" then readName flags argument next? values
  else readLetters flags next? (argument.toList.drop 1) values

def readAll (flags : List Flag) : List String → FlagValues → Except FlagFault FlagValues
  | [], values => .ok values
  | [argument], values =>
    if isPlain argument || argument = "--" then .ok values
    else (readOne flags argument none values).map (·.1)
  | argument :: next :: rest, values =>
    if isPlain argument then readAll flags (next :: rest) values
    else if argument = "--" then .ok values
    else
      match readOne flags argument (some next) values with
      | .error fault => .error fault
      | .ok (values, true) => readAll flags rest values
      | .ok (values, false) => readAll flags (next :: rest) values

/-- The required flags that were not given, in the order of their names. -/
def missing (flags : List Flag) (values : FlagValues) : List String :=
  ((flags.filter fun f => f.required && !Table.has f.name values).map Flag.name).mergeSort
    fun a b => decide (a ≤ b)

end Flag

namespace FlagValues

/-- The text of a flag, or nothing. -/
def text (values : FlagValues) (name : String) : String := (values.lookup name).getD ""

def truth (values : FlagValues) (name : String) : Bool :=
  ((values.lookup name).map fun value => (Numeral.parseTruth value).toOption == some true)
    |>.getD false

def count? (values : FlagValues) (name : String) : Option Nat :=
  (values.lookup name).bind fun value => (Numeral.parsePrefixedNat value).toOption

end FlagValues

end Clausify.Command
