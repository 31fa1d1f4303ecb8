import Clausify.Command.Flag
import Clausify.Text.Case

/-!
The commands of the program and the way from an argument list to one of them. The command word is
the first argument that is neither a flag nor the value of one; flags may stand before it. A word
that names no command is answered with the commands it may have been meant for.
-/

namespace Clausify.Command

def programName : String := "fdsat"

inductive Verb where
  | encode
  | solve
  /-- Shows what the program can do, and does nothing. -/
  | guide
  deriving DecidableEq, Repr

def Verb.ofWord? (word : String) : Option Verb :=
  match word with
  | "encode" => some .encode
  | "solve" => some .solve
  | "help" | "completion" => some .guide
  | _ => none

def commonFlags : List Flag := [{ name := "debug", kind := .truth }, { name := "log" }]

/-- The flag that asks for a description. -/
def guideFlag : Flag := { name := "help", kind := .truth, letter := some 'h' }

def reductionFlags : List Flag :=
  [{ name := "model", letter := some 'm', required := true },
    { name := "config", letter := some 'c' },
    { name := "scheme" },
    { name := "cnf-limit", kind := .count },
    { name := "both", kind := .truth },
    { name := "mapping", kind := .truth }]

def Verb.flags : Verb → List Flag
  | encode => guideFlag :: commonFlags ++ reductionFlags ++
    [{ name := "out", letter := some 'o', required := true },
      { name := "maxsat", kind := .truth }]
  | solve => guideFlag :: commonFlags ++ reductionFlags ++
    [{ name := "solver", letter := some 's' },
      { name := "out", letter := some 'o' },
      { name := "cnf" },
      { name := "all", kind := .truth },
      { name := "no-optimise", kind := .truth }]
  | guide => guideFlag :: commonFlags

namespace Route

/-- Whether an argument before the command word takes the next one as its value. A flag that is
not known yet is taken to do so. -/
def takesNext (flags : List Flag) (argument : String) : Bool :=
  !argument.contains '=' &&
    if argument.startsWith "--" then
      !Flag.isTruth flags (String.ofList (argument.toList.drop 2))
    else
      argument.startsWith "-" && argument.utf8ByteSize = 2 &&
        !argument.toList.tail.any (Flag.isTruthLetter flags)

/-- The arguments that are neither flags nor their values. -/
def words (flags : List Flag) : List String → List String
  | [] => []
  | [argument] =>
    if argument = "" || argument.startsWith "-" then [] else [argument]
  | argument :: next :: rest =>
    if argument = "--" then []
    else if takesNext flags argument then words flags rest
    else if argument = "" || argument.startsWith "-" then words flags (next :: rest)
    else argument :: words flags (next :: rest)

/-- The arguments without the command word. -/
def withoutWord (flags : List Flag) (word : String) : List String → List String
  | [] => []
  | [argument] => if argument = word then [] else [argument]
  | argument :: next :: rest =>
    if argument = "--" then argument :: next :: rest
    else if takesNext flags argument then argument :: next :: withoutWord flags word rest
    else if argument = word then next :: rest
    else argument :: withoutWord flags word (next :: rest)

/-- One row of the table of edit distances: `row` belongs to the items so far, `left` is the entry
before in the new row and `diagonal` the one above that. -/
def distanceRow {α : Type} [DecidableEq α] (item : α) (left diagonal : Nat) :
    List α → List Nat → List Nat
  | t :: target, above :: row =>
    let entry := if item = t then diagonal else 1 + min (min above left) diagonal
    entry :: distanceRow item entry above target row
  | _, _ => []

/-- The number of single edits between two lists. -/
def distance {α : Type} [DecidableEq α] (source target : List α) : Nat :=
  let first := List.range (target.length + 1)
  let last := source.foldl (fun (row : List Nat) item =>
    match row with
    | [] => []
    | corner :: rest => (corner + 1) :: distanceRow item (corner + 1) corner target rest) first
  last.getLast?.getD 0

/-- The commands a word may have been meant for: those within two edits of bytes in any case, and
those it begins. -/
def suggestions (word : String) : List String :=
  let typed := Text.lower word
  ["encode", "solve", "completion"].filter fun name =>
    distance typed.toUTF8.toList name.toUTF8.toList ≤ 2 || name.startsWith typed

/-- The command of an argument list with the arguments that remain, or the word that names no
command. No word at all asks for the guide. -/
def find (arguments : List String) : Except String (Verb × List String) :=
  match words commonFlags arguments with
  | [] => .ok (.guide, arguments)
  | word :: _ =>
    match Verb.ofWord? word with
    | some verb => .ok (verb, withoutWord commonFlags word arguments)
    | none => .error word

end Route

end Clausify.Command
