import Clausify.Clause.Formula
import Clausify.Text.Blank

/-!
The DIMACS text of a formula. A line that starts with `c` is a comment, one that starts with `p`
declares the number of variables, and all other lines hold literals, a zero closing each clause;
clauses and lines need not match. What a text says is `parse`; it stops at the first line that
cannot be read. The reader itself (`read`) keeps one line at a time and also stops at a line that is
too long for it.
-/

namespace Clausify.Dimacs

inductive Fault where
  | malformedHeader (line : String)
  | unsupported (format : String)
  | variableCount (field : String)
  | clauseBeforeHeader (lineNumber : Nat)
  | badLiteral (field : String) (lineNumber : Nat)
  | undeclaredVariable (literal : Word) (declared : Nat)
  | unterminatedClause
  | lineTooLong
  deriving DecidableEq, Repr

def Fault.message : Fault → String
  | malformedHeader line => describe ("malformed header " ++ Text.quoted line)
  | unsupported format => describe (Text.quoted format ++ " documents are not supported")
  | variableCount field => describe ("invalid variable count " ++ Text.quoted field)
  | clauseBeforeHeader lineNumber =>
    describe ("clause before header on line " ++ toString lineNumber)
  | badLiteral field lineNumber =>
    describe ("invalid literal " ++ Text.quoted field ++ " on line " ++ toString lineNumber)
  | undeclaredVariable literal declared =>
    describe ("literal " ++ literal.text ++ " exceeds the declared " ++ toString declared ++
      " variables")
  | unterminatedClause => describe "unterminated clause at end of input"
  | lineTooLong => "bufio.Scanner: token too long"
where
  /-- The faults of a document name the format first. -/
  describe (detail : String) : String := "invalid DIMACS document: " ++ detail

/-- What has been read so far: the formula, whether a header was seen, and the literals of the
clause that is still open, last first. -/
structure Reading where
  formula : Formula := {}
  header : Bool := false
  pending : List Literal := []

namespace Reading

def readHeader (r : Reading) (line : List Char) : Except Fault Reading :=
  match Text.fieldsOf line with
  | _ :: format :: count :: _ :: _ =>
    if String.ofList format ≠ "cnf" then .error (.unsupported (String.ofList format))
    else
      match Numeral.parseNat (String.ofList count) with
      | .error _ => .error (.variableCount (String.ofList count))
      | .ok n => .ok { r with formula := { r.formula with variableCount := n }, header := true }
  | _ => .error (.malformedHeader (String.ofList line))

/-- The magnitude that is compared with the declared variables: that of the smallest word is
read without its sign. -/
def magnitudeOf (w : Word) : Nat := (max w (-w)).toUInt64.toNat

/-- Reads one literal; a zero closes the clause. -/
def readLiteral (lineNumber : Nat) (r : Reading) (field : List Char) : Except Fault Reading :=
  match Numeral.parseWord (String.ofList field) with
  | .error _ => .error (.badLiteral (String.ofList field) lineNumber)
  | .ok w =>
    if w = 0 then
      .ok { r with
        formula := { r.formula with clauses := r.formula.clauses.push r.pending.reverse }
        pending := [] }
    else if magnitudeOf w > r.formula.variableCount then
      .error (.undeclaredVariable w r.formula.variableCount)
    else .ok { r with pending := ⟨w⟩ :: r.pending }

def readLine (lineNumber : Nat) (r : Reading) (line : List Char) : Except Fault Reading :=
  match Text.trimChars line with
  | [] => .ok r
  | 'c' :: rest => .ok { r with
      formula := r.formula.addComment (String.ofList (Text.trimChars rest)) }
  | 'p' :: rest => r.readHeader ('p' :: rest)
  | trimmed =>
    if !r.header then .error (.clauseBeforeHeader lineNumber)
    else (Text.fieldsOf trimmed).foldlM (readLiteral lineNumber) r

/-- Reads lines one after the other, the first having number `lineNumber`. -/
def readLines (lineNumber : Nat) (r : Reading) : List (List Char) → Except Fault Reading
  | [] => .ok r
  | line :: rest =>
    match r.readLine lineNumber line with
    | .error fault => .error fault
    | .ok next => readLines (lineNumber + 1) next rest

end Reading

/-- What has been read when there are no more lines: every clause must be closed. -/
def Reading.close (r : Reading) : Except Fault Formula :=
  if r.pending.isEmpty then .ok r.formula else .error .unterminatedClause

/-- The formula of a text, whatever the length of its lines. -/
def parse (text : String) : Except Fault Formula :=
  match Reading.readLines 1 {} (Text.linesOf text.toList) with
  | .error fault => .error fault
  | .ok r => r.close

/-- The number of bytes that is too much for a line. -/
def lineLimit : Nat := 16 * 1024 * 1024

def lineSize (line : List Char) : Nat := line.foldl (fun size c => size + c.utf8Size) 0

/-- A line that is short enough to be read. -/
def Fits (line : List Char) : Prop := lineSize line < lineLimit

instance (line : List Char) : Decidable (Fits line) :=
  inferInstanceAs (Decidable (lineSize line < lineLimit))

/-- Reads the formula of a text. The lines before one that is too long are read first. -/
def read (text : String) : Except Fault Formula :=
  let lines := Text.linesOf text.toList
  match Reading.readLines 1 {} (lines.takeWhile fun line => Fits line) with
  | .error fault => .error fault
  | .ok r => if ∀ line ∈ lines, Fits line then r.close else .error .lineTooLong

/-- Writes a formula: the header, then a line per clause. Comments are left out. -/
def render (f : Formula) : String :=
  "p cnf " ++ toString f.variableCount ++ " " ++ toString f.clauses.size ++ "\n" ++
    String.join (f.clauses.toList.map Clause.line)

end Clausify.Dimacs
