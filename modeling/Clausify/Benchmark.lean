import Clausify.Cardinality
import Clausify.Command.Outcome
import Clausify.Solver.Search

/-!
The benchmark: every scheme over lists of fresh variables of given sizes, once for "exactly one"
and once for "at most one". The result is a table of comma-separated values with the number of
variables and clauses of each measurement.
-/

namespace Clausify.Benchmark

def defaultSizes : List Nat := [2, 5, 10, 20, 50, 100, 200, 500, 1000]

inductive SizeFault where
  | malformed (misuse : Misuse)
  | negative (size : Word)
  deriving DecidableEq, Repr

def parseSize (text : String) : Except SizeFault Nat :=
  let text := Text.trim text
  match Numeral.parseWord text with
  | .error fault => .error (.malformed (.badCount (Numeral.faultText .count text fault)))
  | .ok size => if size < 0 then .error (.negative size) else .ok size.toInt.toNat

/-- The sizes between commas; no text at all stands for the default ones. -/
def parseSizes (text : String) : Except SizeFault (List Nat) :=
  if text = "" then .ok defaultSizes
  else ((Text.splitAt ',' text.toList).map String.ofList).mapM parseSize

structure Case where
  scheme : Scheme
  size : Nat
  exactlyOne : Bool
  deriving DecidableEq, Repr

def cases (sizes : List Nat) : List Case :=
  Scheme.all.flatMap fun scheme => sizes.flatMap fun size =>
    [⟨scheme, size, true⟩, ⟨scheme, size, false⟩]

structure Measurement where
  case : Case
  variableCount : Nat
  clauses : Nat
  satisfiable : Bool
  deriving DecidableEq, Repr

namespace Case

def announcement (c : Case) : String :=
  "Benchmarking scheme \"" ++ c.scheme.text ++ "\" over " ++ toString c.size ++
    " literals (exactly-one: " ++ toString c.exactlyOne ++ ")\n"

def formula (c : Case) : Formula :=
  let literals := (List.range c.size).map fun (k : Nat) => Literal.ofVariable (k + 1)
  let start : Formula := { variableCount := c.size }
  match Cardinality.write {} c.scheme c.exactlyOne literals start with
  | .ok _ f => f
  | .error _ f => f

/-- The measurement of a case; the encoding is solved only when it is to be verified. -/
def measure (verify : Bool) (c : Case) : Measurement :=
  let f := c.formula
  ⟨c, f.variableCount, f.clauses.size, verify && (Search.solve f).isSome⟩

end Case

def header : List String :=
  ["Scheme", "ExactlyOne", "Literals", "Variables", "Clauses", "Duration(us)", "Satisfiable"]

/-- The fields of a measurement that took `duration` microseconds. -/
def Measurement.row (duration : Nat) (m : Measurement) : List String :=
  [m.case.scheme.text, toString m.case.exactlyOne, toString m.case.size, toString m.variableCount,
    toString m.clauses, toString duration, toString m.satisfiable]

/-- The table as text; no field holds a comma, a quote or a line break. -/
def table (duration : Nat) (measurements : List Measurement) : String :=
  String.join ((header :: measurements.map (Measurement.row duration)).map fun row =>
    ",".intercalate row ++ "\n")

/-- Runs the benchmark and writes the table to a path. -/
def run (store : Store) (sizes : String) (verify : Bool) (path : String) (duration : Nat) :
    Command.Outcome :=
  match parseSizes sizes with
  | .error (.malformed misuse) =>
    { exitCode := 2, errors := Command.crashLine misuse.message, store }
  | .error (.negative size) =>
    { exitCode := 1, errors := "literal count must not be negative: " ++ size.text ++ "\n", store }
  | .ok sizes =>
    let cases := cases sizes
    let output := String.join (cases.map Case.announcement)
    let text := table duration (cases.map (Case.measure verify))
    match store.write path text.toUTF8 with
    | .ok store => { output, store }
    | .error fault =>
      { exitCode := 2, output, store
        errors := Command.crashLine ("cannot create CSV file: " ++ fault.message) }

end Clausify.Benchmark
