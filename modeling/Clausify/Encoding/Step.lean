import Clausify.Cardinality
import Clausify.Encoding.Mapping
import Clausify.Journal.Entry

/-!
Encoding as a list of steps. An encoder is a writer together with the mapping, the shapes of the
encoded variables and a journal. What is to be done for a variable or a constraint is computed as
a list of steps, which are then taken in order up to the first refusal.
-/

namespace Clausify

/-- How a variable is represented. -/
inductive Shape where
  /-- No value: the instance has no solution. -/
  | unsatisfiable
  /-- One value. -/
  | constant
  /-- Two values on one propositional variable. -/
  | boolean
  /-- Literals of both kinds, tied together. -/
  | hybrid
  /-- Literals for single values only. -/
  | direct
  /-- Literals for upper bounds only. -/
  | order
  deriving DecidableEq, Repr

def Shape.text : Shape → String
  | unsatisfiable => "unsatisfiable"
  | constant => "constant"
  | boolean => "boolean"
  | hybrid => "hybrid"
  | direct => "direct"
  | order => "order"

/-- One step of an encoding. -/
inductive Step where
  | emit (emission : Emission)
  | comment (text : String)
  | shape (name : String) (shape : Shape)
  | domain (name : String) (domain : Domain)
  | direct (key : Key) (literal : Literal)
  | order (key : Key) (literal : Literal)
  | bound (table : OrderTable) (key : Key) (literal : Literal)
  | note (entry : JournalEntry)
  | stop (reason : Stop)
  deriving DecidableEq, Repr

/-- The state of an encoding. -/
structure Encoder (W : Type) where
  writer : W
  mapping : Mapping := {}
  shapes : Table String Shape := []
  journal : Array JournalEntry := #[]

namespace Encoder

variable {W : Type} [ClauseWriter W]

def variableCount (e : Encoder W) : Nat := ClauseWriter.variableCount e.writer

def onWriter {α : Type} (action : Run W α) : Run (Encoder W) α
  | ⟨writer, mapping, shapes, journal⟩ =>
    match action writer with
    | .error stop left => .error stop ⟨left, mapping, shapes, journal⟩
    | .ok result next => .ok result ⟨next, mapping, shapes, journal⟩

/-- Changes the mapping, unless that is a misuse. -/
def onMapping (change : Mapping.Change) : Run (Encoder W) Unit
  | ⟨writer, mapping, shapes, journal⟩ =>
    match change mapping with
    | .error misuse left => .error (.misuse misuse) ⟨writer, left, shapes, journal⟩
    | .ok _ next => .ok () ⟨writer, next, shapes, journal⟩

def note (entry : JournalEntry) (e : Encoder W) : Encoder W :=
  { e with journal := e.journal.push entry }

def take : Step → Run (Encoder W) Unit
  | .emit .fresh => fun e => .ok () { e with writer := ClauseWriter.addVariable e.writer }
  | .emit (.clause c) => onWriter (ClauseWriter.addClause c)
  | .comment text => onWriter (ClauseWriter.addComment text)
  | .shape name shape => fun e => .ok () { e with shapes := Table.set name shape e.shapes }
  | .domain name domain => onMapping (Mapping.setDomain name domain)
  | .direct key literal => onMapping (Mapping.setDirect key literal)
  | .order key literal => onMapping (Mapping.setOrder key literal)
  | .bound table key literal => onMapping (Mapping.setBound table key literal)
  | .note entry => fun e => .ok () (e.note entry)
  | .stop reason => fun e => .error reason e

/-- Takes steps in order, up to the first that is refused. -/
def run : List Step → Run (Encoder W) Unit
  | [] => fun e => .ok () e
  | step :: rest => fun e =>
    match take step e with
    | .error stop left => .error stop left
    | .ok _ next => run rest next

end Encoder

def Plan.steps (plan : Plan) : List Step :=
  plan.emissions.map Step.emit ++ (plan.stop.map Step.stop).toList

end Clausify
