import Clausify.Document.Moment
import Clausify.Number.Binary64
import Clausify.Table
import Clausify.Text.Blank

/-!
The values of documents: what a JSON or YAML text says before it is decoded into anything. The
text of a value and the name of its type are those that messages show.
-/

namespace Clausify.Document

inductive Value where
  | null
  | truth (b : Bool)
  /-- An integer of 64 bits with a sign. -/
  | integer (n : Int)
  /-- An integer of 64 bits without a sign that needs the last bit. -/
  | natural (n : Nat)
  | real (x : Binary64)
  | text (s : String)
  | moment (m : Moment)
  | list (items : List Value)
  /-- Values by keys that are texts. -/
  | record (entries : List (String × Value))
  /-- Values by keys some of which are no texts. -/
  | table (entries : List (Value × Value))

namespace Value

/-! ## Keys -/

/-- The place of a kind of keys among the others. -/
def keyRank : Value → Nat
  | null => 0
  | truth _ => 1
  | real _ => 2
  | integer _ => 3
  | text _ => 4
  | natural _ => 5
  | moment _ => 6
  | _ => 7

/-- Whether a key stands before another: by kind, and inside a kind by value. -/
def precedes : Value → Value → Bool
  | truth a, truth b => !a && b
  | real a, real b => a.precedes b
  | integer a, integer b => a < b
  | text a, text b => a < b
  | natural a, natural b => a < b
  | moment a, moment b => a.precedes b
  | a, b => a.keyRank < b.keyRank

def sameKey : Value → Value → Bool
  | null, null => true
  | truth a, truth b => a = b
  | real a, real b => a.same b
  | integer a, integer b => a = b
  | text a, text b => a = b
  | natural a, natural b => a = b
  | moment a, moment b => a = b && a.isComparable
  | _, _ => false

/-- Whether a value holds others. -/
def isCollection : Value → Bool
  | list _ => true
  | record _ => true
  | table _ => true
  | _ => false

/-- Puts an entry in its place by key. -/
def insertSorted {α : Type} (entry : Value × α) : List (Value × α) → List (Value × α)
  | [] => [entry]
  | other :: rest =>
    if other.1.precedes entry.1 then other :: insertSorted entry rest else entry :: other :: rest

/-! ## Text -/

def truthText (b : Bool) : String := if b then "true" else "false"

mutual

def shown : Value → String
  | null => "<nil>"
  | truth b => truthText b
  | integer n => toString n
  | natural n => toString n
  | real x => x.text
  | text s => s
  | moment m => m.text
  | list items => "[" ++ " ".intercalate (shownItems items) ++ "]"
  | record entries => "map[" ++ " ".intercalate ((shownEntries entries).map Prod.snd) ++ "]"
  | table entries => "map[" ++ " ".intercalate ((shownPairs entries).map Prod.snd) ++ "]"

def shownItems : List Value → List String
  | [] => []
  | item :: rest => item.shown :: shownItems rest

def shownEntries : List (String × Value) → List (Value × String)
  | [] => []
  | (key, value) :: rest =>
    insertSorted (text key, key ++ ":" ++ value.shown) (shownEntries rest)

def shownPairs : List (Value × Value) → List (Value × String)
  | [] => []
  | (key, value) :: rest =>
    insertSorted (key, key.shown ++ ":" ++ value.shown) (shownPairs rest)

end

def typeText : Value → String
  | null => "<nil>"
  | truth _ => "bool"
  | integer _ => "int"
  | natural _ => "uint64"
  | real _ => "float64"
  | text _ => "string"
  | moment _ => "time.Time"
  | list _ => "[]interface \x7b\x7d"
  | record _ => "map[string]interface \x7b\x7d"
  | table _ => "map[interface \x7b\x7d]interface \x7b\x7d"

def kindText : Value → String
  | list _ => "slice"
  | record _ => "map"
  | table _ => "map"
  | v => v.typeText

end Value

abbrev Entries := List (String × Value)

end Clausify.Document
