import Clausify.Number.Numeral

/-!
Journal entries: what a run reports about its progress. An entry has a level, an event name and
named attributes. Times and source positions are added when an entry is shown.
-/

namespace Clausify

inductive Level where
  | debug
  | info
  | warn
  | error
  deriving DecidableEq, Repr

namespace Level

def text : Level → String
  | debug => "DEBUG"
  | info => "INFO"
  | warn => "WARN"
  | error => "ERROR"

/-- The rank of a level; entries below the threshold of a journal are left out. -/
def rank : Level → Nat
  | debug => 0
  | info => 1
  | warn => 2
  | error => 3

end Level

inductive Attribute where
  | text (s : String)
  | number (n : Int)
  | truth (b : Bool)
  | duration
  deriving DecidableEq, Repr

structure JournalEntry where
  level : Level
  event : String
  attributes : List (String × Attribute) := []
  deriving DecidableEq, Repr

end Clausify
