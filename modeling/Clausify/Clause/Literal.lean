import Clausify.Number.Numeral

/-!
Literals. A literal is a 64-bit word: its magnitude is a propositional variable and its sign the
polarity. The largest word and its negation are set apart as the constants `always` and `never`,
which hold in every valuation and in none; they are never allocated and never written.
-/

namespace Clausify

/-- A signed propositional variable, or one of the two constants. -/
structure Literal where
  word : Word
  deriving DecidableEq, Hashable, Repr

namespace Literal

/-- The literal that holds in every valuation. -/
def always : Literal := ⟨Int64.maxValue⟩

/-- The literal that holds in no valuation. -/
def never : Literal := ⟨-Int64.maxValue⟩

def negate (l : Literal) : Literal := ⟨-l.word⟩

instance : Neg Literal := ⟨negate⟩

def ofVariable (n : Nat) : Literal := ⟨Int64.ofNat n⟩

/-- The magnitude of the literal as a word. -/
def magnitude (l : Literal) : Word := if l.word < 0 then -l.word else l.word

def var (l : Literal) : Nat := l.word.toInt.natAbs

def isPositive (l : Literal) : Bool := 0 < l.word

def isConstant (l : Literal) : Bool := l = always || l = never

def number (l : Literal) : String := l.word.text

/-- The literal as comments show it: the constants by a letter, others by their number. -/
def text (l : Literal) : String :=
  if l = always then "T" else if l = never then "F" else l.number

/-- The truth of a literal in a valuation of the variables. -/
def holds (valuation : Nat → Bool) (l : Literal) : Bool :=
  if l = always then true
  else if l = never then false
  else if l.isPositive then valuation l.var
  else !valuation l.var

end Literal

end Clausify
