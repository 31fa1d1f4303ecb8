/-!
White space and what is cut at it. A blank is one of the six ASCII blanks, U+0085, U+00A0 or a
space or line separator of the upper planes; zero-width characters are not blanks. Trimming
removes blanks at both ends, and the fields of a text are its maximal runs without blanks.
-/

namespace Clausify.Text

def isBlank (c : Char) : Bool :=
  let point := c.toNat
  (0x09 ≤ point && point ≤ 0x0d) || point == 0x20 || point == 0x85 || point == 0xa0 ||
    point == 0x1680 || (0x2000 ≤ point && point ≤ 0x200a) || point == 0x2028 ||
    point == 0x2029 || point == 0x202f || point == 0x205f || point == 0x3000

def trimChars (cs : List Char) : List Char :=
  ((cs.dropWhile isBlank).reverse.dropWhile isBlank).reverse

def trim (s : String) : String := String.ofList (trimChars s.toList)

/-- The maximal runs of characters that satisfy `keep`; `run` holds the current run, last
character first. -/
def runsFrom (keep : Char → Bool) (run : List Char) : List Char → List (List Char)
  | [] => if run.isEmpty then [] else [run.reverse]
  | c :: rest =>
    if keep c then runsFrom keep (c :: run) rest
    else if run.isEmpty then runsFrom keep [] rest
    else run.reverse :: runsFrom keep [] rest

/-- The maximal runs of non-blank characters. -/
def fieldsOf (cs : List Char) : List (List Char) :=
  runsFrom (fun c => !isBlank c) [] cs

def fields (s : String) : List String := (fieldsOf s.toList).map String.ofList

/-- The pieces of a list between the occurrences of a separator, the first of which continues
`piece`, given last element first. -/
def splitFrom {α : Type} [DecidableEq α] (separator : α) (piece : List α) :
    List α → List (List α)
  | [] => [piece.reverse]
  | c :: rest =>
    if c = separator then piece.reverse :: splitFrom separator [] rest
    else splitFrom separator (c :: piece) rest

/-- The pieces of a list between the occurrences of a separator; there is always one more piece
than separators. -/
def splitAt {α : Type} [DecidableEq α] (separator : α) (xs : List α) : List (List α) :=
  splitFrom separator [] xs

/-- The lines of a text; a text that ends in a line break has an empty last line. -/
def linesOf (cs : List Char) : List (List Char) := splitAt '\n' cs

end Clausify.Text
