import Clausify.Text.Printable

/-!
Quoted text, as error messages show names: between double quotes, with a backslash before a
quote or a backslash, short escapes for the usual control characters, and the code point in
hexadecimal for everything else that is not printable.
-/

namespace Clausify.Text

/-- The lower-case hexadecimal digits of a number, padded with zeros to a width. -/
def hexPadded (width n : Nat) : List Char :=
  let digits := Nat.toDigits 16 n
  List.replicate (width - digits.length) '0' ++ digits

def quotedChar (c : Char) : List Char :=
  if c = '"' || c = '\\' then ['\\', c]
  else if isPrintable c then [c]
  else
    match c.toNat with
    | 0x07 => ['\\', 'a']
    | 0x08 => ['\\', 'b']
    | 0x0c => ['\\', 'f']
    | 0x0a => ['\\', 'n']
    | 0x0d => ['\\', 'r']
    | 0x09 => ['\\', 't']
    | 0x0b => ['\\', 'v']
    | point =>
      if point < 0x80 then '\\' :: 'x' :: hexPadded 2 point
      else if point < 0x10000 then '\\' :: 'u' :: hexPadded 4 point
      else '\\' :: 'U' :: hexPadded 8 point

def quoted (s : String) : String :=
  String.ofList ('"' :: s.toList.flatMap quotedChar ++ ['"'])

def quotedLetter (c : Char) : String :=
  if c = '\'' then "'\\''"
  else if c = '"' then "'\"'"
  else "'" ++ String.ofList (quotedChar c) ++ "'"

end Clausify.Text
