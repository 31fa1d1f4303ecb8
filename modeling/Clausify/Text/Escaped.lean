import Clausify.Text.Quoted

/-!
Text as a JSON string that is safe inside a web page: quotes and backslashes take a backslash,
control characters a short escape or their code, and angle brackets, the ampersand and the two
Unicode line separators their code.
-/

namespace Clausify.Text

/-- A character as it stands in a JSON string. -/
def escapedChar (c : Char) : List Char :=
  if c = '"' || c = '\\' then ['\\', c]
  else
    match c.toNat with
    | 0x08 => ['\\', 'b']
    | 0x0c => ['\\', 'f']
    | 0x0a => ['\\', 'n']
    | 0x0d => ['\\', 'r']
    | 0x09 => ['\\', 't']
    | point =>
      if point < 0x20 || c = '<' || c = '>' || c = '&' || point = 0x2028 || point = 0x2029 then
        '\\' :: 'u' :: hexPadded 4 point
      else [c]

def escaped (s : String) : String :=
  String.ofList ('"' :: s.toList.flatMap escapedChar ++ ['"'])

end Clausify.Text
