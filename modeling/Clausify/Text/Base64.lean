/-!
Bytes written in sixty-four characters: four characters stand for three bytes, and equality signs
fill up the last four. Line breaks between the characters do not count.
-/

namespace Clausify.Text

def sextet (c : Char) : Option Nat :=
  if c.isUpper then some (c.toNat - 'A'.toNat)
  else if c.isLower then some (c.toNat - 'a'.toNat + 26)
  else if c.isDigit then some (c.toNat - '0'.toNat + 52)
  else if c = '+' then some 62
  else if c = '/' then some 63
  else none

def bytesOfGroups : List Char → Option (List Nat)
  | [] => some []
  | [a, b, '=', '='] => do
    let n := (← sextet a) * 64 + (← sextet b)
    some [n / 16]
  | [a, b, c, '='] => do
    let n := ((← sextet a) * 64 + (← sextet b)) * 64 + (← sextet c)
    some [n / 1024, n / 4 % 256]
  | a :: b :: c :: d :: rest => do
    let n := (((← sextet a) * 64 + (← sextet b)) * 64 + (← sextet c)) * 64 + (← sextet d)
    some (n / 65536 :: n / 256 % 256 :: n % 256 :: (← bytesOfGroups rest))
  | _ => none

def bytesOfBase64 (s : String) : Option ByteArray :=
  (bytesOfGroups (s.toList.filter fun c => c ≠ '\r' && c ≠ '\n')).map fun bytes =>
    ByteArray.mk (bytes.map Nat.toUInt8).toArray

end Clausify.Text
