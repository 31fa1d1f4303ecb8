/-!
Reading bytes as text. Well-formed UTF-8 is read as it is; a byte that belongs to no well-formed
sequence is read as U+FFFD on its own.
-/

namespace Clausify.Text

/-- Whether a byte continues a sequence. -/
def isContinuation (b : UInt8) : Bool := b &&& 0xc0 == 0x80

/-- The character that starts a list of bytes and the number of bytes it takes; a byte that
starts no well-formed sequence counts as U+FFFD. -/
def firstChar : List UInt8 → Char × Nat
  | [] => ('�', 1)
  | b :: rest =>
    if b < 0x80 then (Char.ofNat b.toNat, 1)
    else if 0xc2 ≤ b && b ≤ 0xdf then
      match rest with
      | c :: _ =>
        if isContinuation c then
          (Char.ofNat ((b.toNat % 0x20) * 0x40 + c.toNat % 0x40), 2)
        else ('�', 1)
      | _ => ('�', 1)
    -- three bytes, but for surrogates and what fits into two
    else if 0xe0 ≤ b && b ≤ 0xef then
      match rest with
      | c :: d :: _ =>
        let point := (b.toNat % 0x10) * 0x1000 + (c.toNat % 0x40) * 0x40 + d.toNat % 0x40
        if isContinuation c && isContinuation d && 0x800 ≤ point &&
            !(0xd800 ≤ point && point ≤ 0xdfff) then (Char.ofNat point, 3)
        else ('�', 1)
      | _ => ('�', 1)
    -- four bytes, up to the last code point
    else if 0xf0 ≤ b && b ≤ 0xf4 then
      match rest with
      | c :: d :: e :: _ =>
        let point := (b.toNat % 0x08) * 0x40000 + (c.toNat % 0x40) * 0x1000 +
          (d.toNat % 0x40) * 0x40 + e.toNat % 0x40
        if isContinuation c && isContinuation d && isContinuation e && 0x10000 ≤ point &&
            point ≤ 0x10ffff then (Char.ofNat point, 4)
        else ('�', 1)
      | _ => ('�', 1)
    else ('�', 1)

/-- Decodes bytes, passing over the `skip` bytes that the last character still takes. -/
def decodeFrom (skip : Nat) : List UInt8 → List Char
  | [] => []
  | b :: rest =>
    match skip with
    | n + 1 => decodeFrom n rest
    | 0 =>
      let (c, taken) := firstChar (b :: rest)
      c :: decodeFrom (taken - 1) rest

def decode (bytes : ByteArray) : String :=
  match String.fromUTF8? bytes with
  | some s => s
  | none => String.ofList (decodeFrom 0 bytes.toList)

end Clausify.Text
