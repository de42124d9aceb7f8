import BinarySchema.Text.Blank

/-!
# Hexadecimal byte text

Two digits stand for one byte, the high half first.  Rendering uses lowercase digits; reading
takes either case, ignores blanks anywhere and drops one leading `0x` or `0X`.
-/

namespace BinarySchema.Text

def nibble? (c : Char) : Option Nat :=
  if '0' ≤ c ∧ c ≤ '9' then some (c.toNat - '0'.toNat)
  else if 'a' ≤ c ∧ c ≤ 'f' then some (c.toNat - 'a'.toNat + 10)
  else if 'A' ≤ c ∧ c ≤ 'F' then some (c.toNat - 'A'.toNat + 10)
  else none

def pairedBytes? : List Char → Option (List UInt8)
  | [] => some []
  | [_] => none
  | high :: low :: rest =>
      match nibble? high, nibble? low, pairedBytes? rest with
      | some h, some l, some bytes => some (UInt8.ofNat (h * 16 + l) :: bytes)
      | _, _, _ => none

/-- What is left of a digit text once a leading `0x` or `0X` is taken off. -/
def dropHexMark : List Char → List Char
  | '0' :: 'x' :: rest => rest
  | '0' :: 'X' :: rest => rest
  | text => text

def hexBytes? (text : List Char) : Option (List UInt8) :=
  pairedBytes? (dropHexMark (text.filter fun c => !isBlank c))

def nibbleDigit (value : Nat) : Char :=
  if value < 10 then Char.ofNat ('0'.toNat + value) else Char.ofNat ('a'.toNat + (value - 10))

def hexPair (byte : UInt8) : List Char :=
  [nibbleDigit (byte.toNat / 16), nibbleDigit (byte.toNat % 16)]

def hexText (bytes : List UInt8) : List Char :=
  bytes.flatMap hexPair

end BinarySchema.Text
