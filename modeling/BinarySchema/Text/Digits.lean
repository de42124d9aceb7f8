/-!
# Numerals

Reading whole numbers written in a positional system, and the machine words among them.
-/

namespace BinarySchema.Text

def digitValue? (c : Char) : Option Nat :=
  if '0' ≤ c ∧ c ≤ '9' then some (c.toNat - '0'.toNat)
  else if 'a' ≤ c ∧ c ≤ 'z' then some (c.toNat - 'a'.toNat + 10)
  else if 'A' ≤ c ∧ c ≤ 'Z' then some (c.toNat - 'A'.toNat + 10)
  else none

def isDecimalDigit (c : Char) : Bool :=
  '0' ≤ c && c ≤ '9'

def radixDigit? (radix : Nat) (c : Char) : Option Nat :=
  match digitValue? c with
  | some value => if value < radix then some value else none
  | none => none

/-- Continues a numeral whose earlier digits have the value `high`. -/
def extendNumeral? (radix : Nat) (high : Nat) : List Char → Option Nat
  | [] => some high
  | c :: rest =>
      match radixDigit? radix c with
      | some digit => extendNumeral? radix (high * radix + digit) rest
      | none => none

def natural? (radix : Nat) : List Char → Option Nat
  | [] => none
  | c :: rest => extendNumeral? radix 0 (c :: rest)

/-- A numeral with an optional plus sign whose value fits a 64-bit word. -/
def word? (radix : Nat) (text : List Char) : Option UInt64 :=
  let digits := match text with
    | '+' :: rest => rest
    | _ => text
  match natural? radix digits with
  | some value => if value < UInt64.size then some (UInt64.ofNat value) else none
  | none => none

/-- The decimal digits of a number, most significant first. -/
def decimal (value : Nat) : List Char :=
  Nat.toDigits 10 value

end BinarySchema.Text
