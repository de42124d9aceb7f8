import BinarySchema.Number.Binary
import BinarySchema.Text.Digits

/-!
# Decimal fractions as floats

A numeral with an optional fraction and an optional power of ten names an exact rational, which is
rounded once to the nearest 64-bit number.
-/

namespace BinarySchema

/-- The pieces of an unsigned decimal numeral; `exponent` is the written power of ten. -/
structure Numeral where
  whole : List Char
  fraction : List Char
  exponent : Int
  deriving DecidableEq, Repr

namespace Numeral

def splitDigits (text : List Char) : List Char × List Char :=
  (text.takeWhile Text.isDecimalDigit, text.dropWhile Text.isDecimalDigit)

def exponent? (text : List Char) : Option Int :=
  match text with
  | '+' :: digits => (Text.natural? 10 digits).map fun value => (value : Int)
  | '-' :: digits => (Text.natural? 10 digits).map fun value => -(value : Int)
  | digits => (Text.natural? 10 digits).map fun value => (value : Int)

def readExponent? (text : List Char) : Option Int :=
  match text with
  | [] => some 0
  | c :: rest => if c = 'e' ∨ c = 'E' then exponent? rest else none

/-- Digits may be missing on one side of the point, not on both. -/
def ofText? (text : List Char) : Option Numeral :=
  let (whole, rest) := splitDigits text
  let (fraction, rest) := match rest with
    | '.' :: rest => splitDigits rest
    | _ => ([], rest)
  if whole.isEmpty && fraction.isEmpty then none
  else (readExponent? rest).map fun exponent => ⟨whole, fraction, exponent⟩

def significand (n : Numeral) : Nat :=
  (Text.natural? 10 (n.whole ++ n.fraction)).getD 0

def power (n : Numeral) : Int :=
  n.exponent - n.fraction.length

/-- A leading digit above `10 ^ 400` or below `10 ^ -400` is beyond every 64-bit number. -/
def toBinary64 (n : Numeral) (negative : Bool) : Binary64 :=
  let significand := n.significand
  let leading := (Text.decimal significand).length + n.power
  if significand = 0 then .zero negative
  else if 400 < leading then .infinite negative
  else if leading < -400 then .zero negative
  else if 0 ≤ n.power then .ofRatio negative (significand * Nat.pow 10 n.power.toNat) 1
  else .ofRatio negative significand (Nat.pow 10 (-n.power).toNat)

end Numeral

end BinarySchema
