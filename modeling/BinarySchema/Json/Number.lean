import BinarySchema.Number.Numeral

/-!
# Numbers in JSON text

A numeral without fraction and exponent that fits 64 bits is a whole number; all others are floats.
Of a float's digits those count that fit a 64-bit significand, which is then scaled by a power of
ten in float arithmetic; a result beyond the greatest float is no number.
-/

namespace BinarySchema.Json

/-- Whole numbers lie between `-2 ^ 63` and `2 ^ 64 - 1`. -/
inductive Number where
  | integer (value : Int)
  | float (value : Binary64)
  deriving DecidableEq, Repr

/-- A numeral as written; `exponent` tells its sign, true for minus, and its digits. -/
structure NumberText where
  negative : Bool
  whole : List Nat
  fraction : List Nat
  exponent : Option (Bool × List Nat)
  deriving DecidableEq, Repr

namespace NumberText

/-- Appends digits while the number fits 64 bits; the digits left over come second. -/
def extendWord (high : Nat) : List Nat → Nat × List Nat
  | [] => (high, [])
  | digit :: rest =>
      if high * 10 + digit < UInt64.size then extendWord (high * 10 + digit) rest
      else (high, digit :: rest)

def exponentLimit : Nat := 2147483647

/-- The written exponent, none when its magnitude leaves 32 bits. -/
def exponentValue? (value : Nat) : List Nat → Option Nat
  | [] => some value
  | digit :: rest =>
      if value * 10 + digit ≤ exponentLimit then exponentValue? (value * 10 + digit) rest else none

def powerOfTen (exponent : Nat) : Binary64 :=
  .ofRatio false (Nat.pow 10 exponent) 1

/-- Scales by a power of ten; powers beyond `10 ^ 308` are taken in at most `steps` pieces. -/
def scale? : Nat → Binary64 → Int → Option Binary64
  | 0, value, _ => some value
  | steps + 1, value, exponent =>
      if exponent.natAbs ≤ 308 then
        if 0 ≤ exponent then
          let scaled := value.mul (powerOfTen exponent.natAbs)
          if scaled.isFinite then some scaled else none
        else some (value.div (powerOfTen exponent.natAbs))
      else if value.isZero then some value
      else if 0 ≤ exponent then none
      else scale? steps (value.div (powerOfTen 308)) (exponent + 308)

def signed (negative : Bool) (value : Binary64) : Binary64 :=
  if negative then ⟨value.bits ||| 0x8000000000000000⟩ else value

def float? (negative : Bool) (significand : Nat) (exponent : Int) : Option Number :=
  (scale? 4 (.ofInt significand) exponent).map fun value => .float (signed negative value)

def clampExponent (exponent : Int) : Int :=
  max (-(exponentLimit : Int) - 1) (min exponentLimit exponent)

/-- The number that a numeral stands for, if it is in range.  Minus zero is a float. -/
def value? (text : NumberText) : Option Number :=
  let (whole, dropped) := extendWord 0 text.whole
  if dropped.isEmpty && text.fraction.isEmpty && text.exponent.isNone then
    if !text.negative then some (.integer whole)
    else if whole ≠ 0 ∧ Int64.minValue.toInt ≤ -(whole : Int) then some (.integer (-(whole : Int)))
    else some (.float (signed true (.ofInt whole)))
  else
    let (significand, ignored) := extendWord whole text.fraction
    let shift : Int := dropped.length - (text.fraction.length - ignored.length : Nat)
    match text.exponent with
    | none => float? text.negative significand shift
    | some (minus, digits) =>
        match exponentValue? 0 digits with
        | some exponent =>
            float? text.negative significand
              (clampExponent (if minus then shift - exponent else shift + exponent))
        | none =>
            if significand ≠ 0 ∧ !minus then none
            else some (.float (signed text.negative (.zero false)))

end NumberText

end BinarySchema.Json
