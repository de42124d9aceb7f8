import BinarySchema.Number.Shortest

/-!
# Scalars

One number held by a scalar value.  Whole numbers keep whether they came from a signed or an
unsigned word; all three forms differ even when they hold the same number.
-/

namespace BinarySchema

inductive Scalar where
  | int (value : Int64)
  | uint (value : UInt64)
  | float (value : Binary64)
  deriving DecidableEq, Repr

namespace Scalar

/-- Floats of this magnitude and above are not taken for whole numbers. -/
def wholeLimit : Nat := 18000000000000000000

/-- The whole number that the scalar holds. -/
def integer? : Scalar → Option Int
  | .int value => some value.toInt
  | .uint value => some value.toNat
  | .float value =>
      match value.integer? with
      | some whole => if whole.natAbs < wholeLimit then some whole else none
      | none => none

def toBinary64 : Scalar → Binary64
  | .int value => .ofInt value.toInt
  | .uint value => .ofInt value.toNat
  | .float value => value

/-- Equality within one form, of numbers where both are floats. -/
def equal : Scalar → Scalar → Bool
  | .int a, .int b => a == b
  | .uint a, .uint b => a == b
  | .float a, .float b => a.equal b
  | _, _ => false

/-- Signed when the number fits a signed word, unsigned when it fits an unsigned one. -/
def ofInteger? (value : Int) : Option Scalar :=
  if Int64.minValue.toInt ≤ value ∧ value ≤ Int64.maxValue.toInt then
    some (.int (Int64.ofInt value))
  else if 0 ≤ value ∧ value < UInt64.size then some (.uint (UInt64.ofNat value.toNat))
  else none

/-! ## Text in messages -/

/-- Numbers in messages have no exponent, no needless fraction, and round a tie up. -/
def messageStyle : DecimalStyle :=
  ⟨.up, fun _ => true, []⟩

def integerText (value : Int) : List Char :=
  if value < 0 then '-' :: Text.decimal value.natAbs else Text.decimal value.natAbs

def floatText (value : Binary64) : List Char :=
  match value.datum with
  | .finite negative significand exponent =>
      messageStyle.finiteText negative significand exponent
  | .infinite negative => if negative then "-inf".toList else "inf".toList
  | .nan .. => "NaN".toList

def text : Scalar → String
  | .int value => String.ofList (integerText value.toInt)
  | .uint value => String.ofList (integerText value.toNat)
  | .float value => String.ofList (floatText value)

end Scalar

end BinarySchema
