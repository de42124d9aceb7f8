/-!
# Binary floating-point formats

A bit pattern of an IEEE 754 interchange format stands for a signed multiple of a power of two,
an infinity or a NaN.  Numbers are rounded to a format exactly, in whole-number arithmetic, to the
nearest representable one; a half goes to the even significand.
-/

namespace BinarySchema

structure BinaryFormat where
  fractionBits : Nat
  exponentBits : Nat
  deriving DecidableEq, Repr

/-- What a bit pattern stands for: `finite` is `± significand * 2 ^ exponent`. -/
inductive Datum where
  | finite (negative : Bool) (significand : Nat) (exponent : Int)
  | infinite (negative : Bool)
  | nan (negative : Bool) (payload : Nat)
  deriving DecidableEq, Repr

namespace BinaryFormat

def single : BinaryFormat := ⟨23, 8⟩

def double : BinaryFormat := ⟨52, 11⟩

/-- The significand bit that normal numbers do not store. -/
def hiddenBit (format : BinaryFormat) : Nat :=
  Nat.pow 2 format.fractionBits

def topField (format : BinaryFormat) : Nat :=
  Nat.pow 2 format.exponentBits - 1

def signWeight (format : BinaryFormat) : Nat :=
  Nat.pow 2 (format.fractionBits + format.exponentBits)

/-- The power of two of the last place of subnormal numbers. -/
def leastExponent (format : BinaryFormat) : Int :=
  2 - (Nat.pow 2 (format.exponentBits - 1) : Int) - format.fractionBits

def infinity (format : BinaryFormat) : Nat :=
  format.topField * format.hiddenBit

def decode (format : BinaryFormat) (bits : Nat) : Datum :=
  let negative := bits / format.signWeight % 2 == 1
  let field := bits / format.hiddenBit % Nat.pow 2 format.exponentBits
  let fraction := bits % format.hiddenBit
  if field = format.topField then
    if fraction = 0 then .infinite negative else .nan negative fraction
  else if field = 0 then .finite negative fraction format.leastExponent
  else .finite negative (format.hiddenBit + fraction) (format.leastExponent + field - 1)

end BinaryFormat

/-! ## Rounding -/

/-- The whole number nearest to `num / den`, the even one of two that are equally near. -/
def roundHalfEven (num den : Nat) : Nat :=
  let quotient := num / den
  let twice := 2 * (num % den)
  if twice < den then quotient
  else if den < twice then quotient + 1
  else if quotient % 2 = 0 then quotient
  else quotient + 1

/-- The fraction `num / den / 2 ^ exponent`. -/
def scaledDown (num den : Nat) (exponent : Int) : Nat × Nat :=
  if 0 ≤ exponent then (num, den * Nat.pow 2 exponent.toNat)
  else (num * Nat.pow 2 (-exponent).toNat, den)

/-- The greatest power of two that is not above the positive fraction `num / den`. -/
def binaryOrder (num den : Nat) : Int :=
  let guess : Int := (num.log2 : Int) - den.log2
  let (n, d) := scaledDown num den guess
  if d ≤ n then guess else guess - 1

namespace BinaryFormat

/-- The bits, sign apart, of the representable number nearest to `num / den`. -/
def nearest (format : BinaryFormat) (num den : Nat) : Nat :=
  if num = 0 then 0
  else
    let exponent := max (binaryOrder num den - format.fractionBits) format.leastExponent
    let (n, d) := scaledDown num den exponent
    let steps := (exponent - format.leastExponent).toNat
    min format.infinity (steps * format.hiddenBit + roundHalfEven n d)

def signBits (format : BinaryFormat) (negative : Bool) : Nat :=
  if negative then format.signWeight else 0

/-- NaNs become quiet. -/
def encode (format : BinaryFormat) : Datum → Nat
  | .finite negative significand exponent =>
      let (num, den) := scaledDown significand 1 (-exponent)
      format.signBits negative + format.nearest num den
  | .infinite negative => format.signBits negative + format.infinity
  | .nan negative payload =>
      format.signBits negative + format.infinity +
        (payload % format.hiddenBit ||| format.hiddenBit / 2)

end BinaryFormat

/-! ## Numbers of 64 bits -/

structure Binary64 where
  bits : UInt64
  deriving DecidableEq, Repr

namespace Binary64

def datum (x : Binary64) : Datum :=
  BinaryFormat.double.decode x.bits.toNat

def ofDatum (d : Datum) : Binary64 :=
  ⟨UInt64.ofNat (BinaryFormat.double.encode d)⟩

def ofRatio (negative : Bool) (num den : Nat) : Binary64 :=
  ⟨UInt64.ofNat (BinaryFormat.double.signBits negative + BinaryFormat.double.nearest num den)⟩

def ofInt (value : Int) : Binary64 :=
  ofRatio (value < 0) value.natAbs 1

def zero (negative : Bool) : Binary64 :=
  ofRatio negative 0 1

def infinite (negative : Bool) : Binary64 :=
  ofDatum (.infinite negative)

def nan : Binary64 :=
  ofDatum (.nan false 0)

def isFinite (x : Binary64) : Bool :=
  match x.datum with
  | .finite .. => true
  | _ => false

def isNaN (x : Binary64) : Bool :=
  match x.datum with
  | .nan .. => true
  | _ => false

def isZero (x : Binary64) : Bool :=
  match x.datum with
  | .finite _ significand _ => significand == 0
  | _ => false

/-- Equality of numbers: a NaN equals nothing and the two zeros are equal. -/
def equal (x y : Binary64) : Bool :=
  !x.isNaN && !y.isNaN && (x.bits == y.bits || (x.isZero && y.isZero))

def mul (x y : Binary64) : Binary64 :=
  match x.datum, y.datum with
  | .finite s m e, .finite t n f => ofDatum (.finite (s != t) (m * n) (e + f))
  | _, _ => nan

/-- The quotient of two finite numbers, the second not zero, rounded once. -/
def div (x y : Binary64) : Binary64 :=
  match x.datum, y.datum with
  | .finite s m e, .finite t n f =>
      let (num, den) := scaledDown m n (f - e)
      ofRatio (s != t) num den
  | _, _ => nan

/-- The whole number that a finite float holds, if it holds one. -/
def integer? (x : Binary64) : Option Int :=
  match x.datum with
  | .finite negative significand exponent =>
      let (num, den) := scaledDown significand 1 (-exponent)
      if num % den = 0 then
        let magnitude : Int := (num / den : Nat)
        some (if negative then -magnitude else magnitude)
      else none
  | _ => none

private def realign (drop gain : Nat) : Datum → Datum
  | .nan negative payload => .nan negative (payload * Nat.pow 2 gain / Nat.pow 2 drop)
  | d => d

def toSingle (x : Binary64) : UInt32 :=
  UInt32.ofNat (BinaryFormat.single.encode (realign 29 0 x.datum))

/-- The same number as a 32-bit pattern, which 64 bits hold exactly. -/
def ofSingle (bits : UInt32) : Binary64 :=
  ofDatum (realign 0 29 (BinaryFormat.single.decode bits.toNat))

end Binary64

end BinarySchema
