import BinarySchema.Number.Binary
import BinarySchema.Text.Digits

/-!
# Shortest decimal text of a float

A finite number is written with the fewest significant digits that still read back as the same
number.  On the decimal grid of each length the two grid points around the number are tried; the
first length with a point inside the rounding interval wins, and of two such points the nearer.
A style fixes what is left open: which way an exact tie goes and how digits are laid out.
-/

namespace BinarySchema

inductive Tie where
  | up
  | toEven
  deriving DecidableEq, Repr

structure Decimal where
  digits : Nat
  power : Int
  deriving DecidableEq, Repr

/-- The reals that round to a number, as numerators over a common denominator. -/
structure RoundingInterval where
  lower : Nat
  value : Nat
  upper : Nat
  denominator : Nat
  closed : Bool
  deriving DecidableEq, Repr

namespace RoundingInterval

/-- The neighbour below a power of two is only half as far away as the one above. -/
def ofFinite (format : BinaryFormat) (significand : Nat) (exponent : Int) : RoundingInterval :=
  let below := if significand = format.hiddenBit ∧ format.leastExponent < exponent then 1 else 2
  let (unit, denominator) := scaledDown 1 1 (2 - exponent)
  { lower := (4 * significand - below) * unit
    value := 4 * significand * unit
    upper := (4 * significand + 2) * unit
    denominator := denominator
    closed := significand % 2 == 0 }

def order (interval : RoundingInterval) : Int :=
  let num := interval.value
  let den := interval.denominator
  if den ≤ num then ((Text.decimal (num / den)).length : Int) - 1
  else
    let places := (Text.decimal (den / num)).length
    if den = num * Nat.pow 10 (places - 1) then 1 - (places : Int) else -(places : Int)

/-- Numerator and denominator of the value in units of `10 ^ power`. -/
def onGrid (interval : RoundingInterval) (numerator : Nat) (power : Int) : Nat × Nat :=
  if 0 ≤ power then (numerator, interval.denominator * Nat.pow 10 power.toNat)
  else (numerator * Nat.pow 10 (-power).toNat, interval.denominator)

def contains (interval : RoundingInterval) (point : Nat) (power : Int) : Bool :=
  let (lower, den) := interval.onGrid interval.lower power
  let (upper, _) := interval.onGrid interval.upper power
  if interval.closed then lower ≤ point * den && point * den ≤ upper
  else lower < point * den && point * den < upper

/-- The grid point to write with the given last place, if one reads back. -/
def point? (interval : RoundingInterval) (tie : Tie) (power : Int) : Option Nat :=
  let (num, den) := interval.onGrid interval.value power
  let low := num / den
  let high := if num % den = 0 then low else low + 1
  match interval.contains low power, interval.contains high power with
  | false, false => none
  | true, false => some low
  | false, true => some high
  | true, true =>
      let twice := 2 * (num % den)
      if twice < den then some low
      else if den < twice then some high
      else match tie with
        | .up => some high
        | .toEven => some (if low % 2 = 0 then low else high)

/-- Tries ever finer grids, `count` of them, the first one with last place `10 ^ power`. -/
def search (interval : RoundingInterval) (tie : Tie) : Nat → Int → Decimal
  | 0, power => ⟨0, power⟩
  | count + 1, power =>
      match interval.point? tie power with
      | some digits => ⟨digits, power⟩
      | none => interval.search tie count (power - 1)

end RoundingInterval

namespace Decimal

def dropZeros : Nat → Decimal → Decimal
  | 0, d => d
  | count + 1, d =>
      if d.digits ≠ 0 ∧ d.digits % 10 = 0 then dropZeros count ⟨d.digits / 10, d.power + 1⟩ else d

/-- Seventeen digits tell any two numbers of 64 bits apart. -/
def shortest (tie : Tie) (significand : Nat) (exponent : Int) : Decimal :=
  let interval := RoundingInterval.ofFinite .double significand exponent
  dropZeros 20 (interval.search tie 17 interval.order)

end Decimal

/-! ## Layout of the digits -/

/-- How a finite number is written: which way ties go, which powers of ten of the leading digit
are written without an exponent, and what closes a whole number. -/
structure DecimalStyle where
  tie : Tie
  positional : Int → Bool
  wholeEnding : List Char

namespace DecimalStyle

def positionalText (style : DecimalStyle) (digits : List Char) (power : Int) : List Char :=
  let point := (digits.length : Int) + power
  if 0 ≤ power then digits ++ List.replicate power.toNat '0' ++ style.wholeEnding
  else if 0 < point then digits.take point.toNat ++ '.' :: digits.drop point.toNat
  else '0' :: '.' :: (List.replicate (-point).toNat '0' ++ digits)

def exponentText (exponent : Int) : List Char :=
  'e' :: (if exponent < 0 then '-' else '+') :: Text.decimal exponent.natAbs

def scientificText (digits : List Char) (exponent : Int) : List Char :=
  match digits with
  | [] => []
  | [digit] => digit :: exponentText exponent
  | digit :: rest => digit :: '.' :: (rest ++ exponentText exponent)

/-- The text of `± significand * 2 ^ exponent`. -/
def finiteText (style : DecimalStyle) (negative : Bool) (significand : Nat) (exponent : Int) :
    List Char :=
  let sign := if negative then ['-'] else []
  if significand = 0 then sign ++ '0' :: style.wholeEnding
  else
    let shortest := Decimal.shortest style.tie significand exponent
    let digits := Text.decimal shortest.digits
    let leading := (digits.length : Int) + shortest.power - 1
    if style.positional leading then sign ++ style.positionalText digits shortest.power
    else sign ++ scientificText digits leading

end DecimalStyle

end BinarySchema
