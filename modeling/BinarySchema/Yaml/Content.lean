import BinarySchema.Number.Numeral
import BinarySchema.Yaml.Node

/-!
# Content of scalars

What a scalar stands for where no type is asked for.  Plain text is looked at as null, a truth
value, a whole number and a float, in this order; a standard tag asks for one of them.
-/

namespace BinarySchema.Yaml

inductive Content where
  | null
  | flag (value : Bool)
  | natural (value : UInt64)
  | negative (value : Int64)
  | float (value : Binary64)
  | text (value : String)
  deriving Repr

/-! ## Plain text -/

def isNull (text : String) : Bool :=
  text == "null" || text == "Null" || text == "NULL" || text == "~"

def flag? (text : String) : Option Bool :=
  if text = "true" ∨ text = "True" ∨ text = "TRUE" then some true
  else if text = "false" ∨ text = "False" ∨ text = "FALSE" then some false
  else none

def isSign (c : Char) : Bool :=
  c == '+' || c == '-'

/-- Digits that open with a needless zero are text. -/
def isPaddedDigits (text : List Char) : Bool :=
  let digits := if text.head?.any isSign then text.tail else text
  1 < digits.length && digits.head? == some '0' && digits.all Text.isDecimalDigit

def radixNumeral? (text : List Char) : Option Nat :=
  match text with
  | '0' :: 'x' :: rest => Text.natural? 16 rest
  | '0' :: 'o' :: rest => Text.natural? 8 rest
  | '0' :: 'b' :: rest => Text.natural? 2 rest
  | _ => none

def unsigned? (text : List Char) : Option Nat :=
  let digits := match text with
    | '+' :: rest => rest
    | _ => text
  match radixNumeral? digits with
  | some value => some value
  | none => if isPaddedDigits text then none else Text.natural? 10 digits

/-- A whole number with any sign; bases other than ten take a minus sign only. -/
def signed? (text : List Char) : Option Int :=
  match text with
  | '-' :: rest =>
      match radixNumeral? rest with
      | some value => some (-(value : Int))
      | none =>
          if isPaddedDigits text then none
          else (Text.natural? 10 rest).map fun value => -(value : Int)
  | '+' :: rest =>
      if isPaddedDigits text then none
      else (Text.natural? 10 rest).map fun value => (value : Int)
  | _ =>
      if isPaddedDigits text then none
      else (Text.natural? 10 text).map fun value => (value : Int)

def word? (text : List Char) : Option UInt64 :=
  match unsigned? text with
  | some value => if value < UInt64.size then some (UInt64.ofNat value) else none
  | none => none

def signedWord? (text : List Char) : Option Int64 :=
  match signed? text with
  | some value =>
      if Int64.minValue.toInt ≤ value ∧ value ≤ Int64.maxValue.toInt then some (Int64.ofInt value)
      else none
  | none => none

/-- Whole numbers beyond 64 bits that still fit 128 have no content at all. -/
def isWide (text : List Char) : Bool :=
  (unsigned? text).any (· < Nat.pow 2 128) ||
    (signed? text).any fun value => -(Nat.pow 2 127 : Int) ≤ value && value < (Nat.pow 2 127 : Int)

def isInfinity (text : String) : Bool :=
  text == ".inf" || text == ".Inf" || text == ".INF"

def isNotANumber (text : String) : Bool :=
  text == ".nan" || text == ".NaN" || text == ".NAN"

/-- A finite float, or one of the three words for the others. -/
def float? (text : List Char) : Option Binary64 :=
  let whole := String.ofList text
  let (signs, digits) := match text with
    | '+' :: rest => (if rest.head?.any isSign then 2 else 1, rest)
    | _ => (0, text)
  if signs = 2 then none
  else if isInfinity (String.ofList digits) then some (.infinite false)
  else if whole.startsWith "-" && isInfinity (String.ofList text.tail) then some (.infinite true)
  else if isNotANumber whole then some .nan
  else
    let (negative, digits) := match digits with
      | '-' :: rest => (true, rest)
      | _ => (false, digits)
    match Numeral.ofText? digits with
    | some numeral =>
        let value := numeral.toBinary64 negative
        if value.isFinite then some value else none
    | none => none

/-- The whole number that a text spells; none inside if it spells none, none at all if it is too
wide for a word. -/
def integer? (text : List Char) : Option (Option Content) :=
  match word? text with
  | some value => some (some (.natural value))
  | none =>
      match signedWord? text with
      | some value => some (some (.negative value))
      | none => if isWide text then none else some none

def plainContent? (text : String) : Option Content :=
  if text.isEmpty || isNull text then some .null
  else
    match flag? text with
    | some value => some (.flag value)
    | none =>
        let chars := text.toList
        match integer? chars with
        | none => none
        | some (some content) => some content
        | some none =>
            match if isPaddedDigits chars then none else float? chars with
            | some value => some (.float value)
            | none => some (.text text)

/-! ## Tags -/

def standardTag (name : String) : TagText :=
  asciiBytes ("tag:yaml.org,2002:" ++ name).toList

/-- The name of a tag that opens with an exclamation mark. -/
def localTag? (properties : Properties) : Option String :=
  match properties.tag with
  | some (byte :: rest) =>
      if byte ≠ 33 then none
      else String.fromUTF8? ⟨(if rest.isEmpty then [byte] else rest).toArray⟩
  | _ => none

def opensLocal (tag : TagText) : Bool :=
  tag.head? == some 33

/-- The content of a scalar; none for a local tag or a text that its tag does not allow. -/
def scalarContent? (properties : Properties) (text : String) (style : ScalarStyle) :
    Option Content :=
  if (localTag? properties).isSome then none
  else
    match properties.tag with
    | none => if style = .plain then plainContent? text else some (.text text)
    | some tag =>
        if tag = standardTag "bool" then (flag? text).map .flag
        else if tag = standardTag "int" then
          match integer? text.toList with
          | some content => content
          | none => none
        else if tag = standardTag "float" then (float? text.toList).map .float
        else if tag = standardTag "null" then if isNull text then some .null else none
        else if opensLocal tag && style == .plain then plainContent? text
        else some (.text text)

end BinarySchema.Yaml
