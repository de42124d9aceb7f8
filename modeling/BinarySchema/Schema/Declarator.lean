import BinarySchema.Schema.Record
import BinarySchema.Text.Blank

/-!
# Declarators

A type name can spell a pointer or an array over another name: a last `*` makes a pointer,
brackets make an array.  The last suffix is the outermost one, so `int[4]*` is a pointer while
`int*[4]` is an array of pointers, and `int[2][3]` is three times `int[2]`.
-/

namespace BinarySchema

/-- What the shape of a name says, blanks at the ends of each part taken off. -/
inductive Declarator where
  | named (root : List Char)
  | pointer
  | array (element : List Char) (length : Option UInt64)
  deriving DecidableEq, Repr

namespace Declarator

def splitLast? (mark : Char) (text : List Char) : Option (List Char × List Char) :=
  let back := text.reverse
  if mark ∈ text then
    some ((back.dropWhile (· ≠ mark)).tail.reverse, (back.takeWhile (· ≠ mark)).reverse)
  else none

/-- A bound that is no numeral of a 64-bit word leaves the length open. -/
def bound? (text : List Char) : Option UInt64 :=
  Text.word? 10 (Text.trim text)

/-- Without a bracket group at the end, text from the first bracket on is passed over. -/
def ofOpenText (text : List Char) : Declarator :=
  if '[' ∈ text then .array (Text.trim (text.takeWhile (· ≠ '['))) none
  else .named text

def ofText (name : List Char) : Declarator :=
  let text := Text.trim name
  if text.getLast? = some '*' then .pointer
  else if text.getLast? = some ']' then
    match splitLast? '[' text with
    | some (element, group) => .array (Text.trim element) (bound? group.dropLast)
    | none => ofOpenText text
  else ofOpenText text

end Declarator

def TypeRecord.ofDeclarator? (name : String) : Option TypeRecord :=
  match Declarator.ofText name.toList with
  | .named _ => none
  | .pointer => some (.native name .unsigned)
  | .array element length => some (.array name (String.ofList element) length)

end BinarySchema
