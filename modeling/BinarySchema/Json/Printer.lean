import BinarySchema.Json.Document
import BinarySchema.Number.Shortest
import BinarySchema.Text.Hex

/-!
# Printing JSON documents

Compact text without blanks, and text with one entry a line, indented by two blanks a level.
-/

namespace BinarySchema.Json

/-- JSON floats keep a fraction and a tie goes to the even digit; the leading digit is written
positionally from `10 ^ -5` up to `10 ^ 15`. -/
def floatStyle : DecimalStyle :=
  ⟨.toEven, fun leading => -5 ≤ leading && leading < 16, ['.', '0']⟩

def floatText (value : Binary64) : List Char :=
  match value.datum with
  | .finite negative significand exponent =>
      floatStyle.finiteText negative significand exponent
  | _ => "null".toList

def numberText : Number → List Char
  | .integer value =>
      if value < 0 then '-' :: Text.decimal value.natAbs else Text.decimal value.natAbs
  | .float value => floatText value

/-- Quotes, backslashes and control characters are escaped, nothing else. -/
def escapeChar (c : Char) : List Char :=
  if c = '"' then ['\\', '"']
  else if c = '\\' then ['\\', '\\']
  else if c = '\n' then ['\\', 'n']
  else if c = '\r' then ['\\', 'r']
  else if c = '\t' then ['\\', 't']
  else if c.toNat = 8 then ['\\', 'b']
  else if c.toNat = 12 then ['\\', 'f']
  else if c.toNat < 32 then
    ['\\', 'u', '0', '0', Text.nibbleDigit (c.toNat / 16), Text.nibbleDigit (c.toNat % 16)]
  else [c]

def stringText (text : String) : List Char :=
  '"' :: (text.toList.flatMap escapeChar ++ ['"'])

namespace Document

mutual

def compact (tail : List Char) : Document → List Char
  | .null => "null".toList ++ tail
  | .bool true => "true".toList ++ tail
  | .bool false => "false".toList ++ tail
  | .number value => numberText value ++ tail
  | .string text => stringText text ++ tail
  | .array items => '[' :: compactItems (']' :: tail) items
  | .object entries => '\x7b' :: compactEntries ('\x7d' :: tail) entries

def compactItems (tail : List Char) : List Document → List Char
  | [] => tail
  | [item] => compact tail item
  | item :: rest => compact (',' :: compactItems tail rest) item

def compactEntries (tail : List Char) : List (String × Document) → List Char
  | [] => tail
  | [(key, document)] => stringText key ++ ':' :: compact tail document
  | (key, document) :: rest =>
      stringText key ++ ':' :: compact (',' :: compactEntries tail rest) document

end

def newLine (level : Nat) (tail : List Char) : List Char :=
  '\n' :: (List.replicate (2 * level) ' ' ++ tail)

mutual

/-- The indented text of a document at a nesting level, followed by `tail`. -/
def indented (level : Nat) (tail : List Char) : Document → List Char
  | .array [] => '[' :: ']' :: tail
  | .array (item :: rest) =>
      '[' :: newLine (level + 1)
        (indented (level + 1) (indentedItems level (newLine level (']' :: tail)) rest) item)
  | .object [] => '\x7b' :: '\x7d' :: tail
  | .object ((key, document) :: rest) =>
      '\x7b' :: newLine (level + 1) (stringText key ++ ':' :: ' ' ::
        indented (level + 1) (indentedEntries level (newLine level ('\x7d' :: tail)) rest) document)
  | document => compact tail document

def indentedItems (level : Nat) (tail : List Char) : List Document → List Char
  | [] => tail
  | item :: rest =>
      ',' :: newLine (level + 1) (indented (level + 1) (indentedItems level tail rest) item)

def indentedEntries (level : Nat) (tail : List Char) : List (String × Document) → List Char
  | [] => tail
  | (key, document) :: rest =>
      ',' :: newLine (level + 1) (stringText key ++ ':' :: ' ' ::
        indented (level + 1) (indentedEntries level tail rest) document)

end

def compactText (document : Document) : String :=
  String.ofList (document.compact [])

def indentedText (document : Document) : String :=
  String.ofList (document.indented 0 [])

end Document

end BinarySchema.Json
