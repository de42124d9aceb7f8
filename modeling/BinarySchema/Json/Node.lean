import BinarySchema.Json.Document
import BinarySchema.Text.Hex

/-!
# JSON text

A node is what the grammar sees in a JSON text.  A numeral out of range or a string with half a
surrogate pair is well formed and has no meaning; whoever needs the meaning fails on it, whoever
passes it over does not.  What number a numeral stands for is a parameter of the grammar.
-/

namespace BinarySchema.Json

inductive Node where
  | null
  | bool (flag : Bool)
  | number (value : Option Number)
  | string (text : Option String)
  | array (items : List Node)
  | object (entries : List (Option String × Node))
  deriving Repr

def isSpace (c : Char) : Bool :=
  c == ' ' || c == '\n' || c == '\t' || c == '\r'

def skipSpace (text : List Char) : List Char :=
  text.dropWhile isSpace

/-! ## Strings -/

def escapedChar? (c : Char) : Option Char :=
  if c = '"' ∨ c = '\\' ∨ c = '/' then some c
  else if c = 'b' then some (Char.ofNat 8)
  else if c = 'f' then some (Char.ofNat 12)
  else if c = 'n' then some '\n'
  else if c = 'r' then some '\r'
  else if c = 't' then some '\t'
  else none

def codeUnit? (a b c d : Char) : Option Nat :=
  match Text.nibble? a, Text.nibble? b, Text.nibble? c, Text.nibble? d with
  | some a, some b, some c, some d => some (((a * 16 + b) * 16 + c) * 16 + d)
  | _, _, _, _ => none

/-- The characters read so far, last one first, none once they have no meaning; `high` holds the
first half of a surrogate pair that awaits its second. -/
structure StringState where
  high : Option Nat := none
  read : Option (List Char) := some []

namespace StringState

def addChar (state : StringState) (c : Char) : StringState :=
  match state.high with
  | none => ⟨none, state.read.map (c :: ·)⟩
  | some _ => ⟨none, none⟩

def addUnit (state : StringState) (unit : Nat) : StringState :=
  if 0xDC00 ≤ unit ∧ unit < 0xE000 then
    match state.high with
    | some high =>
        state.read.elim ⟨none, none⟩ fun read =>
          ⟨none, some (Char.ofNat (0x10000 + (high - 0xD800) * 0x400 + (unit - 0xDC00)) :: read)⟩
    | none => ⟨none, none⟩
  else if 0xD800 ≤ unit ∧ unit < 0xDC00 then
    match state.high with
    | none => ⟨some unit, state.read⟩
    | some _ => ⟨none, none⟩
  else state.addChar (Char.ofNat unit)

def text? (state : StringState) : Option String :=
  match state.high with
  | none => state.read.map fun read => String.ofList read.reverse
  | some _ => none

end StringState

def readString (state : StringState) : List Char → Option (Option String × List Char)
  | [] => none
  | '"' :: rest => some (state.text?, rest)
  | '\\' :: 'u' :: a :: b :: c :: d :: rest =>
      match codeUnit? a b c d with
      | some unit => readString (state.addUnit unit) rest
      | none => none
  | '\\' :: c :: rest =>
      match escapedChar? c with
      | some c => readString (state.addChar c) rest
      | none => none
  | c :: rest => if c.toNat < 0x20 then none else readString (state.addChar c) rest

/-! ## Numbers -/

def readDigits (text : List Char) : List Nat × List Char :=
  ((text.takeWhile Text.isDecimalDigit).map fun c => c.toNat - '0'.toNat,
    text.dropWhile Text.isDecimalDigit)

/-- A whole part has no leading zero. -/
def readWhole (text : List Char) : Option (List Nat × List Char) :=
  let (digits, rest) := readDigits text
  match digits with
  | [] => none
  | 0 :: _ :: _ => none
  | _ => some (digits, rest)

def readFraction (text : List Char) : Option (List Nat × List Char) :=
  match text with
  | '.' :: rest =>
      let (digits, rest) := readDigits rest
      if digits.isEmpty then none else some (digits, rest)
  | _ => some ([], text)

def readPower (minus : Bool) (text : List Char) : Option (Option (Bool × List Nat) × List Char) :=
  let (digits, rest) := readDigits text
  if digits.isEmpty then none else some (some (minus, digits), rest)

def readExponent (text : List Char) : Option (Option (Bool × List Nat) × List Char) :=
  match text with
  | [] => some (none, [])
  | c :: rest =>
      if c = 'e' ∨ c = 'E' then
        match rest with
        | '+' :: rest => readPower false rest
        | '-' :: rest => readPower true rest
        | _ => readPower false rest
      else some (none, text)

def readNumeral (text : List Char) : Option (NumberText × List Char) := do
  let (negative, text) := match text with
    | '-' :: rest => (true, rest)
    | _ => (false, text)
  let (whole, text) ← readWhole text
  let (fraction, text) ← readFraction text
  let (exponent, text) ← readExponent text
  pure (⟨negative, whole, fraction, exponent⟩, text)

/-! ## Values -/

def afterWord? (word : List Char) (text : List Char) : Option (List Char) :=
  if word.isPrefixOf text then some (text.drop word.length) else none

section

variable (meaning : NumberText → Option Number)

mutual

/-- Reads one value after blanks; every step of `fuel` takes at least one character. -/
def readValue : Nat → List Char → Option (Node × List Char)
  | 0, _ => none
  | fuel + 1, text =>
      match skipSpace text with
      | [] => none
      | '"' :: rest => (readString {} rest).map fun (string, rest) => (.string string, rest)
      | '[' :: rest =>
          match skipSpace rest with
          | ']' :: rest => some (.array [], rest)
          | _ => (readItems fuel rest).map fun (items, rest) => (.array items, rest)
      | '\x7b' :: rest =>
          match skipSpace rest with
          | '\x7d' :: rest => some (.object [], rest)
          | _ => (readEntries fuel rest).map fun (entries, rest) => (.object entries, rest)
      | 'n' :: rest => (afterWord? "ull".toList rest).map fun rest => (.null, rest)
      | 't' :: rest => (afterWord? "rue".toList rest).map fun rest => (.bool true, rest)
      | 'f' :: rest => (afterWord? "alse".toList rest).map fun rest => (.bool false, rest)
      | text => (readNumeral text).map fun (numeral, rest) => (.number (meaning numeral), rest)

def readItems : Nat → List Char → Option (List Node × List Char)
  | 0, _ => none
  | fuel + 1, text =>
      match readValue fuel text with
      | none => none
      | some (item, rest) =>
          match skipSpace rest with
          | ']' :: rest => some ([item], rest)
          | ',' :: rest => (readItems fuel rest).map fun (items, rest) => (item :: items, rest)
          | _ => none

def readEntries : Nat → List Char → Option (List (Option String × Node) × List Char)
  | 0, _ => none
  | fuel + 1, text =>
      match skipSpace text with
      | '"' :: rest =>
          match readString {} rest with
          | none => none
          | some (key, rest) =>
              match skipSpace rest with
              | ':' :: rest =>
                  match readValue fuel rest with
                  | none => none
                  | some (node, rest) =>
                      match skipSpace rest with
                      | '\x7d' :: rest => some ([(key, node)], rest)
                      | ',' :: rest =>
                          (readEntries fuel rest).map fun (entries, rest) =>
                            ((key, node) :: entries, rest)
                      | _ => none
              | _ => none
      | _ => none

end

end

namespace Node

/-- A text that holds one value and nothing else but blanks. -/
def ofTextWith? (meaning : NumberText → Option Number) (text : String) : Option Node :=
  let chars := text.toList
  match readValue meaning (2 * chars.length + 1) chars with
  | some (node, rest) => if (skipSpace rest).isEmpty then some node else none
  | none => none

def ofText? (text : String) : Option Node :=
  ofTextWith? NumberText.value? text

mutual

/-- The meaning of a node whose arrays and objects nest at most `depth` levels deep. -/
def document? (depth : Nat) : Node → Option Document
  | .null => some .null
  | .bool flag => some (.bool flag)
  | .number value => value.map .number
  | .string text => text.map .string
  | .array items =>
      if depth = 0 then none else (documents? (depth - 1) items).map .array
  | .object entries =>
      if depth = 0 then none else (entries? (depth - 1) entries).map .ofEntries

def documents? (depth : Nat) : List Node → Option (List Document)
  | [] => some []
  | item :: rest => do
      let document ← item.document? depth
      let documents ← documents? depth rest
      pure (document :: documents)

def entries? (depth : Nat) : List (Option String × Node) → Option (List (String × Document))
  | [] => some []
  | (key, node) :: rest => do
      let key ← key
      let document ← node.document? depth
      let entries ← entries? depth rest
      pure ((key, document) :: entries)

end

end Node

namespace Document

def maxDepth : Nat := 127

def ofText? (text : String) : Option Document :=
  (Node.ofText? text).bind (Node.document? maxDepth)

mutual

def toNode : Document → Node
  | .null => .null
  | .bool flag => .bool flag
  | .number value => .number (some value)
  | .string text => .string (some text)
  | .array items => .array (nodes items)
  | .object entries => .object (entryNodes entries)

def nodes : List Document → List Node
  | [] => []
  | item :: rest => item.toNode :: nodes rest

def entryNodes : List (String × Document) → List (Option String × Node)
  | [] => []
  | (key, document) :: rest => (some key, document.toNode) :: entryNodes rest

end

end Document

end BinarySchema.Json
