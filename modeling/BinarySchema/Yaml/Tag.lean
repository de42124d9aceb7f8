import BinarySchema.Text.Hex
import BinarySchema.Yaml.Cursor
import BinarySchema.Yaml.Token

/-!
# Tags and directives

A tag names a handle and a suffix, or is written out between angle brackets.  Directives stand on
lines of their own before a document and declare its version and its tag handles.
-/

namespace BinarySchema.Yaml

/-! ## Tag text -/

def isTagChar (written : Bool) (c : Char) : Bool :=
  isWordChar c || c == ';' || c == '/' || c == '?' || c == ':' || c == '@' || c == '&' ||
    c == '=' || c == '+' || c == '$' || c == '.' || c == '%' || c == '!' || c == '~' ||
    c == '*' || c == '\x27' || c == '(' || c == ')' ||
    (written && (c == ',' || c == '[' || c == ']'))

def escapedByte? : List Char → Option UInt8
  | '%' :: high :: low :: _ =>
      match Text.nibble? high, Text.nibble? low with
      | some h, some l => some (UInt8.ofNat (h * 16 + l))
      | _, _ => none
  | _ => none

/-- The number of bytes of a character whose encoding opens with this byte. -/
def sequenceLength? (byte : UInt8) : Option Nat :=
  let code := byte.toNat
  if code < 0x80 then some 1
  else if 0xC0 ≤ code ∧ code < 0xE0 then some 2
  else if 0xE0 ≤ code ∧ code < 0xF0 then some 3
  else if 0xF0 ≤ code ∧ code < 0xF8 then some 4
  else none

def readTrail : Nat → Cursor → Option (TagText × Cursor)
  | 0, cursor => some ([], cursor)
  | count + 1, cursor => do
      let byte ← escapedByte? cursor.rest
      if 0x80 ≤ byte.toNat ∧ byte.toNat < 0xC0 then
        let (bytes, cursor) ← readTrail count (cursor.steps 3)
        pure (byte :: bytes, cursor)
      else none

def readEscapedChar (cursor : Cursor) : Option (TagText × Cursor) := do
  let lead ← escapedByte? cursor.rest
  let length ← sequenceLength? lead
  let (bytes, cursor) ← readTrail (length - 1) (cursor.steps 3)
  pure (lead :: bytes, cursor)

def readTagText (written : Bool) : Nat → Cursor → Option (TagText × Cursor)
  | 0, cursor => some ([], cursor)
  | fuel + 1, cursor =>
      match cursor.rest with
      | [] => some ([], cursor)
      | c :: _ =>
          if !isTagChar written c then some ([], cursor)
          else do
            let (bytes, next) ←
              if c = '%' then readEscapedChar cursor
              else some ([UInt8.ofNat c.toNat], cursor.step)
            let (others, next) ← readTagText written fuel next
            pure (bytes ++ others, next)

def readSomeTagText (written : Bool) (cursor : Cursor) : Option (TagText × Cursor) := do
  let (bytes, next) ← readTagText written cursor.rest.length cursor
  if bytes.isEmpty then none else some (bytes, next)

/-- The exclamation mark at the cursor, word characters and a closing exclamation mark, if any. -/
def readHandle (cursor : Cursor) : List Char × Cursor :=
  let (word, next) := cursor.step.takeWhile isWordChar
  if next.startsWith '!' then ('!' :: (word ++ ['!']), next.step) else ('!' :: word, next)

def asciiBytes (text : List Char) : TagText :=
  text.map fun c => UInt8.ofNat c.toNat

/-- A handle is closed by an exclamation mark of its own; a lone one opens a local tag. -/
def isClosedHandle (handle : List Char) : Bool :=
  1 < handle.length && handle.getLast? == some '!'

def readShortTag (cursor : Cursor) : Option ((List Char × TagText) × Cursor) := do
  let (handle, next) := readHandle cursor
  if isClosedHandle handle then
    let (suffix, next) ← readSomeTagText false next
    pure ((handle, suffix), next)
  else
    let (bytes, next) ← readTagText false next.rest.length next
    let suffix := asciiBytes handle.tail ++ bytes
    pure (if suffix.isEmpty then ([], asciiBytes ['!']) else (['!'], suffix), next)

def readWrittenTag (cursor : Cursor) : Option ((List Char × TagText) × Cursor) := do
  let (suffix, next) ← readSomeTagText true (cursor.steps 2)
  if next.startsWith '>' then some (([], suffix), next.step) else none

/-- A tag ends at a gap or, in flow collections, at a comma. -/
def readTag (flow : Bool) (cursor : Cursor) : Option (Token × Cursor) := do
  let ((handle, suffix), next) ←
    if cursor.rest.tail.head? = some '<' then readWrittenTag cursor else readShortTag cursor
  if atGap next.rest || (flow && next.startsWith ',') then some (.tag handle suffix, next)
  else none

/-! ## Directives -/

def isDigit (c : Char) : Bool :=
  '0' ≤ c && c ≤ '9'

/-- A version number of at most nine digits. -/
def readVersionNumber (cursor : Cursor) : Option (Nat × Cursor) :=
  let (digits, next) := cursor.takeWhile isDigit
  if digits.isEmpty ∨ 9 < digits.length then none
  else some (digits.foldl (fun value c => value * 10 + (c.toNat - '0'.toNat)) 0, next)

def readVersion (cursor : Cursor) : Option (Token × Cursor) := do
  let (major, next) ← readVersionNumber cursor.skipBlanks
  if next.startsWith '.' then
    let (minor, next) ← readVersionNumber next.step
    pure (.version major minor, next)
  else none

def readTagHandle (cursor : Cursor) : Option (Token × Cursor) := do
  let cursor := cursor.skipBlanks
  if !cursor.startsWith '!' then none
  else
    let (handle, next) := readHandle cursor
    if !(isClosedHandle handle || handle == ['!']) then none
    else if !next.peek?.any isBlank then none
    else
      let (expansion, next) ← readSomeTagText true next.skipBlanks
      if atGap next.rest then some (.tagHandle handle expansion, next) else none

/-- Reads a directive from its percent sign to the end of the line. -/
def readDirective (cursor : Cursor) : Option (Token × Cursor) := do
  let (name, next) := cursor.step.takeWhile isWordChar
  if name.isEmpty || !atGap next.rest then none
  else
    let (token, next) ←
      if name = "YAML".toList then readVersion next
      else if name = "TAG".toList then readTagHandle next
      else none
    let next ← next.endLine?
    pure (token, next)

end BinarySchema.Yaml
