import BinarySchema.Yaml.Scalar
import BinarySchema.Yaml.Tag

/-!
# Token sequences

Reads a text into tokens.  A key of a mapping shows only at the colon after it; until then its start
is kept as a pending key, and the tokens for it are put in at that place afterwards.  Pending keys
end with their line and after 1024 characters.
-/

namespace BinarySchema.Yaml

/-- The place where a key may have started; a required one must turn out to be a key. -/
structure PendingKey where
  required : Bool
  number : Nat
  index : Nat
  line : Nat
  column : Nat

/-- The tokens are kept last one first.  `keys` has one entry per open flow collection and one for
the block context below them. -/
structure Scanner where
  cursor : Cursor
  tokens : List Token := []
  indent : Int := -1
  outer : List Int := []
  flow : Nat := 0
  keyAllowed : Bool := true
  keys : List (Option PendingKey) := [none]
  finished : Bool := false

namespace Scanner

def emit (scanner : Scanner) (token : Token) : Scanner :=
  { scanner with tokens := token :: scanner.tokens }

def insertAt (scanner : Scanner) (number : Nat) (token : Token) : Scanner :=
  let later := scanner.tokens.length - number
  { scanner with
    tokens := scanner.tokens.take later ++ token :: scanner.tokens.drop later }

/-! ## Pending keys -/

def isStale (cursor : Cursor) (key : PendingKey) : Bool :=
  key.line < cursor.line || key.index + 1024 < cursor.index

/-- Gives up keys that can no longer be keys; none if one of them is required. -/
def dropStaleKeys (scanner : Scanner) : Option Scanner := do
  let keys ← scanner.keys.mapM fun key =>
    match key with
    | none => some none
    | some key =>
        if !isStale scanner.cursor key then some (some key)
        else if key.required then none
        else some none
  pure { scanner with keys }

/-- Gives up the key of the innermost collection; none if it is required. -/
def dropKey (scanner : Scanner) : Option Scanner :=
  match scanner.keys with
  | some key :: rest => if key.required then none else some { scanner with keys := none :: rest }
  | _ => some scanner

def saveKey (scanner : Scanner) : Option Scanner := do
  if scanner.keyAllowed then
    let cursor := scanner.cursor
    let required := scanner.flow == 0 && scanner.indent == cursor.column
    let key : PendingKey :=
      ⟨required, scanner.tokens.length, cursor.index, cursor.line, cursor.column⟩
    let scanner ← scanner.dropKey
    pure { scanner with keys := some key :: scanner.keys.tail }
  else pure scanner

/-! ## Indentation -/

/-- Opens a block at a column deeper than the current one; the opening token goes to the end or in
front of a numbered token. -/
def openBlock (scanner : Scanner) (column : Nat) (number : Option Nat) (token : Token) : Scanner :=
  if scanner.flow = 0 ∧ scanner.indent < column then
    let scanner :=
      { scanner with outer := scanner.indent :: scanner.outer, indent := column }
    match number with
    | none => scanner.emit token
    | some number => scanner.insertAt number token
  else scanner

def closeBlocks (column : Int) (scanner : Scanner) : Scanner :=
  if scanner.flow ≠ 0 then scanner
  else
    let closed := (scanner.indent :: scanner.outer).takeWhile (column < ·)
    let kept := (scanner.indent :: scanner.outer).drop closed.length
    { scanner with
      tokens := closed.map (fun _ => .blockEnd) ++ scanner.tokens
      indent := kept.headD (-1), outer := kept.tail }

/-! ## Marks -/

def skip (scanner : Scanner) (count : Nat) : Scanner :=
  { scanner with cursor := scanner.cursor.steps count }

def allowKey (allowed : Bool) (scanner : Scanner) : Scanner :=
  { scanner with keyAllowed := allowed }

def mark (scanner : Scanner) (count : Nat) (token : Token) : Scanner :=
  (scanner.skip count).emit token

def endStream (scanner : Scanner) : Option Scanner := do
  let scanner ← (scanner.closeBlocks (-1)).dropKey
  pure { (scanner.emit .streamEnd) with finished := true }

def directive (scanner : Scanner) : Option Scanner := do
  let scanner ← (scanner.closeBlocks (-1)).dropKey
  let (token, cursor) ← readDirective scanner.cursor
  pure ({ scanner with cursor, keyAllowed := false }.emit token)

def documentMark (scanner : Scanner) (token : Token) : Option Scanner := do
  let scanner ← (scanner.closeBlocks (-1)).dropKey
  pure ((scanner.allowKey false).mark 3 token)

def openFlow (scanner : Scanner) (token : Token) : Option Scanner := do
  let scanner ← scanner.saveKey
  let scanner := { scanner with flow := scanner.flow + 1, keys := none :: scanner.keys }
  pure ((scanner.allowKey true).mark 1 token)

def closeFlow (scanner : Scanner) (token : Token) : Option Scanner := do
  let scanner ← scanner.dropKey
  let scanner :=
    if scanner.flow = 0 then scanner
    else { scanner with flow := scanner.flow - 1, keys := scanner.keys.tail }
  pure ((scanner.allowKey false).mark 1 token)

def flowEntry (scanner : Scanner) : Option Scanner := do
  let scanner ← scanner.dropKey
  pure ((scanner.allowKey true).mark 1 .flowEntry)

def blockEntry (scanner : Scanner) : Option Scanner := do
  if scanner.flow = 0 ∧ !scanner.keyAllowed then none
  else
    let scanner := scanner.openBlock scanner.cursor.column none .blockSequenceStart
    let scanner ← scanner.dropKey
    pure ((scanner.allowKey true).mark 1 .blockEntry)

/-- A question mark opens a key of any form. -/
def keyMark (scanner : Scanner) : Option Scanner := do
  if scanner.flow = 0 ∧ !scanner.keyAllowed then none
  else
    let scanner := scanner.openBlock scanner.cursor.column none .blockMappingStart
    let scanner ← scanner.dropKey
    pure ((scanner.allowKey (scanner.flow == 0)).mark 1 .key)

/-- A colon turns the pending key into a key, or belongs to one that a question mark opened. -/
def valueMark (scanner : Scanner) : Option Scanner :=
  match scanner.keys with
  | some key :: rest =>
      let scanner := { scanner with keys := none :: rest }
      let scanner := scanner.insertAt key.number .key
      let scanner := scanner.openBlock key.column (some key.number) .blockMappingStart
      some ((scanner.allowKey false).mark 1 .value)
  | _ =>
      if scanner.flow = 0 ∧ !scanner.keyAllowed then none
      else
        let scanner := scanner.openBlock scanner.cursor.column none .blockMappingStart
        some ((scanner.allowKey (scanner.flow == 0)).mark 1 .value)

/-! ## Content -/

def endsName (text : List Char) : Bool :=
  atGap text ||
    match text with
    | c :: _ =>
        c == '?' || c == ':' || c == ',' || c == ']' || c == '\x7d' || c == '%' || c == '@' ||
          c == '\x60'
    | [] => true

def name (scanner : Scanner) (token : List Char → Token) : Option Scanner := do
  let scanner ← scanner.saveKey
  let (name, cursor) := scanner.cursor.step.takeWhile isWordChar
  if name.isEmpty || !endsName cursor.rest then none
  else pure ({ scanner with cursor, keyAllowed := false }.emit (token name))

def tag (scanner : Scanner) : Option Scanner := do
  let scanner ← scanner.saveKey
  let (token, cursor) ← readTag (scanner.flow ≠ 0) scanner.cursor
  pure ({ scanner with cursor, keyAllowed := false }.emit token)

def blockScalar (scanner : Scanner) (literal : Bool) : Option Scanner := do
  let scanner ← scanner.dropKey
  let (text, cursor) ← readBlock literal scanner.indent scanner.cursor.step
  let token := Token.scalar text (if literal then .literal else .folded)
  pure ({ scanner with cursor, keyAllowed := true }.emit token)

def quotedScalar (scanner : Scanner) (single : Bool) : Option Scanner := do
  let scanner ← scanner.saveKey
  let (read, cursor) ← readQuoted single scanner.cursor.rest.length [] scanner.cursor.step
  let token := Token.scalar read.reverse (if single then .singleQuoted else .doubleQuoted)
  pure ({ scanner with cursor, keyAllowed := false }.emit token)

/-- After a line end behind a plain scalar a key may start. -/
def plainScalar (scanner : Scanner) : Option Scanner := do
  let scanner ← scanner.saveKey
  let (read, broken, cursor) ←
    readPlain (scanner.flow ≠ 0) (scanner.indent + 1).toNat (scanner.cursor.rest.length + 1) [] {}
      scanner.cursor
  pure ({ scanner with cursor, keyAllowed := broken }.emit (.scalar read.reverse .plain))

/-- A character that may not open a plain scalar by itself. -/
def isIndicator (c : Char) : Bool :=
  c == '-' || c == '?' || c == ':' || c == ',' || c == '[' || c == ']' || c == '\x7b' ||
    c == '\x7d' || c == '#' || c == '&' || c == '*' || c == '!' || c == '|' || c == '>' ||
    c == '\x27' || c == '"' || c == '%' || c == '@' || c == '\x60'

def opensPlain (flow : Bool) : List Char → Bool
  | [] => false
  | c :: rest =>
      !(isBlank c || isBreak c || isIndicator c) ||
        (c == '-' && !rest.head?.any isBlank) ||
        (!flow && (c == '?' || c == ':') && !atGap rest)

/-! ## One token after the other -/

/-- Skips blanks, comments and line ends.  Tabs may indent only where no key can start. -/
def skipToToken : Nat → Scanner → Scanner
  | 0, scanner => scanner
  | fuel + 1, scanner =>
      let cursor := scanner.cursor
      let cursor :=
        if cursor.index = 0 ∧ cursor.startsWith byteOrderMark then cursor.step else cursor
      let tabs := scanner.flow ≠ 0 || !scanner.keyAllowed
      let cursor := (cursor.takeWhile fun c => c == ' ' || (tabs && c == '\t')).2
      let cursor := if cursor.startsWith '#' then cursor.skipLine else cursor
      if cursor.peek?.any isBreak then
        skipToToken fuel
          { scanner with
            cursor := cursor.stepBreak, keyAllowed := scanner.keyAllowed || scanner.flow == 0 }
      else { scanner with cursor }

def content (scanner : Scanner) (c : Char) (rest : List Char) : Option Scanner :=
  let inFlow := scanner.flow ≠ 0
  if c = '[' then scanner.openFlow .flowSequenceStart
  else if c = '\x7b' then scanner.openFlow .flowMappingStart
  else if c = ']' then scanner.closeFlow .flowSequenceEnd
  else if c = '\x7d' then scanner.closeFlow .flowMappingEnd
  else if c = ',' then scanner.flowEntry
  else if c = '-' ∧ atGap rest then scanner.blockEntry
  else if c = '?' ∧ (inFlow ∨ atGap rest) then scanner.keyMark
  else if c = ':' ∧ (inFlow ∨ atGap rest) then scanner.valueMark
  else if c = '*' then scanner.name .alias
  else if c = '&' then scanner.name .anchor
  else if c = '!' then scanner.tag
  else if c = '|' ∧ !inFlow then scanner.blockScalar true
  else if c = '>' ∧ !inFlow then scanner.blockScalar false
  else if c = '\x27' then scanner.quotedScalar true
  else if c = '"' then scanner.quotedScalar false
  else if opensPlain inFlow (c :: rest) then scanner.plainScalar
  else none

def next (scanner : Scanner) : Option Scanner := do
  let scanner ← (skipToToken (scanner.cursor.rest.length + 1) scanner).dropStaleKeys
  let scanner := scanner.closeBlocks scanner.cursor.column
  match scanner.cursor.rest with
  | [] => scanner.endStream
  | c :: rest =>
      if scanner.cursor.column = 0 ∧ c = '%' then scanner.directive
      else if scanner.cursor.atMarks '-' then scanner.documentMark .documentStart
      else if scanner.cursor.atMarks '.' then scanner.documentMark .documentEnd
      else scanner.content c rest

/-- Every token before the last takes at least one character. -/
def run : Nat → Scanner → Option Scanner
  | 0, _ => none
  | fuel + 1, scanner => do
      let scanner ← scanner.next
      if scanner.finished then pure scanner else run fuel scanner

end Scanner

def tokens? (text : String) : Option (List Token) :=
  let chars := text.toList
  if chars.all isPrintable then
    (Scanner.run (chars.length + 1) { cursor := ⟨chars, 0, 0, 0⟩ }).map fun scanner =>
      scanner.tokens.reverse
  else none

end BinarySchema.Yaml
