/-!
# Positions in YAML text

A cursor is what is left of a text together with the line and the column where it starts.  A line
ends with a carriage return, a line feed, the two together, or one of the Unicode line ends; the
last two of these are kept in folded text, the others become a line feed.
-/

namespace BinarySchema.Yaml

/-! ## Character classes -/

def isBlank (c : Char) : Bool :=
  c == ' ' || c == '\t'

def isBreak (c : Char) : Bool :=
  c == '\r' || c == '\n' || c.toNat == 0x85 || c.toNat == 0x2028 || c.toNat == 0x2029

def isWordChar (c : Char) : Bool :=
  ('0' ≤ c && c ≤ '9') || ('A' ≤ c && c ≤ 'Z') || ('a' ≤ c && c ≤ 'z') || c == '_' || c == '-'

def isPrintable (c : Char) : Bool :=
  let code := c.toNat
  code == 0x09 || code == 0x0A || code == 0x0D || (0x20 ≤ code && code ≤ 0x7E) || code == 0x85 ||
    (0xA0 ≤ code && code ≤ 0xD7FF) || (0xE000 ≤ code && code ≤ 0xFFFD) || 0x10000 ≤ code

def byteOrderMark : Char := Char.ofNat 0xFEFF

/-- Whether a text starts with a blank or a break or is at its end. -/
def atGap : List Char → Bool
  | [] => true
  | c :: _ => isBlank c || isBreak c

def atBreak : List Char → Bool
  | [] => true
  | c :: _ => isBreak c

/-! ## Cursors -/

structure Cursor where
  rest : List Char
  index : Nat := 0
  line : Nat := 0
  column : Nat := 0

namespace Cursor

def peek? (cursor : Cursor) : Option Char :=
  cursor.rest.head?

def atEnd (cursor : Cursor) : Bool :=
  cursor.rest.isEmpty

def startsWith (cursor : Cursor) (c : Char) : Bool :=
  cursor.rest.head? == some c

def step (cursor : Cursor) : Cursor :=
  { cursor with
    rest := cursor.rest.tail, index := cursor.index + 1, column := cursor.column + 1 }

def steps (cursor : Cursor) (count : Nat) : Cursor :=
  { cursor with
    rest := cursor.rest.drop count, index := cursor.index + count
    column := cursor.column + count }

/-- Past a line end, if there is one. -/
def stepBreak (cursor : Cursor) : Cursor :=
  match cursor.rest with
  | '\r' :: '\n' :: rest => ⟨rest, cursor.index + 2, cursor.line + 1, 0⟩
  | c :: rest => if isBreak c then ⟨rest, cursor.index + 1, cursor.line + 1, 0⟩ else cursor
  | [] => cursor

def breakText (cursor : Cursor) : List Char :=
  match cursor.rest with
  | c :: _ =>
      if !isBreak c then [] else if c.toNat = 0x2028 ∨ c.toNat = 0x2029 then [c] else ['\n']
  | [] => []

/-- The characters up to the first that fails `keep`, and the cursor after them. -/
def takeWhile (cursor : Cursor) (keep : Char → Bool) : List Char × Cursor :=
  let taken := cursor.rest.takeWhile keep
  (taken, cursor.steps taken.length)

def skipBlanks (cursor : Cursor) : Cursor :=
  (cursor.takeWhile isBlank).2

def skipLine (cursor : Cursor) : Cursor :=
  (cursor.takeWhile fun c => !isBreak c).2

/-- Past blanks and a comment up to the end of the line; none if anything else is there. -/
def endLine? (cursor : Cursor) : Option Cursor :=
  let cursor := cursor.skipBlanks
  let cursor := if cursor.startsWith '#' then cursor.skipLine else cursor
  if atBreak cursor.rest then some cursor.stepBreak else none

/-- A line that opens with three times the same mark, a gap after it. -/
def atMarks (cursor : Cursor) (mark : Char) : Bool :=
  cursor.column == 0 &&
    match cursor.rest with
    | a :: b :: c :: rest => a == mark && b == mark && c == mark && atGap rest
    | _ => false

def atDocumentMark (cursor : Cursor) : Bool :=
  cursor.atMarks '-' || cursor.atMarks '.'

end Cursor

end BinarySchema.Yaml
