import BinarySchema.Text.Hex
import BinarySchema.Yaml.Cursor

/-!
# Scalar text

Plain and quoted scalars may run over several lines: one line end between two words is folded into
a blank, further ones are kept.  Block scalars take whole lines of one indentation.
-/

namespace BinarySchema.Yaml

/-! ## Gaps between words -/

/-- Blanks on one line or, once `broken`, line ends: the first one and the further ones. -/
structure Gap where
  blanks : List Char := []
  broken : Bool := false
  first : List Char := []
  further : List Char := []

def Gap.text (gap : Gap) : List Char :=
  if !gap.broken then gap.blanks
  else if gap.first = ['\n'] then if gap.further.isEmpty then [' '] else gap.further
  else gap.first ++ gap.further

/-- Reads blanks and line ends; on a later line a tab left of column `margin` is refused. -/
def readGap (margin : Nat) : Nat → Gap → Cursor → Option (Gap × Cursor)
  | 0, gap, cursor => some (gap, cursor)
  | fuel + 1, gap, cursor =>
      match cursor.rest with
      | [] => some (gap, cursor)
      | c :: _ =>
          if isBlank c then
            if !gap.broken then
              readGap margin fuel { gap with blanks := gap.blanks ++ [c] } cursor.step
            else if c = '\t' ∧ cursor.column < margin then none
            else readGap margin fuel gap cursor.step
          else if isBreak c then
            let gap : Gap :=
              if gap.broken then { gap with further := gap.further ++ cursor.breakText }
              else { broken := true, first := cursor.breakText }
            readGap margin fuel gap cursor.stepBreak
          else some (gap, cursor)

/-! ## Plain scalars -/

def isFlowMark (c : Char) : Bool :=
  c == ',' || c == '[' || c == ']' || c == '\x7b' || c == '\x7d'

def endsPlain (flow : Bool) : List Char → Bool
  | [] => true
  | ':' :: rest => atGap rest
  | c :: _ => isBlank c || isBreak c || (flow && isFlowMark c)

/-- In flow collections a colon may not touch a mark. -/
def badColon (flow : Bool) : List Char → Bool
  | ':' :: c :: _ => flow && (isFlowMark c || c == '?')
  | _ => false

/-- Reads one word of a plain scalar; `read` holds its characters, last one first. -/
def readPlainWord (flow : Bool) : Nat → List Char → Cursor → Option (List Char × Cursor)
  | 0, read, cursor => some (read, cursor)
  | fuel + 1, read, cursor =>
      if badColon flow cursor.rest then none
      else if endsPlain flow cursor.rest then some (read, cursor)
      else
        match cursor.rest with
        | c :: _ => readPlainWord flow fuel (c :: read) cursor.step
        | [] => some (read, cursor)

/-- Reads words and gaps; the answer tells whether the scalar stopped after a line end. -/
def readPlain (flow : Bool) (margin : Nat) :
    Nat → List Char → Gap → Cursor → Option (List Char × Bool × Cursor)
  | 0, _, _, _ => none
  | fuel + 1, read, gap, cursor =>
      if cursor.atDocumentMark || cursor.startsWith '#' then some (read, gap.broken, cursor)
      else do
        let (word, after) ← readPlainWord flow cursor.rest.length [] cursor
        if word.isEmpty then pure (read, gap.broken, cursor)
        else
          let read := word ++ (gap.text.reverse ++ read)
          if after.atEnd || !atGap after.rest then pure (read, false, after)
          else
            let (gap, next) ← readGap margin after.rest.length {} after
            if !flow && next.column < margin then pure (read, gap.broken, next)
            else readPlain flow margin fuel read gap next

/-! ## Quoted scalars -/

def escape? (c : Char) : Option Char :=
  if c = '0' then some (Char.ofNat 0)
  else if c = 'a' then some (Char.ofNat 7)
  else if c = 'b' then some (Char.ofNat 8)
  else if c = 't' ∨ c = '\t' then some '\t'
  else if c = 'n' then some '\n'
  else if c = 'v' then some (Char.ofNat 11)
  else if c = 'f' then some (Char.ofNat 12)
  else if c = 'r' then some '\r'
  else if c = 'e' then some (Char.ofNat 27)
  else if c = ' ' ∨ c = '"' ∨ c = '/' ∨ c = '\\' then some c
  else if c = 'N' then some (Char.ofNat 0x85)
  else if c = '_' then some (Char.ofNat 0xA0)
  else if c = 'L' then some (Char.ofNat 0x2028)
  else if c = 'P' then some (Char.ofNat 0x2029)
  else none

def escapeDigits? (c : Char) : Option Nat :=
  if c = 'x' then some 2 else if c = 'u' then some 4 else if c = 'U' then some 8 else none

def codePoint? (digits : List Char) : Option Char :=
  match digits.foldlM (fun value c => (Text.nibble? c).map (value * 16 + ·)) 0 with
  | some value =>
      if (0xD800 ≤ value ∧ value ≤ 0xDFFF) ∨ 0x10FFFF < value then none else some (Char.ofNat value)
  | none => none

def readEscape (cursor : Cursor) : Option (Char × Cursor) :=
  match cursor.rest with
  | '\\' :: c :: rest =>
      match escapeDigits? c with
      | some count =>
          if rest.length < count then none
          else (codePoint? (rest.take count)).map fun point => (point, cursor.steps (2 + count))
      | none => (escape? c).map fun escaped => (escaped, cursor.steps 2)
  | _ => none

/-- Reads one word of a quoted scalar, last character first; the answer tells whether an escaped
line end closed it. -/
def readQuotedWord (single : Bool) : Nat → List Char → Cursor → Option (List Char × Bool × Cursor)
  | 0, read, cursor => some (read, false, cursor)
  | fuel + 1, read, cursor =>
      match cursor.rest with
      | [] => some (read, false, cursor)
      | c :: rest =>
          if isBlank c || isBreak c then some (read, false, cursor)
          else if single then
            if c = '\x27' then
              if rest.head? = some '\x27' then
                readQuotedWord single fuel ('\x27' :: read) (cursor.steps 2)
              else some (read, false, cursor)
            else readQuotedWord single fuel (c :: read) cursor.step
          else if c = '"' then some (read, false, cursor)
          else if c = '\\' then
            if !rest.isEmpty && atBreak rest then some (read, true, cursor.step.stepBreak)
            else
              match readEscape cursor with
              | some (escaped, next) => readQuotedWord single fuel (escaped :: read) next
              | none => none
          else readQuotedWord single fuel (c :: read) cursor.step

def readQuoted (single : Bool) : Nat → List Char → Cursor → Option (List Char × Cursor)
  | 0, _, _ => none
  | fuel + 1, read, cursor =>
      if cursor.atDocumentMark || cursor.atEnd then none
      else do
        let (read, joined, after) ← readQuotedWord single cursor.rest.length read cursor
        if after.startsWith (if single then '\x27' else '"') then pure (read, after.step)
        else
          let (gap, next) ← readGap 0 after.rest.length { broken := joined } after
          readQuoted single fuel (gap.text.reverse ++ read) next

/-! ## Block scalars -/

inductive Chomping where
  | strip
  | clip
  | keep
  deriving DecidableEq, Repr

/-- The line after the block mark: how line ends at the close are treated, and the written
indentation, zero if it is left open. -/
structure BlockHeader where
  chomping : Chomping := .clip
  increment : Nat := 0
  deriving DecidableEq, Repr

def chomping? (c : Char) : Option Chomping :=
  if c = '+' then some .keep else if c = '-' then some .strip else none

def readIncrement (cursor : Cursor) : Option (Nat × Cursor) :=
  match cursor.rest with
  | c :: _ =>
      if '0' ≤ c ∧ c ≤ '9' then
        if c = '0' then none else some (c.toNat - '0'.toNat, cursor.step)
      else some (0, cursor)
  | [] => some (0, cursor)

def readChomping (cursor : Cursor) : Option Chomping × Cursor :=
  match cursor.rest with
  | c :: _ =>
      match chomping? c with
      | some chomping => (some chomping, cursor.step)
      | none => (none, cursor)
  | [] => (none, cursor)

def readBlockHeader (cursor : Cursor) : Option (BlockHeader × Cursor) := do
  let (before, cursor) := readChomping cursor
  let (increment, cursor) ← readIncrement cursor
  let (after, cursor) :=
    if before.isNone && increment ≠ 0 then readChomping cursor else (none, cursor)
  let cursor ← cursor.endLine?
  pure (⟨(before.or after).getD .clip, increment⟩, cursor)

/-- Skips indentation and empty lines; answers the deepest column seen and the line ends. -/
def readBlockBreaks (indent : Nat) :
    Nat → Nat → List Char → Cursor → Option (Nat × List Char × Cursor)
  | 0, deepest, breaks, cursor => some (deepest, breaks, cursor)
  | fuel + 1, deepest, breaks, cursor =>
      let spaces := (cursor.rest.takeWhile (· == ' ')).length
      let cursor := cursor.steps (if indent = 0 then spaces else min spaces (indent - cursor.column))
      let deepest := max deepest cursor.column
      if (indent = 0 ∨ cursor.column < indent) ∧ cursor.startsWith '\t' then none
      else if cursor.breakText.isEmpty then some (deepest, breaks, cursor)
      else readBlockBreaks indent fuel deepest (breaks ++ cursor.breakText) cursor.stepBreak

/-- Reads the lines that start at column `indent`.  `pending` is the end of the line before, which
is folded in folded scalars unless a line next to it starts with a blank. -/
def readBlockLines (literal : Bool) (indent : Nat) :
    Nat → List Char → List Char → Bool → List Char → Cursor →
      Option (List Char × List Char × List Char × Cursor)
  | 0, read, pending, _, breaks, cursor => some (read, pending, breaks, cursor)
  | fuel + 1, read, pending, blankBefore, breaks, cursor =>
      if cursor.column ≠ indent ∨ cursor.atEnd then some (read, pending, breaks, cursor)
      else
        let startsBlank := cursor.peek?.any isBlank
        let folds := !literal && pending.head? == some '\n' && !blankBefore && !startsBlank
        let joint := if folds then if breaks.isEmpty then [' '] else [] else pending
        let (line, after) := cursor.takeWhile fun c => !isBreak c
        let read := line.reverse ++ (breaks.reverse ++ (joint.reverse ++ read))
        match readBlockBreaks indent after.rest.length 0 [] after.stepBreak with
        | some (_, breaks, next) =>
            readBlockLines literal indent fuel read after.breakText startsBlank breaks next
        | none => none

/-- Reads a block scalar from after its mark, inside a block of indentation `parent`. -/
def readBlock (literal : Bool) (parent : Int) (cursor : Cursor) :
    Option (List Char × Cursor) := do
  let (header, cursor) ← readBlockHeader cursor
  let written := if header.increment = 0 then 0 else (max parent 0).toNat + header.increment
  let (deepest, breaks, cursor) ← readBlockBreaks written (cursor.rest.length + 1) 0 [] cursor
  let indent := if written = 0 then max deepest (max (parent + 1) 1).toNat else written
  let (read, pending, breaks, cursor) ←
    readBlockLines literal indent (cursor.rest.length + 1) [] [] false breaks cursor
  let ending := match header.chomping with
    | .strip => []
    | .clip => pending
    | .keep => pending ++ breaks
  pure (read.reverse ++ ending, cursor)

end BinarySchema.Yaml
