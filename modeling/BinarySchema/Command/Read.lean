import BinarySchema.Command.Types
import BinarySchema.Value.Document
import BinarySchema.Value.Read

/-!
# Decoding a value

The command that reads a value of a named type from hexadecimal text or a file and prints it.
-/

namespace BinarySchema

def Buffer.ofHex (text : String) : Except Error Buffer :=
  match Text.hexBytes? text.toList with
  | some bytes => .ok bytes.toArray
  | none => .error (.invalidHex text)

def Buffer.toHex (buffer : Buffer) : String :=
  String.ofList (Text.hexText buffer.toList)

namespace Command

open Json (Document)

/-! ## Text of a value -/

def contentText (content : Option Scalar) : String :=
  content.elim "<unset>" Scalar.text

def indentation (indent : Nat) : String :=
  String.ofList (List.replicate indent ' ')

/-- How a value is shown: a scalar in one line, other values over several. -/
inductive Display where
  | line (text : String)
  | block (lines : List String)
  deriving DecidableEq, Repr

def Display.lines (indent : Nat) : Display → List String
  | .line text => [indentation indent ++ text]
  | .block lines => lines

def namedLines (indent : Nat) (name : String) : Option Display → List String
  | none => [indentation (indent + 2) ++ name ++ " = <unset>"]
  | some (.line text) => [indentation (indent + 2) ++ name ++ " = " ++ text]
  | some (.block lines) => (indentation (indent + 2) ++ name ++ " =") :: lines

def enclosedLines (indent : Nat) (name : String) (lines : List String) : List String :=
  (indentation indent ++ name ++ " \x7b") :: (lines ++ [indentation indent ++ "\x7d"])

mutual

def display (indent : Nat) : Value → Display
  | .scalar _ _ content => .line (contentText content)
  | .struct record _ slots =>
      .block (enclosedLines indent record.name
        ((record.entriesByName (displaySlots (indent + 4) slots)).flatMap fun (name, part) =>
          namedLines indent name part))
  | .union record _ none => .block (enclosedLines indent record.name [])
  | .union record _ (some (name, child)) =>
      .block (enclosedLines indent record.name
        (namedLines indent name (some (display (indent + 4) child))))
  | .array _ _ items =>
      .block ((indentation indent ++ "[") ::
        (displayItems (indent + 2) items ++ [indentation indent ++ "]"]))

def displaySlots (indent : Nat) : List (Option Value) → List (Option Display)
  | [] => []
  | none :: rest => none :: displaySlots indent rest
  | some child :: rest => some (display indent child) :: displaySlots indent rest

def displayItems (indent : Nat) : List Value → List String
  | [] => []
  | item :: rest => (display indent item).lines indent ++ displayItems indent rest

end

/-! ## The command -/

structure ReadRequest where
  schema : String
  typeName : String
  hex : Option String
  file : Option String
  offset : UInt64
  platform : Platform
  json : Bool
  deriving DecidableEq, Repr

namespace ReadRequest

/-- Hexadecimal text goes before a file; without either the buffer is empty. -/
def buffer (request : ReadRequest) (files : Files) : Except Error Buffer :=
  match request.hex, request.file with
  | some text, _ => Buffer.ofHex text
  | none, some path =>
      match files path with
      | some bytes => .ok bytes
      | none => .error (.file .missing)
  | none, none => .ok #[]

def render (request : ReadRequest) (size : UInt64) (value : Value) : String :=
  if request.json then
    documentLines (.object [("type", .string request.typeName),
      ("target", .string request.platform.id), ("offset", wordDocument request.offset),
      ("size", wordDocument size), ("value", value.toDocument)])
  else
    lines (["type: " ++ request.typeName, "target: " ++ request.platform.id,
      "offset: " ++ wordText request.offset, "size: " ++ wordText size, "value:"] ++
      (display 0 value).lines 0)

/-- What the command prints; none if the read has no end. -/
def run (request : ReadRequest) (files : Files) : Option (Except Error String) :=
  let start : Except Error (Context × Buffer × UInt64) := do
    let context ← loadContext files request.schema request.platform
    let buffer ← request.buffer files
    let size ← context.sizeOf request.typeName
    pure (context, buffer, size)
  match start with
  | .error failure => some (.error failure)
  | .ok (context, buffer, size) => do
      let value ← context.read request.typeName buffer request.offset
      pure (value.map (request.render size))

end ReadRequest

end Command

end BinarySchema
