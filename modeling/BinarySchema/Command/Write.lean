import BinarySchema.Command.Read

/-!
# Encoding a value

The command that makes a value of a named type from a JSON document and prints its bytes.
-/

namespace BinarySchema.Command

open Json (Document)

structure WriteRequest where
  schema : String
  typeName : String
  value : String
  platform : Platform
  json : Bool
  deriving DecidableEq, Repr

def valueOfText (context : Context) (record : TypeRecord) (text : String) :
    Except Error Value :=
  match Document.ofText? text with
  | none => .error .invalidValue
  | some document =>
      match Input.ofDocument document with
      | .ok input => Value.wrap context record input
      | .error failure => .error failure

/-- The bytes of a value in a buffer of its own that is just long enough. -/
def encode (context : Context) (value : Value) : Except Error Buffer := do
  let size ← value.encodedSize context
  (value.write context (Buffer.zeros size.toNat)).result

namespace WriteRequest

def render (request : WriteRequest) (buffer : Buffer) : String :=
  if request.json then
    documentLines (.object [("type", .string request.typeName),
      ("target", .string request.platform.id), ("size", .ofNat buffer.size),
      ("hex", .string buffer.toHex)])
  else lines [buffer.toHex]

def run (request : WriteRequest) (files : Files) : Except Error String := do
  let context ← loadContext files request.schema request.platform
  let record ← context.require request.typeName
  let value ← valueOfText context record request.value
  let buffer ← encode context value
  pure (request.render buffer)

end WriteRequest

end BinarySchema.Command
