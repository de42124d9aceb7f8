import BinarySchema.Codec
import BinarySchema.Json.Printer
import BinarySchema.Layout
import BinarySchema.Schema.Format

/-!
# Listing types

The command that lists the types of a schema with their sizes, or describes the layout of one type.
-/

namespace BinarySchema.Command

open Json (Document)

def lines (texts : List String) : String :=
  texts.foldl (fun text line => text ++ line ++ "\n") ""

def wordText (word : UInt64) : String :=
  String.ofList (Text.decimal word.toNat)

def wordDocument (word : UInt64) : Document :=
  .ofNat word.toNat

def documentLines (document : Document) : String :=
  document.indentedText ++ "\n"

def loadContext (files : Files) (schema : String) (platform : Platform) : Except Error Context :=
  match files.records schema with
  | .ok records => .ok (.ofRecords records platform {})
  | .error failure => .error failure

structure TypesRequest where
  schema : String
  typeName : Option String
  platform : Platform
  json : Bool
  deriving DecidableEq, Repr

namespace TypesRequest

/-- Constants have no size, and neither has a type whose size cannot be told. -/
def sizeOf? (context : Context) (record : TypeRecord) : Option UInt64 :=
  if record.kind = .const then none else (context.sizeOfRecord record).toOption

def rowText (context : Context) (record : TypeRecord) : String :=
  record.name ++ "\t" ++ record.kind.label ++ "\t" ++
    (sizeOf? context record).elim "-" wordText

def rowDocument (context : Context) (record : TypeRecord) : Document :=
  .object [("name", .string record.name), ("kind", .string record.kind.label),
    ("size", (sizeOf? context record).elim .null wordDocument)]

def list (request : TypesRequest) (context : Context) : String :=
  let records := context.registry.records
  if request.json then
    documentLines (.object [("schema", .string request.schema),
      ("target", .string context.platform.id), ("native_size", wordDocument context.wordSize),
      ("types", .array (records.map (rowDocument context)))])
  else
    lines (["schema: " ++ request.schema, "target: " ++ context.platform.id,
      "native_size: " ++ wordText context.wordSize, "types: " ++ toString records.length, "",
      "name\tkind\tsize"] ++ records.map (rowText context))

def describeConstant (request : TypesRequest) (record : TypeRecord) (value : Scalar) : String :=
  if request.json then
    documentLines (.object [("name", .string record.name), ("kind", .string record.kind.label),
      ("value", .string value.text)])
  else
    lines ["name: " ++ record.name, "kind: " ++ record.kind.label, "value: " ++ value.text]

def accessor? (record : TypeRecord) (size : UInt64) : Option String :=
  if record.kind.isScalar then
    match record.representation with
    | some representation =>
        (ScalarCodec.select? representation size record.order).map ScalarCodec.accessorName
    | none => none
  else none

def fieldText (field : Field) : String :=
  wordText field.offset ++ "\t" ++ wordText field.size ++ "\t" ++ field.name ++ "\t" ++
    field.typeName

def fieldDocument (field : Field) : Document :=
  .object [("name", .string field.name), ("type", .string field.typeName),
    ("offset", wordDocument field.offset), ("size", wordDocument field.size)]

def describeLayout (request : TypesRequest) (record : TypeRecord) (size : UInt64)
    (fields : List Field) : String :=
  let accessor := accessor? record size
  if request.json then
    documentLines (.object [("name", .string record.name), ("kind", .string record.kind.label),
      ("size", wordDocument size), ("packed", .bool record.packed),
      ("accessor", accessor.elim .null .string), ("fields", .array (fields.map fieldDocument))])
  else
    lines (["name: " ++ record.name, "kind: " ++ record.kind.label, "size: " ++ wordText size] ++
      (if record.packed then ["packed: true"] else []) ++
      (accessor.map fun name => "accessor: " ++ name).toList ++
      (if fields.isEmpty then []
        else ["", "offset\tsize\tname\ttype"] ++ fields.map fieldText))

def describe (request : TypesRequest) (context : Context) (name : String) :
    Except Error String := do
  let record ← context.require name
  if record.kind = .const then
    let value ← context.constant name
    pure (request.describeConstant record value)
  else
    let size ← context.sizeOf name
    let fields ← context.fields name
    pure (request.describeLayout record size fields)

def run (request : TypesRequest) (files : Files) : Except Error String := do
  let context ← loadContext files request.schema request.platform
  match request.typeName with
  | some name => request.describe context name
  | none => pure (request.list context)

end TypesRequest

end BinarySchema.Command
