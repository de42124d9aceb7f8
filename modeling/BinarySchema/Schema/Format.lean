import BinarySchema.Buffer
import BinarySchema.Error
import BinarySchema.Schema.JsonRecord
import BinarySchema.Schema.YamlRecord
import BinarySchema.Text.Path

/-!
# Schema files

The extension of a file tells in which form its records are written.
-/

namespace BinarySchema

inductive SchemaFormat where
  | yaml
  | json
  deriving DecidableEq, Repr

namespace SchemaFormat

def ofPath? (path : String) : Option SchemaFormat :=
  match (Text.extension? path.toList).map String.ofList with
  | some extension =>
      if extension = "yaml" ∨ extension = "yml" then some .yaml
      else if extension = "json" then some .json
      else none
  | none => none

def records (format : SchemaFormat) (text : String) : Except Error (List TypeRecord) :=
  match format with
  | .yaml =>
      match Schema.recordsOfYaml? text with
      | some records => .ok records
      | none => .error .yamlSchema
  | .json =>
      match Schema.recordsOfJson? text with
      | some records => .ok records
      | none => .error .jsonSchema

end SchemaFormat

/-! ## Files -/

abbrev Files := String → Option Buffer

def Files.ofList (entries : List (String × Buffer)) : Files :=
  fun path => entries.lookup (String.ofList (Text.withoutDots path.toList))

/-- Byte sequences that are not text have no schema. -/
def Files.text (files : Files) (path : String) : Except Error String :=
  match files path with
  | none => .error (.file .missing)
  | some bytes =>
      match String.fromUTF8? ⟨bytes⟩ with
      | some text => .ok text
      | none => .error (.file .notText)

/-- The records of a schema file; the form is settled before the file is looked at. -/
def Files.records (files : Files) (path : String) : Except Error (List TypeRecord) :=
  match SchemaFormat.ofPath? path with
  | none => .error (.unknownSchemaFormat path)
  | some format =>
      match files.text path with
      | .ok text => format.records text
      | .error failure => .error failure

end BinarySchema
