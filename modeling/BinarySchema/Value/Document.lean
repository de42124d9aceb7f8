import BinarySchema.Json.Scalar
import BinarySchema.Value.Wrap

/-!
# Values and JSON documents

A document as material for a value, and a value as a document: objects stand for structs and
unions, arrays for arrays, numbers and truth values for scalars.
-/

namespace BinarySchema

/-- The name by which messages call a document that stands for no value. -/
def documentTypeName : String := "<json>"

namespace Input

mutual

def ofDocument : Json.Document → Except Error Input
  | .null => .error (.wrapMismatch documentTypeName .documentAny .documentNull)
  | .string _ => .error (.wrapMismatch documentTypeName .documentAny .documentString)
  | .bool flag => .ok (.scalar (.uint (if flag then 1 else 0)))
  | .number number => .ok (.scalar number.toScalar)
  | .array parts =>
      match listOf parts with
      | .ok inputs => .ok (.items inputs)
      | .error failure => .error failure
  | .object parts =>
      match fieldsOf parts with
      | .ok inputs => .ok (.fields inputs)
      | .error failure => .error failure

def listOf : List Json.Document → Except Error (List Input)
  | [] => .ok []
  | item :: rest => do
      let input ← ofDocument item
      let others ← listOf rest
      pure (input :: others)

def fieldsOf : List (String × Json.Document) → Except Error (List (String × Input))
  | [] => .ok []
  | (name, document) :: rest => do
      let input ← ofDocument document
      let others ← fieldsOf rest
      pure ((name, input) :: others)

end

end Input

namespace Value

mutual

/-- Unset scalars and slots and unions without an active slot become `null`. -/
def toDocument : Value → Json.Document
  | .scalar _ _ none => .null
  | .scalar _ _ (some content) => content.toDocument
  | .struct record _ slots =>
      .ofEntries ((record.entriesByName (slotDocuments slots)).map fun (name, document) =>
        (name, document.getD .null))
  | .union _ _ none => .null
  | .union _ _ (some (name, child)) => .object [(name, child.toDocument)]
  | .array _ _ items => .array (itemDocuments items)

def slotDocuments : List (Option Value) → List (Option Json.Document)
  | [] => []
  | none :: rest => none :: slotDocuments rest
  | some child :: rest => some child.toDocument :: slotDocuments rest

def itemDocuments : List Value → List Json.Document
  | [] => []
  | item :: rest => item.toDocument :: itemDocuments rest

end

end Value

end BinarySchema
