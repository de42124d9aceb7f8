import BinarySchema.Schema.Record

/-!
# Failures

One constructor per cause, with what a reader of the message has to know.
-/

namespace BinarySchema

/-- What a record was asked for when its kind could not answer. -/
inductive Request where
  | layout
  | size
  | create
  | encode
  deriving DecidableEq, Repr

def Request.label : Request → String
  | .layout => "lay out"
  | .size => "size"
  | .create => "create"
  | .encode => "encode"

/-- What was tried on a value of the wrong kind. -/
inductive Operation where
  | setSlot
  | push
  deriving DecidableEq, Repr

def Operation.label : Operation → String
  | .setSlot => "set_slot"
  | .push => "push"

/-- Outline of the material that a value is made from. -/
inductive Shape where
  | scalar
  | fields
  | items
  | nothing
  | value (kind : Kind)
  | documentAny
  | documentNull
  | documentString
  deriving DecidableEq, Repr

def Shape.label : Shape → String
  | .scalar => "scalar"
  | .fields => "fields"
  | .items => "items"
  | .nothing => "nothing"
  | .value kind => kind.label
  | .documentAny => "number, boolean, array, or object"
  | .documentNull => "null"
  | .documentString => "string"

inductive FileFailure where
  | missing
  | notText
  deriving DecidableEq, Repr

def FileFailure.message : FileFailure → String
  | .missing => "No such file or directory (os error 2)"
  | .notText => "stream did not contain valid UTF-8"

inductive Error where
  | file (failure : FileFailure)
  | jsonSchema
  | yamlSchema
  | unknownSchemaFormat (path : String)
  | unknownType (name : String)
  | unknownSlot (typeName slot : String)
  | missingArrayBase (name : String)
  | emptyUnion (typeName : String)
  | wrapMismatch (typeName : String) (expected got : Shape)
  | missingConstValue (name : String)
  | unsupportedKind (typeName : String) (kind : Kind) (request : Request)
  | unsupportedScalar (typeName : String) (representation : Representation) (width : UInt64)
  | missingRepresentation (typeName : String)
  | unsupportedOperation (typeName : String) (kind : Kind) (operation : Operation)
  | missingField (typeName slot : String)
  | unsetScalar (typeName : String)
  | noActiveSlot (typeName : String)
  | lengthMismatch (typeName : String) (expected : UInt64) (actual : Nat)
  | unknownLength (typeName : String)
  | arrayTooLarge (count limit : UInt64)
  | unknownPlatform (id : String)
  | depthExceeded (limit : Nat) (typeName : String)
  | bufferTooSmall (start need : UInt64) (size : Nat)
  | valueOutOfRange (typeName : String) (value : Scalar)
  | offsetOverflow (offset delta : UInt64)
  | invalidValue
  | invalidHex (text : String)
  deriving DecidableEq, Repr

inductive ErrorCategory where
  | schema
  | unsupportedKind
  | missingField
  | lengthMismatch
  | configuration
  | buffer
  | io
  deriving DecidableEq, Repr

namespace Error

def category : Error → ErrorCategory
  | .jsonSchema | .yamlSchema | .unknownSchemaFormat _ | .unknownType _ | .unknownSlot ..
  | .missingArrayBase _ | .emptyUnion _ | .wrapMismatch .. | .missingConstValue _ => .schema
  | .unsupportedKind .. | .unsupportedScalar .. | .missingRepresentation _
  | .unsupportedOperation .. => .unsupportedKind
  | .missingField .. | .unsetScalar _ | .noActiveSlot _ => .missingField
  | .lengthMismatch .. | .unknownLength _ | .arrayTooLarge .. => .lengthMismatch
  | .unknownPlatform _ | .depthExceeded .. => .configuration
  | .bufferTooSmall .. | .valueOutOfRange .. | .offsetOverflow .. => .buffer
  | .file _ | .invalidHex _ | .invalidValue => .io

/-- Faults inside a schema or value document are reported without their position. -/
def message : Error → String
  | .file failure => "io: " ++ failure.message
  | .jsonSchema => "json schema: malformed document"
  | .yamlSchema => "yaml schema: malformed document"
  | .unknownSchemaFormat path => "unknown schema format for " ++ path
  | .unknownType name => "unknown type: " ++ name
  | .unknownSlot typeName slot => "slot " ++ slot ++ " does not exist in type " ++ typeName
  | .missingArrayBase name => "array type " ++ name ++ " has no base element type"
  | .emptyUnion typeName => "union " ++ typeName ++ " declares no slots"
  | .wrapMismatch typeName expected got =>
      "cannot wrap " ++ got.label ++ " as " ++ typeName ++ " (expected " ++ expected.label ++ ")"
  | .missingConstValue name => "type " ++ name ++ " is not a constant with a value"
  | .unsupportedKind typeName kind request =>
      "cannot " ++ request.label ++ " type " ++ typeName ++ " of kind " ++ kind.label
  | .unsupportedScalar typeName representation width =>
      "unsupported scalar " ++ representation.label ++ " of " ++ toString width.toNat ++
        " bytes in " ++ typeName
  | .missingRepresentation typeName => "scalar type " ++ typeName ++ " has no repr"
  | .unsupportedOperation typeName kind operation =>
      operation.label ++ " is not supported on " ++ typeName ++ " of kind " ++ kind.label
  | .missingField typeName slot => "no value for field " ++ slot ++ " of " ++ typeName
  | .unsetScalar typeName => "scalar " ++ typeName ++ " has no value"
  | .noActiveSlot typeName => "union " ++ typeName ++ " has no active slot"
  | .lengthMismatch typeName expected actual =>
      "incorrect array length when writing " ++ typeName ++ ": expected " ++
        toString expected.toNat ++ ", got " ++ toString actual
  | .unknownLength typeName => "cannot read array " ++ typeName ++ " of unknown length"
  | .arrayTooLarge count limit =>
      "array too large: count=" ++ toString count.toNat ++ ", max=" ++ toString limit.toNat
  | .unknownPlatform id => "unknown platform: " ++ id
  | .depthExceeded limit typeName =>
      "type nesting depth exceeded (max=" ++ toString limit ++ ") at " ++ typeName
  | .bufferTooSmall start need size =>
      "buffer too small: access at " ++ toString start.toNat ++ " needs " ++
        toString need.toNat ++ " bytes, buffer holds " ++ toString size
  | .valueOutOfRange typeName value => "value " ++ value.text ++ " out of range for " ++ typeName
  | .offsetOverflow offset delta =>
      "offset overflow: " ++ toString offset.toNat ++ " + " ++ toString delta.toNat
  | .invalidValue => "invalid value input"
  | .invalidHex text => "invalid hex input: " ++ text

end Error

end BinarySchema
