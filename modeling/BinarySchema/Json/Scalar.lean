import BinarySchema.Json.Document
import BinarySchema.Scalar

/-!
# Scalars as JSON numbers

A whole number becomes a signed scalar if it fits a signed word, else an unsigned one.
-/

namespace BinarySchema

def Json.Number.toScalar : Json.Number → Scalar
  | .integer whole => (Scalar.ofInteger? whole).getD (.float (.ofInt whole))
  | .float number => .float number

/-- Infinities and NaNs have no number and become `null`. -/
def Scalar.toDocument : Scalar → Json.Document
  | .int word => .number (.integer word.toInt)
  | .uint word => .number (.integer word.toNat)
  | .float number => .ofFloat number

end BinarySchema
