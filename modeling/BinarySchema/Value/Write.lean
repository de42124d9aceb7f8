import BinarySchema.Value.Basic
import BinarySchema.Codec

/-!
# Writing values

A value is written scalar by scalar in declaration order, each at its own place.  A write that fails
midway leaves the bytes written so far.
-/

namespace BinarySchema

def Context.scalarCodec (context : Context) (record : TypeRecord) : Except Error ScalarCodec :=
  match record.representation with
  | none => .error (.missingRepresentation record.name)
  | some representation =>
      match record.size with
      | none => .error (.unsupportedKind record.name record.kind .encode)
      | some size =>
          let width := match size with
            | .bytes count => count
            | .native => context.wordSize
          match ScalarCodec.select? representation width record.order with
          | some codec => .ok codec
          | none => .error (.unsupportedScalar record.name representation width)

namespace Value

def writeScalar (context : Context) (record : TypeRecord) (offset : UInt64) (content : Scalar)
    (buffer : Buffer) : Update Buffer :=
  match context.scalarCodec record with
  | .error failure => .failed buffer failure
  | .ok codec =>
      match codec.write buffer offset content record.name with
      | .ok written => .done written
      | .error failure => .failed buffer failure

mutual

def write (context : Context) (buffer : Buffer) : Value → Update Buffer
  | .scalar record _ none => .failed buffer (.unsetScalar record.name)
  | .scalar record offset (some content) => writeScalar context record offset content buffer
  | .struct record _ slots => writeSlots context record.name buffer record.slots slots
  | .union record _ none => .failed buffer (.noActiveSlot record.name)
  | .union _ _ (some (_, child)) => write context buffer child
  | .array record _ items =>
      match record.length with
      | some length =>
          if length.toNat = items.length then writeItems context buffer items
          else .failed buffer (.lengthMismatch record.name length items.length)
      | none => writeItems context buffer items

def writeSlots (context : Context) (typeName : String) (buffer : Buffer) :
    List Slot → List (Option Value) → Update Buffer
  | slot :: _, none :: _ => .failed buffer (.missingField typeName slot.name)
  | _ :: slots, some child :: rest =>
      let written := write context buffer child
      match written.outcome with
      | .ok () => writeSlots context typeName written.left slots rest
      | .error _ => written
  | [], _ => .done buffer
  | _, [] => .done buffer

def writeItems (context : Context) (buffer : Buffer) : List Value → Update Buffer
  | [] => .done buffer
  | item :: rest =>
      let written := write context buffer item
      match written.outcome with
      | .ok () => writeItems context written.left rest
      | .error _ => written

end

/-! ## Room needed -/

/-- The greatest of `reached` and the ends of the parts that are there. -/
def furthest (reached : UInt64) : List (Option (Except Error UInt64)) → Except Error UInt64
  | [] => .ok reached
  | none :: rest => furthest reached rest
  | some (.error failure) :: _ => .error failure
  | some (.ok stop) :: rest => furthest (max reached stop) rest

mutual

def stop (context : Context) : Value → Except Error UInt64
  | .scalar record offset _ => do
      let size ← context.sizeOfRecord record
      addOffset offset size
  | .struct record offset slots =>
      furthest offset ((record.entriesByName (slotStops context slots)).map Prod.snd)
  | .union _ offset none => .ok offset
  | .union _ offset (some (_, child)) => furthest offset [some (stop context child)]
  | .array _ offset items => furthest offset (itemStops context items)

def slotStops (context : Context) :
    List (Option Value) → List (Option (Except Error UInt64))
  | [] => []
  | none :: rest => none :: slotStops context rest
  | some child :: rest => some (stop context child) :: slotStops context rest

def itemStops (context : Context) : List Value → List (Option (Except Error UInt64))
  | [] => []
  | item :: rest => some (stop context item) :: itemStops context rest

end

/-- The size of the type, or more where open arrays reach beyond it. -/
def encodedSize (context : Context) (value : Value) : Except Error UInt64 := do
  let declared ← context.sizeOfRecord value.record
  let reached ← value.stop context
  pure (max declared (if value.offset ≤ reached then reached - value.offset else 0))

end Value

end BinarySchema
