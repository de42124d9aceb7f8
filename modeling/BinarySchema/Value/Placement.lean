import BinarySchema.Value.Basic

/-!
# Placing values

Moving a value moves everything inside it: slots to their places in the layout of the struct, the
active slot of a union to the union's own place, elements to consecutive places.  A move that fails
has changed offsets only.
-/

namespace BinarySchema.Value

mutual

def moveTo (context : Context) (offset : UInt64) : Value → Update Value
  | .scalar record _ content => .done (.scalar record offset content)
  | .struct record _ slots =>
      match context.slotPlacements record with
      | .ok placements =>
          (moveSlots context offset placements slots).within (.struct record offset)
      | .error failure => .failed (.struct record offset slots) failure
  | .union record _ none => .done (.union record offset none)
  | .union record _ (some (name, child)) =>
      (moveTo context offset child).within fun moved => .union record offset (some (name, moved))
  | .array record _ [] => .done (.array record offset [])
  | .array record _ (first :: rest) =>
      match record.elementName with
      | .error failure => .failed (.array record offset (first :: rest)) failure
      | .ok element =>
          match context.sizeOf element with
          | .ok stride =>
              (moveItems context offset stride 0 (first :: rest)).within (.array record offset)
          | .error failure => .failed (.array record offset (first :: rest)) failure

def moveSlots (context : Context) (offset : UInt64) :
    List Placement → List (Option Value) → Update (List (Option Value))
  | _, [] => .done []
  | [], slots => .done slots
  | _ :: placements, none :: rest =>
      (moveSlots context offset placements rest).within (none :: ·)
  | placement :: placements, some child :: rest =>
      match addOffset offset placement.offset with
      | .ok start =>
          (moveTo context start child).followedBy rest some fun _ =>
            moveSlots context offset placements rest
      | .error failure => .failed (some child :: rest) failure

def moveItems (context : Context) (offset stride : UInt64) (index : Nat) :
    List Value → Update (List Value)
  | [] => .done []
  | item :: rest =>
      match elementOffset offset index stride with
      | .ok start =>
          (moveTo context start item).followedBy rest id fun _ =>
            moveItems context offset stride (index + 1) rest
      | .error failure => .failed (item :: rest) failure

end

/-- Makes `child` the content of a slot of `value` and places all parts anew. -/
def assign (context : Context) (name : String) (index : Nat) (value child : Value) :
    Update Value :=
  match value with
  | .struct record offset slots =>
      (Value.struct record offset (slots.set index (some child))).moveTo context offset
  | .union record offset _ =>
      (Value.union record offset (some (name, child))).moveTo context offset
  | value =>
      .failed value (.unsupportedOperation value.record.name value.record.kind .setSlot)

end BinarySchema.Value
